import Janadinite.Parse.Io

namespace Janadinite
open Bytes Codec ClassDecode ClassEncode
set_option autoImplicit true

/-- The modified UTF-8 codec of `simd_cesu8`. -/
class Mutf8 where
  encode : String → List UInt8
  decodeStrict : List UInt8 → Option String

/-- A `constant_pool` entry, discriminated by its tag byte. -/
inductive ConstantPoolEntry where
  | class (nameIndex : UInt16)
  | fieldref (classIndex nameAndTypeIndex : UInt16)
  | methodref (classIndex nameAndTypeIndex : UInt16)
  | interfaceMethodref (classIndex nameAndTypeIndex : UInt16)
  | string (stringIndex : UInt16)
  | integer (bytes : UInt32)
  | float (value : F32)
  | long (bytes : UInt64)
  | double (value : F64)
  | nameAndType (nameIndex descriptorIndex : UInt16)
  | utf8 (string : String)
  | methodHandle (referenceKind : UInt8) (referenceIndex : UInt16)
  | methodType (descriptorIndex : UInt16)
  | invokeDynamic (bootstrapMethodAttrIndex nameAndTypeIndex : UInt16)
  | unusable
  deriving DecidableEq, Repr

def readIndexPair [ClassReader R] (entry : UInt16 → UInt16 → ConstantPoolEntry) :
    Io R ConstantPoolEntry := do
  let first ← readU16
  let second ← readU16
  pure (entry first second)

def writeIndexPair [ClassWriter W] (tag : UInt8) (first second : UInt16) : Io W PUnit := do
  writeU8 tag
  writeU16 first
  writeU16 second

section
variable [Mutf8]

/-- The `match tag` of `decode_from`. -/
def ConstantPoolEntry.decodeTagged {R : Type} [ClassReader R] (tag : UInt8) :
    Io R ConstantPoolEntry :=
  match tag.toNat with
  | 1 => do
    let len ← readU16
    let bytes ← decodeN UInt8 len.toNat
    match Mutf8.decodeStrict bytes with
    | some str => pure (.utf8 str)
    | none => throw (invalidData "Invalid MUTF8")
  | 3 => do let bytes ← readU32; pure (.integer bytes)
  | 4 => do let value ← ClassDecode.decodeFrom; pure (.float value)
  | 5 => do let bytes ← readU64; pure (.long bytes)
  | 6 => do let value ← ClassDecode.decodeFrom; pure (.double value)
  | 7 => do let nameIndex ← readU16; pure (.class nameIndex)
  | 8 => do let stringIndex ← readU16; pure (.string stringIndex)
  | 9 => readIndexPair .fieldref
  | 10 => readIndexPair .methodref
  | 11 => readIndexPair .interfaceMethodref
  | 12 => readIndexPair .nameAndType
  | 15 => do
    let referenceKind ← readU8
    let referenceIndex ← readU16
    pure (.methodHandle referenceKind referenceIndex)
  | 16 => do let descriptorIndex ← readU16; pure (.methodType descriptorIndex)
  | 18 => readIndexPair .invokeDynamic
  | _ => throw (.error (.new .invalidData s!"Invalid Constant Pool tag ({tag})"))

def ConstantPoolEntry.decodeFrom {R : Type} [ClassReader R] : Io R ConstantPoolEntry := do
  let tag ← readU8
  decodeTagged tag

def ConstantPoolEntry.encodeInto {W : Type} [ClassWriter W] : ConstantPoolEntry → Io W PUnit
  | .utf8 str => do
    writeU8 1
    let bytes := Mutf8.encode str
    if bytes.length ≥ 65536 then throw (invalidData "UTF8 constant exceeds 65535 bytes")
    writeU16 (UInt16.ofNat bytes.length)
    ClassWriter.writeNextExact bytes
  | .integer bytes => do writeU8 3; writeU32 bytes
  | .float value => do writeU8 4; ClassEncode.encodeInto value
  | .long bytes => do writeU8 5; writeU64 bytes
  | .double value => do writeU8 6; ClassEncode.encodeInto value
  | .class nameIndex => do writeU8 7; writeU16 nameIndex
  | .string stringIndex => do writeU8 8; writeU16 stringIndex
  | .fieldref classIndex nameAndTypeIndex => writeIndexPair 9 classIndex nameAndTypeIndex
  | .methodref classIndex nameAndTypeIndex => writeIndexPair 10 classIndex nameAndTypeIndex
  | .interfaceMethodref classIndex nameAndTypeIndex =>
    writeIndexPair 11 classIndex nameAndTypeIndex
  | .nameAndType nameIndex descriptorIndex => writeIndexPair 12 nameIndex descriptorIndex
  | .methodHandle referenceKind referenceIndex => do
    writeU8 15
    writeU8 referenceKind
    writeU16 referenceIndex
  | .methodType descriptorIndex => do writeU8 16; writeU16 descriptorIndex
  | .invokeDynamic bootstrapMethodAttrIndex nameAndTypeIndex =>
    writeIndexPair 18 bootstrapMethodAttrIndex nameAndTypeIndex
  | .unusable => pure ⟨⟩

instance : ClassDecode ConstantPoolEntry := ⟨ConstantPoolEntry.decodeFrom⟩
instance : ClassEncode ConstantPoolEntry := ⟨ConstantPoolEntry.encodeInto⟩

end

def ConstantPoolEntry.isWide : ConstantPoolEntry → Bool
  | .long _ | .double _ => true
  | _ => false

end Janadinite
