import Janadinite.Parse.ConstantPool

namespace Janadinite
open Bytes Codec ClassDecode ClassEncode
set_option autoImplicit true

structure AttributeInfo where
  attributeNameIndex : UInt16
  info : List UInt8
  deriving DecidableEq, Repr

structure FieldInfo where
  accessFlags : UInt16
  nameIndex : UInt16
  descriptorIndex : UInt16
  attributes : List AttributeInfo
  deriving DecidableEq, Repr

structure MethodInfo where
  accessFlags : UInt16
  nameIndex : UInt16
  descriptorIndex : UInt16
  attributes : List AttributeInfo
  deriving DecidableEq, Repr

structure RawClassFile where
  magic : UInt32
  minorVersion : UInt16
  majorVersion : UInt16
  constantPool : List ConstantPoolEntry
  accessFlags : UInt16
  thisClass : UInt16
  superClass : UInt16
  interfaces : List UInt16
  fields : List FieldInfo
  methods : List MethodInfo
  attributes : List AttributeInfo
  deriving DecidableEq, Repr

instance : ClassDecode AttributeInfo where
  decodeFrom := do
    let attributeNameIndex ← readU16
    let attributeLength ← readU32
    let info ← decodeN UInt8 attributeLength.toNat
    pure { attributeNameIndex, info }

instance : ClassEncode AttributeInfo where
  encodeInto attr := do
    writeU16 attr.attributeNameIndex
    writeU32 (UInt32.ofNat attr.info.length)
    ClassWriter.writeNextExact attr.info

instance : ClassDecode FieldInfo where
  decodeFrom := do
    let accessFlags ← readU16
    let nameIndex ← readU16
    let descriptorIndex ← readU16
    let attributesCount ← readU16
    let attributes ← decodeN AttributeInfo attributesCount.toNat
    pure { accessFlags, nameIndex, descriptorIndex, attributes }

instance : ClassEncode FieldInfo where
  encodeInto field := do
    writeU16 field.accessFlags
    writeU16 field.nameIndex
    writeU16 field.descriptorIndex
    writeU16 (UInt16.ofNat field.attributes.length)
    encodeItems field.attributes

instance : ClassDecode MethodInfo where
  decodeFrom := do
    let accessFlags ← readU16
    let nameIndex ← readU16
    let descriptorIndex ← readU16
    let attributesCount ← readU16
    let attributes ← decodeN AttributeInfo attributesCount.toNat
    pure { accessFlags, nameIndex, descriptorIndex, attributes }

instance : ClassEncode MethodInfo where
  encodeInto meth := do
    writeU16 meth.accessFlags
    writeU16 meth.nameIndex
    writeU16 meth.descriptorIndex
    writeU16 (UInt16.ofNat meth.attributes.length)
    encodeItems meth.attributes

/-- What `index` advances by past an entry. -/
def ConstantPoolEntry.width (entry : ConstantPoolEntry) : UInt16 := if entry.isWide then 2 else 1

/-- What is pushed for an entry: the slot after an eight-byte constant is unusable. -/
def ConstantPoolEntry.slots (entry : ConstantPoolEntry) : List ConstantPoolEntry :=
  if entry.isWide then [entry, .unusable] else [entry]

theorem ConstantPoolEntry.one_le_width (entry : ConstantPoolEntry) : 1 ≤ entry.width.toNat := by
  unfold width
  split <;> decide

/-- `{:#010X}`. -/
def hexUpper (n : UInt32) : String :=
  let digits := (Nat.toDigits 16 n.toNat).map Char.toUpper
  String.ofList (['0', 'x'] ++ List.replicate (8 - digits.length) '0' ++ digits)

section
variable [Mutf8]

/-- Where the loop over the pool stops: at its end, or past an entry at which the `u16` index has
wrapped around. -/
inductive PoolPass
  | done (constantPool : List ConstantPoolEntry)
  | wrapped (index : UInt16) (constantPool : List ConstantPoolEntry)

/-- The `while index < constant_pool_count` loop up to the first overflow of its index. -/
def decodePass {R : Type} [ClassReader R] (constantPoolCount index : UInt16)
    (constantPool : List ConstantPoolEntry) : Io R PoolPass :=
  if index < constantPoolCount then do
    let entry ← ConstantPoolEntry.decodeFrom
    if index.toNat + entry.width.toNat < 65536 then
      decodePass constantPoolCount (index + entry.width) (constantPool ++ entry.slots)
    else pure (.wrapped (index + entry.width) (constantPool ++ entry.slots))
  else pure (.done constantPool)
termination_by constantPoolCount.toNat - index.toNat
decreasing_by
  have hw := entry.one_le_width
  rename_i hi _
  rw [UInt16.lt_iff_toNat_lt] at hi
  rw [UInt16.toNat_add]
  omega

def PoolPass.checked {R : Type} : PoolPass → Io R (List ConstantPoolEntry)
  | .done constantPool => pure constantPool
  | .wrapped _ _ => throw (.panic "attempt to add with overflow")

/-- The loop in a build with overflow checks. Any reader will do, also one without an end. -/
def decodePool {R : Type} [ClassReader R] (constantPoolCount index : UInt16)
    (constantPool : List ConstantPoolEntry) : Io R (List ConstantPoolEntry) := do
  let pass ← decodePass constantPoolCount index constantPool
  pass.checked

theorem decodePool_eq {R : Type} [ClassReader R] (count index : UInt16)
    (pool : List ConstantPoolEntry) :
    decodePool (R := R) count index pool = if index < count then do
        let entry ← ConstantPoolEntry.decodeFrom
        if index.toNat + entry.width.toNat < 65536 then
          decodePool count (index + entry.width) (pool ++ entry.slots)
        else throw (.panic "attempt to add with overflow")
      else pure pool := by
  unfold decodePool
  rw [decodePass]
  by_cases hi : index < count
  · rw [if_pos hi, if_pos hi, bind_assoc]
    congr 1
    funext entry
    by_cases hfit : index.toNat + entry.width.toNat < 65536
    · rw [if_pos hfit, if_pos hfit]
    · rw [if_neg hfit, if_neg hfit, pure_bind]
      rfl
  · rw [if_neg hi, if_neg hi, pure_bind]
    rfl

/-- The part of `decode_from` after the pool. -/
def RawClassFile.decodeMembers {R : Type} [ClassReader R] (magic : UInt32)
    (minorVersion majorVersion : UInt16) (constantPool : List ConstantPoolEntry) :
    Io R RawClassFile := do
  let accessFlags ← readU16
  let thisClass ← readU16
  let superClass ← readU16
  let interfacesCount ← readU16
  let interfaces ← decodeN UInt16 interfacesCount.toNat
  let fieldsCount ← readU16
  let fields ← decodeN FieldInfo fieldsCount.toNat
  let methodsCount ← readU16
  let methods ← decodeN MethodInfo methodsCount.toNat
  let attributesCount ← readU16
  let attributes ← decodeN AttributeInfo attributesCount.toNat
  pure {
    magic, minorVersion, majorVersion, constantPool, accessFlags, thisClass, superClass,
    interfaces, fields, methods, attributes }

/-- `decode_from` in a build with overflow checks. -/
def RawClassFile.decodeFrom {R : Type} [ClassReader R] : Io R RawClassFile := do
  let magic ← readU32
  if magic ≠ 0xCAFEBABE then
    throw (.error (.new .invalidData s!"Invalid magic number ({hexUpper magic})"))
  let minorVersion ← readU16
  let majorVersion ← readU16
  let constantPoolCount ← readU16
  let constantPool ← decodePool constantPoolCount 1 [.unusable]
  decodeMembers magic minorVersion majorVersion constantPool

/-- The part of `encode_into` after the pool. -/
def RawClassFile.encodeMembers {W : Type} [ClassWriter W] (raw : RawClassFile) : Io W PUnit := do
  writeU16 raw.accessFlags
  writeU16 raw.thisClass
  writeU16 raw.superClass
  writeU16 (UInt16.ofNat raw.interfaces.length)
  encodeItems raw.interfaces
  writeU16 (UInt16.ofNat raw.fields.length)
  encodeItems raw.fields
  writeU16 (UInt16.ofNat raw.methods.length)
  encodeItems raw.methods
  writeU16 (UInt16.ofNat raw.attributes.length)
  encodeItems raw.attributes

def RawClassFile.encodeInto {W : Type} [ClassWriter W] (raw : RawClassFile) : Io W PUnit := do
  writeU32 raw.magic
  writeU16 raw.minorVersion
  writeU16 raw.majorVersion
  -- `saturating_sub(1)`: the slot at index 0 is left out of the count
  writeU16 (UInt16.ofNat (raw.constantPool.length - 1))
  encodeItems raw.constantPool
  raw.encodeMembers

instance : ClassDecode RawClassFile := ⟨RawClassFile.decodeFrom⟩
instance : ClassEncode RawClassFile := ⟨RawClassFile.encodeInto⟩

end

end Janadinite
