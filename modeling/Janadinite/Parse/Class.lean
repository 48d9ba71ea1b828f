import Janadinite.Parse.Raw
import Janadinite.Parse.OpCode

namespace Janadinite
open ClassDecode
set_option autoImplicit true

/-- Access permissions to and properties of a class or member, as a mask. -/
structure JVMAccessFlag where
  bits : UInt16
  deriving DecidableEq, Repr

namespace JVMAccessFlag

def accPublic : JVMAccessFlag := ⟨0x0001⟩
def accPrivate : JVMAccessFlag := ⟨0x0002⟩
def accStatic : JVMAccessFlag := ⟨0x0008⟩
def accNative : JVMAccessFlag := ⟨0x0100⟩
def accAbstract : JVMAccessFlag := ⟨0x0400⟩

def contains (flags other : JVMAccessFlag) : Bool := flags.bits &&& other.bits == other.bits

end JVMAccessFlag

structure ExceptionTableEntry where
  startPc : UInt16
  endPc : UInt16
  handlerPc : UInt16
  catchType : UInt16
  deriving DecidableEq, Repr

instance : ClassDecode ExceptionTableEntry where
  decodeFrom := do
    let startPc ← readU16
    let endPc ← readU16
    let handlerPc ← readU16
    let catchType ← readU16
    pure { startPc, endPc, handlerPc, catchType }

mutual

structure JVMCode where
  maxLocals : UInt16
  maxStack : UInt16
  code : List UInt8
  exceptionTable : List ExceptionTableEntry
  attributes : List JVMAttribute

inductive JVMAttribute where
  | code (code : JVMCode)
  | unknown (name : String) (info : List UInt8)

end

def JVMCode.instructions (code : JVMCode) : Instructions := ⟨code.code, 0⟩

/-- The macro `get_const!`: the fields of the entry at an index, when it is of the variant named. -/
def getConst (variant : String) (pick : ConstantPoolEntry → Option α)
    (pool : List ConstantPoolEntry) (idx : UInt16) (targetName : String) : Except Fault α :=
  match (pool[idx.toNat]?).bind pick with
  | some fields => .ok fields
  | none => .error (invalidData
      (targetName ++ " expected " ++ variant ++ " at a valid index in the constant pool"))

namespace ConstantPoolEntry

def utf8? : ConstantPoolEntry → Option String
  | .utf8 str => some str
  | _ => none

def class? : ConstantPoolEntry → Option UInt16
  | .class nameIndex => some nameIndex
  | _ => none

def nameAndType? : ConstantPoolEntry → Option (UInt16 × UInt16)
  | .nameAndType nameIndex descriptorIndex => some (nameIndex, descriptorIndex)
  | _ => none

end ConstantPoolEntry

def getUtf8 := getConst "Utf8" ConstantPoolEntry.utf8?
def getClassConst := getConst "Class" ConstantPoolEntry.class?
def getNameAndTypeConst := getConst "NameAndType" ConstantPoolEntry.nameAndType?

/-- `JVMAttribute::parse`. An attribute nested in a `Code` attribute is shorter than it, so a depth
of the attribute's length is never used up. -/
def JVMAttribute.parseNested : Nat → AttributeInfo → List ConstantPoolEntry →
    Except Fault JVMAttribute
  | 0, _, _ => .error unexpectedEof
  | depth + 1, attr, constantPool => do
    let name ← getUtf8 constantPool attr.attributeNameIndex "Attribute name"
    if name = "Code" then
      let reader : Io ClassByteReader JVMAttribute := do
        let maxStack ← readU16
        let maxLocals ← readU16
        let codeLength ← readU32
        let code ← decodeN UInt8 codeLength.toNat
        let exceptionTableLength ← readU16
        let exceptionTable ← decodeN ExceptionTableEntry exceptionTableLength.toNat
        let attributesCount ← readU16
        let attributes ← parseItems depth constantPool attributesCount.toNat
        pure (.code { maxLocals, maxStack, code, exceptionTable, attributes })
      let (parsed, _) ← reader attr.info
      pure parsed
    else pure (.unknown name attr.info)
where
  parseItems (depth : Nat) (constantPool : List ConstantPoolEntry) :
      Nat → Io ClassByteReader (List JVMAttribute)
    | 0 => pure []
    | n + 1 => do
      let rawAttr : AttributeInfo ← decodeFrom
      let parsed ← (parseNested depth rawAttr constantPool : Except Fault JVMAttribute)
      let rest ← parseItems depth constantPool n
      pure (parsed :: rest)

def JVMAttribute.parse (attr : AttributeInfo) (constantPool : List ConstantPoolEntry) :
    Except Fault JVMAttribute :=
  parseNested (attr.info.length + 1) attr constantPool

inductive FieldDescriptor where
  | int
  | long
  | bool
  | char
  | byte
  | short
  | float
  | double
  | object (className : String)
  | array
  deriving DecidableEq, Repr

def FieldDescriptor.slotCount : FieldDescriptor → Nat
  | .long => 2
  | .double => 2
  | _ => 1

/-- The descriptors the iterator yields before it ends. Within an object type, `name` holds the
characters of the class name read so far, last one first. -/
def FieldDescriptor.fromChars (name : Option (List Char)) : List Char → List FieldDescriptor
  | [] => []
  | c :: data =>
    match name with
    | some name =>
      if c = ';' then .object (String.ofList name.reverse) :: fromChars none data
      else fromChars (some (c :: name)) data
    | none =>
      match c with
      | 'I' => .int :: fromChars none data
      | 'J' => .long :: fromChars none data
      | 'D' => .double :: fromChars none data
      | 'F' => .float :: fromChars none data
      | 'S' => .short :: fromChars none data
      | 'C' => .char :: fromChars none data
      | 'B' => .byte :: fromChars none data
      | 'Z' => .bool :: fromChars none data
      | 'L' => fromChars (some []) data
      | '[' => .array :: fromChars none data
      | _ => []

def FieldDescriptor.fromStr (s : String) : List FieldDescriptor := fromChars none s.toList

structure MethodDescriptor where
  args : List Char
  ret : List Char
  deriving DecidableEq, Repr

/-- The pieces of the string between parentheses: the second one, then the third. -/
def MethodDescriptor.new (desc : String) : MethodDescriptor :=
  let split := desc.toList.splitOnP fun c => ['(', ')'].contains c
  ⟨split.getD 1 [], split.getD 2 []⟩

/-- The items of an argument list. `item` holds the characters of the current one, last one first:
its brackets, and once `object` is set those of an object type up to the semicolon. -/
def MethodDescriptor.argItems (item : List Char) (object : Bool) : List Char → List (List Char)
  | [] => []
  | c :: data =>
    if object then
      if c = ';' then (c :: item).reverse :: argItems [] false data
      else argItems (c :: item) true data
    else if c = '[' then argItems (c :: item) false data
    else if c = 'L' then argItems (c :: item) true data
    else (c :: item).reverse :: argItems [] false data

def MethodDescriptor.argsDescriptors (desc : MethodDescriptor) : List (List FieldDescriptor) :=
  (argItems [] false desc.args).map (FieldDescriptor.fromChars none)

def firstSlotCount (descs : List FieldDescriptor) : Nat :=
  (descs.head?.map FieldDescriptor.slotCount).getD 0

def MethodDescriptor.argsSize (desc : MethodDescriptor) : Nat :=
  (desc.argsDescriptors.map firstSlotCount).sum

structure JVMField where
  name : String
  descriptor : String
  slotCount : Nat
  accessFlags : JVMAccessFlag
  attributes : List JVMAttribute

def JVMField.isStatic (field : JVMField) : Bool := field.accessFlags.contains .accStatic

def JVMField.parse (info : FieldInfo) (constantPool : List ConstantPoolEntry) :
    Except Fault JVMField := do
  let name ← getUtf8 constantPool info.nameIndex "Field name"
  let descriptor ← getUtf8 constantPool info.descriptorIndex "Field descriptor"
  let attributes ← info.attributes.mapM fun attr => JVMAttribute.parse attr constantPool
  pure {
    name, descriptor, attributes, slotCount := firstSlotCount (FieldDescriptor.fromStr descriptor),
    accessFlags := ⟨info.accessFlags⟩ }

structure JVMMethod where
  name : String
  descriptor : String
  argsSize : Nat
  accessFlags : JVMAccessFlag
  code : Option JVMCode
  attributes : List JVMAttribute

def JVMMethod.isStatic (method : JVMMethod) : Bool := method.accessFlags.contains .accStatic

def JVMMethod.parseAttributes (accessFlags : JVMAccessFlag)
    (constantPool : List ConstantPoolEntry) :
    List AttributeInfo → Option JVMCode → List JVMAttribute →
      Except Fault (Option JVMCode × List JVMAttribute)
  | [], code, attributes => .ok (code, attributes)
  | attr :: attrs, code, attributes => do
    match ← JVMAttribute.parse attr constantPool with
    | .code attrCode =>
      if accessFlags.contains .accAbstract || accessFlags.contains .accNative then
        throw (invalidData "Native and abstract methods must not have code")
      if code.isSome then throw (invalidData "More the one code attribute in method")
      parseAttributes accessFlags constantPool attrs (some attrCode) attributes
    | parsed => parseAttributes accessFlags constantPool attrs code (attributes ++ [parsed])

def JVMMethod.parse (info : MethodInfo) (constantPool : List ConstantPoolEntry) :
    Except Fault JVMMethod := do
  let name ← getUtf8 constantPool info.nameIndex "Method name"
  let descriptor ← getUtf8 constantPool info.descriptorIndex "Method descriptor"
  let accessFlags : JVMAccessFlag := ⟨info.accessFlags⟩
  let (code, attributes) ← parseAttributes accessFlags constantPool info.attributes none []
  pure {
    name, descriptor, code, attributes, accessFlags,
    argsSize := (MethodDescriptor.new descriptor).argsSize }

structure Class where
  thisName : String
  superName : String
  minorVersion : UInt16
  majorVersion : UInt16
  accessFlags : JVMAccessFlag
  constantPool : List ConstantPoolEntry
  methods : List JVMMethod
  fields : List JVMField
  attributes : List JVMAttribute

def Class.parse (raw : RawClassFile) : Except Fault Class := do
  let constantPool := raw.constantPool
  let thisClass ← getClassConst constantPool raw.thisClass "this_class"
  let superClass ← getClassConst constantPool raw.superClass "super_class"
  let thisName ← getUtf8 constantPool thisClass "this_class name"
  let superName ← getUtf8 constantPool superClass "super_class name"
  let attributes ← raw.attributes.mapM fun attr => JVMAttribute.parse attr constantPool
  let methods ← raw.methods.mapM fun meth => JVMMethod.parse meth constantPool
  let fields ← raw.fields.mapM fun field => JVMField.parse field constantPool
  pure {
    thisName, superName, constantPool, methods, fields, attributes,
    minorVersion := raw.minorVersion, majorVersion := raw.majorVersion,
    accessFlags := ⟨raw.accessFlags⟩ }

def Class.decode [Mutf8] {R : Type} [ClassReader R] : Io R Class := do
  let rawClass ← RawClassFile.decodeFrom
  (Class.parse rawClass : Except Fault Class)

end Janadinite
