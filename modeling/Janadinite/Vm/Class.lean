import Janadinite.Parse.Class
import Janadinite.Vm.Slot

namespace Janadinite
set_option autoImplicit true

abbrev FieldOff := UInt16

/-- A loaded class, by its place among all classes made so far. -/
abbrev ClassRef := Nat

inductive MethodID where
  | static (idx : UInt16)
  | vtable (idx : UInt16)
  deriving DecidableEq, Repr

structure NonZeroU16 where
  val : UInt16
  ne_zero : val ≠ 0
  deriving DecidableEq, Repr

namespace NonZeroU16

def one : NonZeroU16 := ⟨1, by decide⟩

def two : NonZeroU16 := ⟨2, by decide⟩

def saturatingSucc (n : NonZeroU16) : NonZeroU16 :=
  if h : n.val + 1 = 0 then n else ⟨n.val + 1, h⟩

end NonZeroU16

inductive PrimitiveArrayType where
  | bool
  | char
  | float
  | double
  | byte
  | short
  | int
  | long
  deriving DecidableEq, Repr

namespace PrimitiveArrayType

def slotCount : PrimitiveArrayType → NonZeroU16
  | .double => .two
  | .long => .two
  | _ => .one

def fromRaw (raw : UInt8) : Option PrimitiveArrayType :=
  match raw.toNat with
  | 4 => some .bool
  | 5 => some .char
  | 6 => some .float
  | 7 => some .double
  | 8 => some .byte
  | 9 => some .short
  | 10 => some .int
  | 11 => some .long
  | _ => none

end PrimitiveArrayType

/-- A run-time constant pool entry; the `resolved` cells are set at most once. -/
inductive VMConstantPoolEntry where
  | utf8 (str : String)
  | class (name : UInt16) (resolved : Option ClassRef)
  | primitiveArray (dimensions : NonZeroU16) (ty : PrimitiveArrayType)
  | resolvedClassArray (dimensions : NonZeroU16)
  | classArray (descriptor : UInt16) (dimensions : NonZeroU16) (resolvedClass : Option ClassRef)
  | nameAndType (name descriptor : UInt16)
  | methodRef (classIdx nameAndDesc : UInt16) (resolved : Option (ClassRef × MethodID))
  | resolvedMethod (id : MethodID)
  | resolvedField (off : FieldOff)
  | filedRef (classIdx nameAndDesc : UInt16) (resolved : Option (ClassRef × FieldOff))
  | int (value : Int32)
  | float (value : F32)
  | long (value : Int64)
  | double (value : F64)
  | unusable
  deriving DecidableEq, Repr

abbrev VMConstantPool := List VMConstantPoolEntry

inductive FieldData where
  | normal (off : UInt32)
  | static (slots : List JVMSlot)
  deriving DecidableEq, Repr

structure VMField where
  idx : FieldOff
  data : FieldData
  field : JVMField

namespace VMField

def objOff (f : VMField) : Option UInt32 :=
  match f.data with
  | .normal off => some off
  | .static _ => none

def off (f : VMField) : FieldOff := f.idx

end VMField

structure VMMethod where
  idx : UInt16
  method : JVMMethod

def VMMethod.id (m : VMMethod) : MethodID :=
  if m.method.isStatic then .static m.idx else .vtable m.idx

structure VMClass where
  name : String
  superClass : Option ClassRef
  vtable : List VMMethod
  staticVtable : List VMMethod
  fields : List VMField
  constantPool : VMConstantPool

namespace VMClass

def methodById (c : VMClass) : MethodID → Option VMMethod
  | .vtable v => c.vtable[v.toNat]?
  | .static v => c.staticVtable[v.toNat]?

def methodByName (c : VMClass) (name : String) (desc : Option String) : Option VMMethod :=
  (c.vtable ++ c.staticVtable).find? fun meth =>
    meth.method.name == name && desc.all (· == meth.method.descriptor)

def fieldByIdx (c : VMClass) (off : FieldOff) : Option VMField := c.fields[off.toNat]?

def fieldByName (c : VMClass) (name : String) : Option VMField :=
  c.fields.find? fun f => f.field.name == name

def fieldsSlots (c : VMClass) : Nat := (c.fields.map fun f => f.field.slotCount).sum

def javaLangObject : VMClass where
  name := "java/lang/Object"
  superClass := none
  vtable := [{
    idx := 0
    method := {
      accessFlags := .accPublic, attributes := [], name := "<init>", descriptor := "()V"
      argsSize := 0
      code := some {
        maxStack := 1, maxLocals := 1, code := [0xb1], exceptionTable := [], attributes := [] } } }]
  staticVtable := []
  fields := []
  constantPool := []

end VMClass

/-- The loop over the descriptors of an array class name, after its first bracket. -/
def arrayEntry (nameIndex : UInt16) (thisName : String) :
    NonZeroU16 → List FieldDescriptor → Option VMConstantPoolEntry
  | _, [] => none
  | dimensions, ty :: descriptor =>
    match ty with
    | .array => arrayEntry nameIndex thisName dimensions.saturatingSucc descriptor
    | .object o =>
      some (if o = thisName then .resolvedClassArray dimensions
        else .classArray nameIndex dimensions none)
    | .bool => some (.primitiveArray dimensions .bool)
    | .byte => some (.primitiveArray dimensions .byte)
    | .char => some (.primitiveArray dimensions .char)
    | .float => some (.primitiveArray dimensions .float)
    | .double => some (.primitiveArray dimensions .double)
    | .short => some (.primitiveArray dimensions .short)
    | .int => some (.primitiveArray dimensions .int)
    | .long => some (.primitiveArray dimensions .long)

structure MemberRef where
  className : String
  name : String
  descriptor : String
  deriving DecidableEq, Repr

def memberRef (entries : List ConstantPoolEntry) (classIndex nameAndTypeIndex : UInt16) :
    Except Fault MemberRef := do
  let classNameIndex ← getClassConst entries classIndex "Fieldref/Methodref class index"
  let (nameIndex, descriptorIndex) ← getNameAndTypeConst entries nameAndTypeIndex
    "Fieldref/Methodref name and type index"
  let className ← getUtf8 entries classNameIndex "Fieldref/Methodref class name"
  let name ← getUtf8 entries nameIndex "Fieldref/Methodref name"
  let descriptor ← getUtf8 entries descriptorIndex "Fieldref/Methodref descriptor"
  pure { className, name, descriptor }

/-- The method of this class that a `Methodref` is resolved to already when the pool is built. -/
def eagerMethod (thisName : String) (methods : List VMMethod) (ref : MemberRef) : Option VMMethod :=
  if ref.className = thisName then
    methods.find? fun m => m.method.name == ref.name && m.method.descriptor == ref.descriptor
  else none

/-- The field of this class that a `Fieldref` is resolved to already when the pool is built. -/
def eagerField (thisName : String) (fields : List VMField) (ref : MemberRef) : Option VMField :=
  if ref.className = thisName then
    fields.find? fun f => f.field.name == ref.name && f.field.descriptor == ref.descriptor
  else none

def resolveEntry (entries : List ConstantPoolEntry) (thisName : String) (methods : List VMMethod)
    (fields : List VMField) : ConstantPoolEntry → Except Fault VMConstantPoolEntry
  | .utf8 str => pure (.utf8 str)
  | .nameAndType nameIndex descriptorIndex => do
    let _ ← getUtf8 entries nameIndex "NameAndType name"
    let _ ← getUtf8 entries descriptorIndex "NameAndType descriptor"
    pure (.nameAndType nameIndex descriptorIndex)
  | .class nameIndex => do
    let name ← getUtf8 entries nameIndex "Class class name"
    match name.toList with
    | '[' :: descriptor =>
      match arrayEntry nameIndex thisName .one (FieldDescriptor.fromChars none descriptor) with
      | some entry => pure entry
      | none => throw (invalidData "Array class invalid")
    | _ => pure (.class nameIndex none)
  | .integer bytes => pure (.int bytes.toInt32)
  | .float value => pure (.float value)
  | .long bytes => pure (.long bytes.toInt64)
  | .double value => pure (.double value)
  | .methodref classIndex nameAndTypeIndex => do
    let ref ← memberRef entries classIndex nameAndTypeIndex
    match eagerMethod thisName methods ref with
    | some meth => pure (.resolvedMethod meth.id)
    | none => pure (.methodRef classIndex nameAndTypeIndex none)
  | .fieldref classIndex nameAndTypeIndex => do
    let ref ← memberRef entries classIndex nameAndTypeIndex
    match eagerField thisName fields ref with
    | some field => pure (.resolvedField field.idx)
    | none => pure (.filedRef classIndex nameAndTypeIndex none)
  | _ => pure .unusable

def VMConstantPool.fromUnresolved (entries : List ConstantPoolEntry) (thisName : String)
    (methods : List VMMethod) (fields : List VMField) : Except Fault VMConstantPool :=
  entries.mapM (resolveEntry entries thisName methods fields)

namespace VMClass

/-- One round of the loop over the methods of a class: the vtable and the static vtable so far. -/
def addMethod (tables : List VMMethod × List VMMethod) (meth : JVMMethod) :
    List VMMethod × List VMMethod :=
  let (vtable, staticVtable) := tables
  if meth.isStatic then
    (vtable, staticVtable ++ [⟨.ofNat staticVtable.length, meth⟩])
  else
    match vtable.findIdx? fun m =>
      m.method.name == meth.name && m.method.descriptor == meth.descriptor with
    | some i => (vtable.set i ⟨.ofNat i, meth⟩, staticVtable)
    | none => (vtable ++ [⟨.ofNat vtable.length, meth⟩], staticVtable)

def addU32 (p : Profile) (a : UInt32) (b : Nat) : Except Fault UInt32 :=
  match p.add 32 a.toNat (UInt32.ofNat b).toNat with
  | .ok n => .ok (.ofNat n)
  | .error msg => .error (.panic msg)

/-- The loop over the fields of the superclass, from the offset reached so far. -/
def inheritFields (p : Profile) : UInt32 → List VMField → Except Fault (UInt32 × List VMField)
  | currOff, [] => .ok (currOff, [])
  | currOff, field :: supe =>
    match field.data with
    | .static _ => inheritFields p currOff supe
    | .normal off => do
      let currOff ← addU32 p off field.field.slotCount
      let (currOff, fields) ← inheritFields p currOff supe
      pure (currOff, { field with data := .normal off } :: fields)

/-- The loop over the own fields of a class, enumerated from `idx`. -/
def ownFields (p : Profile) : Nat → UInt32 → List JVMField → Except Fault (List VMField)
  | _, _, [] => .ok []
  | idx, currOff, f :: fields =>
    if f.isStatic then do
      let fields ← ownFields p (idx + 1) currOff fields
      pure (⟨.ofNat idx, .static [.null, .null], f⟩ :: fields)
    else do
      let nextOff ← addU32 p currOff f.slotCount
      let fields ← ownFields p (idx + 1) nextOff fields
      pure (⟨.ofNat idx, .normal currOff, f⟩ :: fields)

/-- The class is given its superclass as a reference together with what it refers to. -/
def create (p : Profile) (cls : Class) (superClass : Option (ClassRef × VMClass)) :
    Except Fault VMClass := do
  let supeVtable := (superClass.map fun supe => supe.2.vtable).getD []
  let supeFields := (superClass.map fun supe => supe.2.fields).getD []
  let (vtable, staticVtable) := cls.methods.foldl addMethod (supeVtable, [])
  let (currOff, inherited) ← inheritFields p 0 supeFields
  let own ← ownFields p 0 currOff cls.fields
  let fields := inherited ++ own
  let constantPool ← VMConstantPool.fromUnresolved cls.constantPool cls.thisName
    (vtable ++ staticVtable) fields
  pure {
    name := cls.thisName, superClass := superClass.map Prod.fst, fields, vtable, staticVtable,
    constantPool }

end VMClass

end Janadinite
