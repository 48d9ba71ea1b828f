import Janadinite.Vm.Context

namespace Janadinite
open ThreadContext
set_option autoImplicit true

/-- The arithmetic of the target on floats. -/
class FloatArith where
  add32 : F32 → F32 → F32
  sub32 : F32 → F32 → F32
  mul32 : F32 → F32 → F32
  div32 : F32 → F32 → F32
  rem32 : F32 → F32 → F32
  neg32 : F32 → F32
  partialCmp32 : F32 → F32 → Option Ordering
  ofI32 : Int32 → F32
  add64 : F64 → F64 → F64
  sub64 : F64 → F64 → F64
  mul64 : F64 → F64 → F64
  div64 : F64 → F64 → F64
  rem64 : F64 → F64 → F64
  neg64 : F64 → F64
  partialCmp64 : F64 → F64 → Option Ordering
  ofI32d : Int32 → F64

/-- What `run_code` goes on with after an instruction. -/
inductive Outcome where
  | next
  | jump (pc : UInt16)
  | call (cls : ClassRef) (method : JVMMethod) (code : JVMCode)
  | return (result : Option JVMValue)

def resultSlots (result : Option JVMValue) : List JVMSlot := (result.map JVMValue.toSlots).getD []

/-- A division or remainder of `i32` or `i64`, which panics for a zero divisor. -/
def nonZero [DecidableEq α] [OfNat α 0] (msg : String) (op : α → α → α) (a b : α) :
    Except String α :=
  if b = 0 then .error msg else .ok (op a b)

def divideByZero : String := "attempt to divide by zero"

def remainderOfZero : String := "attempt to calculate the remainder with a divisor of zero"

/-- The macro `op2_1!`: x OP y => stack. -/
def op2_1 (pop : VM Runtime α) (push : β → VM Runtime PUnit) (op : α → α → Except String β) :
    VM Runtime Outcome := do
  let v2 ← pop
  let v1 ← pop
  let v ← checked (op v1 v2)
  push v
  pure .next

/-- An `op2_1!` whose operation always succeeds. -/
def pure2_1 (pop : VM Runtime α) (push : β → VM Runtime PUnit) (op : α → α → β) :
    VM Runtime Outcome :=
  op2_1 pop push fun a b => .ok (op a b)

def op1_1 (pop : VM Runtime α) (push : β → VM Runtime PUnit) (op : α → β) : VM Runtime Outcome := do
  let v1 ← pop
  push (op v1)
  pure .next

def loadOp (load : UInt16 → VM Runtime α) (push : α → VM Runtime PUnit) (idx : UInt16) :
    VM Runtime Outcome := do
  let v ← load idx
  push v
  pure .next

def storeOp (store : UInt16 → α → VM Runtime Bool) (pop : VM Runtime α) (idx : UInt16) :
    VM Runtime Outcome := do
  let v ← pop
  match ← store idx v with
  | true => pure .next
  | false => fail (.invalidLocal idx)

def returnOp (value : α → JVMValue) (pop : VM Runtime α) : VM Runtime Outcome := do
  let v ← pop
  pure (.return (some (value v)))

def pushThen (push : VM Runtime PUnit) : VM Runtime Outcome := do
  push
  pure .next

def entryOf (cls : ClassRef) (idx : UInt16) : VM Runtime (Option VMConstantPoolEntry) := do
  let r ← get
  pure ((r.table.get cls).constantPool.getEntry idx)

def ldc (cls : ClassRef) (idx : UInt16) : VM Runtime Outcome := do
  match ← entryOf cls idx with
  | some (.float f) => pushThen (fpush f)
  | some (.int i) => pushThen (ipush i)
  | _ => fail (.invalidConstantPoolEntry idx)

def ldc2W (cls : ClassRef) (refIdx : UInt16) : VM Runtime Outcome := do
  match ← entryOf cls refIdx with
  | some (.double d) => pushThen (dpush d)
  | some (.long l) => pushThen (lpush l)
  | _ => fail (.invalidConstantPoolEntry refIdx)

/-- `args_size() as u16` and what is added to it. -/
def argsWith (p : Profile) (meth : VMMethod) (receiver : Nat) : Except String UInt16 :=
  (p.add 16 (meth.method.argsSize % 2 ^ 16) receiver).map UInt16.ofNat

/-- `get_method_or_resolve` and the method that its result stands for. -/
def resolveMethod (cls : ClassRef) (refIdx : UInt16) : VM Runtime (ClassRef × VMMethod) := do
  let (methClass, methodId) ← onTable (getMethodOrResolve cls refIdx)
  let r ← get
  let meth ← unwrap ((r.table.get methClass).methodById methodId)
  pure (methClass, meth)

/-- What `InvokeStatic` and `InvokeSpecial` call. -/
structure Callee where
  cls : ClassRef
  method : JVMMethod
  code : JVMCode
  argsSize : UInt16

def selectMethod (p : Profile) (cls : ClassRef) (refIdx : UInt16) (receiver : Nat) :
    VM Runtime Callee := do
  let (methClass, meth) ← resolveMethod cls refIdx
  let code ← expect "TODO: methods without code" meth.method.code
  let argsSize ← checked (argsWith p meth receiver)
  pure ⟨methClass, meth.method, code, argsSize⟩

/-- `InvokeStatic`, and with a receiver `InvokeSpecial`. -/
def invokeResolved (p : Profile) (cls : ClassRef) (refIdx : UInt16) (receiver : Nat) :
    VM Runtime Outcome := do
  let callee ← selectMethod p cls refIdx receiver
  pushFrame p refIdx callee.code.maxStack callee.code.maxLocals callee.argsSize
  pure (.call callee.cls callee.method callee.code)

/-- The class of the object that the first argument refers to. -/
def receiverClass (p : Profile) (args : List JVMSlot) : VM Store ClassRef := do
  match args with
  | [] => panicWith "index out of bounds"
  | slot :: _ =>
    let o ← okOr .notAnObject (← withObject p slot deref)
    match o.kind with
    | .instance cls => pure cls
    | .array _ => fail .notAnObject

/-- The method that `InvokeVirtual` looks up for its receiver, and the number of arguments. -/
def selectVirtual (p : Profile) (cls : ClassRef) (refIdx : UInt16) :
    VM Runtime (VMMethod × UInt16) := do
  let (_, meth) ← resolveMethod cls refIdx
  let argsSize ← checked (argsWith p meth 1)
  pure (meth, argsSize)

def invokeVirtual (p : Profile) (cls : ClassRef) (refIdx : UInt16) : VM Runtime Outcome := do
  let (meth, argsSize) ← selectVirtual p cls refIdx
  let before ← readContext
  popCreateArgs p argsSize
  let c ← readContext
  let runtimeClass ← onStore (receiverClass p (c.locals.drop before.locals.length))
  let r ← get
  let objMeth ← expect "Couldn't search for virtual method"
    ((r.table.get runtimeClass).methodByName meth.method.name (some meth.method.descriptor))
  let code ← expect "FIXME: Handle methods without code" objMeth.method.code
  finishPushFrame refIdx code.maxLocals code.maxStack argsSize
  pure (.call runtimeClass objMeth.method code)

def resolveField (cls : ClassRef) (refIdx : UInt16) :
    VM Runtime (ClassRef × FieldOff × VMField) := do
  let (fieldClass, fieldIdx) ← onTable (getFieldOrResolve cls refIdx)
  let r ← get
  let field ← unwrap ((r.table.get fieldClass).fieldByIdx fieldIdx)
  pure (fieldClass, fieldIdx, field)

/-- `as_static`: as many slots as the type of the field takes. -/
def VMField.asStatic (f : VMField) : Option (List JVMSlot) :=
  match f.data with
  | .static slots => some (slots.take f.field.slotCount)
  | .normal _ => none

def cloneOntoStack (p : Profile) : List JVMSlot → VM Runtime PUnit
  | [] => pure ⟨⟩
  | slot :: slots => do
    let c ← onStore (cloneSlot p slot)
    pushSlot c
    cloneOntoStack p slots

def getstatic (p : Profile) (cls : ClassRef) (refIdx : UInt16) : VM Runtime Outcome := do
  let (_, _, field) ← resolveField cls refIdx
  let slots ← okOr (.notStatic field.field.name) field.asStatic
  cloneOntoStack p slots
  pure .next

/-- The `k`th static slot of a field. -/
def VMField.setStatic (f : VMField) (k : Nat) (slot : JVMSlot) : VMField :=
  match f.data with
  | .static slots => { f with data := .static (slots.set k slot) }
  | .normal _ => f

def ClassTable.setStatic (t : ClassTable) (cls : ClassRef) (off : FieldOff) (k : Nat)
    (slot : JVMSlot) : ClassTable :=
  t.modifyClass cls fun c =>
    { c with fields := c.fields.modify off.toNat fun f => f.setStatic k slot }

def ClassTable.static? (t : ClassTable) (cls : ClassRef) (off : FieldOff) (k : Nat) :
    Option JVMSlot :=
  ((t.get cls).fieldByIdx off).bind fun f =>
    match f.data with
    | .static slots => slots[k]?
    | .normal _ => none

/-- The loop over the first `k` static slots, from the last to the first. -/
def popStatics (p : Profile) (cls : ClassRef) (off : FieldOff) : Nat → VM Runtime PUnit
  | 0 => pure ⟨⟩
  | k + 1 => do
    let slot ← popSlotOr
    let r ← get
    match r.table.static? cls off k with
    | some old => do
      modify fun r => { r with table := r.table.setStatic cls off k slot }
      onStore (dropSlot p old)
    | none => panicWith "index out of bounds"
    popStatics p cls off k

def putstatic (p : Profile) (cls : ClassRef) (refIdx : UInt16) : VM Runtime Outcome := do
  let (fieldClass, fieldIdx, field) ← resolveField cls refIdx
  let slots ← okOr (.notStatic field.field.name) field.asStatic
  popStatics p fieldClass fieldIdx slots.length
  pure .next

/-- `&object.data[start..start + len]`. -/
def sliceData (obj : Addr) (start len : Nat) : VM Store (List JVMSlot) := do
  let o ← deref obj
  if start + len ≤ o.data.length then pure ((o.data.drop start).take len)
  else panicWith "range end index out of range for slice"

def getField (p : Profile) (cls : ClassRef) (refIdx : UInt16) : VM Runtime Outcome := do
  let (_, _, field) ← resolveField cls refIdx
  let off ← okOr (.isAStatic field.field.name) field.objOff
  let obj ← apop
  let slots ← onStore (sliceData obj off.toNat field.field.slotCount)
  cloneOntoStack p slots
  onStore (dropRef p obj)
  pure .next

/-- An assignment to a slot of an object, which drops what was there. -/
def assignData (p : Profile) (obj : Addr) (i : Nat) (slot : JVMSlot) : VM Store PUnit := do
  let old ← replaceData obj i slot
  dropSlot p old

def putField (p : Profile) (cls : ClassRef) (refIdx : UInt16) : VM Runtime Outcome := do
  let (_, _, field) ← resolveField cls refIdx
  let off ← okOr (.isAStatic field.field.name) field.objOff
  let gotSlot ← popSlotOr
  let obj ← apop
  let slots ← onStore (sliceData obj off.toNat field.field.slotCount)
  match slots with
  | [] => panicWith "index out of bounds"
  | _ :: _ => onStore (assignData p obj off.toNat gotSlot)
  onStore (dropRef p obj)
  pure .next

def iinc (p : Profile) (idx : UInt16) (imm : Int32) : VM Runtime Outcome := do
  let c ← readContext
  let slot ← okOr (.invalidLocal idx) (c.local? idx)
  let v ← checked (p.addI32 slot.asI32 imm)
  assignLocal p (idx.toNat + c.currentFrame.localsStart) (.fromI32 v)
  pure .next

def usizeOf (i : Int32) : Nat := i.toInt64.toUInt64.toNat

def saturatingAddSigned (pc : UInt16) (off : Int16) : UInt16 :=
  .ofNat (min (2 ^ 16 - 1) (pc.toNat + off.toInt).toNat)

def jumpIf (lastPc : UInt16) (off : Int16) (isTrue : Bool) : Outcome :=
  if isTrue then .jump (saturatingAddSigned lastPc off) else .next

def ifIcmp (p : Profile) (lastPc : UInt16) (off : Int16) (test : Int32 → Int32 → Bool) :
    VM Runtime Outcome := do
  let v2 ← ipop p
  let v1 ← ipop p
  pure (jumpIf lastPc off (test v1 v2))

def ifZero (p : Profile) (lastPc : UInt16) (off : Int16) (test : Int32 → Bool) :
    VM Runtime Outcome := do
  let v1 ← ipop p
  pure (jumpIf lastPc off (test v1))

def orderingValue (none' : Int32) : Option Ordering → Int32
  | some .eq => 0
  | some .gt => 1
  | some .lt => -1
  | none => none'

/-- What `todo!` panics with. -/
def dupNxY : String := "not yet implemented: dupN_xY"

/-- `AALoad` and the loads of one-slot elements. -/
def arrayLoad (p : Profile) : VM Runtime Outcome := do
  let index ← ipop p
  let reference ← apop
  let o ← onStore (deref reference)
  let slot ← okOr (.indexOutOfBounds index) o.data[usizeOf index]?
  let c ← onStore (cloneSlot p slot)
  pushSlot c
  onStore (dropRef p reference)
  pure .next

def arrayStore (p : Profile) (popValue : VM Runtime JVMSlot) : VM Runtime Outcome := do
  let value ← popValue
  let index ← ipop p
  let reference ← apop
  let o ← onStore (deref reference)
  match o.data[usizeOf index]? with
  | some _ => onStore (assignData p reference (usizeOf index) value)
  | none => fail (.indexOutOfBounds index)
  onStore (dropRef p reference)
  pure .next

def popObjectSlot : VM Runtime JVMSlot := do
  let obj ← apop
  pure (.fromObject obj)

/-- The index of the first of the two slots of an element. -/
def wideIndex (p : Profile) : VM Runtime Int32 := do
  let index ← ipop p
  checked (p.mulI32 index 2)

/-- The place of the second slot of an element, when both are in the array. Where they are not, the
return drops the reference. -/
def checkWide (p : Profile) (reference : Addr) (index : Int32) : VM Store Nat := do
  let o ← deref reference
  let second ← checked (p.add 64 (usizeOf index) 1)
  if o.data.length ≤ second then do
    dropRef p reference
    fail (.indexOutOfBounds index)
  else pure second

def indexData (reference : Addr) (i : Nat) : VM Store JVMSlot := do
  let o ← deref reference
  expect "index out of bounds" o.data[i]?

def cloneData (p : Profile) (reference : Addr) (i : Nat) : VM Runtime PUnit := do
  let slot ← onStore (indexData reference i)
  let c ← onStore (cloneSlot p slot)
  pushSlot c

def wideArrayLoad (p : Profile) : VM Runtime Outcome := do
  let index ← wideIndex p
  let reference ← apop
  let second ← onStore (checkWide p reference index)
  cloneData p reference (usizeOf index)
  cloneData p reference second
  onStore (dropRef p reference)
  pure .next

def wideArrayStore (p : Profile) : VM Runtime Outcome := do
  let value ← lpop p
  let index ← wideIndex p
  let reference ← apop
  let second ← onStore (checkWide p reference index)
  match JVMSlot.fromI64 value with
  | [low, high] => do
    onStore (assignData p reference (usizeOf index) low)
    onStore (assignData p reference second high)
  | _ => pure ⟨⟩
  onStore (dropRef p reference)
  pure .next

def arrayLength (p : Profile) : VM Runtime Outcome := do
  let reference ← apop
  let o ← onStore (deref reference)
  match o.kind with
  | .instance _ => fail .notAnArray
  | .array size => ipush (.ofNat (o.data.length / size.val.toNat))
  onStore (dropRef p reference)
  pure .next

def newObject (p : Profile) (cls : ClassRef) (classRef : UInt16) : VM Runtime Outcome := do
  let newClass ← onTable (getClassOrLoadByRef cls classRef)
  let r ← get
  let instance_ ← onStore (allocateInner p (.instance newClass) (r.table.get newClass).fieldsSlots)
  apush instance_
  pure .next

def newArray (p : Profile) (t : UInt8) : VM Runtime Outcome := do
  let prim ← expect "Invalid array type" (PrimitiveArrayType.fromRaw t)
  let len ← ipop p
  let instance_ ← onStore (allocateArray p (usizeOf len) prim.slotCount)
  apush instance_
  pure .next

def aNewArray (p : Profile) (cls : ClassRef) (refIdx : UInt16) : VM Runtime Outcome := do
  let _ ← onTable (getClassOrArrayByRef cls refIdx)
  let len ← ipop p
  let instance_ ← onStore (allocateArray p (usizeOf len) .one)
  apush instance_
  pure .next

/-- An object that is not in an `Arc` yet. -/
structure BareObject where
  kind : ObjectKind
  data : List JVMSlot

def BareObject.newArray (p : Profile) (count : Nat) (size : NonZeroU16) : VM Store BareObject := do
  let len ← checked (p.mul 64 count size.val.toNat)
  let data ← newData len
  pure ⟨.array size, data⟩

/-- So many clones of an array, each allocated, in the slots that refer to them. -/
def cloneChildren (p : Profile) (child : BareObject) : Nat → VM Store (List JVMSlot)
  | 0 => pure []
  | n + 1 => do
    let data ← cloneSlots p child.data
    let a ← allocateFromObject p child.kind data
    let rest ← cloneChildren p child n
    pure (.fromObject a :: rest)

/-- The elements of an array: clones of the child, and the child itself as the last one. -/
def fillArray (p : Profile) (child : BareObject) : Nat → VM Store (List JVMSlot)
  | 0 => do
    dropSlots p child.data
    pure []
  | n + 1 => do
    let clones ← cloneChildren p child n
    let a ← allocateFromObject p child.kind child.data
    pure (clones ++ [.fromObject a])

/-- The drop of `last_object`. `HEAP` is locked. -/
def dropLast (p : Profile) : Option BareObject → VM Store PUnit
  | some old => dropSlots p old.data
  | none => pure ⟨⟩

/-- `Object::new_array` in the loop over the dimensions: a panic unwinds `last_object`. -/
def newDimension (p : Profile) (last : Option BareObject) (count : Nat) (size : NonZeroU16) :
    VM Store BareObject := fun s =>
  match BareObject.newArray p count size s with
  | .error (.panic msg) s => (do
      dropLast p last
      panicWith msg : VM Store BareObject) s
  | res => res

/-- One round of the loop over the dimensions, with the array made by the rounds before. -/
def addDimension (p : Profile) (last : Option BareObject) (len : Int32) (size : NonZeroU16) :
    VM Store BareObject :=
  if len = 0 then do
    let obj ← BareObject.newArray p 0 size
    dropLast p last
    pure obj
  else do
    let obj ← newDimension p last (usizeOf len) size
    match last with
    | some child => do
      let data ← fillArray p child obj.data.length
      pure { obj with data }
    | none => pure obj

/-- `count.next().unwrap()?` with `ipop` as the next count: an error drops `last_object`, and then
the guard of `HEAP`. -/
def nextCount (p : Profile) (last : Option BareObject) : VM Runtime Int32 := do
  match ← popSlot with
  | some slot => do
    onStore (dropSlot p slot)
    pure slot.asI32
  | none => do
    onStore (dropLast p last)
    onStore unlockHeap
    fail .stackUnderflow

/-- The rounds left of the loop over the dimensions. The counts come off the stack while `HEAP` is
locked; the first round is the one without an array before it. -/
def addDimensions (p : Profile) (lastDimOSize : NonZeroU16) :
    Nat → Option BareObject → VM Runtime (Option BareObject)
  | 0, last => pure last
  | n + 1, last => do
    let len ← nextCount p last
    let size := if last.isNone then lastDimOSize else .one
    let obj ← onStore (addDimension p last len size)
    addDimensions p lastDimOSize n (some obj)

def allocateMultiarray (p : Profile) (dimensions : Nat) (lastDimOSize : NonZeroU16) :
    VM Runtime Addr := do
  onStore (lockOrStop p)
  match ← addDimensions p lastDimOSize dimensions none with
  | some obj => do
    let a ← onStore (allocateFromObject p obj.kind obj.data)
    onStore unlockHeap
    pure a
  | none => do
    onStore unlockHeap
    fail (.corrupted "allocate array with dimensions=0")

def multiANewArray (p : Profile) (cls : ClassRef) (refIdx : UInt16) (dim : UInt8) :
    VM Runtime Outcome := do
  if dim = 0 then
    fail (.corrupted ("invalid instruction multianewarray " ++ toString refIdx.toNat ++ " " ++
      toString dim.toNat ++ ": dimensions is zero"))
  else do
    let slotCount ← match ← onTable (getClassOrArrayByRef cls refIdx) with
      | .class _ => pure .one
      | .classArray _ _ => pure .one
      | .primitiveArray _ ty => pure ty.slotCount
    let instance_ ← allocateMultiarray p dim.toNat slotCount
    apush instance_
    pure .next

def OpCode.isInvoke : OpCode → Bool
  | .invokeStatic _ => true
  | .invokeSpecial _ => true
  | .invokeVirtual _ => true
  | _ => false

section
variable [FloatArith]
open FloatArith

/-- One round of the loop of `run_code`, after the `safepoint` of an invoke. Of the drops that follow
an error only that in `checkWide` is made. -/
def execute (p : Profile) (cls : ClassRef) (lastPc : UInt16) : OpCode → VM Runtime Outcome
  | .lconst0 => pushThen (lpush 0)
  | .lconst1 => pushThen (lpush 1)
  | .fconst0 => pushThen (fpush ⟨0⟩)
  | .fconst1 => pushThen (fpush ⟨0x3f800000⟩)
  | .fconst2 => pushThen (fpush ⟨0x40000000⟩)
  | .dconst0 => pushThen (dpush ⟨0⟩)
  | .dconst1 => pushThen (dpush ⟨0x3ff0000000000000⟩)
  | .ldc idx => ldc cls idx.toUInt16
  | .ldcW idx => ldc cls idx
  | .ldc2W refIdx => ldc2W cls refIdx
  | .invokeStatic refIdx => invokeResolved p cls refIdx 0
  | .invokeSpecial refIdx => invokeResolved p cls refIdx 1
  | .invokeVirtual refIdx => invokeVirtual p cls refIdx
  | .getstatic refIdx => getstatic p cls refIdx
  | .putstatic refIdx => putstatic p cls refIdx
  | .getField refIdx => getField p cls refIdx
  | .putField refIdx => putField p cls refIdx
  | .bipush b => pushThen (ipush b.toInt32)
  | .iload idx => loadOp iload ipush idx.toUInt16
  | .fload idx => loadOp fload fpush idx.toUInt16
  | .lload idx => loadOp (lload p) lpush idx.toUInt16
  | .dload idx => loadOp (dload p) dpush idx.toUInt16
  | .aload idx => loadOp (aload p) apush idx.toUInt16
  | .wideIload idx => loadOp iload ipush idx
  | .wideFload idx => loadOp fload fpush idx
  | .wideLload idx => loadOp (lload p) lpush idx
  | .wideDload idx => loadOp (dload p) dpush idx
  | .wideAload idx => loadOp (aload p) apush idx
  | .aStore idx => storeOp (astore p) apop idx.toUInt16
  | .iStore idx => storeOp (istore p) (ipop p) idx.toUInt16
  | .fStore idx => storeOp (fstore p) (fpop p) idx.toUInt16
  | .lStore idx => storeOp (lstore p) (lpop p) idx.toUInt16
  | .dStore idx => storeOp (dstore p) (dpop p) idx.toUInt16
  | .wideAStore idx => storeOp (astore p) apop idx
  | .wideIStore idx => storeOp (istore p) (ipop p) idx
  | .wideFStore idx => storeOp (fstore p) (fpop p) idx
  | .wideLStore idx => storeOp (lstore p) (lpop p) idx
  | .wideDStore idx => storeOp (dstore p) (dpop p) idx
  | .iinc idx imm => iinc p idx.toUInt16 imm.toInt32
  | .wideIinc idx imm => iinc p idx imm.toInt32
  | .imul => pure2_1 (ipop p) ipush (· * ·)
  | .lmul => pure2_1 (lpop p) lpush (· * ·)
  | .fmul => pure2_1 (fpop p) fpush mul32
  | .dmul => pure2_1 (dpop p) dpush mul64
  | .idiv => op2_1 (ipop p) ipush (nonZero divideByZero (· / ·))
  | .ldiv => op2_1 (lpop p) lpush (nonZero divideByZero (· / ·))
  | .fdiv => pure2_1 (fpop p) fpush div32
  | .ddiv => pure2_1 (dpop p) dpush div64
  | .isub => pure2_1 (ipop p) ipush (· - ·)
  | .lsub => pure2_1 (lpop p) lpush (· - ·)
  | .fsub => pure2_1 (fpop p) fpush sub32
  | .dsub => pure2_1 (dpop p) dpush sub64
  | .iadd => pure2_1 (ipop p) ipush (· + ·)
  | .ladd => pure2_1 (lpop p) lpush (· + ·)
  | .fadd => pure2_1 (fpop p) fpush add32
  | .dadd => pure2_1 (dpop p) dpush add64
  | .ineg => op1_1 (ipop p) ipush (- ·)
  | .lneg => op1_1 (lpop p) lpush (- ·)
  | .fneg => op1_1 (fpop p) fpush neg32
  | .dneg => op1_1 (dpop p) dpush neg64
  | .irem => op2_1 (ipop p) ipush (nonZero remainderOfZero (· % ·))
  | .lrem => op2_1 (lpop p) lpush (nonZero remainderOfZero (· % ·))
  | .frem => pure2_1 (fpop p) fpush rem32
  | .drem => pure2_1 (dpop p) dpush rem64
  | .iand => pure2_1 (ipop p) ipush (· &&& ·)
  | .land => pure2_1 (lpop p) lpush (· &&& ·)
  | .ior => pure2_1 (ipop p) ipush (· ||| ·)
  | .lor => pure2_1 (lpop p) lpush (· ||| ·)
  | .ixor => pure2_1 (ipop p) ipush (· ^^^ ·)
  | .lxor => pure2_1 (lpop p) lpush (· ^^^ ·)
  | .ishl => pure2_1 (ipop p) ipush fun v1 v2 =>
      (v1.toUInt32 <<< (v2.toUInt32 &&& 0b11111)).toInt32
  | .lshl => pure2_1 (lpop p) lpush fun v1 v2 =>
      (v1.toUInt64 <<< (v2.toUInt64 &&& 0b111111)).toInt64
  | .ishr => pure2_1 (ipop p) ipush fun v1 v2 => v1 >>> (v2.toUInt32 &&& 0b11111).toInt32
  | .lshr => pure2_1 (lpop p) lpush fun v1 v2 => v1 >>> (v2.toUInt64 &&& 0b111111).toInt64
  | .iushr => pure2_1 (ipop p) ipush fun v1 v2 =>
      (v1.toUInt32 >>> (v2.toUInt32 &&& 0b11111)).toInt32
  | .lushr => pure2_1 (lpop p) lpush fun v1 v2 =>
      (v1.toUInt64 >>> (v2.toUInt64 &&& 0b111111)).toInt64
  | .i2l => op1_1 (ipop p) lpush Int32.toInt64
  | .i2f => op1_1 (ipop p) fpush ofI32
  | .i2d => op1_1 (ipop p) dpush ofI32d
  | .lcmp => pure2_1 (lpop p) ipush fun v1 v2 => if v1 = v2 then 0 else if v2 < v1 then 1 else -1
  | .fcmpg => pure2_1 (fpop p) ipush fun v1 v2 => orderingValue 1 (partialCmp32 v1 v2)
  | .fcmpl => pure2_1 (fpop p) ipush fun v1 v2 => orderingValue (-1) (partialCmp32 v1 v2)
  | .dcmpg => pure2_1 (dpop p) ipush fun v1 v2 => orderingValue 1 (partialCmp64 v1 v2)
  | .dcmpl => pure2_1 (dpop p) ipush fun v1 v2 => orderingValue (-1) (partialCmp64 v1 v2)
  | .goto off => pure (.jump (saturatingAddSigned lastPc off))
  | .ifIcmpEq off => ifIcmp p lastPc off fun v1 v2 => v1 = v2
  | .ifIcmpNe off => ifIcmp p lastPc off fun v1 v2 => v1 ≠ v2
  | .ifIcmpGe off => ifIcmp p lastPc off fun v1 v2 => v1 ≥ v2
  | .ifIcmpLe off => ifIcmp p lastPc off fun v1 v2 => v1 ≤ v2
  | .ifIcmpGt off => ifIcmp p lastPc off fun v1 v2 => v1 > v2
  | .ifIcmpLt off => ifIcmp p lastPc off fun v1 v2 => v1 < v2
  | .ifNe off => ifZero p lastPc off fun v1 => v1 ≠ 0
  | .ifEq off => ifZero p lastPc off fun v1 => v1 = 0
  | .return => pure (.return none)
  | .iReturn => returnOp .int (ipop p)
  | .aReturn => returnOp .object apop
  | .lReturn => returnOp .long (lpop p)
  | .fReturn => returnOp .float (fpop p)
  | .dReturn => returnOp .double (dpop p)
  | .aaLoad => arrayLoad p
  | .baLoad => arrayLoad p
  | .caLoad => arrayLoad p
  | .iaLoad => arrayLoad p
  | .faLoad => arrayLoad p
  | .saLoad => arrayLoad p
  | .aaStore => arrayStore p popObjectSlot
  | .baStore => arrayStore p popSlotOr
  | .iaStore => arrayStore p popSlotOr
  | .caStore => arrayStore p popSlotOr
  | .saStore => arrayStore p popSlotOr
  | .faStore => arrayStore p popSlotOr
  | .daLoad => wideArrayLoad p
  | .laLoad => wideArrayLoad p
  | .laStore => wideArrayStore p
  | .daStore => wideArrayStore p
  | .arrayLength => arrayLength p
  | .new classRef => newObject p cls classRef
  | .newArray t => newArray p t
  | .aNewArray refIdx => aNewArray p cls refIdx
  | .multiANewArray refIdx dim => multiANewArray p cls refIdx dim
  | .dup => pushThen (dup p)
  | .dup2 => pushThen (dup2 p)
  | .dup2X1 => panicWith dupNxY
  | .dup2X2 => panicWith dupNxY
  | .dupX1 => panicWith dupNxY
  | .dupX2 => panicWith dupNxY
  | .invalid _ => pure .next

end

end Janadinite
