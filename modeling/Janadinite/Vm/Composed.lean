import Janadinite.Vm.Execute

namespace Janadinite
open ThreadContext
set_option autoImplicit true

/-- What the drop of a reference panics with when the heap does not list the object. -/
def unlistedMsg : String := "Failed to deallocate an object"

/-- A property of computations that composed ones have when their parts have it. `S` is what the
parts that run on the store have; no part stops because an object is not listed. The classes and the
context are read without the store, and an object without its counts. -/
structure Composes (S : (α : Type) → VM Store α → Prop) (C : (α : Type) → VM Runtime α → Prop) :
    Prop where
  pure (a : α) : C α (pure a)
  bind {m : VM Runtime α} {f : α → VM Runtime β} : C α m → (∀ a, C β (f a)) → C β (m >>= f)
  reads {f : Runtime → VM Runtime β} : (∀ r, C β (f r)) →
    (∀ r r', r.table = r'.table → r.context = r'.context → f r = f r') → C β (get >>= f)
  looks (a : Addr) {f : Object → VM Runtime β} : (∀ o, C β (f o)) →
    (∀ o o', o.kind = o'.kind → o.data = o'.data → f o = f o') → C β (onStore (deref a) >>= f)
  context (f : ThreadContext → ThreadContext) : C PUnit (modifyContext f)
  fail (e : VMError) : C α (fail e)
  panics (msg : String) : msg ≠ unlistedMsg → C α (panicWith msg)
  onStore {m : VM Store α} : S α m → C α (onStore m)
  classRef (cls : ClassRef) (refIdx : UInt16) :
    C ClassRef (onTable (getClassOrLoadByRef cls refIdx))
  arrayRef (cls : ClassRef) (refIdx : UInt16) :
    C ClassOrArray (onTable (getClassOrArrayByRef cls refIdx))
  methodRef (cls : ClassRef) (refIdx : UInt16) :
    C (ClassRef × MethodID) (onTable (getMethodOrResolve cls refIdx))
  fieldRef (cls : ClassRef) (refIdx : UInt16) :
    C (ClassRef × FieldOff) (onTable (getFieldOrResolve cls refIdx))
  setStatic (cls : ClassRef) (off : FieldOff) (k : Nat) (slot : JVMSlot) :
    C PUnit (modify fun r => { r with table := r.table.setStatic cls off k slot })

/-- The parts of instructions that run on the store and allocate nothing. -/
structure StoreParts (p : Profile) (S : (α : Type) → VM Store α → Prop) : Prop where
  dropRef (a : Addr) : S PUnit (dropRef p a)
  dropSlot (slot : JVMSlot) : S PUnit (dropSlot p slot)
  dropSlots (slots : List JVMSlot) : S PUnit (dropSlots p slots)
  cloneSlot (slot : JVMSlot) : S JVMSlot (cloneSlot p slot)
  cloneRef (slot : JVMSlot) : S (Option Addr) (withObject p slot arcClone)
  receiverClass (args : List JVMSlot) : S ClassRef (receiverClass p args)
  sliceData (a : Addr) (start len : Nat) : S (List JVMSlot) (sliceData a start len)
  assignData (a : Addr) (i : Nat) (slot : JVMSlot) : S PUnit (assignData p a i slot)
  indexData (a : Addr) (i : Nat) : S JVMSlot (indexData a i)
  checkWide (a : Addr) (index : Int32) : S Nat (checkWide p a index)

structure ArrayParts (p : Profile) (S : (α : Type) → VM Store α → Prop) : Prop where
  unlockHeap : S PUnit unlockHeap
  dropLast (last : Option BareObject) : S PUnit (dropLast p last)
  addDimension (last : Option BareObject) (len : Int32) (size : NonZeroU16) :
    S BareObject (addDimension p last len size)
  allocateFromObject (kind : ObjectKind) (data : List JVMSlot) :
    S Addr (allocateFromObject p kind data)

structure AllocationParts (p : Profile) (S : (α : Type) → VM Store α → Prop) : Prop
    extends ArrayParts p S where
  allocateInner (kind : ObjectKind) (slots : Nat) : S Addr (allocateInner p kind slots)
  allocateArray (count : Nat) (size : NonZeroU16) : S Addr (allocateArray p count size)
  lockOrStop : S PUnit (lockOrStop p)

def OpCode.allocates : OpCode → Bool
  | .new _ => true
  | .newArray _ => true
  | .aNewArray _ => true
  | .multiANewArray _ _ => true
  | _ => false

/-- Arithmetic that panics, if at all, because of its own operands. -/
def Mild (r : Except String α) : Prop := ∀ msg, r = .error msg → msg ≠ unlistedMsg

theorem mild_ok (a : α) : Mild (.ok a) := fun _ h => by cases h

theorem mild_add (p : Profile) (w a b : Nat) : Mild (p.add w a b) := by
  intro msg h
  rw [Profile.add] at h
  split at h
  · cases h
  · split at h <;> cases h
    decide

theorem mild_sub (p : Profile) (w a b : Nat) : Mild (p.sub w a b) := by
  intro msg h
  rw [Profile.sub] at h
  split at h
  · cases h
  · split at h <;> cases h
    decide

theorem mild_mul (p : Profile) (w a b : Nat) : Mild (p.mul w a b) := by
  intro msg h
  rw [Profile.mul] at h
  split at h
  · cases h
  · split at h <;> cases h
    decide

theorem mild_i32 (p : Profile) (exact : Int) (wrapped : Int32) (h : text ≠ unlistedMsg) :
    Mild (p.i32 exact wrapped text) := by
  intro msg he
  rw [Profile.i32] at he
  split at he
  · cases he
  · split at he <;> cases he
    exact h

theorem mild_nonZero [DecidableEq α] [OfNat α 0] (op : α → α → α) (a b : α)
    (h : text ≠ unlistedMsg) : Mild (nonZero text op a b) := by
  intro msg he
  rw [nonZero] at he
  split at he <;> cases he
  exact h

theorem mild_argsWith (p : Profile) (meth : VMMethod) (receiver : Nat) :
    Mild (argsWith p meth receiver) := by
  intro msg h
  rw [argsWith] at h
  cases ha : p.add 16 (meth.method.argsSize % 2 ^ 16) receiver with
  | ok n =>
    rw [ha] at h
    cases h
  | error text =>
    rw [ha] at h
    cases h
    exact mild_add p _ _ _ _ ha

namespace Composes
variable {S : (α : Type) → VM Store α → Prop} {C : (α : Type) → VM Runtime α → Prop}
  {p : Profile}

section
variable (h : Composes S C)
include h

theorem readContext : C ThreadContext readContext := by
  apply h.reads _ fun _ _ _ hc => by simp only [hc]
  exact fun _ => h.pure _

theorem okOr (e : VMError) (o : Option α) : C α (okOr e o) := by
  cases o with
  | none => exact h.fail e
  | some a => exact h.pure a

theorem expect (hm : msg ≠ unlistedMsg) (o : Option α) : C α (expect msg o) := by
  cases o with
  | none => exact h.panics msg hm
  | some a => exact h.pure a

theorem checked {r : Except String α} (hr : Mild r) : C α (checked r) := by
  cases r with
  | ok a => exact h.pure a
  | error msg => exact h.panics msg (hr msg rfl)

theorem pushSlot (slot : JVMSlot) : C PUnit (pushSlot slot) := h.context _

theorem pushSlots (values : List JVMSlot) : C PUnit (pushSlots values) := by
  induction values with
  | nil => exact h.pure _
  | cons slot values ih => exact h.bind (h.pushSlot slot) fun _ => ih

theorem stackPop : C (Option JVMSlot) stackPop := by
  apply h.bind h.readContext
  intro c
  cases c.stack.getLast? with
  | some slot => exact h.bind (h.context _) fun _ => h.pure _
  | none => exact h.pure none

theorem popSlot : C (Option JVMSlot) popSlot := by
  apply h.bind h.readContext
  intro c
  split
  · exact h.pure none
  · exact h.stackPop

theorem popSlotOr : C JVMSlot popSlotOr := h.bind h.popSlot fun _ => h.okOr _ _

theorem apop : C Addr apop := h.bind h.popSlotOr fun _ => h.okOr _ _

theorem iload (index : UInt16) : C Int32 (iload index) :=
  h.bind h.readContext fun _ => h.bind (h.okOr _ _) fun _ => h.pure _

theorem fload (index : UInt16) : C F32 (fload index) := h.bind (h.iload index) fun _ => h.pure _

theorem lload (p : Profile) (index : UInt16) : C Int64 (lload p index) := by
  apply h.bind (h.iload index)
  intro low
  apply h.bind (h.checked (mild_add p _ _ _))
  exact fun next => h.bind (h.iload _) fun _ => h.pure _

theorem dload (p : Profile) (index : UInt16) : C F64 (dload p index) :=
  h.bind (h.lload p index) fun _ => h.pure _

theorem pushThen {push : VM Runtime PUnit} (hp : C PUnit push) : C Outcome (pushThen push) :=
  h.bind hp fun _ => h.pure _

theorem op2_1 {pop : VM Runtime α} {push : β → VM Runtime PUnit} {op : α → α → Except String β}
    (hp : C α pop) (hq : ∀ b, C PUnit (push b)) (hm : ∀ a b, Mild (op a b)) :
    C Outcome (op2_1 pop push op) := by
  apply h.bind hp
  intro v2
  apply h.bind hp
  intro v1
  exact h.bind (h.checked (hm v1 v2)) fun v => h.pushThen (hq v)

theorem pure2_1 {pop : VM Runtime α} {push : β → VM Runtime PUnit} (hp : C α pop)
    (hq : ∀ b, C PUnit (push b)) (op : α → α → β) : C Outcome (pure2_1 pop push op) :=
  h.op2_1 hp hq fun _ _ => mild_ok _

theorem op1_1 {pop : VM Runtime α} {push : β → VM Runtime PUnit} (hp : C α pop)
    (hq : ∀ b, C PUnit (push b)) (op : α → β) : C Outcome (op1_1 pop push op) :=
  h.bind hp fun _ => h.pushThen (hq _)

theorem loadOp {load : UInt16 → VM Runtime α} {push : α → VM Runtime PUnit} {idx : UInt16}
    (hl : C α (load idx)) (hq : ∀ a, C PUnit (push a)) : C Outcome (loadOp load push idx) :=
  h.bind hl fun v => h.pushThen (hq v)

theorem storeOp {store : UInt16 → α → VM Runtime Bool} {pop : VM Runtime α} {idx : UInt16}
    (hs : ∀ a, C Bool (store idx a)) (hp : C α pop) : C Outcome (storeOp store pop idx) := by
  apply h.bind hp
  intro v
  apply h.bind (hs v)
  intro stored
  cases stored with
  | true => exact h.pure _
  | false => exact h.fail _

theorem returnOp {pop : VM Runtime α} (value : α → JVMValue) (hp : C α pop) :
    C Outcome (returnOp value pop) :=
  h.bind hp fun _ => h.pure _

theorem entryOf (cls : ClassRef) (idx : UInt16) :
    C (Option VMConstantPoolEntry) (entryOf cls idx) := by
  apply h.reads _ fun _ _ ht _ => by simp only [ht]
  exact fun _ => h.pure _

theorem ldc (cls : ClassRef) (idx : UInt16) : C Outcome (ldc cls idx) := by
  apply h.bind (h.entryOf cls idx)
  intro e
  split
  · exact h.pushThen (h.pushSlot _)
  · exact h.pushThen (h.pushSlot _)
  · exact h.fail _

theorem ldc2W (cls : ClassRef) (refIdx : UInt16) : C Outcome (ldc2W cls refIdx) := by
  apply h.bind (h.entryOf cls refIdx)
  intro e
  split
  · exact h.pushThen (h.pushSlots _)
  · exact h.pushThen (h.pushSlots _)
  · exact h.fail _

theorem finishPushFrame (methRef maxLocals maxStack argsSize : UInt16) :
    C PUnit (finishPushFrame methRef maxLocals maxStack argsSize) := by
  rw [ThreadContext.finishPushFrame]
  split
  · exact h.panics _ (by decide)
  · exact h.context _

theorem resolveMethod (cls : ClassRef) (refIdx : UInt16) :
    C (ClassRef × VMMethod) (resolveMethod cls refIdx) := by
  apply h.bind (h.methodRef cls refIdx)
  intro (methClass, methodId)
  apply h.reads _ fun _ _ ht _ => by simp only [ht]
  exact fun r => h.bind (h.expect (by decide) _) fun _ => h.pure _

theorem selectMethod (p : Profile) (cls : ClassRef) (refIdx : UInt16) (receiver : Nat) :
    C Callee (selectMethod p cls refIdx receiver) := by
  apply h.bind (h.resolveMethod cls refIdx)
  intro (methClass, meth)
  apply h.bind (h.expect (by decide) _)
  exact fun code => h.bind (h.checked (mild_argsWith p meth receiver)) fun _ => h.pure _

theorem selectVirtual (p : Profile) (cls : ClassRef) (refIdx : UInt16) :
    C (VMMethod × UInt16) (selectVirtual p cls refIdx) := by
  apply h.bind (h.resolveMethod cls refIdx)
  exact fun (_, meth) => h.bind (h.checked (mild_argsWith p meth 1)) fun _ => h.pure _

theorem resolveField (cls : ClassRef) (refIdx : UInt16) :
    C (ClassRef × FieldOff × VMField) (resolveField cls refIdx) := by
  apply h.bind (h.fieldRef cls refIdx)
  intro (fieldClass, fieldIdx)
  apply h.reads _ fun _ _ ht _ => by simp only [ht]
  exact fun r => h.bind (h.expect (by decide) _) fun _ => h.pure _

theorem popStatics_assign (p : Profile) (hd : ∀ slot, S PUnit (dropSlot p slot)) (cls : ClassRef)
    (off : FieldOff) (k : Nat) : C PUnit (popStatics p cls off k) := by
  induction k with
  | zero => exact h.pure _
  | succ k ih =>
    apply h.bind h.popSlotOr
    intro slot
    apply h.reads _ fun _ _ ht _ => by simp only [ht]
    intro r
    cases r.table.static? cls off k with
    | some old =>
      exact h.bind (h.setStatic cls off k slot) fun _ => h.bind (h.onStore (hd old)) fun _ => ih
    | none => exact h.bind (h.panics _ (by decide)) fun _ => ih

end

section
variable (h : Composes S C) (hs : StoreParts p S)
include h hs

theorem ipop : C Int32 (ipop p) := by
  apply h.bind h.popSlotOr
  exact fun slot => h.bind (h.onStore (hs.dropSlot slot)) fun _ => h.pure _

theorem fpop : C F32 (fpop p) := h.bind (h.ipop hs) fun _ => h.pure _

theorem lpop : C Int64 (lpop p) :=
  h.bind (h.ipop hs) fun _ => h.bind (h.ipop hs) fun _ => h.pure _

theorem dpop : C F64 (dpop p) := h.bind (h.lpop hs) fun _ => h.pure _

theorem aload (index : UInt16) : C Addr (aload p index) := by
  apply h.bind h.readContext
  intro c
  apply h.bind (h.okOr _ _)
  exact fun slot => h.bind (h.onStore (hs.cloneRef slot)) fun _ => h.okOr _ _

theorem assignLocal (idx : Nat) (slot : JVMSlot) : C PUnit (assignLocal p idx slot) := by
  apply h.bind h.readContext
  intro c
  cases c.locals[idx]? with
  | some old => exact h.bind (h.context _) fun _ => h.onStore (hs.dropSlot old)
  | none => exact h.panics _ (by decide)

theorem assignLocals (idx : Nat) (slots : List JVMSlot) : C PUnit (assignLocals p idx slots) := by
  induction slots generalizing idx with
  | nil => exact h.pure _
  | cons slot slots ih => exact h.bind (h.assignLocal hs idx slot) fun _ => ih (idx + 1)

theorem vstore (index : UInt16) (value : JVMValue) : C Bool (vstore p index value) := by
  apply h.bind h.readContext
  intro c
  dsimp only
  split
  · exact h.bind (h.assignLocals hs _ _) fun _ => h.pure _
  · exact h.bind (h.onStore (hs.dropSlots _)) fun _ => h.pure _

theorem dup : C PUnit (dup p) := by
  apply h.bind h.popSlot
  intro slot
  cases slot with
  | some slot =>
    apply h.bind (h.onStore (hs.cloneSlot slot))
    exact fun c => h.bind (h.pushSlot c) fun _ => h.pushSlot slot
  | none => exact h.pure _

theorem cloneOption (slot : Option JVMSlot) : C (Option JVMSlot) (cloneOption p slot) := by
  cases slot with
  | some slot => exact h.bind (h.onStore (hs.cloneSlot slot)) fun _ => h.pure _
  | none => exact h.pure _

omit hs in
theorem pushOption (slot : Option JVMSlot) : C PUnit (pushOption slot) := by
  cases slot with
  | some slot => exact h.pushSlot slot
  | none => exact h.pure _

theorem dup2 : C PUnit (dup2 p) := by
  apply h.bind h.popSlot
  intro slot1
  apply h.bind h.popSlot
  intro slot2
  apply h.bind (h.cloneOption hs slot2)
  intro c2
  apply h.bind (h.pushOption c2)
  intro _
  apply h.bind (h.cloneOption hs slot1)
  intro c1
  apply h.bind (h.pushOption c1)
  exact fun _ => h.bind (h.pushOption slot2) fun _ => h.pushOption slot1

theorem popArgs (localsStart n : Nat) : C PUnit (popArgs p localsStart n) := by
  induction n with
  | zero => exact h.pure _
  | succ n ih =>
    apply h.bind h.stackPop
    intro slot
    apply h.bind (h.okOr _ _)
    exact fun slot => h.bind (h.assignLocal hs _ slot) fun _ => ih

theorem popCreateArgs (argsSize : UInt16) : C PUnit (popCreateArgs p argsSize) := by
  apply h.bind h.readContext
  exact fun c => h.bind (h.context _) fun _ => h.popArgs hs _ _

theorem invokeResolved (cls : ClassRef) (refIdx : UInt16) (receiver : Nat) :
    C Outcome (invokeResolved p cls refIdx receiver) := by
  apply h.bind (h.selectMethod p cls refIdx receiver)
  intro callee
  apply h.bind
  · exact h.bind (h.popCreateArgs hs _) fun _ => h.finishPushFrame _ _ _ _
  · exact fun _ => h.pure _

theorem invokeVirtual (cls : ClassRef) (refIdx : UInt16) :
    C Outcome (invokeVirtual p cls refIdx) := by
  apply h.bind (h.selectVirtual p cls refIdx)
  intro (meth, argsSize)
  apply h.bind h.readContext
  intro before
  apply h.bind (h.popCreateArgs hs argsSize)
  intro _
  apply h.bind h.readContext
  intro c
  apply h.bind (h.onStore (hs.receiverClass _))
  intro runtimeClass
  apply h.reads _ fun _ _ ht _ => by simp only [ht]
  intro r
  apply h.bind (h.expect (by decide) _)
  intro objMeth
  apply h.bind (h.expect (by decide) _)
  exact fun code => h.bind (h.finishPushFrame _ _ _ _) fun _ => h.pure _

theorem cloneOntoStack (slots : List JVMSlot) : C PUnit (cloneOntoStack p slots) := by
  induction slots with
  | nil => exact h.pure _
  | cons slot slots ih =>
    apply h.bind (h.onStore (hs.cloneSlot slot))
    exact fun c => h.bind (h.pushSlot c) fun _ => ih

theorem getstatic (cls : ClassRef) (refIdx : UInt16) : C Outcome (getstatic p cls refIdx) := by
  apply h.bind (h.resolveField cls refIdx)
  intro (_, _, field)
  apply h.bind (h.okOr _ _)
  exact fun slots => h.bind (h.cloneOntoStack hs slots) fun _ => h.pure _

theorem putstatic (cls : ClassRef) (refIdx : UInt16) : C Outcome (putstatic p cls refIdx) := by
  apply h.bind (h.resolveField cls refIdx)
  intro (_, _, field)
  apply h.bind (h.okOr _ _)
  exact fun slots => h.bind (h.popStatics_assign p hs.dropSlot _ _ _) fun _ => h.pure _

theorem getField (cls : ClassRef) (refIdx : UInt16) : C Outcome (getField p cls refIdx) := by
  apply h.bind (h.resolveField cls refIdx)
  intro (_, _, field)
  apply h.bind (h.okOr _ _)
  intro off
  apply h.bind h.apop
  intro obj
  apply h.bind (h.onStore (hs.sliceData obj _ _))
  intro slots
  apply h.bind (h.cloneOntoStack hs slots)
  exact fun _ => h.bind (h.onStore (hs.dropRef obj)) fun _ => h.pure _

theorem putField (cls : ClassRef) (refIdx : UInt16) : C Outcome (putField p cls refIdx) := by
  apply h.bind (h.resolveField cls refIdx)
  intro (_, _, field)
  apply h.bind (h.okOr _ _)
  intro off
  apply h.bind h.popSlotOr
  intro gotSlot
  apply h.bind h.apop
  intro obj
  apply h.bind (h.onStore (hs.sliceData obj _ _))
  intro slots
  have hend : C Outcome (do
      Janadinite.onStore (Janadinite.dropRef p obj)
      Pure.pure .next) := h.bind (h.onStore (hs.dropRef obj)) fun _ => h.pure _
  cases slots with
  | nil => exact h.bind (h.panics _ (by decide)) fun _ => hend
  | cons => exact h.bind (h.onStore (hs.assignData obj _ gotSlot)) fun _ => hend

theorem iinc (idx : UInt16) (imm : Int32) : C Outcome (iinc p idx imm) := by
  apply h.bind h.readContext
  intro c
  apply h.bind (h.okOr _ _)
  intro slot
  apply h.bind (h.checked (mild_i32 p _ _ (by decide)))
  exact fun v => h.bind (h.assignLocal hs _ _) fun _ => h.pure _

theorem ifIcmp (lastPc : UInt16) (off : Int16) (test : Int32 → Int32 → Bool) :
    C Outcome (ifIcmp p lastPc off test) :=
  h.bind (h.ipop hs) fun _ => h.bind (h.ipop hs) fun _ => h.pure _

theorem ifZero (lastPc : UInt16) (off : Int16) (test : Int32 → Bool) :
    C Outcome (ifZero p lastPc off test) :=
  h.bind (h.ipop hs) fun _ => h.pure _

theorem arrayLoad : C Outcome (arrayLoad p) := by
  apply h.bind (h.ipop hs)
  intro index
  apply h.bind h.apop
  intro reference
  apply h.looks reference _ fun _ _ _ hd => by simp only [hd]
  intro o
  apply h.bind (h.okOr _ _)
  intro slot
  apply h.bind (h.onStore (hs.cloneSlot slot))
  intro c
  apply h.bind (h.pushSlot c)
  exact fun _ => h.bind (h.onStore (hs.dropRef reference)) fun _ => h.pure _

theorem arrayStore {popValue : VM Runtime JVMSlot} (hp : C JVMSlot popValue) :
    C Outcome (arrayStore p popValue) := by
  apply h.bind hp
  intro value
  apply h.bind (h.ipop hs)
  intro index
  apply h.bind h.apop
  intro reference
  apply h.looks reference _ fun _ _ _ hd => by simp only [hd]
  intro o
  have hend : C Outcome (do
      Janadinite.onStore (Janadinite.dropRef p reference)
      Pure.pure .next) := h.bind (h.onStore (hs.dropRef reference)) fun _ => h.pure _
  cases o.data[usizeOf index]? with
  | some _ => exact h.bind (h.onStore (hs.assignData reference _ value)) fun _ => hend
  | none => exact h.bind (h.fail _) fun _ => hend

omit hs in
theorem popObjectSlot : C JVMSlot popObjectSlot := h.bind h.apop fun _ => h.pure _

theorem wideIndex : C Int32 (wideIndex p) := by
  apply h.bind (h.ipop hs)
  exact fun index => h.checked (mild_i32 p _ _ (by decide))

theorem cloneData (reference : Addr) (i : Nat) : C PUnit (cloneData p reference i) := by
  apply h.bind (h.onStore (hs.indexData reference i))
  intro slot
  exact h.bind (h.onStore (hs.cloneSlot slot)) fun c => h.pushSlot c

theorem wideArrayLoad : C Outcome (wideArrayLoad p) := by
  apply h.bind (h.wideIndex hs)
  intro index
  apply h.bind h.apop
  intro reference
  apply h.bind (h.onStore (hs.checkWide reference index))
  intro second
  apply h.bind (h.cloneData hs reference _)
  intro _
  apply h.bind (h.cloneData hs reference second)
  exact fun _ => h.bind (h.onStore (hs.dropRef reference)) fun _ => h.pure _

theorem wideArrayStore : C Outcome (wideArrayStore p) := by
  apply h.bind (h.lpop hs)
  intro value
  apply h.bind (h.wideIndex hs)
  intro index
  apply h.bind h.apop
  intro reference
  apply h.bind (h.onStore (hs.checkWide reference index))
  intro second
  have hend : C Outcome (do
      Janadinite.onStore (Janadinite.dropRef p reference)
      Pure.pure .next) := h.bind (h.onStore (hs.dropRef reference)) fun _ => h.pure _
  dsimp only
  split
  · apply h.bind (h.onStore (hs.assignData reference _ _))
    exact fun _ => h.bind (h.onStore (hs.assignData reference second _)) fun _ => hend
  · exact hend

theorem arrayLength : C Outcome (arrayLength p) := by
  apply h.bind h.apop
  intro reference
  apply h.looks reference _ fun _ _ hk hd => by simp only [hk, hd]
  intro o
  have hend : C Outcome (do
      Janadinite.onStore (Janadinite.dropRef p reference)
      Pure.pure .next) := h.bind (h.onStore (hs.dropRef reference)) fun _ => h.pure _
  cases o.kind with
  | «instance» cls => exact h.bind (h.fail _) fun _ => hend
  | array size => exact h.bind (h.pushSlot _) fun _ => hend

end

section
variable (h : Composes S C) (hs : StoreParts p S) (ha : AllocationParts p S)
include h hs ha

omit hs in
theorem newObject (cls : ClassRef) (classRef : UInt16) : C Outcome (newObject p cls classRef) := by
  apply h.bind (h.classRef cls classRef)
  intro newClass
  apply h.reads _ fun _ _ ht _ => by simp only [ht]
  intro r
  exact h.bind (h.onStore (ha.allocateInner _ _)) fun a => h.pushThen (h.pushSlot _)

theorem newArray (t : UInt8) : C Outcome (newArray p t) := by
  apply h.bind (h.expect (by decide) _)
  intro prim
  apply h.bind (h.ipop hs)
  exact fun len => h.bind (h.onStore (ha.allocateArray _ _)) fun a => h.pushThen (h.pushSlot _)

theorem aNewArray (cls : ClassRef) (refIdx : UInt16) : C Outcome (aNewArray p cls refIdx) := by
  apply h.bind (h.arrayRef cls refIdx)
  intro _
  apply h.bind (h.ipop hs)
  exact fun len => h.bind (h.onStore (ha.allocateArray _ _)) fun a => h.pushThen (h.pushSlot _)

omit ha in
theorem nextCount (ha : ArrayParts p S) (last : Option BareObject) :
    C Int32 (nextCount p last) := by
  apply h.bind h.popSlot
  intro slot
  cases slot with
  | some slot => exact h.bind (h.onStore (hs.dropSlot slot)) fun _ => h.pure _
  | none =>
    apply h.bind (h.onStore (ha.dropLast last))
    exact fun _ => h.bind (h.onStore ha.unlockHeap) fun _ => h.fail _

omit ha in
theorem addDimensions (ha : ArrayParts p S) (lastDimOSize : NonZeroU16) (n : Nat)
    (last : Option BareObject) :
    C (Option BareObject) (addDimensions p lastDimOSize n last) := by
  induction n generalizing last with
  | zero => exact h.pure _
  | succ n ih =>
    apply h.bind (h.nextCount hs ha last)
    exact fun len => h.bind (h.onStore (ha.addDimension last len _)) fun obj => ih (some obj)

theorem allocateMultiarray (dimensions : Nat) (lastDimOSize : NonZeroU16) :
    C Addr (allocateMultiarray p dimensions lastDimOSize) := by
  apply h.bind (h.onStore ha.lockOrStop)
  intro _
  apply h.bind (h.addDimensions hs ha.toArrayParts lastDimOSize dimensions none)
  intro last
  cases last with
  | some obj =>
    apply h.bind (h.onStore (ha.allocateFromObject _ _))
    exact fun a => h.bind (h.onStore ha.unlockHeap) fun _ => h.pure _
  | none => exact h.bind (h.onStore ha.unlockHeap) fun _ => h.fail _

theorem multiANewArray (cls : ClassRef) (refIdx : UInt16) (dim : UInt8) :
    C Outcome (multiANewArray p cls refIdx dim) := by
  rw [Janadinite.multiANewArray]
  split
  · exact h.fail _
  · have hend (size : NonZeroU16) : C Outcome (do
        let instance_ ← Janadinite.allocateMultiarray p dim.toNat size
        apush instance_
        Pure.pure .next) :=
      h.bind (h.allocateMultiarray hs ha _ size) fun a => h.pushThen (h.pushSlot _)
    apply h.bind (h.arrayRef cls refIdx)
    intro found
    cases found with
    | «class» cls => exact h.bind (h.pure _) hend
    | primitiveArray dimensions ty => exact h.bind (h.pure _) hend
    | classArray dimensions cls => exact h.bind (h.pure _) hend

end

variable [FloatArith]

/-- Every instruction is made of such parts. -/
theorem execute (h : Composes S C) (hs : StoreParts p S)
    (ha : op.allocates = true → AllocationParts p S) (cls : ClassRef) (lastPc : UInt16) :
    C Outcome (execute p cls lastPc op) := by
  have hi := h.ipop hs
  have hl := h.lpop hs
  have hf := h.fpop hs
  have hd := h.dpop hs
  have pushI (v : Int32) : C PUnit (ipush v) := h.pushSlot _
  have pushL (v : Int64) : C PUnit (lpush v) := h.pushSlots _
  have pushF (v : F32) : C PUnit (fpush v) := h.pushSlot _
  have pushD (v : F64) : C PUnit (dpush v) := h.pushSlots _
  have hmul : divideByZero ≠ unlistedMsg := by decide
  have hrem : remainderOfZero ≠ unlistedMsg := by decide
  cases op with
  | lconst0 | lconst1 => exact h.pushThen (pushL _)
  | fconst0 | fconst1 | fconst2 => exact h.pushThen (pushF _)
  | dconst0 | dconst1 => exact h.pushThen (pushD _)
  | ldc | ldcW => exact h.ldc cls _
  | ldc2W refIdx => exact h.ldc2W cls refIdx
  | invokeStatic refIdx => exact h.invokeResolved hs cls refIdx 0
  | invokeSpecial refIdx => exact h.invokeResolved hs cls refIdx 1
  | invokeVirtual refIdx => exact h.invokeVirtual hs cls refIdx
  | getstatic refIdx => exact h.getstatic hs cls refIdx
  | putstatic refIdx => exact h.putstatic hs cls refIdx
  | getField refIdx => exact h.getField hs cls refIdx
  | putField refIdx => exact h.putField hs cls refIdx
  | bipush => exact h.pushThen (pushI _)
  | iload | wideIload => exact h.loadOp (h.iload _) pushI
  | fload | wideFload => exact h.loadOp (h.fload _) pushF
  | lload | wideLload => exact h.loadOp (h.lload p _) pushL
  | dload | wideDload => exact h.loadOp (h.dload p _) pushD
  | aload | wideAload => exact h.loadOp (h.aload hs _) fun _ => h.pushSlot _
  | aStore | wideAStore => exact h.storeOp (fun _ => h.vstore hs _ _) h.apop
  | iStore | wideIStore => exact h.storeOp (fun _ => h.vstore hs _ _) hi
  | fStore | wideFStore => exact h.storeOp (fun _ => h.vstore hs _ _) hf
  | lStore | wideLStore => exact h.storeOp (fun _ => h.vstore hs _ _) hl
  | dStore | wideDStore => exact h.storeOp (fun _ => h.vstore hs _ _) hd
  | iinc | wideIinc => exact h.iinc hs _ _
  | imul | isub | iadd | iand | ior | ixor | ishl | ishr | iushr => exact h.pure2_1 hi pushI _
  | lmul | lsub | ladd | land | lor | lxor | lshl | lshr | lushr => exact h.pure2_1 hl pushL _
  | fmul | fdiv | fsub | fadd | frem => exact h.pure2_1 hf pushF _
  | dmul | ddiv | dsub | dadd | drem => exact h.pure2_1 hd pushD _
  | idiv => exact h.op2_1 hi pushI fun _ _ => mild_nonZero _ _ _ hmul
  | ldiv => exact h.op2_1 hl pushL fun _ _ => mild_nonZero _ _ _ hmul
  | irem => exact h.op2_1 hi pushI fun _ _ => mild_nonZero _ _ _ hrem
  | lrem => exact h.op2_1 hl pushL fun _ _ => mild_nonZero _ _ _ hrem
  | ineg => exact h.op1_1 hi pushI _
  | lneg => exact h.op1_1 hl pushL _
  | fneg => exact h.op1_1 hf pushF _
  | dneg => exact h.op1_1 hd pushD _
  | i2l => exact h.op1_1 hi pushL _
  | i2f => exact h.op1_1 hi pushF _
  | i2d => exact h.op1_1 hi pushD _
  | lcmp => exact h.pure2_1 hl pushI _
  | fcmpg | fcmpl => exact h.pure2_1 hf pushI _
  | dcmpg | dcmpl => exact h.pure2_1 hd pushI _
  | goto => exact h.pure _
  | ifIcmpEq | ifIcmpNe | ifIcmpGe | ifIcmpLe | ifIcmpGt | ifIcmpLt => exact h.ifIcmp hs lastPc _ _
  | ifNe | ifEq => exact h.ifZero hs lastPc _ _
  | «return» => exact h.pure _
  | iReturn => exact h.returnOp _ hi
  | aReturn => exact h.returnOp _ h.apop
  | lReturn => exact h.returnOp _ hl
  | fReturn => exact h.returnOp _ hf
  | dReturn => exact h.returnOp _ hd
  | aaLoad | baLoad | caLoad | iaLoad | faLoad | saLoad => exact h.arrayLoad hs
  | aaStore => exact h.arrayStore hs h.popObjectSlot
  | baStore | iaStore | caStore | saStore | faStore => exact h.arrayStore hs h.popSlotOr
  | daLoad | laLoad => exact h.wideArrayLoad hs
  | laStore | daStore => exact h.wideArrayStore hs
  | arrayLength => exact h.arrayLength hs
  | new classRef => exact h.newObject (ha rfl) cls classRef
  | newArray t => exact h.newArray hs (ha rfl) t
  | aNewArray refIdx => exact h.aNewArray hs (ha rfl) cls refIdx
  | multiANewArray refIdx dim => exact h.multiANewArray hs (ha rfl) cls refIdx dim
  | dup => exact h.pushThen (h.dup hs)
  | dup2 => exact h.pushThen (h.dup2 hs)
  | dup2X1 | dup2X2 | dupX1 | dupX2 => exact h.panics _ (by decide)
  | invalid => exact h.pure _

end Composes

end Janadinite
