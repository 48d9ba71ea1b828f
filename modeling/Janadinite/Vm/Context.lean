import Janadinite.Vm.Heap
import Janadinite.Vm.Resolve

namespace Janadinite
set_option autoImplicit true

/-- Describes the beginning of a stack frame in a method. -/
structure StackFrame where
  methRef : UInt16
  stackStart : Nat
  maxStack : UInt16
  localsStart : Nat
  deriving DecidableEq, Repr

def StackFrame.default : StackFrame := ⟨0, 0, 0, 0⟩

/-- The operand stacks and the locals of all frames; the last of `prevFrames` comes first. -/
structure ThreadContext where
  stack : List JVMSlot
  locals : List JVMSlot
  prevFrames : List StackFrame
  currentFrame : StackFrame
  deriving DecidableEq, Repr

/-- What running code works on: the classes, the memory and the context of the thread. -/
structure Runtime where
  table : ClassTable
  store : Store
  context : ThreadContext

def onStore (m : VM Store α) : VM Runtime α := fun r =>
  match m r.store with
  | .ok a store => .ok a { r with store }
  | .error e store => .error e { r with store }

def onTable (m : VM ClassTable α) : VM Runtime α := fun r =>
  match m r.table with
  | .ok a table => .ok a { r with table }
  | .error e table => .error e { r with table }

def readContext : VM Runtime ThreadContext := do
  let r ← get
  pure r.context

def modifyContext (f : ThreadContext → ThreadContext) : VM Runtime PUnit :=
  modify fun r => { r with context := f r.context }

namespace ThreadContext

def new (maxStack maxLocals : UInt16) : ThreadContext where
  stack := []
  locals := List.replicate maxLocals.toNat .null
  prevFrames := []
  currentFrame := ⟨0, 0, maxStack, 0⟩

def pushSlot (slot : JVMSlot) : VM Runtime PUnit :=
  modifyContext fun c => { c with stack := c.stack ++ [slot] }

def pushSlots : List JVMSlot → VM Runtime PUnit
  | [] => pure ⟨⟩
  | slot :: slots => do
    pushSlot slot
    pushSlots slots

def pushValue (v : JVMValue) : VM Runtime PUnit := pushSlots v.toSlots

def ipush (v : Int32) : VM Runtime PUnit := pushSlot (.fromI32 v)
def fpush (v : F32) : VM Runtime PUnit := ipush v.bits.toInt32
def lpush (v : Int64) : VM Runtime PUnit := pushValue (.long v)
def dpush (v : F64) : VM Runtime PUnit := pushValue (.double v)
def apush (obj : Addr) : VM Runtime PUnit := pushSlot (.fromObject obj)

def stackPop : VM Runtime (Option JVMSlot) := do
  let c ← readContext
  match c.stack.getLast? with
  | some slot =>
    modifyContext fun c => { c with stack := c.stack.dropLast }
    pure (some slot)
  | none => pure none

def popSlot : VM Runtime (Option JVMSlot) := do
  let c ← readContext
  if c.stack.length ≤ c.currentFrame.stackStart then pure none
  else stackPop

/-- `pop_slot().ok_or(VMError::StackUnderflow)?` -/
def popSlotOr : VM Runtime JVMSlot := do
  let slot ← popSlot
  okOr .stackUnderflow slot

/-- The slot that is popped is dropped. -/
def ipop (p : Profile) : VM Runtime Int32 := do
  let slot ← popSlotOr
  onStore (dropSlot p slot)
  pure slot.asI32

def fpop (p : Profile) : VM Runtime F32 := do
  let i ← ipop p
  pure ⟨i.toUInt32⟩

def apop : VM Runtime Addr := do
  let slot ← popSlotOr
  okOr .notAnObject slot.object?

def lpop (p : Profile) : VM Runtime Int64 := do
  let high ← ipop p
  let low ← ipop p
  pure (low.toUInt32.toUInt64 ||| high.toUInt32.toUInt64 <<< 32).toInt64

def dpop (p : Profile) : VM Runtime F64 := do
  let l ← lpop p
  pure ⟨l.toUInt64⟩

def local? (c : ThreadContext) (index : UInt16) : Option JVMSlot :=
  c.locals[index.toNat + c.currentFrame.localsStart]?

def iload (index : UInt16) : VM Runtime Int32 := do
  let c ← readContext
  let slot ← okOr (.invalidLocal index) (c.local? index)
  pure slot.asI32

def fload (index : UInt16) : VM Runtime F32 := do
  let i ← iload index
  pure ⟨i.toUInt32⟩

def lload (p : Profile) (index : UInt16) : VM Runtime Int64 := do
  let low ← iload index
  let next ← checked (p.add 16 index.toNat 1)
  let high ← iload (.ofNat next)
  pure (low.toUInt32.toUInt64 ||| high.toUInt32.toUInt64 <<< 32).toInt64

def dload (p : Profile) (index : UInt16) : VM Runtime F64 := do
  let l ← lload p index
  pure ⟨l.toUInt64⟩

def aload (p : Profile) (index : UInt16) : VM Runtime Addr := do
  let c ← readContext
  let slot ← okOr (.invalidLocal index) (c.local? index)
  let obj ← onStore (withObject p slot arcClone)
  okOr .notAnObject obj

/-- An assignment to a local, which drops what was there. -/
def assignLocal (p : Profile) (idx : Nat) (slot : JVMSlot) : VM Runtime PUnit := do
  let c ← readContext
  match c.locals[idx]? with
  | some old =>
    modifyContext fun c => { c with locals := c.locals.set idx slot }
    onStore (dropSlot p old)
  | none => panicWith "index out of bounds"

def assignLocals (p : Profile) : Nat → List JVMSlot → VM Runtime PUnit
  | _, [] => pure ⟨⟩
  | idx, slot :: slots => do
    assignLocal p idx slot
    assignLocals p (idx + 1) slots

def vstore (p : Profile) (index : UInt16) (value : JVMValue) : VM Runtime Bool := do
  let c ← readContext
  let idx := index.toNat + c.currentFrame.localsStart
  if idx + value.slotCount ≤ c.locals.length then do
    assignLocals p idx value.toSlots
    pure true
  else do
    onStore (dropSlots p value.toSlots)
    pure false

def astore (p : Profile) (index : UInt16) (value : Addr) : VM Runtime Bool :=
  vstore p index (.object value)

def istore (p : Profile) (index : UInt16) (value : Int32) : VM Runtime Bool :=
  vstore p index (.int value)

def fstore (p : Profile) (index : UInt16) (value : F32) : VM Runtime Bool :=
  vstore p index (.float value)

def lstore (p : Profile) (index : UInt16) (value : Int64) : VM Runtime Bool :=
  vstore p index (.long value)

def dstore (p : Profile) (index : UInt16) (value : F64) : VM Runtime Bool :=
  vstore p index (.double value)

def cloneOption (p : Profile) : Option JVMSlot → VM Runtime (Option JVMSlot)
  | some slot => do
    let c ← onStore (cloneSlot p slot)
    pure (some c)
  | none => pure none

def pushOption : Option JVMSlot → VM Runtime PUnit
  | some slot => pushSlot slot
  | none => pure ⟨⟩

def dup (p : Profile) : VM Runtime PUnit := do
  match ← popSlot with
  | some slot => do
    let c ← onStore (cloneSlot p slot)
    pushSlot c
    pushSlot slot
  | none => pure ⟨⟩

def dup2 (p : Profile) : VM Runtime PUnit := do
  let slot1 ← popSlot
  let slot2 ← popSlot
  let c2 ← cloneOption p slot2
  pushOption c2
  let c1 ← cloneOption p slot1
  pushOption c1
  pushOption slot2
  pushOption slot1

/-- The loop of `pop_create_args`, for the arguments before the `n`th. -/
def popArgs (p : Profile) (localsStart : Nat) : Nat → VM Runtime PUnit
  | 0 => pure ⟨⟩
  | n + 1 => do
    let slot ← stackPop
    let slot ← okOr .stackUnderflow slot
    assignLocal p (localsStart + n) slot
    popArgs p localsStart n

def popCreateArgs (p : Profile) (argsSize : UInt16) : VM Runtime PUnit := do
  let c ← readContext
  modifyContext fun c => { c with locals := c.locals ++ List.replicate argsSize.toNat .null }
  popArgs p c.locals.length argsSize.toNat

def finishPushFrame (methRef maxLocals maxStack argsSize : UInt16) : VM Runtime PUnit :=
  if maxLocals < argsSize then panicWith "assertion failed: max_locals >= args_size"
  else modifyContext fun c =>
    let localsStart := c.locals.length - argsSize.toNat
    { c with
      locals := c.locals ++
        List.replicate (localsStart + maxLocals.toNat - c.locals.length) .null
      prevFrames := c.currentFrame :: c.prevFrames
      currentFrame := { methRef, maxStack, localsStart, stackStart := c.stack.length } }

def pushFrame (p : Profile) (methRef maxStack maxLocals argsSize : UInt16) : VM Runtime PUnit := do
  popCreateArgs p argsSize
  finishPushFrame methRef maxLocals maxStack argsSize

/-- Truncation drops the slots behind the new length. -/
def popFrame (p : Profile) : VM Runtime PUnit := do
  let c ← readContext
  modifyContext fun c => { c with
    currentFrame := c.prevFrames.headD .default, prevFrames := c.prevFrames.tail }
  modifyContext fun d => { d with locals := d.locals.take c.currentFrame.localsStart }
  onStore (dropSlots p (c.locals.drop c.currentFrame.localsStart))
  modifyContext fun d => { d with stack := d.stack.take c.currentFrame.stackStart }
  onStore (dropSlots p (c.stack.drop c.currentFrame.stackStart))

end ThreadContext

end Janadinite
