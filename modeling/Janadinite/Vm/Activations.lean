import Janadinite.Vm.MachineOwned

namespace Janadinite
open Runs Hoare ThreadContext
set_option autoImplicit true

def OpCode.branch : OpCode → Option Int16
  | .goto off => some off
  | .ifIcmpEq off => some off
  | .ifIcmpNe off => some off
  | .ifIcmpGe off => some off
  | .ifIcmpLe off => some off
  | .ifIcmpGt off => some off
  | .ifIcmpLt off => some off
  | .ifNe off => some off
  | .ifEq off => some off
  | _ => none

def JumpsTo (T : UInt16 → Prop) (m : VM Runtime Outcome) : Prop :=
  ∀ r pc r', m r = .ok (.jump pc) r' → T pc

namespace JumpsTo
variable {T : UInt16 → Prop}

theorem pure (h : ∀ pc, o = .jump pc → T pc) : JumpsTo T (pure o) := by
  intro r pc r' hm
  cases hm
  exact h pc rfl

theorem bind {m : VM Runtime α} {f : α → VM Runtime Outcome} (h : ∀ a, JumpsTo T (f a)) :
    JumpsTo T (m >>= f) := by
  intro r pc r' hm
  obtain ⟨a, s, -, hf⟩ := bind_ok hm
  exact h a s pc r' hf

theorem fail (e : VMError) : JumpsTo T (fail e) := nofun

theorem panicWith (msg : String) : JumpsTo T (panicWith msg) := nofun

theorem next : JumpsTo T (Pure.pure .next) := pure nofun

theorem pushThen (push : VM Runtime PUnit) : JumpsTo T (pushThen push) := bind fun _ => next

theorem op2_1 (pop : VM Runtime α) (push : β → VM Runtime PUnit) (op : α → α → Except String β) :
    JumpsTo T (op2_1 pop push op) :=
  bind fun _ => bind fun _ => bind fun _ => bind fun _ => next

theorem op1_1 (pop : VM Runtime α) (push : β → VM Runtime PUnit) (op : α → β) :
    JumpsTo T (op1_1 pop push op) :=
  bind fun _ => bind fun _ => next

theorem loadOp (load : UInt16 → VM Runtime α) (push : α → VM Runtime PUnit) (idx : UInt16) :
    JumpsTo T (loadOp load push idx) :=
  bind fun _ => bind fun _ => next

theorem storeOp (store : UInt16 → α → VM Runtime Bool) (pop : VM Runtime α) (idx : UInt16) :
    JumpsTo T (storeOp store pop idx) := by
  apply bind
  intro v
  apply bind
  intro stored
  cases stored with
  | true => exact next
  | false => exact fail _

theorem returnOp (value : α → JVMValue) (pop : VM Runtime α) : JumpsTo T (returnOp value pop) :=
  bind fun _ => pure nofun

theorem ldc (cls : ClassRef) (idx : UInt16) : JumpsTo T (ldc cls idx) := by
  apply bind
  intro entry
  split
  · exact pushThen _
  · exact pushThen _
  · exact fail _

theorem ldc2W (cls : ClassRef) (refIdx : UInt16) : JumpsTo T (ldc2W cls refIdx) := by
  apply bind
  intro entry
  split
  · exact pushThen _
  · exact pushThen _
  · exact fail _

theorem invokeResolved (p : Profile) (cls : ClassRef) (refIdx : UInt16) (receiver : Nat) :
    JumpsTo T (invokeResolved p cls refIdx receiver) :=
  bind fun _ => bind fun _ => pure nofun

theorem invokeVirtual (p : Profile) (cls : ClassRef) (refIdx : UInt16) :
    JumpsTo T (invokeVirtual p cls refIdx) :=
  bind fun _ => bind fun _ => bind fun _ => bind fun _ => bind fun _ => bind fun _ =>
    bind fun _ => bind fun _ => bind fun _ => pure nofun

theorem getstatic (p : Profile) (cls : ClassRef) (refIdx : UInt16) :
    JumpsTo T (getstatic p cls refIdx) :=
  bind fun _ => bind fun _ => bind fun _ => next

theorem putstatic (p : Profile) (cls : ClassRef) (refIdx : UInt16) :
    JumpsTo T (putstatic p cls refIdx) :=
  bind fun _ => bind fun _ => bind fun _ => next

theorem getField (p : Profile) (cls : ClassRef) (refIdx : UInt16) :
    JumpsTo T (getField p cls refIdx) :=
  bind fun _ => bind fun _ => bind fun _ => bind fun _ => bind fun _ => bind fun _ => next

theorem putField (p : Profile) (cls : ClassRef) (refIdx : UInt16) :
    JumpsTo T (putField p cls refIdx) := by
  apply bind
  intro field
  apply bind
  intro off
  apply bind
  intro slot
  apply bind
  intro obj
  apply bind
  intro slots
  cases slots with
  | nil => exact bind fun _ => bind fun _ => next
  | cons => exact bind fun _ => bind fun _ => next

theorem iinc (p : Profile) (idx : UInt16) (imm : Int32) : JumpsTo T (iinc p idx imm) :=
  bind fun _ => bind fun _ => bind fun _ => bind fun _ => next

theorem jumpIf (h : T (saturatingAddSigned lastPc off)) (isTrue : Bool) :
    JumpsTo T (Pure.pure (jumpIf lastPc off isTrue)) := by
  cases isTrue with
  | true =>
    apply pure
    intro pc hpc
    cases hpc
    exact h
  | false => exact next

theorem ifIcmp (p : Profile) (h : T (saturatingAddSigned lastPc off))
    (test : Int32 → Int32 → Bool) : JumpsTo T (ifIcmp p lastPc off test) :=
  bind fun _ => bind fun _ => jumpIf h _

theorem ifZero (p : Profile) (h : T (saturatingAddSigned lastPc off)) (test : Int32 → Bool) :
    JumpsTo T (ifZero p lastPc off test) :=
  bind fun _ => jumpIf h _

theorem arrayLoad (p : Profile) : JumpsTo T (arrayLoad p) :=
  bind fun _ => bind fun _ => bind fun _ => bind fun _ => bind fun _ => bind fun _ =>
    bind fun _ => next

theorem arrayStore (p : Profile) (popValue : VM Runtime JVMSlot) :
    JumpsTo T (arrayStore p popValue) := by
  apply bind
  intro value
  apply bind
  intro index
  apply bind
  intro reference
  apply bind
  intro o
  cases o.data[usizeOf index]? with
  | some _ => exact bind fun _ => bind fun _ => next
  | none => exact bind fun _ => bind fun _ => next

theorem wideArrayLoad (p : Profile) : JumpsTo T (wideArrayLoad p) :=
  bind fun _ => bind fun _ => bind fun _ => bind fun _ => bind fun _ => bind fun _ => next

theorem wideArrayStore (p : Profile) : JumpsTo T (wideArrayStore p) := by
  apply bind
  intro value
  apply bind
  intro index
  apply bind
  intro reference
  apply bind
  intro second
  split
  · exact bind fun _ => bind fun _ => bind fun _ => next
  · exact bind fun _ => next

theorem arrayLength (p : Profile) : JumpsTo T (arrayLength p) := by
  apply bind
  intro reference
  apply bind
  intro o
  split
  · exact bind fun _ => bind fun _ => next
  · exact bind fun _ => bind fun _ => next

theorem newObject (p : Profile) (cls : ClassRef) (classRef : UInt16) :
    JumpsTo T (newObject p cls classRef) :=
  bind fun _ => bind fun _ => bind fun _ => bind fun _ => next

theorem newArray (p : Profile) (t : UInt8) : JumpsTo T (newArray p t) :=
  bind fun _ => bind fun _ => bind fun _ => bind fun _ => next

theorem aNewArray (p : Profile) (cls : ClassRef) (refIdx : UInt16) :
    JumpsTo T (aNewArray p cls refIdx) :=
  bind fun _ => bind fun _ => bind fun _ => bind fun _ => next

theorem multiANewArray (p : Profile) (cls : ClassRef) (refIdx : UInt16) (dim : UInt8) :
    JumpsTo T (multiANewArray p cls refIdx dim) := by
  unfold Janadinite.multiANewArray
  split
  · exact fail _
  · apply bind
    intro cls
    cases cls with
    | «class» => exact bind fun _ => bind fun _ => bind fun _ => next
    | classArray => exact bind fun _ => bind fun _ => bind fun _ => next
    | primitiveArray => exact bind fun _ => bind fun _ => bind fun _ => next

end JumpsTo

/-- Only a branch jumps, by its offset from the address in `lastPc`. -/
theorem execute_jumps [FloatArith] (p : Profile) (cls : ClassRef) (lastPc : UInt16) (op : OpCode) :
    JumpsTo (fun pc => ∃ off, op.branch = some off ∧ pc = saturatingAddSigned lastPc off)
      (execute p cls lastPc op) := by
  cases op
  case goto off =>
    apply JumpsTo.pure
    intro pc hpc
    cases hpc
    exact ⟨off, rfl, rfl⟩
  case ifIcmpEq | ifIcmpNe | ifIcmpGe | ifIcmpLe | ifIcmpGt | ifIcmpLt =>
    exact JumpsTo.ifIcmp p ⟨_, rfl, rfl⟩ _
  case ifNe | ifEq => exact JumpsTo.ifZero p ⟨_, rfl, rfl⟩ _
  case lconst0 | lconst1 | fconst0 | fconst1 | fconst2 | dconst0 | dconst1 | bipush | dup | dup2 =>
    exact JumpsTo.pushThen _
  case ldc | ldcW => exact JumpsTo.ldc cls _
  case ldc2W => exact JumpsTo.ldc2W cls _
  case iload | fload | lload | dload | aload | wideIload | wideFload | wideLload | wideDload |
      wideAload =>
    exact JumpsTo.loadOp _ _ _
  case iStore | fStore | lStore | dStore | aStore | wideIStore | wideFStore | wideLStore |
      wideDStore | wideAStore =>
    exact JumpsTo.storeOp _ _ _
  case iinc | wideIinc => exact JumpsTo.iinc p _ _
  case imul | isub | iadd | iand | ior | ixor | ishl | ishr | iushr | lmul | lsub | ladd | land |
      lor | lxor | lshl | lshr | lushr | fmul | fdiv | fsub | fadd | frem | dmul | ddiv | dsub |
      dadd | drem | idiv | irem | ldiv | lrem | lcmp | fcmpg | fcmpl | dcmpg | dcmpl =>
    exact JumpsTo.op2_1 _ _ _
  case ineg | lneg | fneg | dneg | i2l | i2f | i2d => exact JumpsTo.op1_1 _ _ _
  case «return» => exact JumpsTo.pure nofun
  case iReturn | lReturn | fReturn | dReturn | aReturn => exact JumpsTo.returnOp _ _
  case invokeStatic | invokeSpecial => exact JumpsTo.invokeResolved p cls _ _
  case invokeVirtual => exact JumpsTo.invokeVirtual p cls _
  case aaLoad | baLoad | caLoad | iaLoad | faLoad | saLoad => exact JumpsTo.arrayLoad p
  case aaStore | baStore | iaStore | caStore | saStore | faStore => exact JumpsTo.arrayStore p _
  case daLoad | laLoad => exact JumpsTo.wideArrayLoad p
  case laStore | daStore => exact JumpsTo.wideArrayStore p
  case arrayLength => exact JumpsTo.arrayLength p
  case getstatic => exact JumpsTo.getstatic p cls _
  case putstatic => exact JumpsTo.putstatic p cls _
  case getField => exact JumpsTo.getField p cls _
  case putField => exact JumpsTo.putField p cls _
  case new => exact JumpsTo.newObject p cls _
  case newArray => exact JumpsTo.newArray p _
  case aNewArray => exact JumpsTo.aNewArray p cls _
  case multiANewArray => exact JumpsTo.multiANewArray p cls _ _
  case dupX1 | dupX2 | dup2X1 | dup2X2 => exact JumpsTo.panicWith _
  case invalid => exact JumpsTo.next

section
variable (Run : Activation → Prop) (Perf : Activation → OpCode → Prop)

mutual

def CodeCaller.Along : CodeCaller → Prop
  | .main => True
  | .invoke act caller => Run { act with lastPc := act.instr.pc } ∧ caller.Along
  | .clinit _ caller => caller.Along

def LoadCaller.Along : LoadCaller → Prop
  | .open => True
  | .perform act op _ caller => Perf act op ∧ caller.Along
  | .superClass _ _ caller => caller.Along

end

/-- What holds of the calls of `run_code` in progress: `Run` at the begin of the loop, `Perf` when
the next instruction has been decoded. A call that waits for an invoke goes on at the end of the
loop. -/
def Control.Along : Control → Prop
  | .run act _ caller => Run act ∧ caller.Along Run Perf
  | .perform act op _ caller => Perf act op ∧ caller.Along Run Perf
  | .load _ caller => caller.Along Run Perf
  | .loaded _ caller => caller.Along Run Perf
  | .finished _ => True

/-- A round of the loop of `run_code` keeps `Run`, with `Perf` in its midst, when the instruction is
fetched under the condition `Fetch`. -/
structure LoopRule (Fetch : Activation → Prop) (p : Profile) : Prop where
  start : ∀ cls method code, Run (.start cls method code)
  fetch : ∀ {act op instr}, Run act → Fetch act → act.instr.nextOp p = .ok (some op, instr) →
    Perf { act with instr } op
  next : ∀ {act op}, Perf act op → Run { act with lastPc := act.instr.pc }
  jump : ∀ {act op off}, Perf act op → op.branch = some off →
    let pc := saturatingAddSigned act.lastPc off
    Run { act with instr := act.instr.setPc pc, lastPc := pc }

end

namespace LoopRule
variable {Run Fetch : Activation → Prop} {Perf : Activation → OpCode → Prop} {p : Profile}
  {m m' : Machine}

theorem returning [FloatArith] (hm : m.control.Along Run Perf)
    (hr : m.Returning p result r caller) : caller.Along Run Perf := by
  cases hr with
  | codeEnds hc =>
    rw [hc] at hm
    exact hm.2
  | instruction hc =>
    rw [hc] at hm
    exact hm.2

theorem making {superClass : Option ClassRef} {caller : LoadCaller}
    (hm : m.control.Along Run Perf) (h : m.Making path name cls superClass caller) :
    caller.Along Run Perf := by
  cases h with
  | root hc =>
    rw [hc] at hm
    exact hm
  | derived hc =>
    rw [hc] at hm
    exact hm

theorem step [FloatArith] (rule : LoopRule Run Perf Fetch p) (hm : m.control.Along Run Perf)
    (hf : ∀ act context caller, m.control = .run act context caller → Fetch act)
    (h : m.Advances p path m') : m'.control.Along Run Perf := by
  cases h with
  | fetch hc hop =>
    rw [hc] at hm
    exact ⟨rule.fetch hm.1 (hf _ _ _ hc) hop, hm.2⟩
  | next hc =>
    rw [hc] at hm
    exact ⟨rule.next hm.1, hm.2⟩
  | jump hc hx =>
    rw [hc] at hm
    obtain ⟨off, hoff, rfl⟩ := execute_jumps p _ _ _ _ _ _ hx
    exact ⟨rule.jump hm.1 hoff, hm.2⟩
  | call hc =>
    rw [hc] at hm
    exact ⟨rule.start _ _ _, rule.next hm.1, hm.2⟩
  | needs hc =>
    rw [hc] at hm
    exact hm
  | finish => trivial
  | leave hr => exact returning hm hr
  | endClinit hr => exact returning hm hr
  | found hc =>
    rw [hc] at hm
    exact hm
  | superclass hc =>
    rw [hc] at hm
    exact hm
  | create hmk => exact making hm hmk
  | startClinit hmk => exact ⟨rule.start _ _ _, making hm hmk⟩
  | startMain => exact ⟨rule.start _ _ _, trivial⟩
  | resume hc =>
    rw [hc] at hm
    exact hm
  | superFound hc =>
    rw [hc] at hm
    exact hm
  | idle => exact hm

theorem reaches [FloatArith] {path : ClassPath} {Ok : Machine → Machine.Event → Prop}
    {Start : Machine → Prop} (rule : LoopRule Run Perf Fetch p)
    (h : Reaches (Machine.Step p path) Ok Start m)
    (hok : ∀ m, Ok m .main → ∀ act context caller, m.control = .run act context caller → Fetch act)
    (hstart : ∀ m, Start m → m.control.Along Run Perf) : m.control.Along Run Perf := by
  apply h.invariant hstart
  intro m e m' hm ok hstep
  cases e with
  | main => exact rule.step hm (hok m ok) (Machine.next_advances hstep)
  | gcThread =>
    rw [(Machine.wakeGc_keeps hstep).1]
    exact hm

end LoopRule

end Janadinite
