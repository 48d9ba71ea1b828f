import Janadinite.Vm.Drops
import Janadinite.Vm.MachineOwned
import Janadinite.Vm.Multiarray

namespace Janadinite
open Runs Hoare ThreadContext
set_option autoImplicit true

theorem ThreadContext.Keeps.trans {c c' c'' : ThreadContext} (h : c.Keeps c')
    (h' : c'.Keeps c'') : c.Keeps c'' := by
  have hs := h'.stack
  have hl := h'.locals
  rw [h.currentFrame] at hs hl
  refine ⟨h'.currentFrame.trans h.currentFrame, h'.prevFrames.trans h.prevFrames, ?_,
    h'.length.trans h.length, hl.trans h.locals⟩
  apply List.IsPrefix.trans _ hs
  exact List.prefix_take_iff.mpr ⟨h.stack, List.length_take_le _ _⟩

/-- What is done in a frame, whether it fails or not, leaves what is below the frame as it is. -/
abbrev Confined (m : VM Runtime α) : Prop :=
  Within (fun r r' => r.context.Keeps r'.context) m

namespace Confined

theorem pure (a : α) : Confined (Pure.pure a) := Within.pure (fun r => .refl r.context) a

theorem bind {m : VM Runtime α} {f : α → VM Runtime β} (hm : Confined m)
    (hf : ∀ a, Confined (f a)) : Confined (m >>= f) :=
  Within.bind (fun _ _ _ h h' => h.trans h') hm hf

theorem okOr (e : VMError) (o : Option α) : Confined (okOr e o) := by
  intro r
  cases o <;> exact .refl r.context

theorem checked (x : Except String α) : Confined (checked x) := by
  intro r
  cases x <;> exact .refl r.context

theorem onStore (m : VM Store α) : Confined (onStore m) := by
  intro r
  unfold Janadinite.onStore
  cases m r.store <;> exact .refl r.context

theorem modifyContext {f : ThreadContext → ThreadContext} (h : ∀ c : ThreadContext, c.Keeps (f c)) :
    Confined (modifyContext f) :=
  fun r => h r.context

theorem read {f : ThreadContext → VM Runtime α} (h : ∀ c, Confined (f c)) :
    Confined (do f (← readContext)) :=
  fun r => h r.context r

theorem pushSlot (slot : JVMSlot) : Confined (pushSlot slot) :=
  .modifyContext fun c => keeps_push (.refl c) slot

theorem pushSlots (values : List JVMSlot) : Confined (pushSlots values) := by
  induction values with
  | nil => exact .pure _
  | cons slot values ih => exact (pushSlot slot).bind fun _ => ih

theorem popSlot : Confined popSlot := by
  intro r
  rw [ThreadContext.popSlot, bind_eq _ (readContext_eq r)]
  split
  · exact .refl r.context
  · rename_i hl
    rw [stackPop, bind_eq _ (readContext_eq r)]
    cases r.context.stack.getLast? with
    | none => exact .refl r.context
    | some slot => exact keeps_pop (.refl r.context) (Nat.lt_of_not_le hl)

theorem popSlotOr : Confined popSlotOr := popSlot.bind fun slot => .okOr _ slot

theorem ipop (p : Profile) : Confined (ipop p) :=
  popSlotOr.bind fun slot => (onStore (dropSlot p slot)).bind fun _ => .pure _

theorem fpop (p : Profile) : Confined (fpop p) := (ipop p).bind fun _ => .pure _

theorem apop : Confined apop := popSlotOr.bind fun slot => .okOr _ slot.object?

theorem lpop (p : Profile) : Confined (lpop p) :=
  (ipop p).bind fun _ => (ipop p).bind fun _ => .pure _

theorem dpop (p : Profile) : Confined (dpop p) := (lpop p).bind fun _ => .pure _

theorem iload (index : UInt16) : Confined (iload index) :=
  read fun _ => (okOr _ _).bind fun _ => .pure _

theorem fload (index : UInt16) : Confined (fload index) := (iload index).bind fun _ => .pure _

theorem lload (p : Profile) (index : UInt16) : Confined (lload p index) :=
  (iload index).bind fun _ => (checked _).bind fun _ => (iload _).bind fun _ => .pure _

theorem dload (p : Profile) (index : UInt16) : Confined (dload p index) :=
  (lload p index).bind fun _ => .pure _

theorem aload (p : Profile) (index : UInt16) : Confined (aload p index) :=
  read fun _ => (okOr _ _).bind fun _ => (onStore _).bind fun obj => .okOr _ obj

theorem assignLocal (p : Profile) (slot : JVMSlot) {r : Runtime}
    (hi : r.context.currentFrame.localsStart ≤ idx) :
    Ends (fun _ r' => r.context.Keeps r'.context) (fun _ r' => r.context.Keeps r'.context)
      (assignLocal p idx slot r) := by
  rw [ThreadContext.assignLocal, bind_eq _ (readContext_eq r)]
  cases r.context.locals[idx]? with
  | none => exact .refl r.context
  | some old =>
    have hset := keeps_set (.refl r.context) hi slot
    apply (onStore (dropSlot p old) _).mono
    · exact fun _ _ h => hset.trans h
    · exact fun _ _ h => hset.trans h

theorem assignLocals (p : Profile) (values : List JVMSlot) {r : Runtime}
    (hi : r.context.currentFrame.localsStart ≤ idx) :
    Ends (fun _ r' => r.context.Keeps r'.context) (fun _ r' => r.context.Keeps r'.context)
      (assignLocals p idx values r) := by
  induction values generalizing idx r with
  | nil => exact .refl r.context
  | cons slot values ih =>
    apply (assignLocal p slot hi).bind
    intro _ r₁ _ h
    have hi₁ : r₁.context.currentFrame.localsStart ≤ idx + 1 := by
      rw [h.currentFrame]
      exact Nat.le_succ_of_le hi
    apply (ih hi₁).mono
    · exact fun _ _ h' => h.trans h'
    · exact fun _ _ h' => h.trans h'

theorem vstore (p : Profile) (index : UInt16) (value : JVMValue) :
    Confined (vstore p index value) := by
  intro r
  change Ends _ _ ((if _ then _ else _ : VM Runtime Bool) r)
  split
  · apply (assignLocals p value.toSlots (Nat.le_add_left _ index.toNat)).bind
    exact fun _ _ _ h => h
  · exact (onStore (dropSlots p value.toSlots)).bind (fun _ => .pure false) r

theorem cloneOption (p : Profile) (slot : Option JVMSlot) : Confined (cloneOption p slot) := by
  cases slot with
  | none => exact .pure none
  | some slot => exact (onStore (cloneSlot p slot)).bind fun _ => .pure _

theorem pushOption (slot : Option JVMSlot) : Confined (pushOption slot) := by
  cases slot with
  | none => exact .pure _
  | some slot => exact pushSlot slot

theorem dup (p : Profile) : Confined (dup p) := by
  apply popSlot.bind
  intro slot
  cases slot with
  | none => exact .pure _
  | some slot =>
    exact (onStore (cloneSlot p slot)).bind fun c => (pushSlot c).bind fun _ => pushSlot slot

theorem dup2 (p : Profile) : Confined (dup2 p) := by
  apply popSlot.bind
  intro slot1
  apply popSlot.bind
  intro slot2
  apply (cloneOption p slot2).bind
  intro c2
  apply (pushOption c2).bind
  intro _
  apply (cloneOption p slot1).bind
  intro c1
  exact (pushOption c1).bind fun _ => (pushOption slot2).bind fun _ => pushOption slot1

end Confined

/-- The operations of `ThreadContext` but those on frames. -/
inductive FrameOp where
  | pushValue (v : JVMValue)
  | ipush (v : Int32)
  | fpush (v : F32)
  | lpush (v : Int64)
  | dpush (v : F64)
  | pushSlot (slot : JVMSlot)
  | apush (obj : Addr)
  | popSlot
  | ipop
  | fpop
  | apop
  | lpop
  | dpop
  | iload (index : UInt16)
  | fload (index : UInt16)
  | lload (index : UInt16)
  | dload (index : UInt16)
  | aload (index : UInt16)
  | astore (index : UInt16) (value : Addr)
  | istore (index : UInt16) (value : Int32)
  | fstore (index : UInt16) (value : F32)
  | lstore (index : UInt16) (value : Int64)
  | dstore (index : UInt16) (value : F64)
  | vstore (index : UInt16) (value : JVMValue)
  | iget (index : UInt16) (slot : JVMSlot)
  | dup
  | dup2

def ThreadContext.assignGot (p : Profile) (index : UInt16) (slot : JVMSlot) : VM Runtime PUnit := do
  let c ← readContext
  let _ ← okOr (.invalidLocal index) (c.local? index)
  assignLocal p (index.toNat + c.currentFrame.localsStart) slot

def FrameOp.run (p : Profile) : FrameOp → VM Runtime PUnit
  | pushValue v => ThreadContext.pushValue v
  | ipush v => ThreadContext.ipush v
  | fpush v => ThreadContext.fpush v
  | lpush v => ThreadContext.lpush v
  | dpush v => ThreadContext.dpush v
  | pushSlot slot => ThreadContext.pushSlot slot
  | apush obj => ThreadContext.apush obj
  | popSlot => ignore ThreadContext.popSlot
  | ipop => ignore (ThreadContext.ipop p)
  | fpop => ignore (ThreadContext.fpop p)
  | apop => ignore ThreadContext.apop
  | lpop => ignore (ThreadContext.lpop p)
  | dpop => ignore (ThreadContext.dpop p)
  | iload index => ignore (ThreadContext.iload index)
  | fload index => ignore (ThreadContext.fload index)
  | lload index => ignore (ThreadContext.lload p index)
  | dload index => ignore (ThreadContext.dload p index)
  | aload index => ignore (ThreadContext.aload p index)
  | astore index value => ignore (ThreadContext.astore p index value)
  | istore index value => ignore (ThreadContext.istore p index value)
  | fstore index value => ignore (ThreadContext.fstore p index value)
  | lstore index value => ignore (ThreadContext.lstore p index value)
  | dstore index value => ignore (ThreadContext.dstore p index value)
  | vstore index value => ignore (ThreadContext.vstore p index value)
  | iget index slot => assignGot p index slot
  | dup => ThreadContext.dup p
  | dup2 => ThreadContext.dup2 p
where
  ignore {α : Type} (m : VM Runtime α) : VM Runtime PUnit := do
    let _ ← m
    pure ⟨⟩

theorem Confined.ignore {m : VM Runtime α} (h : Confined m) : Confined (FrameOp.run.ignore m) :=
  h.bind fun _ => .pure _

theorem Confined.assignGot (p : Profile) (index : UInt16) (slot : JVMSlot) :
    Confined (assignGot p index slot) := by
  intro r
  apply (okOr (.invalidLocal index) (r.context.local? index) r).bind
  intro _ r₁ hr _
  cases (okOr_ok hr).2
  exact assignLocal p slot (Nat.le_add_left _ index.toNat)

theorem FrameOp.run_confined (p : Profile) (op : FrameOp) : Confined (op.run p) := by
  cases op with
  | pushValue v => exact .pushSlots v.toSlots
  | ipush v => exact .pushSlot (.fromI32 v)
  | fpush v => exact .pushSlot (.fromI32 v.bits.toInt32)
  | lpush v => exact .pushSlots (JVMValue.long v).toSlots
  | dpush v => exact .pushSlots (JVMValue.double v).toSlots
  | pushSlot slot => exact .pushSlot slot
  | apush obj => exact .pushSlot (.fromObject obj)
  | popSlot => exact Confined.popSlot.ignore
  | ipop => exact (Confined.ipop p).ignore
  | fpop => exact (Confined.fpop p).ignore
  | apop => exact Confined.apop.ignore
  | lpop => exact (Confined.lpop p).ignore
  | dpop => exact (Confined.dpop p).ignore
  | iload index => exact (Confined.iload index).ignore
  | fload index => exact (Confined.fload index).ignore
  | lload index => exact (Confined.lload p index).ignore
  | dload index => exact (Confined.dload p index).ignore
  | aload index => exact (Confined.aload p index).ignore
  | astore index value => exact (Confined.vstore p index (.object value)).ignore
  | istore index value => exact (Confined.vstore p index (.int value)).ignore
  | fstore index value => exact (Confined.vstore p index (.float value)).ignore
  | lstore index value => exact (Confined.vstore p index (.long value)).ignore
  | dstore index value => exact (Confined.vstore p index (.double value)).ignore
  | vstore index value => exact (Confined.vstore p index value).ignore
  | iget index slot => exact .assignGot p index slot
  | dup => exact .dup p
  | dup2 => exact .dup2 p

/-- One step of a callee: an operation that returns or fails with an error, or whatever else an
instruction does to the classes and the memory. -/
def CalleeStep (p : Profile) (r : Runtime) : Option FrameOp → Runtime → Prop
  | some op, r' => op.run p r = .ok ⟨⟩ r' ∨ ∃ e, op.run p r = .error (.error e) r'
  | none, r' => r'.context = r.context

theorem CalleeStep.ok {op : FrameOp} (h : op.run p r = .ok ⟨⟩ r') : CalleeStep p r (some op) r' :=
  .inl h

theorem CalleeStep.keeps (h : CalleeStep p r op r') : r.context.Keeps r'.context := by
  cases op with
  | none =>
    have hc : r'.context = r.context := h
    rw [hc]
    exact .refl _
  | some op =>
    have hop := op.run_confined p r
    rcases h with h | ⟨e, h⟩
    · rwa [h] at hop
    · rwa [h] at hop

/-- What a callee does stays in its frame. -/
theorem callee_keeps (h : Reaches (CalleeStep p) (fun _ _ => True) (· = r₁) r₂) :
    r₁.context.Keeps r₂.context := by
  apply h.invariant
  · rintro r rfl
    exact .refl _
  · exact fun _ _ _ hkept _ hstep => hkept.trans hstep.keeps

theorem popFrame_returns (p : Profile) (r : Runtime) :
    (∃ r', popFrame p r = .ok ⟨⟩ r') ↔
      r.store.Drops p (r.context.locals.drop r.context.currentFrame.localsStart ++
        r.context.stack.drop r.context.currentFrame.stackStart) := by
  rw [Store.drops_append]
  constructor
  · rintro ⟨r', h⟩
    change (onStore (dropSlots p _) >>= fun _ => _ : VM Runtime PUnit) _ = _ at h
    obtain ⟨_, r₁, h₁, h⟩ := bind_ok h
    obtain ⟨s₁, hs₁, rfl⟩ := onStore_ok h₁
    change onStore (dropSlots p _) _ = _ at h
    obtain ⟨s₂, hs₂, _⟩ := onStore_ok h
    exact ⟨s₁, hs₁, s₂, hs₂⟩
  · rintro ⟨s₁, hs₁, s₂, hs₂⟩
    have h₁ := onStore_eq (r := { r with context := { r.context with
      currentFrame := r.context.prevFrames.headD .default, prevFrames := r.context.prevFrames.tail,
      locals := r.context.locals.take r.context.currentFrame.localsStart } }) hs₁
    change ∃ r', (onStore (dropSlots p _) >>= fun _ => _ : VM Runtime PUnit) _ = .ok ⟨⟩ r'
    rw [bind_eq _ h₁]
    exact ⟨_, onStore_eq hs₂⟩

/-- The slots of the current frame, in the order in which they are dropped. -/
def ThreadContext.frameSlots (c : ThreadContext) : List JVMSlot :=
  c.locals.drop c.currentFrame.localsStart ++ c.stack.drop c.currentFrame.stackStart

def ThreadContext.entered (c : ThreadContext) (methRef maxStack maxLocals : UInt16) (k : Nat) :
    ThreadContext where
  stack := c.stack.take (c.stack.length - k)
  locals := c.locals ++
    (c.stack.drop (c.stack.length - k) ++ List.replicate (maxLocals.toNat - k) .null)
  prevFrames := c.currentFrame :: c.prevFrames
  currentFrame := ⟨methRef, c.stack.length - k, maxStack, c.locals.length⟩

theorem pushFrame_eq (p : Profile) (methRef maxStack : UInt16) {maxLocals argsSize : UInt16}
    {r : Runtime} (hargs : argsSize.toNat ≤ r.context.stack.length) (hmax : argsSize ≤ maxLocals) :
    pushFrame p methRef maxStack maxLocals argsSize r = .ok ⟨⟩
      { r with context := r.context.entered methRef maxStack maxLocals argsSize.toNat } := by
  have hlen : (r.context.takeArgs argsSize.toNat).locals.length =
      r.context.locals.length + argsSize.toNat := by
    rw [takeArgs, List.length_append, List.length_drop]
    omega
  have hstart : (r.context.takeArgs argsSize.toNat).locals.length - argsSize.toNat =
      r.context.locals.length := by
    omega
  have hfill : r.context.locals.length + maxLocals.toNat -
      (r.context.takeArgs argsSize.toNat).locals.length =
        maxLocals.toNat - argsSize.toNat := by
    omega
  have hstack : (r.context.takeArgs argsSize.toNat).stack.length =
      r.context.stack.length - argsSize.toNat := by
    rw [takeArgs, List.length_take]
    omega
  rw [pushFrame, bind_eq _ (popCreateArgs_eq p argsSize hargs), finishPushFrame,
    if_neg (UInt16.not_lt.mpr hmax)]
  change EStateM.Result.ok PUnit.unit { r with context := ThreadContext.mk _ _ _ _ } = _
  rw [hstart, hfill, hstack, takeArgs, List.append_assoc]
  rfl

/-- Popping the frame of a call leaves the context of the caller without the arguments. -/
theorem ThreadContext.Keeps.left_entered {c c' : ThreadContext}
    (h : (c.entered methRef maxStack maxLocals k).Keeps c') :
    c'.left = { c with stack := c.stack.take (c.stack.length - k) } := by
  have hstack : c'.stack.take (c.stack.length - k) = c.stack.take (c.stack.length - k) := by
    have hp := h.stack
    change (c.stack.take (c.stack.length - k)).take (c.stack.length - k) <+: c'.stack at hp
    rw [List.take_take, Nat.min_self] at hp
    have hlen : (c.stack.take (c.stack.length - k)).length = c.stack.length - k := by
      rw [List.length_take]
      omega
    have htake := List.prefix_iff_eq_take.mp hp
    rw [hlen] at htake
    exact htake.symm
  have hlocals : c'.locals.take c.locals.length = c.locals := h.locals.trans List.take_left
  rw [left, h.currentFrame, h.prevFrames]
  change ThreadContext.mk (c'.stack.take (c.stack.length - k)) (c'.locals.take c.locals.length)
    c.prevFrames c.currentFrame = _
  rw [hstack, hlocals]

/-- A call takes its arguments as the first locals, and whatever is done in its frame, after it the
frames of its callers are as they were but for the arguments. -/
theorem callee_returns (p : Profile) (methRef maxStack maxLocals argsSize : UInt16) {r : Runtime}
    (hargs : r.context.currentFrame.stackStart + argsSize.toNat ≤ r.context.stack.length)
    (hmax : argsSize ≤ maxLocals) :
    ∃ r₁, pushFrame p methRef maxStack maxLocals argsSize r = .ok ⟨⟩ r₁ ∧
      r₁.context.locals.drop r₁.context.currentFrame.localsStart =
        r.context.stack.drop (r.context.stack.length - argsSize.toNat) ++
          List.replicate (maxLocals.toNat - argsSize.toNat) .null ∧
      ∀ r₂, Reaches (CalleeStep p) (fun _ _ => True) (· = r₁) r₂ →
        ((∃ r₃, popFrame p r₂ = .ok ⟨⟩ r₃) ↔ r₂.store.Drops p r₂.context.frameSlots) ∧
        ∀ r₃, popFrame p r₂ = .ok ⟨⟩ r₃ →
          r₃.context = { r.context with
            stack := r.context.stack.take (r.context.stack.length - argsSize.toNat) } := by
  refine ⟨_, pushFrame_eq p methRef maxStack (Nat.le_of_add_left_le hargs) hmax, ?_, ?_⟩
  · exact List.drop_left
  · intro r₂ hcallee
    refine ⟨popFrame_returns p r₂, ?_⟩
    intro r₃ hpop
    rw [(popFrame_ok hpop).2]
    exact (callee_keeps hcallee).left_entered

/-- A callee has the argument 7, stores it in its other local and returns to the slot 5. -/
theorem callee_returns_five : ∃ r₁ r₂ r₃,
    pushFrame ⟨true⟩ 1 0 2 1 (withCounts [5, 7]) = .ok ⟨⟩ r₁ ∧
    Reaches (CalleeStep ⟨true⟩) (fun _ _ => True) (· = r₁) r₂ ∧
    r₂.context.locals = [.fromI32 7, .fromI32 7] ∧
    popFrame ⟨true⟩ r₂ = .ok ⟨⟩ r₃ ∧
    r₃.context = { (withCounts [5, 7]).context with stack := [.fromI32 5] } := by
  obtain ⟨r₁, hpush, -, hrun⟩ := callee_returns ⟨true⟩ 1 0 2 1 (r := withCounts [5, 7])
    (by decide) (by decide)
  have hentered := @pushFrame_eq ⟨true⟩ 1 0 2 1 (withCounts [5, 7]) (by decide) (by decide)
  obtain rfl : _ = r₁ := (EStateM.Result.ok.inj (hentered.symm.trans hpush)).2
  obtain ⟨r₂, hstore, hlocals, hcontext⟩ : ∃ r₂, (FrameOp.istore 1 7).run ⟨true⟩
      { withCounts [5, 7] with context := (withCounts [5, 7]).context.entered 1 0 2 1 } =
        .ok ⟨⟩ r₂ ∧ r₂.context.locals = [.fromI32 7, .fromI32 7] ∧
          ∃ r₃, popFrame ⟨true⟩ r₂ = .ok ⟨⟩ r₃ :=
    ⟨_, rfl, rfl, _, rfl⟩
  obtain ⟨r₃, hpop⟩ := hcontext
  have hcallee : Reaches (CalleeStep ⟨true⟩) (fun _ _ => True) (· = _) r₂ :=
    .next (.start rfl) trivial (CalleeStep.ok hstore)
  exact ⟨_, r₂, r₃, hpush, hcallee, hlocals, hpop, (hrun r₂ hcallee).2 r₃ hpop⟩

end Janadinite
