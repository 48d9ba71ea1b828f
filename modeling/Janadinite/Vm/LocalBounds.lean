import Janadinite.Vm.MachineOwned

namespace Janadinite
open Runs Hoare
set_option autoImplicit true

namespace ThreadContext
variable {c c₀ : ThreadContext}

/-- Locals from the one place to the other: as many as `max_locals` can count. -/
def Extent (last first : Nat) : Prop := first ≤ last ∧ last ≤ first + 65535

/-- Each frame has its locals from its start to that of the frame above. The start at the end is
that of the default frame, which is current when the outermost frame has been popped. -/
def Bounded (c : ThreadContext) : Prop :=
  List.IsChain Extent (c.locals.length :: c.currentFrame.localsStart ::
    (c.prevFrames.map StackFrame.localsStart ++ [0]))

theorem Bounded.current (h : c.Bounded) :
    c.currentFrame.localsStart ≤ c.locals.length ∧
      c.locals.length ≤ c.currentFrame.localsStart + 65535 :=
  (List.isChain_cons_cons.mp h).1

theorem Bounded.local_next (h : c.Bounded) (hs : c.local? index = some slot) :
    index.toNat + 1 < 2 ^ 16 := by
  obtain ⟨hlt, _⟩ := List.getElem?_eq_some_iff.mp hs
  have hle := h.current.2
  omega

theorem bounded_new (maxStack maxLocals : UInt16) :
    (ThreadContext.new maxStack maxLocals).Bounded := by
  have hlt : maxLocals.toNat < 2 ^ 16 := maxLocals.toNat_lt
  change List.IsChain Extent [(List.replicate maxLocals.toNat JVMSlot.null).length, 0, 0]
  rw [List.length_replicate, List.isChain_cons_cons, List.isChain_cons_cons]
  exact ⟨⟨Nat.zero_le _, by omega⟩, ⟨Nat.le_refl 0, Nat.zero_le _⟩, .singleton 0⟩

theorem Keeps.bounded (h : c₀.Keeps c) (hb : c₀.Bounded) : c.Bounded := by
  rw [Bounded, h.length, h.currentFrame, h.prevFrames]
  exact hb

theorem Entered.bounded (h : Entered k c₀ c)
    (hlen : c.locals.length ≤ c.currentFrame.localsStart + 65535) (hb : c₀.Bounded) :
    c.Bounded := by
  have hle : c.currentFrame.localsStart ≤ c.locals.length := by
    obtain ⟨n, hl⟩ := h.locals
    rw [h.localsStart, hl, List.length_append]
    exact Nat.le_add_right _ _
  rw [Bounded, List.isChain_cons_cons]
  refine ⟨⟨hle, hlen⟩, ?_⟩
  rw [h.localsStart, h.prevFrames]
  exact hb

theorem Bounded.left (h : c.Bounded) : c.left.Bounded := by
  obtain ⟨⟨hle, _⟩, hrest⟩ := List.isChain_cons_cons.mp h
  have hlen : (c.locals.take c.currentFrame.localsStart).length = c.currentFrame.localsStart :=
    List.length_take_of_le hle
  rw [Bounded, ThreadContext.left]
  dsimp only
  rw [hlen]
  cases hprev : c.prevFrames with
  | nil =>
    rw [hprev] at hrest
    exact List.isChain_cons_cons.mpr ⟨(List.isChain_cons_cons.mp hrest).1,
      List.isChain_cons_cons.mpr ⟨⟨Nat.le_refl 0, Nat.zero_le _⟩, .singleton 0⟩⟩
  | cons f frames =>
    rw [hprev] at hrest
    exact hrest

/-- The code asserts that the arguments fit into the locals. -/
theorem finishPushFrame_bound {r r' : Runtime}
    (h : finishPushFrame methRef maxLocals maxStack argsSize r = .ok u r') :
    r'.context.locals.length ≤ r'.context.currentFrame.localsStart + 65535 := by
  have hlt : maxLocals.toNat < 2 ^ 16 := maxLocals.toNat_lt
  rw [finishPushFrame] at h
  split at h
  · cases h
  · rename_i hargs
    have hargs' : argsSize.toNat ≤ maxLocals.toNat := Nat.le_of_not_lt hargs
    cases h
    dsimp only
    rw [List.length_append, List.length_replicate]
    omega

end ThreadContext

section
variable [FloatArith] {r r' : Runtime}

theorem execute_call_bound (hop : op.isInvoke = true)
    (h : execute p cls lastPc op r = .ok (.call target method code) r') :
    r'.context.locals.length ≤ r'.context.currentFrame.localsStart + 65535 := by
  have hresolved : ∀ refIdx receiver,
      invokeResolved p cls refIdx receiver r = .ok (.call target method code) r' →
        r'.context.locals.length ≤ r'.context.currentFrame.localsStart + 65535 := by
    intro refIdx receiver h
    obtain ⟨callee, r₁, _, h⟩ := bind_ok h
    obtain ⟨_, r₂, hpush, h⟩ := bind_ok h
    cases h
    obtain ⟨_, r₃, _, hfinish⟩ := bind_ok hpush
    exact ThreadContext.finishPushFrame_bound hfinish
  cases op
  case invokeStatic refIdx => exact hresolved refIdx 0 h
  case invokeSpecial refIdx => exact hresolved refIdx 1 h
  case invokeVirtual refIdx =>
    obtain ⟨_, r₁, _, h⟩ := bind_ok h
    obtain ⟨_, r₂, _, h⟩ := bind_ok h
    obtain ⟨_, r₃, _, h⟩ := bind_ok h
    obtain ⟨_, r₄, _, h⟩ := bind_ok h
    obtain ⟨_, r₅, _, h⟩ := bind_ok h
    obtain ⟨_, r₆, _, h⟩ := bind_ok h
    obtain ⟨_, r₇, _, h⟩ := bind_ok h
    obtain ⟨_, r₈, _, h⟩ := bind_ok h
    obtain ⟨_, r₉, hfinish, h⟩ := bind_ok h
    cases h
    exact ThreadContext.finishPushFrame_bound hfinish
  all_goals cases hop

end

theorem cons_bounded {c : ThreadContext} {contexts : List ThreadContext} (h : c.Bounded)
    (hall : ∀ d ∈ contexts, d.Bounded) : ∀ d ∈ c :: contexts, d.Bounded :=
  List.forall_mem_cons.mpr ⟨h, hall⟩

/-- The locals of every frame in the contexts are as many as a `u16` counts, or fewer. -/
def Control.Bounded (control : Control) : Prop := ∀ c ∈ control.contexts, c.Bounded

namespace Machine

section
variable [FloatArith] {p : Profile} {path : ClassPath} {m m' : Machine}

theorem executed_bounded (ho : m.Owned) (hb : m.control.Bounded)
    (hm : m.control = .perform act op context caller)
    (hx : execute p act.cls act.lastPc op ⟨m.table, m.store, context⟩ = .ok outcome r)
    (hc : ∀ cls method code, outcome ≠ .call cls method code) :
    ∀ c ∈ r.context :: caller.contexts, c.Bounded := by
  rw [Control.Bounded, hm] at hb
  obtain ⟨hcontext, hcaller⟩ := List.forall_mem_cons.mp hb
  exact cons_bounded ((execute_keeps ho hm hx hc).1.bounded hcontext) hcaller

theorem returning_bounded (ho : m.Owned) (hb : m.control.Bounded)
    (hr : m.Returning p result r caller) : ∀ c ∈ r.context :: caller.contexts, c.Bounded := by
  cases hr with
  | codeEnds hm =>
    rw [Control.Bounded, hm] at hb
    exact hb
  | instruction hm hx =>
    apply executed_bounded ho hb hm hx
    intro cls method code he
    cases he

theorem called_bounded (ho : m.Owned) (hb : m.control.Bounded)
    (hm : m.control = .perform act op context caller)
    (hx : execute p act.cls act.lastPc op ⟨m.table, m.store, context⟩ =
      .ok (.call cls method code) r) : ∀ c ∈ r.context :: caller.contexts, c.Bounded := by
  obtain ⟨_, _, _, k, _, _, _, hk, _, hcalled⟩ := execute_called ho hm hx
  have hop : op.isInvoke = true := by
    cases op <;> first | rfl | cases hk
  rw [Control.Bounded, hm] at hb
  obtain ⟨hcontext, hcaller⟩ := List.forall_mem_cons.mp hb
  exact cons_bounded (hcalled.context.bounded (execute_call_bound hop hx) hcontext) hcaller

omit [FloatArith] in
theorem making_bounded {superClass : Option ClassRef} {caller : LoadCaller}
    (hb : m.control.Bounded) (h : m.Making path name cls superClass caller) :
    ∀ c ∈ caller.contexts, c.Bounded := by
  cases h with
  | root hm =>
    rw [Control.Bounded, hm] at hb
    exact hb
  | derived hm =>
    rw [Control.Bounded, hm] at hb
    exact hb

theorem advances_bounded (ho : m.Owned) (hb : m.control.Bounded) (h : m.Advances p path m') :
    m'.control.Bounded := by
  cases h with
  | next hm hx =>
    apply executed_bounded ho hb hm hx
    intro cls method code he
    cases he
  | jump hm hx =>
    apply executed_bounded ho hb hm hx
    intro cls method code he
    cases he
  | @call act op context caller cls method code r hm hx =>
    have hcalled : ∀ d ∈ r.context :: caller.contexts, d.Bounded := called_bounded ho hb hm hx
    exact hcalled
  | finish =>
    intro c hc
    cases hc
  | leave hr hl =>
    obtain ⟨hcontext, hcaller⟩ := List.forall_mem_cons.mp (returning_bounded ho hb hr)
    apply cons_bounded _ hcaller
    rw [(leaveFrame_ok hl).2]
    exact hcontext.left
  | endClinit hr => exact (List.forall_mem_cons.mp (returning_bounded ho hb hr)).2
  | create hmk => exact making_bounded hb hmk
  | startClinit hmk =>
    exact cons_bounded (ThreadContext.bounded_new _ _) (making_bounded hb hmk)
  | startMain hm =>
    apply cons_bounded (ThreadContext.bounded_new _ _)
    intro c hc
    cases hc
  | idle => exact hb
  | fetch hm | needs hm | found hm | superclass hm | resume hm | superFound hm =>
    rw [Control.Bounded, hm] at hb
    exact hb

/-- In every run each frame has at most 65535 locals. -/
theorem reaches_bounded (h : Reaches (Step p path) Ok Opened m) : m.control.Bounded := by
  have hrun : m.Owned ∧ m.control.Bounded := by
    apply h.invariant
    · intro m hm
      refine ⟨opened_owned hm, ?_⟩
      cases hm
      intro c hc
      cases hc
    · intro m e m' ⟨ho, hb⟩ _ hs
      refine ⟨step_owned ho hs, ?_⟩
      cases e with
      | main => exact advances_bounded ho hb (next_advances hs)
      | gcThread =>
        rw [(wakeGc_keeps hs).1]
        exact hb
  exact hrun.2

end

end Machine

end Janadinite
