import Janadinite.Vm.MachineOwned

namespace Janadinite
open Runs Hoare ThreadContext
set_option autoImplicit true

/-- A frame with the slots of its context that lie below it. -/
structure Below where
  frame : StackFrame
  stack : List JVMSlot
  locals : List JVMSlot
  deriving DecidableEq

namespace ThreadContext

def below (c : ThreadContext) (f : StackFrame) : Below :=
  ⟨f, c.stack.take f.stackStart, c.locals.take f.localsStart⟩

/-- All frames of a context, the outermost first. -/
def belows (c : ThreadContext) : List Below := (c.currentFrame :: c.prevFrames).reverse.map c.below

/-- The frame `f` begins where `g` does or above. -/
def Above (f g : StackFrame) : Prop :=
  g.stackStart ≤ f.stackStart ∧ g.localsStart ≤ f.localsStart

/-- A context for a frame that was reached by so many calls, each frame above the frames of its
callers. -/
structure Stacked (n : Nat) (c : ThreadContext) : Prop where
  calls : c.prevFrames.length = n
  sorted : (c.currentFrame :: c.prevFrames).Pairwise Above
  stack : c.currentFrame.stackStart ≤ c.stack.length
  locals : c.currentFrame.localsStart ≤ c.locals.length

theorem take_of_take {l l' : List α} (h : l'.take n = l.take n) (hk : k ≤ n) :
    l'.take k = l.take k := by
  have hmin : min k n = k := Nat.min_eq_left hk
  have ht := congrArg (List.take k) h
  rwa [List.take_take, List.take_take, hmin] at ht

theorem below_congr {c c' : ThreadContext}
    (hs : c'.stack.take top.stackStart = c.stack.take top.stackStart)
    (hl : c'.locals.take top.localsStart = c.locals.take top.localsStart) (hf : Above top f) :
    c'.below f = c.below f := by
  rw [below, below, take_of_take hs hf.1, take_of_take hl hf.2]

theorem belows_congr (top : StackFrame) {frames : List StackFrame} {c c' : ThreadContext}
    (hs : c'.stack.take top.stackStart = c.stack.take top.stackStart)
    (hl : c'.locals.take top.localsStart = c.locals.take top.localsStart)
    (hf : ∀ f ∈ frames, Above top f) :
    frames.reverse.map c'.below = frames.reverse.map c.below := by
  apply List.map_congr_left
  intro f hmem
  exact below_congr hs hl (hf f (List.mem_reverse.mp hmem))

theorem belows_eq (c : ThreadContext) :
    c.belows = c.prevFrames.reverse.map c.below ++ [c.below c.currentFrame] := by
  rw [belows, List.reverse_cons, List.map_append]
  rfl

theorem Above.refl (f : StackFrame) : Above f f := ⟨Nat.le_refl _, Nat.le_refl _⟩

theorem Stacked.above (h : Stacked n c) :
    ∀ f ∈ c.currentFrame :: c.prevFrames, Above c.currentFrame f := by
  intro f hf
  rcases List.mem_cons.mp hf with rfl | hf
  · exact .refl _
  · exact (List.pairwise_cons.mp h.sorted).1 f hf

theorem take_of_prefix {l l' : List α} (h : l.take n <+: l') (hn : n ≤ l.length) :
    n ≤ l'.length ∧ l'.take n = l.take n := by
  have hlen : (l.take n).length = n := List.length_take_of_le hn
  have hle := h.length_le
  have heq := List.prefix_iff_eq_take.mp h
  rw [hlen] at hle heq
  exact ⟨hle, heq.symm⟩

theorem Keeps.stacked (h : c₀.Keeps c) (hs : Stacked n c₀) :
    Stacked n c ∧ c.belows = c₀.belows := by
  obtain ⟨hstack, htake⟩ := take_of_prefix h.stack hs.stack
  refine ⟨⟨?_, ?_, ?_, ?_⟩, ?_⟩
  · rw [h.prevFrames]
    exact hs.calls
  · rw [h.currentFrame, h.prevFrames]
    exact hs.sorted
  · rw [h.currentFrame]
    exact hstack
  · rw [h.currentFrame, h.length]
    exact hs.locals
  · rw [belows, belows, h.currentFrame, h.prevFrames]
    exact belows_congr _ htake h.locals hs.above

theorem Stacked.return (h : Stacked (n + 1) c)
    (hc : c' = { c.left with stack := c.left.stack ++ values }) :
    Stacked n c' ∧ c.belows = c'.belows ++ [c.below c.currentFrame] := by
  obtain ⟨stack, locals, prevFrames, currentFrame⟩ := c
  obtain ⟨hcalls, hsorted, hstack, hlocals⟩ := h
  cases prevFrames with
  | nil => cases hcalls
  | cons f frames =>
    obtain ⟨habove, hsorted⟩ := List.pairwise_cons.mp hsorted
    have hf : Above currentFrame f := habove f List.mem_cons_self
    have hslen : (stack.take currentFrame.stackStart).length = currentFrame.stackStart :=
      List.length_take_of_le hstack
    have hllen : (locals.take currentFrame.localsStart).length = currentFrame.localsStart :=
      List.length_take_of_le hlocals
    subst hc
    refine ⟨⟨Nat.succ.inj hcalls, hsorted, ?_, ?_⟩, ?_⟩
    · change f.stackStart ≤ (stack.take currentFrame.stackStart ++ values).length
      rw [List.length_append, hslen]
      exact Nat.le_add_right_of_le hf.1
    · change f.localsStart ≤ (locals.take currentFrame.localsStart).length
      rw [hllen]
      exact hf.2
    · rw [belows_eq]
      apply congrArg (· ++ _)
      apply belows_congr currentFrame _ _ habove
      · change stack.take _ = (stack.take currentFrame.stackStart ++ values).take _
        rw [List.take_append_of_le_length (Nat.le_of_eq hslen.symm), List.take_take, Nat.min_self]
      · change locals.take _ = (locals.take currentFrame.localsStart).take _
        rw [List.take_take, Nat.min_self]

theorem Entered.stacked (h : Entered k c₀ c) (hs : Stacked n c₀)
    (hargs : c₀.currentFrame.stackStart + k ≤ c₀.stack.length) :
    Stacked (n + 1) c ∧ c.belows = c₀.belows ++ [c.below c.currentFrame] := by
  obtain ⟨_, hl⟩ := h.locals
  have hstart : c₀.currentFrame.stackStart ≤ c₀.stack.length - k := Nat.le_sub_of_add_le hargs
  have hlen : c.stack.length = c₀.stack.length - k := by
    rw [h.stack, List.length_take_of_le (Nat.sub_le _ _)]
  refine ⟨⟨?_, ?_, ?_, ?_⟩, ?_⟩
  · rw [h.prevFrames, List.length_cons, hs.calls]
  · rw [h.prevFrames, List.pairwise_cons]
    refine ⟨?_, hs.sorted⟩
    intro f hf
    obtain ⟨hf₁, hf₂⟩ := hs.above f hf
    rw [Above, h.stackStart, h.localsStart, hlen]
    exact ⟨Nat.le_trans hf₁ hstart, Nat.le_trans hf₂ hs.locals⟩
  · exact Nat.le_of_eq h.stackStart
  · rw [h.localsStart, hl, List.length_append]
    exact Nat.le_add_right _ _
  · rw [belows_eq, h.prevFrames]
    apply congrArg (· ++ _)
    apply belows_congr c₀.currentFrame _ _ hs.above
    · rw [h.stack, List.take_take, Nat.min_eq_left hstart]
    · rw [hl, List.take_append_of_le_length hs.locals]

/-- A call without enough arguments changes nothing below a frame whose part of the stack is all
of it. -/
theorem Emptied.belows (h : Emptied c₀ c) (hs : Stacked n c₀)
    (hbottom : c₀.currentFrame.stackStart = 0) : c.belows = c₀.belows := by
  rw [ThreadContext.belows, ThreadContext.belows, h.currentFrame, h.prevFrames]
  apply belows_congr c₀.currentFrame _ _ hs.above
  · rw [hbottom, List.take_zero, List.take_zero]
  · obtain ⟨rest, hrest⟩ := h.locals
    rw [← hrest, List.take_append_of_le_length hs.locals]

/-- Exactly the calls that find their arguments in the frame of the caller keep what is below it. -/
theorem Entered.below_iff (h : Entered k c₀ c) (hs : Stacked n c₀) :
    c.below c₀.currentFrame = c₀.below c₀.currentFrame ↔
      c₀.currentFrame.stackStart + k ≤ c₀.stack.length := by
  constructor
  · intro heq
    have hlen := congrArg (fun b => b.stack.length) heq
    simp only [below, h.stack, List.length_take] at hlen
    have hle := hs.stack
    have hk := h.args
    omega
  · intro hargs
    obtain ⟨_, hbelows⟩ := h.stacked hs hargs
    rw [belows_eq, h.prevFrames, belows] at hbelows
    have hmap := (List.append_inj_left' hbelows rfl)
    exact List.map_eq_map_iff.mp hmap _ (List.mem_reverse.mpr List.mem_cons_self)

/-- A call that fails for want of arguments empties what is below its frame. -/
theorem Emptied.below_iff (h : Emptied c₀ c) (hs : Stacked n c₀) :
    c.below c₀.currentFrame = c₀.below c₀.currentFrame ↔ c₀.currentFrame.stackStart = 0 := by
  constructor
  · intro heq
    have hlen := congrArg (fun b => b.stack.length) heq
    simp only [below, h.stack, List.take_nil, List.length_nil, List.length_take] at hlen
    have hle := hs.stack
    omega
  · intro hbottom
    have hbelows := h.belows hs hbottom
    rw [ThreadContext.belows, ThreadContext.belows, h.currentFrame, h.prevFrames] at hbelows
    exact List.map_eq_map_iff.mp hbelows _ (List.mem_reverse.mpr List.mem_cons_self)

end ThreadContext

/-- The frames of all contexts, of which the innermost comes first. -/
def allBelows (contexts : List ThreadContext) : List Below :=
  contexts.reverse.flatMap ThreadContext.belows

theorem allBelows_cons (c : ThreadContext) (contexts : List ThreadContext) :
    allBelows (c :: contexts) = allBelows contexts ++ c.belows := by
  rw [allBelows, List.reverse_cons, List.flatMap_append, List.flatMap_singleton]
  rfl

/-- The calls made in the context that the callee uses. -/
def CodeCaller.calls : CodeCaller → Nat
  | .invoke _ caller => caller.calls + 1
  | _ => 0

mutual

def CodeCaller.Stacked : CodeCaller → Prop
  | .main => True
  | .invoke _ caller => caller.Stacked
  | .clinit _ caller => caller.Stacked

def LoadCaller.Stacked : LoadCaller → Prop
  | .open => True
  | .perform _ _ context caller => context.Stacked caller.calls ∧ caller.Stacked
  | .superClass _ _ caller => caller.Stacked

end

/-- In every context each frame is above the frames of its callers. -/
def Control.Stacked : Control → Prop
  | .run _ context caller => context.Stacked caller.calls ∧ caller.Stacked
  | .perform _ _ context caller => context.Stacked caller.calls ∧ caller.Stacked
  | .load _ caller => caller.Stacked
  | .loaded _ caller => caller.Stacked
  | .finished _ => True

/-- Of two lists one continues the other. -/
def Nested (l l' : List α) : Prop := l' <+: l ∨ l <+: l'

theorem Nested.refl (l : List α) : Nested l l := .inl (List.prefix_refl l)

theorem Nested.get {l l' : List α} (h : Nested l l') (hn : n < l.length) (hn' : n < l'.length) :
    l'[n]? = l[n]? := by
  rcases h with ⟨rest, rfl⟩ | ⟨rest, rfl⟩
  · exact (List.getElem?_append_left hn').symm
  · exact List.getElem?_append_left hn

namespace Machine

def belows (m : Machine) : List Below := allBelows m.control.contexts

/-- Where a step with these contexts may lead: it enters or leaves frames and changes nothing below
those that stay. -/
def Moves (contexts : List ThreadContext) (m : Machine) : Prop :=
  m.control.Stacked ∧ Nested (allBelows contexts) m.belows

/-- An invoke finds all its arguments in the part of the stack of the current frame, or that part
is the whole stack. -/
def argsInFrame (p : Profile) (m : Machine) : Bool :=
  match m.control with
  | .perform act op context _ =>
    match invokeArgs p act.cls op ⟨m.table, m.store, context⟩ with
    | .ok (some k) _ =>
      context.currentFrame.stackStart + k.toNat ≤ context.stack.length ||
        context.currentFrame.stackStart = 0
    | _ => true
  | _ => true

theorem argsInFrame_perform {m : Machine} (h : m.argsInFrame p = true)
    (hm : m.control = .perform act op context caller)
    (hk : invokeArgs p act.cls op ⟨m.table, m.store, context⟩ = .ok (some k) r) :
    context.currentFrame.stackStart + k.toNat ≤ context.stack.length ∨
      context.currentFrame.stackStart = 0 := by
  rw [argsInFrame, hm] at h
  dsimp only at h
  rw [hk] at h
  simpa only [Bool.or_eq_true, decide_eq_true_eq] using h

theorem execute_stacked [FloatArith] {m : Machine} (ho : m.Owned) (hs : m.control.Stacked)
    (hm : m.control = .perform act op context caller)
    (hx : execute p act.cls act.lastPc op ⟨m.table, m.store, context⟩ = .ok outcome r)
    (hc : ∀ cls method code, outcome ≠ .call cls method code) :
    (r.context.Stacked caller.calls ∧ caller.Stacked) ∧
      allBelows (r.context :: caller.contexts) = m.belows := by
  obtain ⟨hkeeps, -⟩ := execute_keeps ho hm hx hc
  rw [hm] at hs
  obtain ⟨hs', hbelows⟩ := hkeeps.stacked hs.1
  refine ⟨⟨hs', hs.2⟩, ?_⟩
  rw [belows, hm, allBelows_cons, hbelows, ← allBelows_cons]
  rfl

theorem returning_stacked [FloatArith] {m : Machine} (ho : m.Owned) (hs : m.control.Stacked)
    (hr : m.Returning p result r caller) :
    (r.context.Stacked caller.calls ∧ caller.Stacked) ∧
      allBelows (r.context :: caller.contexts) = m.belows := by
  cases hr with
  | codeEnds hm =>
    rw [hm] at hs
    rw [belows, hm]
    exact ⟨hs, rfl⟩
  | instruction hm hx => exact execute_stacked ho hs hm hx fun _ _ _ => nofun

theorem call_moves [FloatArith] {m : Machine} (ho : m.Owned) (hargs : m.argsInFrame p = true)
    (hs : m.control.Stacked) (hm : m.control = .perform act op context caller)
    (hx : execute p act.cls act.lastPc op ⟨m.table, m.store, context⟩ =
      .ok (.call cls method code) r) :
    (r.context.Stacked (caller.calls + 1) ∧ caller.Stacked) ∧
      m.belows <+: allBelows (r.context :: caller.contexts) := by
  obtain ⟨_, _, _, k, _, _, heq, hk, _, hcalled⟩ := execute_called ho hm hx
  cases heq
  have hent := hcalled.context
  have hframe : context.currentFrame.stackStart + k.toNat ≤ context.stack.length := by
    rcases argsInFrame_perform hargs hm hk with hin | hbottom
    · exact hin
    · rw [hbottom, Nat.zero_add]
      exact hent.args
  rw [hm] at hs
  obtain ⟨hs', hbelows⟩ := hent.stacked hs.1 hframe
  refine ⟨⟨hs', hs.2⟩, ?_⟩
  rw [belows, hm]
  change allBelows (context :: caller.contexts) <+: _
  rw [allBelows_cons, allBelows_cons, hbelows, ← List.append_assoc]
  exact List.prefix_append _ _

theorem newContext_stacked (maxStack maxLocals : UInt16) :
    (ThreadContext.new maxStack maxLocals).Stacked 0 :=
  ⟨rfl, List.pairwise_singleton _ _, Nat.le_refl 0, Nat.zero_le _⟩

theorem making_stacked {m : Machine} {superClass : Option ClassRef} {caller : LoadCaller}
    (hs : m.control.Stacked) (h : m.Making path name cls superClass caller) :
    caller.Stacked ∧ m.belows = allBelows caller.contexts := by
  cases h with
  | root hm =>
    rw [hm] at hs
    rw [belows, hm]
    exact ⟨hs, rfl⟩
  | derived hm =>
    rw [hm] at hs
    rw [belows, hm]
    exact ⟨hs, rfl⟩

theorem advances_moves [FloatArith] {m m' : Machine} (ho : m.Owned)
    (hargs : m.argsInFrame p = true) (hs : m.control.Stacked) (h : m.Advances p path m') :
    Moves m.control.contexts m' := by
  change m'.control.Stacked ∧ Nested m.belows m'.belows
  cases h with
  | next hm hx =>
    obtain ⟨hs', hb⟩ := execute_stacked ho hs hm hx fun _ _ _ => nofun
    rw [← hb]
    exact ⟨hs', .refl _⟩
  | jump hm hx =>
    obtain ⟨hs', hb⟩ := execute_stacked ho hs hm hx fun _ _ _ => nofun
    rw [← hb]
    exact ⟨hs', .refl _⟩
  | call hm hx =>
    obtain ⟨hs', hb⟩ := call_moves ho hargs hs hm hx
    exact ⟨hs', .inr hb⟩
  | finish => exact ⟨trivial, .inl List.nil_prefix⟩
  | leave hr hl =>
    obtain ⟨hs', hb⟩ := returning_stacked ho hs hr
    obtain ⟨hs'', hbelows⟩ := ThreadContext.Stacked.return hs'.1 (leaveFrame_ok hl).2
    refine ⟨⟨hs'', hs'.2⟩, .inl ?_⟩
    rw [← hb, allBelows_cons, hbelows, ← List.append_assoc]
    change allBelows (_ :: _) <+: _
    rw [allBelows_cons]
    exact List.prefix_append _ _
  | endClinit hr =>
    obtain ⟨hs', hb⟩ := returning_stacked ho hs hr
    refine ⟨hs'.2, .inl ?_⟩
    rw [← hb, allBelows_cons]
    exact List.prefix_append _ _
  | create hmk =>
    obtain ⟨hs', hb⟩ := making_stacked hs hmk
    rw [hb]
    exact ⟨hs', .refl _⟩
  | startClinit hmk =>
    obtain ⟨hs', hb⟩ := making_stacked hs hmk
    refine ⟨⟨newContext_stacked _ _, hs'⟩, .inr ?_⟩
    rw [hb]
    change _ <+: allBelows (_ :: _)
    rw [allBelows_cons]
    exact List.prefix_append _ _
  | startMain hm =>
    rw [belows, hm]
    exact ⟨⟨newContext_stacked _ _, trivial⟩, .inr List.nil_prefix⟩
  | idle => exact ⟨hs, .refl _⟩
  | fetch hm | needs hm | found hm | superclass hm | resume hm | superFound hm =>
    rw [hm] at hs
    rw [belows, hm]
    exact ⟨hs, .refl _⟩

/-- The condition on a step: an invoke takes no slots of other frames. -/
def ArgsInFrame (p : Profile) (m : Machine) (e : Event) : Prop :=
  e = .main → m.argsInFrame p = true

theorem step_moves [FloatArith] {p : Profile} {path : ClassPath} (ho : m.Owned)
    (hs : m.control.Stacked) (hargs : m.ArgsInFrame p e) (h : Step p path m e m') :
    Moves m.control.contexts m' := by
  cases e with
  | main => exact advances_moves ho (hargs rfl) hs (next_advances h)
  | gcThread =>
    have hw : m.wakeGc p = some m' := h
    rw [Moves, belows, (wakeGc_keeps hw).1]
    exact ⟨hs, .refl _⟩

theorem reaches_stacked [FloatArith] {p : Profile} {path : ClassPath}
    (h : Reaches (Step p path) (ArgsInFrame p) Opened m) : m.Owned ∧ m.control.Stacked := by
  apply h.invariant
  · intro m hm
    refine ⟨opened_owned hm, ?_⟩
    cases hm
    trivial
  · intro m e m' ⟨ho, hs⟩ hargs hstep
    exact ⟨step_owned ho hstep, (step_moves ho hs hargs hstep).1⟩

end Machine

/-- `main` has the slot 7 on its stack and calls `f`, which calls `g` with one argument. -/
def callG (f : List UInt8) : Class :=
  staticMethods "Main"
    [.unusable, .utf8 "Main", .class 1, .utf8 "f", .utf8 "()V", .nameAndType 3 4, .methodref 2 5,
      .utf8 "g", .utf8 "(I)V", .nameAndType 7 8, .methodref 2 9]
    [("main", "()V", ⟨0, 1, [0x10, 7, 0xb8, 0, 6, 0xb1], [], []⟩), ("f", "()V", ⟨0, 1, f, [], []⟩),
      ("g", "(I)V", ⟨1, 0, [0xb1], [], []⟩)]

end Janadinite
