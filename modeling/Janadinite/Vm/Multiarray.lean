import Janadinite.Vm.Calls
import Janadinite.Vm.LastReference
import Janadinite.Vm.Machine

namespace Janadinite
open Hoare
open ThreadContext (popSlot readContext_eq)
set_option autoImplicit true

/-- Whether there is an array already, and whether it refers to other arrays. -/
def holding (last : Option BareObject) : Option Bool := last.map fun obj => refs obj.data ≠ []

/-- With so many rounds left, references are dropped while `HEAP` is locked: in a round whose count
is not positive or is missing, when the last array holds some. -/
def DropsHeld : Option Bool → Nat → List Int32 → Prop
  | _, 0, _ => False
  | last, _ + 1, [] => last = some true
  | last, n + 1, len :: lens =>
    (last = some true ∧ len ≤ 0) ∨ (0 ≤ len ∧ DropsHeld (some (last.isSome && len ≠ 0)) n lens)

theorem holding_eq_true : holding last = some true ↔ heldBy last ≠ [] := by
  cases last with
  | none => exact ⟨fun h => (nomatch h), fun h => absurd rfl h⟩
  | some obj =>
    change some (decide (refs obj.data ≠ [])) = some true ↔ refs obj.data ≠ []
    rw [Option.some_inj, decide_eq_true_iff]

theorem Round.holding_eq (h : Round s p size counts last len obj s') :
    holding (some obj) = some ((holding last).isSome && len ≠ 0) := by
  have hs : (holding last).isSome = last.isSome := Option.isSome_map
  have hh := h.holds
  rw [hs]
  change some (decide (refs obj.data ≠ [])) = _
  rw [decide_eq_decide.mpr hh, Bool.decide_and, Bool.decide_eq_true]

theorem Round.dropsHeld_iff (h : Round s p size counts last len obj s') (n : Nat)
    (lens : List Int32) :
    DropsHeld (holding last) (n + 1) (len :: lens) ↔ DropsHeld (holding (some obj)) n lens := by
  rw [h.holding_eq, DropsHeld]
  constructor
  · rintro (⟨hh, hle⟩ | ⟨_, hd⟩)
    · exact absurd (h.zero (Int32.le_antisymm hle h.nonneg)) (holding_eq_true.mp hh)
    · exact hd
  · exact fun hd => .inr ⟨h.nonneg, hd⟩

theorem asI32_fromI32 (i : Int32) : (JVMSlot.fromI32 i).asI32 = i := by
  simp only [JVMSlot.asI32, JVMSlot.fromI32, UInt64.toInt64, UInt32.toUInt32_toUInt64,
    Int32.toInt32_toUInt32]

theorem popSlot_concat {r : Runtime} (h : r.context.stack = rest ++ [slot])
    (hs : r.context.currentFrame.stackStart ≤ rest.length) :
    popSlot r = .ok (some slot) { r with context := { r.context with stack := rest } } := by
  have hlt : ¬ r.context.stack.length ≤ r.context.currentFrame.stackStart := by
    rw [h, List.length_append, List.length_singleton]
    omega
  rw [popSlot, bind_eq _ (readContext_eq r), if_neg hlt]
  exact ThreadContext.stackPop_concat h

theorem popSlot_empty {r : Runtime}
    (h : r.context.stack.length ≤ r.context.currentFrame.stackStart) :
    popSlot r = .ok none r := by
  rw [popSlot, bind_eq _ (readContext_eq r), if_pos h]
  rfl

theorem nextCount_slot (p : Profile) (last : Option BareObject) {r : Runtime}
    (h : r.context.stack = rest ++ [slot])
    (hs : r.context.currentFrame.stackStart ≤ rest.length) :
    nextCount p last r = (do
      onStore (dropSlot p slot)
      pure slot.asI32 : VM Runtime Int32) { r with context := { r.context with stack := rest } } :=
  bind_eq _ (popSlot_concat h hs)

theorem nextCount_eq (p : Profile) (last : Option BareObject) {r : Runtime}
    (h : r.context.stack = rest ++ [.fromI32 len])
    (hs : r.context.currentFrame.stackStart ≤ rest.length) :
    nextCount p last r = .ok len { r with context := { r.context with stack := rest } } := by
  rw [nextCount_slot p last h hs, dropSlot_plain p (JVMSlot.object?_fromI32 len), asI32_fromI32]
  rfl

/-- Without a count, the array is dropped before the lock is given up. -/
theorem nextCount_none (p : Profile) {r : Runtime} (h : Laid r.store size counts last)
    (hl : r.store.Locked) (hs : r.context.stack.length ≤ r.context.currentFrame.stackStart) :
    ∃ e r', nextCount p last r = .error e r' ∧ (e = .deadlock ↔ heldBy last ≠ []) := by
  rw [nextCount, bind_eq _ (popSlot_empty hs)]
  change ∃ e r', (onStore (dropLast p last) >>= fun _ => _ : VM Runtime Int32) r = .error e r' ∧ _
  by_cases hh : heldBy last = []
  · have hd : onStore (dropLast p last) r = .ok ⟨⟩ r := by
      rw [onStore, Laid.dropLast_null hh]
    rw [bind_eq _ hd]
    refine ⟨_, _, rfl, fun he => ?_, fun hne => absurd hh hne⟩
    cases he
  · have hd : onStore (dropLast p last) r = .error .deadlock r := by
      rw [onStore, h.dropLast_deadlock hl hh]
    rw [bind_error _ hd]
    exact ⟨_, _, rfl, fun _ => hh, fun _ => rfl⟩

/-- The slots that are popped from a stack, the one that is popped first at the end: as many as are
asked for, or all above the start of the frame. -/
structure Supplies (c : ThreadContext) (rest : List JVMSlot) (n : Nat) (slots : List JVMSlot) :
    Prop where
  stack : c.stack = rest ++ slots
  start : c.currentFrame.stackStart ≤ rest.length
  length : slots.length ≤ n
  short : slots.length < n → rest.length = c.currentFrame.stackStart

theorem Supplies.next {c : ThreadContext} (h : Supplies c rest (n + 1) (slots ++ [slot])) :
    c.stack = (rest ++ slots) ++ [slot] ∧ c.currentFrame.stackStart ≤ (rest ++ slots).length ∧
    Supplies { c with stack := rest ++ slots } rest n slots := by
  have hl := h.length
  have hs := h.short
  rw [List.length_append, List.length_singleton] at hl hs
  refine ⟨?_, ?_, rfl, h.start, Nat.le_of_succ_le_succ hl, fun hlt => hs (Nat.succ_lt_succ hlt)⟩
  · rw [h.stack, List.append_assoc]
  · rw [List.length_append]
    exact Nat.le_trans h.start (Nat.le_add_right _ _)

/-- The counts that are popped from a stack, the one that is popped first at the end: as many as are
asked for, or all above the start of the frame. -/
structure Offers (c : ThreadContext) (rest : List JVMSlot) (n : Nat) (counts : List Int32) :
    Prop where
  stack : c.stack = rest ++ counts.map .fromI32
  start : c.currentFrame.stackStart ≤ rest.length
  length : counts.length ≤ n
  short : counts.length < n → rest.length = c.currentFrame.stackStart

theorem offers_iff : Offers c rest n counts ↔ Supplies c rest n (counts.map .fromI32) := by
  have hlen : (counts.map JVMSlot.fromI32).length = counts.length := List.length_map _
  constructor
  · intro h
    exact ⟨h.stack, h.start, hlen ▸ h.length, hlen ▸ h.short⟩
  · intro h
    exact ⟨h.stack, h.start, hlen ▸ h.length, hlen ▸ h.short⟩

theorem Offers.next {c : ThreadContext} (h : Offers c rest (n + 1) (counts ++ [len])) :
    c.stack = (rest ++ counts.map .fromI32) ++ [.fromI32 len] ∧
    c.currentFrame.stackStart ≤ (rest ++ counts.map .fromI32).length ∧
    Offers { c with stack := rest ++ counts.map .fromI32 } rest n counts := by
  have hs := offers_iff.mp h
  rw [List.map_append, List.map_singleton] at hs
  obtain ⟨hstack, hstart, hnext⟩ := hs.next
  exact ⟨hstack, hstart, offers_iff.mpr hnext⟩

theorem refs_counts (counts : List Int32) : refs (counts.map .fromI32) = [] := by
  apply List.filterMap_eq_nil_iff.mpr
  intro slot hslot
  obtain ⟨len, -, rfl⟩ := List.mem_map.mp hslot
  exact JVMSlot.object?_fromI32 len

theorem asI32_counts (counts : List Int32) :
    (counts.map JVMSlot.fromI32).map JVMSlot.asI32 = counts := by
  rw [List.map_map]
  exact List.map_id'' asI32_fromI32 counts

/-- The arrays that rounds with these counts make at most. -/
def lengths (counts : List Int32) : Nat := (counts.map Int32.toNatClampNeg).sum

/-- What the rounds leave when none fails. -/
structure Rounds (r : Runtime) (p : Profile) (size : NonZeroU16) (counts : List Int32)
    (rest : List JVMSlot) (n : Nat) (lens : List Int32) (last : Option BareObject) (r' : Runtime) :
    Prop where
  laid : Laid r'.store size (lens.reverse ++ counts) last
  locked : r'.store.Locked
  context : r'.context = { r.context with stack := rest }
  length : lens.length = n
  room : ∀ m, r.store.Room p (m + lengths lens) → r'.store.Room p m

theorem Round.rounds {r r' r'' : Runtime} (h : Round s p size counts last len obj r'.store)
    (hroom : ∀ m, r.store.Room p m → s.Room p m)
    (hc : r'.context = { r.context with stack := front })
    (hr : Rounds r' p size (len :: counts) rest n lens last' r'') :
    Rounds r p size counts rest (n + 1) (len :: lens) last' r'' where
  laid := by
    rw [List.reverse_cons, List.append_assoc]
    exact hr.laid
  locked := hr.locked
  context := by
    rw [hr.context, hc]
  length := congrArg Nat.succ hr.length
  room m hm := by
    apply hr.room
    apply h.room
    apply hroom
    rw [lengths, List.map_cons, List.sum_cons] at hm
    rwa [Nat.add_assoc, Nat.add_comm (lengths lens)]

/-- With room for its arrays, a round fails for want of the lock unless its count is negative. -/
theorem RoundFails.deadlock (h : RoundFails s p last len e) (hroom : s.Room p len.toNatClampNeg)
    (hle : heldBy last ≠ [] ∨ 0 ≤ len) : e = .deadlock := by
  rcases h with ⟨rfl, -⟩ | ⟨-, ⟨hh, hlt⟩ | hno⟩
  · rfl
  · rcases hle with hne | hle
    · exact absurd hh hne
    · exact absurd hlt (Int32.not_lt.mpr hle)
  · exact absurd hroom hno

/-- The rounds that are left wait for the lock: one drops the last reference to an object with its
operand, or the last array. -/
def Stuck (s : Store) (n : Nat) (last : Option BareObject) (slots : List JVMSlot) : Prop :=
  LastReference s.graph.count n slots ∨ DropsHeld (holding last) n (slots.map JVMSlot.asI32)

theorem stuck_cons {s s' s'' : Store} (hne : ∀ a, slot.object? = some a → s.graph.count a ≠ 2)
    (hd : Released s slot roots s') (h : Round s' p size counts last slot.asI32 obj s'')
    (hkept : ∀ a ∈ refs slots, s''.graph.count a = s'.graph.count a) :
    Stuck s (n + 1) last (slot :: slots) ↔ Stuck s'' n (some obj) slots := by
  have hcount : LastReference (fun a => s.graph.count a - (refs [slot]).count a) n slots ↔
      LastReference s''.graph.count n slots :=
    (lastReference_congr fun a ha => (hkept a ha).trans (hd.count a)).symm
  rw [Stuck, Stuck, lastReference_cons, hcount, List.map_cons, h.dropsHeld_iff]
  constructor
  · rintro ((⟨a, hobj, h2⟩ | ⟨-, hlast⟩) | hlast)
    · exact absurd h2 (hne a hobj)
    · exact .inl hlast
    · exact .inr hlast
  · rintro (hlast | hlast)
    · exact .inl (.inr ⟨h.nonneg, hlast⟩)
    · exact .inr hlast

/-- A round that waits has an array before it to drop, or a count that is not negative. -/
theorem Stuck.held_or_nonneg {s : Store} (h : Stuck s (n + 1) last (slot :: slots))
    (hne : ∀ a, slot.object? = some a → s.graph.count a ≠ 2) :
    heldBy last ≠ [] ∨ 0 ≤ slot.asI32 := by
  rcases h with h | ⟨hh, -⟩ | ⟨hle, -⟩
  · rcases lastReference_cons.mp h with ⟨a, hobj, h2⟩ | ⟨hle, -⟩
    · exact absurd h2 (hne a hobj)
    · exact .inr hle
  · exact .inl (holding_eq_true.mp hh)
  · exact .inr hle

/-- A round that fails does so for want of the lock exactly when it is stuck, given room. -/
theorem RoundFails.stuck {s₀ : Store} (h : RoundFails s p last slot.asI32 e)
    (hne : ∀ a, slot.object? = some a → s₀.graph.count a ≠ 2) :
    (e = .deadlock → Stuck s₀ (n + 1) last (slot :: slots)) ∧
    (Stuck s₀ (n + 1) last (slot :: slots) → s.Room p slot.asI32.toNatClampNeg →
      e = .deadlock) := by
  constructor
  · rintro rfl
    rcases h with ⟨-, hh, hle⟩ | ⟨hne', -⟩
    · exact .inr (.inl ⟨holding_eq_true.mpr hh, hle⟩)
    · exact absurd rfl hne'
  · intro hstuck hroom
    exact h.deadlock hroom (hstuck.held_or_nonneg hne)

/-- What the operands that are left refer to has the same references after a round. -/
theorem Round.operands_kept (h : Round s p size counts last len obj s')
    (hlaid : Laid s size counts last) (hown : s.Owned (heldBy last ++ (operands ++ others))) :
    ∀ a ∈ operands, s'.graph.count a = s.graph.count a := by
  intro a ha
  have hroot : a ∈ heldBy last ++ (operands ++ others) :=
    List.mem_append_right _ (List.mem_append_left _ ha)
  obtain ⟨o, ho⟩ := hown.allocated.get (hown.counted.root_mem a hroot)
  have hmem := h.kept a o ho (hlaid.not_held hown ha)
  exact (Store.graph_of_memory (hmem.trans ho.symm)).2

theorem addDimensions_ends (p : Profile) {r : Runtime} (h : Laid r.store size counts last)
    (hl : r.store.Locked) (hown : r.store.Owned (heldBy last ++ (refs slots ++ others)))
    (ho : Supplies r.context rest n slots.reverse) :
    Ends (fun last' r' => Rounds r p size counts rest n (slots.map JVMSlot.asI32) last' r' ∧
        ¬ Stuck r.store n last slots)
      (fun e _ => (e = .deadlock → Stuck r.store n last slots) ∧
        (Stuck r.store n last slots → r.store.Room p (lengths (slots.map JVMSlot.asI32)) →
          e = .deadlock))
      (addDimensions p size n last r) := by
  induction n generalizing r slots counts last with
  | zero =>
    have hnil : slots = [] := by
      apply List.eq_nil_of_length_eq_zero
      have hlen := ho.length
      rw [List.length_reverse] at hlen
      omega
    subst hnil
    have hstack : r.context.stack = rest := by
      rw [ho.stack]
      exact List.append_nil rest
    refine ⟨⟨h, hl, ?_, rfl, fun m hr => hr⟩, ?_⟩
    · rw [← hstack]
    · rintro (hlast | hlast)
      · exact not_lastReference_zero hlast
      · exact hlast
  | succ n ih =>
    cases slots with
    | nil =>
      have hs : r.context.stack.length ≤ r.context.currentFrame.stackStart := by
        rw [ho.stack, ← ho.short (Nat.succ_pos n)]
        exact Nat.le_of_eq (congrArg List.length (List.append_nil rest))
      obtain ⟨e, r', he, hiff⟩ := nextCount_none p h hl hs
      have hstuck : Stuck r.store (n + 1) last [] ↔ heldBy last ≠ [] :=
        (or_iff_right not_lastReference_nil).trans holding_eq_true
      rw [addDimensions, bind_error _ he, hstuck]
      exact ⟨hiff.mp, fun hd _ => hiff.mpr hd⟩
    | cons slot slots =>
      rw [List.reverse_cons] at ho
      obtain ⟨hs, hstart, ho'⟩ := ho.next
      have hnext := nextCount_slot p last hs hstart
      have hown' : r.store.Owned (refs [slot] ++ (heldBy last ++ (refs slots ++ others))) := by
        apply hown.perm
        rw [refs_cons, refs_cons, refs_nil, List.append_nil, List.append_assoc]
        exact List.perm_append_comm_assoc _ _ _
      rw [addDimensions]
      rcases dropSlot_locked p hown' hl with ⟨a, hobj, h2, hd⟩ | ⟨hne, s, hd, hrel⟩
      · rw [bind_error _ (hnext.trans (bind_error _ (onStore_error hd)))]
        exact ⟨fun _ => .inl (lastReference_cons.mpr (.inl ⟨a, hobj, h2⟩)), fun _ _ => rfl⟩
      · rw [bind_eq _ (hnext.trans (bind_eq _ (onStore_eq hd)))]
        have hlaid := h.released hrel hne
        have hround := onStore_lift (r := { r with
          store := s
          context := { r.context with stack := rest ++ slots.reverse } })
          (addDimension_ends p hlaid hrel.locked slot.asI32)
        apply Ends.bind (hround.mono (fun _ _ hq => hq) ?_)
        · rintro obj r' hadd ⟨_, hc, hr⟩
          obtain ⟨s', hadd', rfl⟩ := onStore_ok hadd
          have hown'' := (addDimension_owned p last slot.asI32 _).ok hrel.owned hadd'
          rw [stuck_cons hne hrel hr (hr.operands_kept hlaid hrel.owned)]
          apply (ih hr.laid hr.locked hown'' ho').mono
          · rintro last' r'' ⟨hrounds, hnd⟩
            exact ⟨hr.rounds (hrel.room p) hc hrounds, hnd⟩
          · intro e r'' ⟨he, hroom⟩
            refine ⟨he, fun hd' hm => hroom hd' (hr.room _ (hrel.room p _ ?_))⟩
            rwa [Nat.add_comm]
        · intro e r' he
          obtain ⟨hd', hroom⟩ := he.stuck hne
          refine ⟨hd', fun hstuck hm => hroom hstuck ?_⟩
          exact (hrel.room p _ hm).mono (Nat.le_add_right _ _)

theorem tryGc_locked (p : Profile) (roots : List Addr) :
    Triple (fun s => s.Owned roots ∧ s.Locked) (Heap.tryGc p) (fun _ s => s.Locked)
      fun _ _ => True := by
  intro s ⟨h, hl⟩
  by_cases hthreads : s.heap.heapThreads = s.heap.parkedThreads
  · by_cases hcount : gcThreshold ≤ s.heap.allocCount
    · obtain ⟨s', hrun, hc⟩ := Heap.collect_collected p h
      rw [Heap.tryGc_eq p hthreads hcount, hrun, hc.frame]
      exact ⟨hl.locked, hl.poisoned⟩
    · rw [Heap.tryGc, bind_eq _ (readHeap_eq s), if_neg fun hne => hne hthreads,
        if_neg hcount]
      exact hl
  · rw [Heap.tryGc_panics p hthreads]
    trivial

theorem stopTheWorldInner_locked (p : Profile) (roots : List Addr) :
    Triple (fun s => s.Owned roots ∧ s.Locked) (stopTheWorldInner p) (fun _ s => s.Locked)
      fun _ _ => True := by
  apply stopTheWorldInner_triple
  · exact fun _ _ h => ⟨h.1.congr rfl rfl rfl, h.2.locked, h.2.poisoned⟩
  · exact tryGc_locked p roots
  · exact fun _ h => h.2
  · exact fun _ _ _ h => ⟨h.locked, h.poisoned⟩
  · exact fun _ => trivial

theorem lockOrStop_locked {s s' : Store} (h : s.Owned roots) (hok : lockOrStop p s = .ok ⟨⟩ s') :
    s'.Locked := by
  obtain ⟨_, s₁, hlock, hok⟩ := bind_ok hok
  have h₁ : s₁.Owned roots ∧ s₁.Locked := by
    refine ⟨(lockHeap_owned roots _).ok h hlock, ?_⟩
    cases hp : s.poisoned with
    | true =>
      rw [lockHeap_poisoned hp] at hlock
      cases hlock
    | false =>
      cases hl : s.locked with
      | true =>
        rw [lockHeap_locked hp hl] at hlock
        cases hlock
      | false =>
        rw [lockHeap_eq hp hl] at hlock
        cases hlock
        exact ⟨rfl, hp⟩
  rw [bind_get] at hok
  split at hok
  · exact (stopTheWorldInner_locked p roots).ok h₁ hok
  · cases hok
    exact h₁.2

/-- The arrays that a call returns, and what it leaves. -/
structure Returned (r : Runtime) (size : NonZeroU16) (counts : List Int32) (rest : List JVMSlot)
    (n : Nat) (a : Addr) (r' : Runtime) : Prop where
  array : ∃ obj levels, ArrayLevels r'.store size counts obj levels ∧ a ∉ levels.flatten ∧
    r'.store.memory a = some ⟨2, 0, obj.kind, obj.data⟩
  fits : a.Fits
  length : counts.length = n
  context : r'.context = { r.context with stack := rest }

/-- What a call does from the time when it has `HEAP`. -/
theorem allocateMultiarray_ends (p : Profile) (size : NonZeroU16) {r : Runtime}
    (h : r.store.Owned (refs slots ++ others))
    (hlock : lockOrStop p r.store = .ok ⟨⟩ s) (ho : Supplies r.context rest n slots) :
    Ends (fun a r' => Returned r size (slots.map JVMSlot.asI32) rest n a r' ∧
        ¬ Stuck s n none slots.reverse)
      (fun e _ => (e = .deadlock → Stuck s n none slots.reverse) ∧
        (Stuck s n none slots.reverse →
          s.Room p (lengths (slots.map JVMSlot.asI32).reverse) → e = .deadlock))
      (allocateMultiarray p n size r) := by
  have hl := lockOrStop_locked h hlock
  have hown : s.Owned (refs slots.reverse ++ others) := by
    apply ((lockOrStop_owned _ p).ok h hlock).perm
    exact ((List.reverse_perm slots).filterMap _).append_right others
  rw [allocateMultiarray, bind_eq _ (onStore_eq hlock)]
  rw [← List.reverse_reverse slots] at ho
  rw [← List.map_reverse]
  apply Ends.bind (addDimensions_ends (r := { r with store := s }) p .start hl hown ho)
  rintro last r₁ - ⟨hr, hd⟩
  have hlaid := hr.laid
  have hcontext : r₁.context = { r.context with stack := rest } := hr.context
  have hlength := hr.length
  rw [List.map_reverse, List.reverse_reverse, List.append_nil] at hlaid
  rw [List.map_reverse, List.length_reverse] at hlength
  generalize slots.map JVMSlot.asI32 = counts at hlaid hlength
  cases hlaid with
  | start => exact ⟨nofun, fun h => absurd h hd⟩
  | made hb h2 =>
    rename_i obj levels
    apply Ends.bind ((onStore_lift (allocateFromObject_ends p obj.kind obj.data r₁.store)).mono
      (fun _ _ hq => hq) ?_)
    · rintro a r₂ - ⟨_, hc, rfl, hf, ⟨m, hs⟩, _⟩
      have hgrows := (Store.Grows.withNew hf obj.kind obj.data m).memory
      rw [← hs] at hgrows
      refine ⟨⟨⟨obj, levels, hb.grows hgrows, ?_, ?_⟩, hf.1, ?_, ?_⟩, hd⟩
      · intro ha
        obtain ⟨_, o, ho⟩ := hb.allocated ha
        cases hf.2.symm.trans ho
      · change r₂.store.memory _ = _
        rw [hs]
        exact Store.memory_write_self ..
      · exact hlength
      · exact hc.trans hcontext
    · intro e r₂ he
      exact ⟨fun h => absurd h he.1, fun h => absurd h hd⟩

/-- A round after the second finds no positive count, for it is zero, negative or missing, right
after a round with a positive count; and no count before these is negative. -/
def Abandons (d : Nat) (lens : List Int32) : Prop :=
  ∃ i, i + 2 < d ∧ (∀ j ≤ i, ∃ n, lens[j]? = some n ∧ 0 ≤ n) ∧
    (∃ n, lens[i + 1]? = some n ∧ 0 < n) ∧ ∀ n, lens[i + 2]? = some n → n ≤ 0

theorem dropsHeld_some (held : Bool) (n : Nat) (lens : List Int32) :
    DropsHeld (some held) n lens ↔
      (held = true ∧ 0 < n ∧ ∀ k, lens[0]? = some k → k ≤ 0) ∨
      ∃ i, i + 1 < n ∧ (∀ j < i, ∃ k, lens[j]? = some k ∧ 0 ≤ k) ∧
        (∃ k, lens[i]? = some k ∧ 0 < k) ∧ ∀ k, lens[i + 1]? = some k → k ≤ 0 := by
  induction n generalizing held lens with
  | zero =>
    refine ⟨fun h => h.elim, ?_⟩
    rintro (⟨_, h, _⟩ | ⟨i, h, _⟩)
    · exact absurd h (Nat.lt_irrefl 0)
    · exact absurd h (Nat.not_lt_zero _)
  | succ n ih =>
    cases lens with
    | nil =>
      constructor
      · exact fun h => .inl ⟨Option.some.inj h, Nat.succ_pos n, fun _ h => (nomatch h)⟩
      · rintro (⟨h, _⟩ | ⟨i, _, _, ⟨k, hk, _⟩, _⟩)
        · exact congrArg some h
        · cases hk
    | cons len lens =>
      rw [DropsHeld, ih]
      constructor
      · rintro (⟨hh, hle⟩ | ⟨hle, ⟨hne, hn, hs⟩ | ⟨i, hi, hj, hk, hs⟩⟩)
        · refine .inl ⟨Option.some.inj hh, Nat.succ_pos n, fun k hk => ?_⟩
          cases hk
          exact hle
        · have hne : len ≠ 0 := of_decide_eq_true hne
          refine .inr ⟨0, Nat.succ_lt_succ hn, fun j hj => absurd hj (Nat.not_lt_zero j), ?_, hs⟩
          exact ⟨len, rfl, Int32.lt_of_le_of_ne hle hne.symm⟩
        · refine .inr ⟨i + 1, Nat.succ_lt_succ hi, fun j hj' => ?_, hk, hs⟩
          cases j with
          | zero => exact ⟨len, rfl, hle⟩
          | succ j => exact hj j (Nat.lt_of_succ_lt_succ hj')
      · rintro (⟨hh, _, hs⟩ | ⟨i, hi, hj, hk, hs⟩)
        · exact .inl ⟨congrArg some hh, hs len rfl⟩
        · cases i with
          | zero =>
            obtain ⟨k, hk, hpos⟩ := hk
            cases hk
            refine .inr ⟨Int32.le_of_lt hpos, .inl ⟨?_, Nat.lt_of_succ_lt_succ hi, hs⟩⟩
            exact decide_eq_true (Int32.ne_of_lt hpos).symm
          | succ i =>
            obtain ⟨k, hk₀, hle⟩ := hj 0 (Nat.succ_pos i)
            cases hk₀
            refine .inr ⟨hle, .inr ⟨i, Nat.lt_of_succ_lt_succ hi, fun j hj' => ?_, hk, hs⟩⟩
            exact hj (j + 1) (Nat.succ_lt_succ hj')

theorem dropsHeld_none (d : Nat) (lens : List Int32) : DropsHeld none d lens ↔ Abandons d lens := by
  cases d with
  | zero => exact ⟨fun h => h.elim, fun ⟨i, h, _⟩ => absurd h (Nat.not_lt_zero _)⟩
  | succ n =>
    cases lens with
    | nil =>
      refine ⟨fun h => (nomatch h), ?_⟩
      rintro ⟨i, _, _, ⟨k, hk, _⟩, _⟩
      cases hk
    | cons len lens =>
      have hd : DropsHeld none (n + 1) (len :: lens) ↔ 0 ≤ len ∧ DropsHeld (some false) n lens := by
        rw [DropsHeld]
        exact ⟨fun h => h.elim (fun h => (nomatch h.1)) id, .inr⟩
      rw [hd, dropsHeld_some]
      constructor
      · rintro ⟨hle, ⟨h, _⟩ | ⟨i, hi, hj, hk, hs⟩⟩
        · cases h
        · refine ⟨i, Nat.succ_lt_succ hi, fun j hj' => ?_, hk, hs⟩
          cases j with
          | zero => exact ⟨len, rfl, hle⟩
          | succ j => exact hj j hj'
      · rintro ⟨i, hi, hj, hk, hs⟩
        obtain ⟨k, hk₀, hle⟩ := hj 0 (Nat.zero_le i)
        cases hk₀
        exact ⟨hle, .inr ⟨i, Nat.lt_of_succ_lt_succ hi, fun j hj' => hj (j + 1) hj', hk, hs⟩⟩

theorem stuck_iff (s : Store) (d : Nat) (slots : List JVMSlot) : Stuck s d none slots ↔
    Abandons d (slots.map JVMSlot.asI32) ∨ LastReference s.graph.count d slots := by
  rw [Stuck, ← dropsHeld_none]
  exact Or.comm

/-- With room for the arrays, a call waits for the lock that it has itself exactly when it abandons
a level, or when an operand that it pops as a count is the last reference to an object: nothing else
that it drops is. -/
theorem allocateMultiarray_keeps_lock_iff (p : Profile) {r : Runtime} (size : NonZeroU16)
    (h : r.store.Owned (refs slots ++ others)) (hlock : lockOrStop p r.store = .ok ⟨⟩ s)
    (ho : Supplies r.context rest d slots)
    (hroom : s.Room p (lengths (slots.map JVMSlot.asI32).reverse)) :
    (∀ r', allocateMultiarray p d size r ≠ .error .deadlock r') ↔
      ¬ (Abandons d (slots.map JVMSlot.asI32).reverse ∨
        LastReference s.graph.count d slots.reverse) := by
  have hends := allocateMultiarray_ends p size h hlock ho
  rw [stuck_iff, List.map_reverse] at hends
  cases he : allocateMultiarray p d size r with
  | ok a r' =>
    rw [he] at hends
    exact ⟨fun _ => hends.2, fun _ _ => nofun⟩
  | error e r' =>
    rw [he] at hends
    constructor
    · intro hne hd
      exact hne r' (by rw [hends.2 hd hroom])
    · intro hd r₁ h₁
      cases h₁
      exact hd (hends.1 rfl)

def withCounts (counts : List Int32) : Runtime where
  table := ⟨[], []⟩
  store := .initial fun n => .ofNat (8 * (n + 1))
  context := { ThreadContext.new 8 0 with stack := counts.map .fromI32 }

theorem withCounts_owned (counts : List Int32) : (withCounts counts).store.Owned [] where
  counted := ⟨.nil, fun _ h => (nomatch h), fun _ h => (nomatch h), fun _ h => (nomatch h)⟩
  allocated _ h := nomatch h
  unreachable := rfl

theorem withCounts_offers (counts : List Int32) :
    Offers (withCounts counts).context [] counts.length counts :=
  ⟨rfl, Nat.le_refl 0, Nat.le_refl _, fun h => absurd h (Nat.lt_irrefl _)⟩

/-- An array of no arrays of one array of length one: the last round drops the array that the first
two have made. -/
theorem zeroOuter_deadlocks :
    ∃ r', allocateMultiarray ⟨true⟩ 3 .one (withCounts [0, 1, 1]) = .error .deadlock r' :=
  ⟨_, rfl⟩

theorem zeroInner_not_abandons : ¬ Abandons 3 [0, 2, 1] := by
  rintro ⟨i, hi, _, _, h⟩
  have hzero : i = 0 := by omega
  subst hzero
  exact absurd (h 1 rfl) (by decide)

/-- The only reference to an array is popped as the count of one dimension. -/
example : ∃ r', allocateMultiarray ⟨true⟩ 1 .one { withCounts [] with
    store := (withCounts []).store.write 8 (some ⟨2, 0, .array .one, []⟩)
    context := { ThreadContext.new 8 0 with stack := [.fromObject 8] } } = .error .deadlock r' :=
  ⟨_, rfl⟩

theorem zeroInner_not_stuck (count : Addr → Nat) :
    ¬ (Abandons 3 [0, 2, 1] ∨ LastReference count 3 ([1, 2, 0].map JVMSlot.fromI32).reverse) := by
  rintro (h | ⟨_, slot, a, _, hslot, hobj, _⟩)
  · exact zeroInner_not_abandons h
  · have hmem := List.mem_reverse.mp (List.mem_of_getElem? hslot)
    obtain ⟨len, -, rfl⟩ := List.mem_map.mp hmem
    rw [JVMSlot.object?_fromI32] at hobj
    cases hobj

theorem zeroInner_keeps_lock :
    ¬ ∃ r', allocateMultiarray ⟨true⟩ 3 .two (withCounts [1, 2, 0]) = .error .deadlock r' := by
  have hroom : Store.Room ⟨true⟩ { (withCounts [1, 2, 0]).store with locked := true } 3 :=
    ⟨by decide, by decide, by decide, fun _ => by decide⟩
  have hslots : Supplies (withCounts [1, 2, 0]).context [] 3 ([1, 2, 0].map .fromI32) :=
    offers_iff.mp (withCounts_offers [1, 2, 0])
  have hiff := allocateMultiarray_keeps_lock_iff ⟨true⟩ .two (withCounts_owned [1, 2, 0]) rfl hslots
    hroom
  rintro ⟨r', hr⟩
  exact hiff.mpr (zeroInner_not_stuck _) r' hr

end Janadinite
