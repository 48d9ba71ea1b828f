import Janadinite.Vm.ArrayLevels

namespace Janadinite
open Hoare
set_option autoImplicit true

/-- A slot was dropped that is not the last to refer to its object. -/
structure Released (s : Store) (slot : JVMSlot) (roots : List Addr) (s' : Store) : Prop where
  owned : s'.Owned roots
  locked : s'.Locked
  grows : s.Grows s'
  count : ∀ a, s'.graph.count a = s.graph.count a - (refs [slot]).count a
  room : ∀ p n, s.Room p n → s'.Room p n

theorem released_plain (hslot : slot.object? = none) (h : s.Owned (refs [slot] ++ roots))
    (hl : s.Locked) : Released s slot roots s := by
  have hrefs : refs [slot] = [] := by
    rw [refs_cons, hslot]
    rfl
  rw [hrefs] at h
  refine ⟨h, hl, .refl s, fun a => ?_, fun _ _ h => h⟩
  rw [hrefs]
  rfl

theorem released_object {s : Store} (hslot : slot.object? = some a) (ho : s.memory a = some o)
    (h : s.Owned (refs [slot] ++ roots)) (hl : s.Locked) :
    Released s slot roots (s.write a (some { o with strong := o.strong - 1 })) := by
  have hrefs := refs_of_object hslot
  rw [hrefs] at h
  refine ⟨h.release ho, ⟨hl.locked, hl.poisoned⟩, ⟨?_, rfl, rfl⟩, ?_, ?_⟩
  · intro b o' ho'
    by_cases hb : b = a
    · subst hb
      cases ho.symm.trans ho'
      exact ⟨_, Store.memory_write_self ..⟩
    · exact ⟨o'.strong, (Store.memory_write_ne s _ hb).trans ho'⟩
  · intro b
    rw [hrefs]
    by_cases hb : b = a
    · subst hb
      rw [Store.graph_count (Store.memory_write_self ..), Store.graph_count ho,
        List.count_singleton_self]
    · rw [(Store.graph_of_memory (Store.memory_write_ne s _ hb)).2, List.count_singleton,
        beq_eq_false_iff_ne.mpr (Ne.symm hb)]
      rfl
  · intro p n hroom
    refine ⟨hroom.fits, fun k hk => ?_, hroom.distinct, hroom.count⟩
    have hne : s.addresses (s.allocated + k) ≠ a := by
      rintro rfl
      cases (hroom.free k hk).symm.trans ho
    exact (Store.memory_write_ne s _ hne).trans (hroom.free k hk)

/-- With `HEAP` locked, exactly the drop of the last reference besides the heap's waits for it. -/
theorem dropSlot_locked (p : Profile) {s : Store} (h : s.Owned (refs [slot] ++ roots))
    (hl : s.Locked) :
    (∃ a, slot.object? = some a ∧ s.graph.count a = 2 ∧
      dropSlot p slot s = .error .deadlock s) ∨
    (∀ a, slot.object? = some a → s.graph.count a ≠ 2) ∧
      ∃ s', dropSlot p slot s = .ok ⟨⟩ s' ∧ Released s slot roots s' := by
  cases hslot : slot.object? with
  | none =>
    refine .inr ⟨nofun, s, ?_, released_plain hslot h hl⟩
    rw [dropSlot, hslot]
    rfl
  | some a =>
    have hrefs := refs_of_object hslot
    have h' := h
    rw [hrefs] at h'
    obtain ⟨o, ho⟩ := h'.allocated.get (h'.counted.root_mem a List.mem_cons_self)
    have hle := h'.two_le_strong ho
    by_cases h2 : o.strong = 2
    · refine .inl ⟨a, rfl, (Store.graph_count ho).trans h2, ?_⟩
      have hd : dropRefs p (s.heldRefs + 1) [a] s = .error .deadlock s :=
        bind_error _ (dropOnce_deadlock ho h2 hl.poisoned hl.locked)
      rw [dropSlot, hslot]
      exact hd
    · refine .inr ⟨?_, _, ?_, released_object hslot ho h hl⟩
      · rintro b hb
        cases hb
        rwa [Store.graph_count ho]
      · have hd : dropRefs p (s.heldRefs + 1) [a] s =
            dropRefs p s.heldRefs [] (s.write a (some { o with strong := o.strong - 1 })) :=
          bind_eq _ (dropOnce_shared ho (by omega) h2)
        rw [dropRefs] at hd
        rw [dropSlot, hslot]
        exact hd

/-- The arrays that are being made have no other references, so the drop of one is not of these. -/
theorem Laid.released (h : Laid s size counts last) (hr : Released s slot roots s')
    (hne : ∀ a, slot.object? = some a → s.graph.count a ≠ 2) : Laid s' size counts last := by
  cases h with
  | start => exact .start
  | made hb h2 =>
    refine .made (hb.grows hr.grows.memory) fun a ha => ?_
    obtain ⟨o, ho, hstrong⟩ := h2 a ha
    obtain ⟨n, ho'⟩ := hr.grows.memory a o ho
    refine ⟨_, ho', ?_⟩
    have hcount := hr.count a
    rw [Store.graph_count ho', Store.graph_count ho, hstrong] at hcount
    have hzero : (refs [slot]).count a = 0 := by
      apply List.count_eq_zero.mpr
      intro hmem
      obtain ⟨slot', hslot', hobj⟩ := List.mem_filterMap.mp hmem
      rw [List.mem_singleton.mp hslot'] at hobj
      exact hne a hobj ((Store.graph_count ho).trans hstrong)
    rw [hzero] at hcount
    exact hcount

theorem Laid.not_held (h : Laid s size counts last)
    (ho : s.Owned (heldBy last ++ (operands ++ others))) (ha : a ∈ operands) :
    a ∉ heldBy last := by
  intro hheld
  cases h with
  | start => cases hheld
  | @made counts obj levels hb h2 =>
    obtain ⟨o, hmem, hstrong⟩ := h2 a hheld
    have hroot : a ∈ heldBy (some obj) ++ (operands ++ others) := List.mem_append_left _ hheld
    have hs := ho.strong (ho.counted.root_mem a hroot) hmem
    have hone : 0 < (heldBy (some obj)).count a := List.count_pos_iff.mpr hheld
    have htwo : 0 < operands.count a := List.count_pos_iff.mpr ha
    rw [List.count_append, List.count_append] at hs
    omega

/-- Of these operands, in the order in which they are popped, one of the first `d` is the last
reference to an object besides the heap's, those before it being gone, and no count among those is
negative. -/
def LastReference (count : Addr → Nat) (d : Nat) (slots : List JVMSlot) : Prop :=
  ∃ i slot a, i < d ∧ slots[i]? = some slot ∧ slot.object? = some a ∧
    count a = 2 + (refs (slots.take i)).count a ∧
    ∀ j < i, ∀ earlier, slots[j]? = some earlier → 0 ≤ earlier.asI32

theorem not_lastReference_nil : ¬ LastReference count d [] := by
  rintro ⟨_, _, _, _, hslot, _⟩
  cases hslot

theorem not_lastReference_zero : ¬ LastReference count 0 slots := by
  rintro ⟨_, _, _, hi, _⟩
  exact Nat.not_lt_zero _ hi

theorem lastReference_cons : LastReference count (n + 1) (slot :: slots) ↔
    (∃ a, slot.object? = some a ∧ count a = 2) ∨
    (0 ≤ slot.asI32 ∧ LastReference (fun a => count a - (refs [slot]).count a) n slots) := by
  have hrefs : ∀ i, ∀ a, (refs ((slot :: slots).take (i + 1))).count a =
      (refs [slot]).count a + (refs (slots.take i)).count a := by
    intro i a
    rw [← List.count_append, ← refs_append]
    rfl
  constructor
  · rintro ⟨i, slot', a, hi, hslot, hobj, hcount, hbefore⟩
    cases i with
    | zero =>
      cases hslot
      exact .inl ⟨a, hobj, hcount⟩
    | succ i =>
      refine .inr ⟨hbefore 0 (Nat.succ_pos i) slot rfl, i, slot', a, Nat.lt_of_succ_lt_succ hi,
        hslot, hobj, ?_, fun j hj => hbefore (j + 1) (Nat.succ_lt_succ hj)⟩
      rw [hrefs] at hcount
      dsimp only
      omega
  · rintro (⟨a, hobj, hcount⟩ | ⟨hle, i, slot', a, hi, hslot, hobj, hcount, hbefore⟩)
    · refine ⟨0, slot, a, Nat.succ_pos n, rfl, hobj, hcount, ?_⟩
      exact fun j hj => absurd hj (Nat.not_lt_zero j)
    · refine ⟨i + 1, slot', a, Nat.succ_lt_succ hi, hslot, hobj, ?_, ?_⟩
      · dsimp only at hcount
        rw [hrefs]
        omega
      · intro j hj earlier hearlier
        cases j with
        | zero =>
          cases hearlier
          exact hle
        | succ j => exact hbefore j (Nat.lt_of_succ_lt_succ hj) earlier hearlier

/-- Only the counts of what the operands refer to matter. -/
theorem lastReference_congr {count count' : Addr → Nat}
    (h : ∀ a ∈ refs slots, count' a = count a) :
    LastReference count' d slots ↔ LastReference count d slots := by
  have hmem : ∀ {i a} {slot : JVMSlot}, slots[i]? = some slot → slot.object? = some a →
      a ∈ refs slots :=
    fun hslot hobj => List.mem_filterMap.mpr ⟨_, List.mem_of_getElem? hslot, hobj⟩
  constructor
  · rintro ⟨i, slot, a, hi, hslot, hobj, hcount, hbefore⟩
    exact ⟨i, slot, a, hi, hslot, hobj, (h a (hmem hslot hobj)).symm.trans hcount, hbefore⟩
  · rintro ⟨i, slot, a, hi, hslot, hobj, hcount, hbefore⟩
    exact ⟨i, slot, a, hi, hslot, hobj, (h a (hmem hslot hobj)).trans hcount, hbefore⟩

end Janadinite
