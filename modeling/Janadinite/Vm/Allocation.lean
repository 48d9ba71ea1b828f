import Mathlib.Data.List.Nodup
import Janadinite.Vm.ExecuteFramed

namespace Janadinite
open Hoare
set_option autoImplicit true

namespace Store

/-- Objects keep their kind and their slots, and the lock stays as it is. -/
structure Grows (s s' : Store) : Prop where
  memory : ∀ a o, s.memory a = some o → ∃ strong, s'.memory a = some { o with strong }
  locked : s'.locked = s.locked
  poisoned : s'.poisoned = s.poisoned

/-- The next `n` addresses of the allocator are free, and `alloc_count` has room for `n` objects. -/
structure Room (p : Profile) (s : Store) (n : Nat) : Prop where
  fits : ∀ k < n, (s.addresses (s.allocated + k)).Fits
  free : ∀ k < n, s.memory (s.addresses (s.allocated + k)) = none
  distinct : ∀ k < n, ∀ j < k,
    s.addresses (s.allocated + j) ≠ s.addresses (s.allocated + k)
  count : p.overflowChecks = true → s.heap.allocCount + n < 2 ^ 64

/-- The references in slots lead to objects, each of which has room for `n` clones. -/
def Clonable (s : Store) (n : Nat) (slots : List JVMSlot) : Prop :=
  ∀ a ∈ refs slots, a.Fits ∧ ∃ o, s.memory a = some o ∧ o.strong + n ≤ maxRefcount + 1

def retain (s : Store) (as : List Addr) : Store :=
  { s with memory := fun a =>
      if a ∈ as then (s.memory a).map fun o => { o with strong := o.strong + 1 } else s.memory a }

theorem retain_mem (s : Store) (h : a ∈ as) : (s.retain as).memory a =
    (s.memory a).map fun o => { o with strong := o.strong + 1 } :=
  if_pos h

theorem retain_not_mem (s : Store) (h : a ∉ as) : (s.retain as).memory a = s.memory a := if_neg h

theorem retain_none (h : memory s a = none) (as : List Addr) : (s.retain as).memory a = none := by
  by_cases ha : a ∈ as
  · rw [s.retain_mem ha, h]
    rfl
  · exact (s.retain_not_mem ha).trans h

namespace Grows

theorem refl (s : Store) : s.Grows s := ⟨fun _ o h => ⟨o.strong, h⟩, rfl, rfl⟩

theorem trans {s s' s'' : Store} (h : s.Grows s') (h' : s'.Grows s'') : s.Grows s'' where
  memory := by
    intro a o ho
    obtain ⟨n, ho'⟩ := h.memory a o ho
    obtain ⟨n', ho''⟩ := h'.memory a _ ho'
    exact ⟨n', ho''⟩
  locked := h'.locked.trans h.locked
  poisoned := h'.poisoned.trans h.poisoned

theorem retain (s : Store) (as : List Addr) : s.Grows (s.retain as) where
  memory := by
    intro a o ho
    by_cases ha : a ∈ as
    · exact ⟨o.strong + 1, by rw [s.retain_mem ha, ho]; rfl⟩
    · exact ⟨o.strong, (s.retain_not_mem ha).trans ho⟩
  locked := rfl
  poisoned := rfl

theorem withNew {s : Store} (h : s.Free) (kind : ObjectKind) (data : List JVMSlot) (n : Nat) :
    s.Grows (s.withNew kind data n) where
  memory := by
    intro a o ho
    have hne : a ≠ s.addresses s.allocated := by
      rintro rfl
      cases h.2.symm.trans ho
    exact ⟨o.strong, (memory_write_ne s _ hne).trans ho⟩
  locked := rfl
  poisoned := rfl

end Grows

namespace Room

variable {p : Profile} {s : Store}

theorem mono (h : s.Room p n) (hmn : m ≤ n) : s.Room p m where
  fits k hk := h.fits k (Nat.lt_of_lt_of_le hk hmn)
  free k hk := h.free k (Nat.lt_of_lt_of_le hk hmn)
  distinct k hk j hjk := h.distinct k (Nat.lt_of_lt_of_le hk hmn) j hjk
  count hp := Nat.lt_of_le_of_lt (Nat.add_le_add_left hmn _) (h.count hp)

theorem isFree (h : s.Room p (n + 1)) : s.Free :=
  ⟨h.fits 0 (Nat.succ_pos n), h.free 0 (Nat.succ_pos n)⟩

theorem retain (h : s.Room p n) (as : List Addr) : (s.retain as).Room p n where
  fits := h.fits
  free k hk := retain_none (h.free k hk) as
  distinct := h.distinct
  count := h.count

theorem withNew (h : s.Room p (n + 1)) (hadd : p.add 64 s.heap.allocCount 1 = .ok m)
    (kind : ObjectKind) (data : List JVMSlot) : (s.withNew kind data m).Room p n where
  fits k hk := by
    have hf := h.fits (k + 1) (Nat.succ_lt_succ hk)
    rwa [Nat.add_comm k, ← Nat.add_assoc] at hf
  free k hk := by
    have hn := h.free (k + 1) (Nat.succ_lt_succ hk)
    have hne := h.distinct (k + 1) (Nat.succ_lt_succ hk) 0 (Nat.succ_pos k)
    rw [Nat.add_comm k, ← Nat.add_assoc] at hn hne
    exact (memory_write_ne s _ (Ne.symm hne)).trans hn
  distinct k hk j hjk := by
    have hd := h.distinct (k + 1) (Nat.succ_lt_succ hk) (j + 1) (Nat.succ_lt_succ hjk)
    rwa [Nat.add_comm j, Nat.add_comm k, ← Nat.add_assoc, ← Nat.add_assoc] at hd
  count hp := by
    have hc := h.count hp
    rw [p.add_eq (by omega)] at hadd
    cases hadd
    change s.heap.allocCount + 1 + n < _
    omega

/-- With room for an object, its allocation does not overflow the counter. -/
theorem add_ok (h : s.Room p (n + 1)) : p.add 64 s.heap.allocCount 1 ≠ .error msg := by
  intro hadd
  unfold Profile.add at hadd
  split at hadd
  · cases hadd
  · split at hadd
    · rename_i hp
      have hc := h.count hp
      omega
    · cases hadd

end Room

end Store

section
variable {p : Profile} {s : Store}

theorem allocateFromObject_ends (p : Profile) (kind : ObjectKind) (data : List JVMSlot)
    (s : Store) :
    Ends (fun a s' => a = s.addresses s.allocated ∧ s.Free ∧
        (∃ n, s' = s.withNew kind data n) ∧ ∀ n, s.Room p (n + 1) → s'.Room p n)
      (fun e _ => e ≠ .deadlock ∧ ¬ s.Room p 1) (allocateFromObject p kind data s) := by
  rcases allocateFromObject_cases p kind data s with ⟨hf, he⟩ | ⟨_, _, ha, he⟩ | ⟨n, hf, ha, he⟩
  · rw [he]
    exact ⟨fun h => (nomatch h), fun hr => hf hr.isFree⟩
  · rw [he]
    exact ⟨fun h => (nomatch h), fun hr => hr.add_ok ha⟩
  · rw [he]
    exact ⟨rfl, hf, ⟨n, rfl⟩, fun m hr => hr.withNew ha kind data⟩

theorem retain_cons (s : Store) (ha : a ∉ as) (ho : s.memory a = some o) :
    (s.write a (some { o with strong := o.strong + 1 })).retain as = s.retain (a :: as) := by
  simp only [Store.retain, Store.write, Store.mk.injEq, and_true]
  funext b
  by_cases hb : b = a
  · rw [hb, if_neg ha, if_pos rfl, if_pos List.mem_cons_self, ho]
    rfl
  · simp only [List.mem_cons, hb, if_false, false_or]

theorem cloneSlot_null (h : slot.object? = none) : cloneSlot p slot s = .ok slot s := by
  rw [cloneSlot, withObject_none p arcClone h]
  rfl

theorem cloneSlot_object (h : slot.object? = some a) (hf : a.Fits) (ho : s.memory a = some o)
    (hmax : o.strong ≤ maxRefcount) :
    cloneSlot p slot s = .ok slot (s.write a (some { o with strong := o.strong + 1 })) := by
  have hw : withObject p slot arcClone s =
      .ok (some a) (s.write a (some { o with strong := o.strong + 1 })) := by
    rw [withObject_some p arcClone h hf, bind_eq _ (arcClone_eq ho hmax)]
    rfl
  rw [cloneSlot, bind_eq _ hw, JVMSlot.eq_fromObject h]
  rfl

/-- Slots that refer to different objects are cloned into equal ones. -/
theorem cloneSlots_eq (hn : (refs slots).Nodup) (hc : s.Clonable 1 slots) :
    cloneSlots p slots s = .ok slots (s.retain (refs slots)) := by
  induction slots generalizing s with
  | nil =>
    have hr : s.retain (refs []) = s := by
      simp only [Store.retain, refs_nil, List.not_mem_nil, if_false]
    rw [hr]
    rfl
  | cons slot slots ih =>
    rw [cloneSlots]
    rw [refs_cons] at hn
    unfold Store.Clonable at hc
    rw [refs_cons] at hc ⊢
    cases hs : slot.object? with
    | none =>
      rw [hs] at hn hc
      rw [bind_eq _ (cloneSlot_null hs), bind_eq _ (ih hn hc)]
      rfl
    | some a =>
      rw [hs] at hn hc
      obtain ⟨ha, hn⟩ := List.nodup_cons.mp hn
      obtain ⟨hf, o, ho, hmax⟩ := hc a List.mem_cons_self
      have hc' : (s.write a (some { o with strong := o.strong + 1 })).Clonable 1 slots := by
        intro b hb
        obtain ⟨hf, o', ho', hmax'⟩ := hc b (List.mem_cons_of_mem _ hb)
        have hba : b ≠ a := fun h => ha (h ▸ hb)
        exact ⟨hf, o', (Store.memory_write_ne s _ hba).trans ho', hmax'⟩
      rw [bind_eq _ (cloneSlot_object hs hf ho (by omega)), bind_eq _ (ih hn hc')]
      exact congrArg (EStateM.Result.ok _) (retain_cons s ha ho)

end

/-- New arrays with the same slots, each referred to by the heap and once more. -/
structure Store.Made (s s' : Store) (child : BareObject) (as : List Addr) : Prop where
  grows : s.Grows s'
  kept : ∀ b o, s.memory b = some o → b ∉ refs child.data → s'.memory b = some o
  nodup : as.Nodup
  fresh : ∀ a ∈ as, s.memory a = none
  memory : ∀ a ∈ as, a.Fits ∧ s'.memory a = some ⟨2, 0, child.kind, child.data⟩

section
variable {p : Profile} {s s' : Store} {child : BareObject} {as : List Addr}

theorem Store.Grows.none (h : s.Grows s') (hn : s'.memory a = none) : s.memory a = none := by
  cases ho : s.memory a with
  | none => rfl
  | some o =>
    obtain ⟨n, ho'⟩ := h.memory a o ho
    cases hn.symm.trans ho'

theorem Store.Made.refl (s : Store) (child : BareObject) : s.Made s child [] where
  grows := .refl s
  kept _ _ h _ := h
  nodup := .nil
  fresh _ h := nomatch h
  memory _ h := nomatch h

theorem Store.Made.concat (h : s.Made s' child as) (hf : s'.Free) (n : Nat) :
    s.Made (s'.withNew child.kind child.data n) child (as ++ [s'.addresses s'.allocated]) where
  grows := h.grows.trans (.withNew hf ..)
  kept b o ho hb := by
    have hne : b ≠ s'.addresses s'.allocated := by
      rintro rfl
      cases hf.2.symm.trans (h.kept _ o ho hb)
    exact (Store.memory_write_ne s' _ hne).trans (h.kept b o ho hb)
  nodup := by
    apply h.nodup.append (List.nodup_singleton _)
    intro a ha ha'
    rw [List.mem_singleton.mp ha'] at ha
    cases hf.2.symm.trans (h.memory _ ha).2
  fresh a ha := by
    rcases List.mem_append.mp ha with ha | ha
    · exact h.fresh a ha
    · rw [List.mem_singleton.mp ha]
      exact h.grows.none hf.2
  memory a ha := by
    rcases List.mem_append.mp ha with ha | ha
    · obtain ⟨hfits, ho⟩ := h.memory a ha
      have hne : a ≠ s'.addresses s'.allocated := by
        rintro rfl
        cases hf.2.symm.trans ho
      exact ⟨hfits, (Store.memory_write_ne s' _ hne).trans ho⟩
    · rw [List.mem_singleton.mp ha]
      exact ⟨hf.1, Store.memory_write_self ..⟩

theorem Store.Made.cons (hf : s.Free) (hc : s.Clonable 1 child.data)
    (h : ((s.retain (refs child.data)).withNew child.kind child.data n).Made s' child as) :
    s.Made s' child (s.addresses s.allocated :: as) := by
  have hnone : (s.retain (refs child.data)).Free := ⟨hf.1, Store.retain_none hf.2 _⟩
  have hg := (Store.Grows.retain s (refs child.data)).trans
    (.withNew hnone child.kind child.data n)
  have hnew : s.addresses s.allocated ∉ refs child.data := by
    intro ha
    obtain ⟨_, o, ho, _⟩ := hc _ ha
    cases hf.2.symm.trans ho
  have hself := h.kept (s.addresses s.allocated) ⟨2, 0, child.kind, child.data⟩
    (Store.memory_write_self ..) hnew
  refine ⟨hg.trans h.grows, ?_, ?_, ?_, ?_⟩
  · intro b o ho hb
    have hne : b ≠ s.addresses s.allocated := by
      rintro rfl
      cases hf.2.symm.trans ho
    refine h.kept b o ?_ hb
    rw [← ho, ← s.retain_not_mem hb]
    exact Store.memory_write_ne _ _ hne
  · refine List.nodup_cons.mpr ⟨fun ha => ?_, h.nodup⟩
    cases (h.fresh _ ha).symm.trans (Store.memory_write_self (s.retain (refs child.data)) ..)
  · intro a ha
    rcases List.mem_cons.mp ha with rfl | ha
    · exact hf.2
    · exact hg.none (h.fresh a ha)
  · intro a ha
    rcases List.mem_cons.mp ha with rfl | ha
    · exact ⟨hf.1, hself⟩
    · exact h.memory a ha

theorem Store.Clonable.mono (h : s.Clonable n slots) (hmn : m ≤ n) : s.Clonable m slots := by
  intro a ha
  obtain ⟨hf, o, ho, hle⟩ := h a ha
  exact ⟨hf, o, ho, by omega⟩

theorem Store.Clonable.next (h : s.Clonable (n + 1) child.data)
    (hf : (s.retain (refs child.data)).Free) (m : Nat) :
    ((s.retain (refs child.data)).withNew child.kind child.data m).Clonable n child.data := by
  intro a ha
  obtain ⟨hfits, o, ho, hle⟩ := h a ha
  have hr : (s.retain (refs child.data)).memory a = some { o with strong := o.strong + 1 } := by
    rw [s.retain_mem ha, ho]
    rfl
  have hne : a ≠ s.addresses s.allocated := by
    rintro rfl
    cases hf.2.symm.trans hr
  exact ⟨hfits, _, (Store.memory_write_ne _ _ hne).trans hr, by
    change o.strong + 1 + n ≤ _
    omega⟩

theorem cloneChildren_ends (p : Profile) (hn : (refs child.data).Nodup)
    (hc : s.Clonable n child.data) :
    Ends (fun slots s' => ∃ as, slots = as.map .fromObject ∧ as.length = n ∧ s.Made s' child as ∧
        ∀ m, s.Room p (m + n) → s'.Room p m)
      (fun e _ => e ≠ .deadlock ∧ ¬ s.Room p n) (cloneChildren p child n s) := by
  induction n generalizing s with
  | zero => exact ⟨[], rfl, rfl, .refl s child, fun _ h => h⟩
  | succ n ih =>
    have hone := hc.mono (Nat.le_add_left 1 n)
    rw [cloneChildren, bind_eq _ (cloneSlots_eq hn hone)]
    apply Ends.bind ((allocateFromObject_ends p child.kind child.data _).mono (fun _ _ h => h) ?_)
    · rintro a s₁ - ⟨rfl, hf, ⟨m, rfl⟩, hroom⟩
      have hfree : s.Free := ⟨hf.1, (Store.Grows.retain s (refs child.data)).none hf.2⟩
      apply Ends.bind ((ih (hc.next hf m)).mono (fun _ _ h => h) ?_)
      · rintro slots s₂ - ⟨as, rfl, rfl, hmade, hr⟩
        exact ⟨_, rfl, rfl, .cons hfree hone hmade, fun k h => hr k (hroom _ (h.retain _))⟩
      · intro e s₂ he
        exact ⟨he.1, fun h => he.2 (hroom n (h.retain _))⟩
    · intro e s₁ he
      exact ⟨he.1, fun h => he.2 ((h.retain _).mono (Nat.le_add_left 1 n))⟩

theorem fillArray_ends (p : Profile) (hn : (refs child.data).Nodup)
    (hc : s.Clonable n child.data) :
    Ends (fun slots s' => ∃ as, slots = as.map .fromObject ∧ as.length = n + 1 ∧
        s.Made s' child as ∧ ∀ m, s.Room p (m + (n + 1)) → s'.Room p m)
      (fun e _ => e ≠ .deadlock ∧ ¬ s.Room p (n + 1)) (fillArray p child (n + 1) s) := by
  apply Ends.bind ((cloneChildren_ends p hn hc).mono (fun _ _ h => h) ?_)
  · rintro slots s₁ - ⟨as, rfl, rfl, hmade, hr⟩
    apply Ends.bind ((allocateFromObject_ends p child.kind child.data s₁).mono (fun _ _ h => h) ?_)
    · rintro a s₂ - ⟨rfl, hf, ⟨m, rfl⟩, hroom⟩
      refine ⟨_, ?_, ?_, hmade.concat hf m, ?_⟩
      · rw [List.map_append, List.map_singleton]
      · rw [List.length_append, List.length_singleton]
      · intro k h
        apply hroom
        apply hr
        rwa [Nat.add_assoc, Nat.add_comm 1]
    · intro e s₂ he
      refine ⟨he.1, fun h => he.2 (hr 1 ?_)⟩
      rwa [Nat.add_comm 1]
  · intro e s₁ he
    exact ⟨he.1, fun h => he.2 (h.mono (Nat.le_succ _))⟩

end

end Janadinite
