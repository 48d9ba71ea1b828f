import Janadinite.Lib.Layout
import Janadinite.Vm.Calls

namespace Janadinite
open Hoare
set_option autoImplicit true

/-- The slots can be dropped in turn. -/
def Store.Drops (p : Profile) (s : Store) (slots : List JVMSlot) : Prop :=
  ∃ s', dropSlots p slots s = .ok ⟨⟩ s'

/-- The objects that are left have the kinds and the slots that they had. -/
def Store.Recounted (s s' : Store) : Prop :=
  ∀ a o', s'.memory a = some o' → ∃ o, s.memory a = some o ∧ o'.kind = o.kind ∧ o'.data = o.data

namespace Store.Recounted

theorem refl (s : Store) : s.Recounted s := fun _ o h => ⟨o, h, rfl, rfl⟩

theorem trans {s s' s'' : Store} (h : s.Recounted s') (h' : s'.Recounted s'') :
    s.Recounted s'' := by
  intro a o'' ho''
  obtain ⟨o', ho', hk', hd'⟩ := h' a o'' ho''
  obtain ⟨o, ho, hk, hd⟩ := h a o' ho'
  exact ⟨o, ho, hk'.trans hk, hd'.trans hd⟩

theorem write {s : Store} (ho : s.memory a = some o) (strong : Nat) :
    s.Recounted (s.write a (some { o with strong })) := by
  intro b o' ho'
  by_cases hb : b = a
  · subst hb
    cases (Store.memory_write_self ..).symm.trans ho'
    exact ⟨o, ho, rfl, rfl⟩
  · exact ⟨o', (Store.memory_write_ne s _ hb).symm.trans ho', rfl, rfl⟩

theorem remove (s : Store) (a : Addr) : s.Recounted (s.write a none) := by
  intro b o' ho'
  by_cases hb : b = a
  · subst hb
    cases (Store.memory_write_self ..).symm.trans ho'
  · exact ⟨o', (Store.memory_write_ne s _ hb).symm.trans ho', rfl, rfl⟩

end Store.Recounted

theorem dropOnce_unlisted {s : Store} (ho : s.memory a = some o) (h2 : o.strong = 2)
    (hp : s.poisoned = false) (hl : s.locked = false) (ha : a ∉ s.heap.objects) :
    dropOnce p a s =
      .error (.panic "Failed to deallocate an object") { s with locked := true } := by
  have ht : tryDeallocate p a s =
      .error (.panic "Failed to deallocate an object") { s with locked := true } := by
    rw [tryDeallocate, bind_eq _ (deref_eq ho), if_pos h2, bind_eq _ (lockHeap_eq hp hl)]
    change (if a ∈ s.heap.objects then _ else _ : VM Store PUnit) _ = _
    rw [if_neg ha]
    rfl
  exact bind_error _ ht

theorem dropOnce_ok {s s' : Store} (h : dropOnce p a s = .ok nested s') :
    ∃ o, s.memory a = some o ∧ ((∃ n, s' = s.free a n) ∨ s' = s.write a none ∨
      s' = s.write a (some { o with strong := o.strong - 1 })) := by
  have hm : ∃ o, s.memory a = some o := by
    obtain ⟨_, s₁, ht, -⟩ := bind_ok h
    obtain ⟨o, s₂, hd, -⟩ := bind_ok ht
    exact ⟨o, (deref_ok hd).1⟩
  obtain ⟨o, ho⟩ := hm
  refine ⟨o, ho, ?_⟩
  by_cases h2 : o.strong = 2
  · left
    cases hp : s.poisoned with
    | true => cases (dropOnce_poisoned ho h2 hp).symm.trans h
    | false =>
      cases hl : s.locked with
      | true => cases (dropOnce_deadlock ho h2 hp hl).symm.trans h
      | false =>
        by_cases ha : a ∈ s.heap.objects
        · cases hc : p.sub 64 s.heap.allocCount 1 with
          | error msg => cases (dropOnce_underflow ho h2 hp hl ha hc).symm.trans h
          | ok n =>
            cases (dropOnce_last ho h2 hp hl ha hc).symm.trans h
            exact ⟨n, rfl⟩
        · cases (dropOnce_unlisted ho h2 hp hl ha).symm.trans h
  · right
    by_cases h1 : o.strong = 1
    · have hrun : dropOnce p a s = .ok (refs o.data) (s.write a none) := by
        rw [dropOnce, bind_eq _ (tryDeallocate_shared ho h2)]
        exact arcRelease_last ho h1
      cases hrun.symm.trans h
      exact .inl rfl
    · cases (dropOnce_shared ho h1 h2).symm.trans h
      exact .inr rfl

theorem dropOnce_recounted {s s' : Store} (h : dropOnce p a s = .ok nested s') :
    s.Recounted s' := by
  obtain ⟨o, ho, ⟨n, rfl⟩ | rfl | rfl⟩ := dropOnce_ok h
  · exact .remove _ a
  · exact .remove _ a
  · exact .write ho _

theorem dropRefs_recounted {s s' : Store} (h : dropRefs p fuel pending s = .ok ⟨⟩ s') :
    s.Recounted s' := by
  induction fuel generalizing pending s with
  | zero =>
    cases pending with
    | nil =>
      cases h
      exact .refl _
    | cons a rest => cases h
  | succ fuel ih =>
    cases pending with
    | nil =>
      cases h
      exact .refl _
    | cons a rest =>
      obtain ⟨nested, s₁, ha, hrest⟩ := bind_ok h
      exact (dropOnce_recounted ha).trans (ih hrest)

theorem dropRef_recounted {s s' : Store} (h : dropRef p a s = .ok ⟨⟩ s') : s.Recounted s' :=
  @dropRefs_recounted p (s.heldRefs + 1) [a] s s' h

theorem dropSlot_recounted {s s' : Store} (h : dropSlot p slot s = .ok ⟨⟩ s') :
    s.Recounted s' := by
  rw [dropSlot] at h
  cases hs : slot.object? with
  | none =>
    rw [hs] at h
    cases h
    exact .refl _
  | some a =>
    rw [hs] at h
    exact dropRef_recounted h

theorem dropSlots_recounted {s s' : Store} (h : dropSlots p slots s = .ok ⟨⟩ s') :
    s.Recounted s' := by
  induction slots generalizing s with
  | nil =>
    cases h
    exact .refl _
  | cons slot slots ih =>
    obtain ⟨_, s₁, hslot, hrest⟩ := bind_ok h
    exact (dropSlot_recounted hslot).trans (ih hrest)

theorem dropSlots_append (p : Profile) (slots slots' : List JVMSlot) :
    dropSlots p (slots ++ slots') = (do dropSlots p slots; dropSlots p slots') := by
  induction slots with
  | nil => rfl
  | cons slot slots ih =>
    rw [List.cons_append, dropSlots, ih, dropSlots, bind_assoc]

theorem Store.drops_append {s : Store} : s.Drops p (slots ++ slots') ↔
    ∃ s', dropSlots p slots s = .ok ⟨⟩ s' ∧ s'.Drops p slots' := by
  rw [Drops, dropSlots_append]
  constructor
  · rintro ⟨s'', h⟩
    obtain ⟨_, s', hs', hs''⟩ := bind_ok h
    exact ⟨s', hs', s'', hs''⟩
  · rintro ⟨s', hs', s'', hs''⟩
    exact ⟨s'', (bind_eq _ hs').trans hs''⟩

/-- `HEAP` can be locked, and where overflow is checked no object was allocated before the count was
last reset. -/
structure Store.Countable (p : Profile) (s : Store) : Prop where
  poisoned : s.poisoned = false
  locked : s.locked = false
  count : p.overflowChecks = true → s.heap.objects.length ≤ s.heap.allocCount

theorem dropOnce_countable {s : Store} (h : s.Owned (a :: roots)) (hc : s.Countable p) :
    ∃ nested s', dropOnce p a s = .ok nested s' ∧ s'.Countable p := by
  have ha := h.counted.root_mem a List.mem_cons_self
  obtain ⟨o, ho⟩ := h.allocated.get ha
  have hs := h.two_le_strong ho
  by_cases h2 : o.strong = 2
  · have hpos : 0 < s.heap.objects.length := List.length_pos_of_mem ha
    have hsub : ∃ n, p.sub 64 s.heap.allocCount 1 = .ok n ∧
        (p.overflowChecks = true → n = s.heap.allocCount - 1) := by
      cases hp : p.overflowChecks with
      | true =>
        have hle := hc.count hp
        exact ⟨_, p.sub_eq (by omega), fun _ => rfl⟩
      | false =>
        rw [Profile.sub, hp]
        split
        · exact ⟨_, rfl, fun _ => rfl⟩
        · exact ⟨_, rfl, fun h => by cases h⟩
    obtain ⟨n, hn, hcount⟩ := hsub
    refine ⟨_, _, dropOnce_last ho h2 hc.poisoned hc.locked ha hn, hc.poisoned, rfl, ?_⟩
    intro hp
    change (s.heap.objects.erase a).length ≤ n
    have hle := hc.count hp
    rw [List.length_erase_of_mem ha, hcount hp]
    omega
  · exact ⟨_, _, dropOnce_shared ho (by omega) h2, hc.poisoned, hc.locked, hc.count⟩

/-- With exact counts, and an allocation counter that is not too small, drops return. -/
theorem dropRefs_countable {s : Store} (h : s.Owned (pending ++ roots)) (hc : s.Countable p)
    (hfuel : pending.length + s.heldRefs ≤ fuel) :
    ∃ s', dropRefs p fuel pending s = .ok ⟨⟩ s' ∧ s'.Countable p := by
  induction fuel generalizing pending s with
  | zero =>
    cases pending with
    | nil => exact ⟨s, rfl, hc⟩
    | cons a rest =>
      rw [List.length_cons] at hfuel
      omega
  | succ fuel ih =>
    cases pending with
    | nil => exact ⟨s, rfl, hc⟩
    | cons a rest =>
      obtain ⟨nested, s₁, ha, hc₁⟩ := dropOnce_countable h hc
      obtain ⟨h₁, hheld⟩ := (dropOnce_owned p a (rest ++ roots) s.heldRefs).ok ⟨h, rfl⟩ ha
      rw [← List.append_assoc] at h₁
      obtain ⟨s', hs', hc'⟩ := ih h₁ hc₁ (by
        rw [List.length_cons] at hfuel
        rw [List.length_append]
        omega)
      exact ⟨s', (bind_eq _ ha).trans hs', hc'⟩

theorem Store.Owned.drops {s : Store} (h : s.Owned (refs slots ++ roots)) (hc : s.Countable p) :
    s.Drops p slots := by
  induction slots generalizing s with
  | nil => exact ⟨s, rfl⟩
  | cons slot slots ih =>
    rw [refs_cons, List.append_assoc] at h
    have hslot : ∃ s', dropSlot p slot s = .ok ⟨⟩ s' ∧ s'.Countable p := by
      rw [dropSlot]
      cases hs : slot.object? with
      | none => exact ⟨s, rfl, hc⟩
      | some a =>
        rw [hs] at h
        have hroot : s.Owned ([a] ++ (refs slots ++ roots)) := h
        refine dropRefs_countable hroot hc (Nat.le_of_eq ?_)
        rw [List.length_singleton, Nat.add_comm]
    obtain ⟨s₁, hs₁, hc₁⟩ := hslot
    have h₁ : s₁.Owned (refs slots ++ roots) := by
      have hrefs : s.Owned (refs [slot] ++ (refs slots ++ roots)) := by
        rw [refs_cons, refs_nil, List.append_nil]
        exact h
      exact (dropSlot_owned p slot (refs slots ++ roots)).ok hrefs hs₁
    obtain ⟨s', hs'⟩ := ih h₁ hc₁
    exact ⟨s', (bind_eq _ hs₁).trans hs'⟩

/-- Code that ends with no error of the machine. -/
def Silent (m : VM Store α) : Prop := ∀ s x s', m s ≠ .error (.error x) s'

namespace Silent

theorem pure (v : α) : Silent (Pure.pure v) := fun _ _ _ h => by cases h

theorem bind {m : VM Store α} {f : α → VM Store β} (hm : Silent m) (hf : ∀ v, Silent (f v)) :
    Silent (m >>= f) := by
  intro s x s' h
  cases hr : m s with
  | ok v s₁ =>
    rw [bind_eq f hr] at h
    exact hf v s₁ x s' h
  | error e s₁ =>
    rw [bind_error f hr] at h
    cases h
    exact hm s x _ hr

theorem deref (a : Addr) : Silent (deref a) := by
  intro s x s' h
  cases hm : s.memory a with
  | some o => cases (deref_eq hm).symm.trans h
  | none =>
    rw [Janadinite.deref, bind_get, hm] at h
    cases h

theorem checked (r : Except String α) : Silent (checked r) := by
  intro s x s' h
  cases r <;> cases h

theorem lockHeap (msg : String) : Silent (lockHeap msg) := by
  intro s x s' h
  cases hp : s.poisoned with
  | true => cases (lockHeap_poisoned hp).symm.trans h
  | false =>
    cases hl : s.locked with
    | true => cases (lockHeap_locked hp hl).symm.trans h
    | false => cases (lockHeap_eq hp hl).symm.trans h

theorem modifyHeap (f : Heap → Heap) : Silent (modifyHeap f) := fun _ _ _ h => by cases h

theorem tryDeallocate (p : Profile) (a : Addr) : Silent (tryDeallocate p a) := by
  apply (deref a).bind
  intro o
  split
  · apply (lockHeap _).bind
    intro _
    apply bind (fun _ _ _ h => by cases h)
    intro heap
    split
    · apply (modifyHeap _).bind
      intro _
      apply bind (fun _ _ _ h => by cases h)
      intro _
      apply (checked _).bind
      intro n
      apply (modifyHeap _).bind
      intro _
      exact fun _ _ _ h => by cases h
    · exact fun _ _ _ h => by cases h
  · exact pure _

theorem arcRelease (a : Addr) : Silent (arcRelease a) := by
  apply (deref a).bind
  intro o
  split
  · exact bind (fun _ _ _ h => by cases h) fun _ => pure _
  · exact bind (fun _ _ _ h => by cases h) fun _ => pure _

theorem dropRefs (p : Profile) (fuel : Nat) (pending : List Addr) :
    Silent (dropRefs p fuel pending) := by
  induction fuel generalizing pending with
  | zero =>
    cases pending with
    | nil => exact pure _
    | cons a rest => exact fun _ _ _ h => by cases h
  | succ fuel ih =>
    cases pending with
    | nil => exact pure _
    | cons a rest =>
      exact ((tryDeallocate p a).bind fun _ => arcRelease a).bind fun nested => ih (nested ++ rest)

theorem dropRef (p : Profile) (a : Addr) : Silent (dropRef p a) :=
  bind (fun _ _ _ h => by cases h) fun _ => dropRefs p _ [a]

theorem dropSlot (p : Profile) (slot : JVMSlot) : Silent (dropSlot p slot) := by
  rw [Janadinite.dropSlot]
  cases slot.object? with
  | none => exact pure _
  | some a => exact dropRef p a

theorem dropSlots (p : Profile) (slots : List JVMSlot) : Silent (dropSlots p slots) := by
  induction slots with
  | nil => exact pure _
  | cons slot slots ih => exact (dropSlot p slot).bind fun _ => ih

end Silent

def Store.withSlots (s : Store) (a : Addr) (o : Object) (off : Nat) (slots : List JVMSlot) :
    Store :=
  s.write a (some { o with data := Layout.overwrite o.data off slots })

/-- The slots stay in the object while other references are dropped. -/
theorem Store.Recounted.written {s s' : Store} (h : (s.withSlots a o off slots).Recounted s')
    (ho' : s'.memory a = some o') : o'.data = Layout.overwrite o.data off slots := by
  obtain ⟨o₁, ho₁, -, hd⟩ := h a o' ho'
  cases (Store.memory_write_self ..).symm.trans ho₁
  exact hd

theorem assignData_eq {s : Store} (ho : s.memory a = some o) (hi : o.data[i]? = some old)
    (slot : JVMSlot) : assignData p a i slot s = dropSlot p old (s.withSlots a o i [slot]) := by
  rw [assignData, bind_eq _ (replaceData_eq ho hi slot),
    Layout.set_eq_overwrite (List.getElem?_eq_some_iff.mp hi).1]
  rfl

theorem onTable_eq {m : VM ClassTable α} {r : Runtime} (h : m r.table = .ok v table) :
    onTable m r = .ok v { r with table } := by
  rw [onTable, h]

theorem onStore_from {m m' : VM Store α} {r : Runtime} (h : m r.store = m' store) :
    onStore m r = onStore m' { r with store } := by
  rw [onStore, onStore, h]

theorem onStore_bind (m : VM Store α) (f : α → VM Store β) :
    onStore (m >>= f) = onStore m >>= fun v => onStore (f v) := by
  funext r
  cases hm : m r.store with
  | ok v s =>
    rw [bind_eq _ (onStore_eq hm), onStore, bind_eq _ hm]
    rfl
  | error e s => rw [bind_error _ (onStore_error hm), onStore, bind_error _ hm]

theorem onStore_dropSlots (p : Profile) (slot : JVMSlot) (slots : List JVMSlot) :
    onStore (dropSlots p (slot :: slots)) = (do
      onStore (dropSlot p slot)
      onStore (dropSlots p slots)) :=
  onStore_bind (dropSlot p slot) fun _ => dropSlots p slots

theorem dropSlots_reference (p : Profile) {a : Addr} (h : a.Fits) :
    dropSlots p [.fromObject a] = dropRef p a := by
  rw [dropSlots, dropSlots, dropSlot, JVMSlot.object?_fromObject h]
  exact bind_pure (dropRef p a)

/-- An instruction that ends with drops goes on when they return. -/
theorem ends_dropping (p : Profile) (slots : List JVMSlot) (r : Runtime) :
    (∃ r', (do
      onStore (dropSlots p slots)
      pure .next : VM Runtime Outcome) r = .ok .next r') ↔ r.store.Drops p slots := by
  constructor
  · rintro ⟨r', h⟩
    obtain ⟨_, r₁, hd, -⟩ := bind_ok h
    obtain ⟨s, hs, -⟩ := onStore_ok hd
    exact ⟨s, hs⟩
  · rintro ⟨s, hs⟩
    exact ⟨{ r with store := s }, bind_eq _ (onStore_eq hs)⟩

/-- Drops at its end do not make an instruction end with an error. -/
theorem dropping_silent (p : Profile) (slots : List JVMSlot) (r : Runtime) (x : VMError)
    (r' : Runtime) : (do
      onStore (dropSlots p slots)
      pure .next : VM Runtime Outcome) r ≠ .error (.error x) r' := by
  intro h
  cases hd : dropSlots p slots r.store with
  | ok u s => cases (bind_eq _ (onStore_eq hd)).symm.trans h
  | error e s =>
    cases (bind_error _ (onStore_error hd)).symm.trans h
    exact Silent.dropSlots p slots _ x s hd

end Janadinite
