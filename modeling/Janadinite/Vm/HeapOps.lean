import Janadinite.Vm.Owned

namespace Janadinite
open RefCount Hoare
set_option autoImplicit true

/-- A call that does not return has not followed a dangling pointer, and no bound of the model was
too small for it. -/
def Regular : Stop → σ → Prop
  | .undefined, _ => False
  | .outOfFuel, _ => False
  | _, _ => True

theorem deref_eq {s : Store} (h : s.memory a = some o) : deref a s = .ok o s := by
  rw [deref, bind_get, h]
  rfl

theorem deref_ok {s s' : Store} (h : deref a s = .ok o s') : s.memory a = some o ∧ s' = s := by
  cases hm : s.memory a with
  | none =>
    rw [deref, bind_get, hm] at h
    cases h
  | some o' =>
    rw [deref_eq hm] at h
    cases h
    exact ⟨rfl, rfl⟩

theorem arcClone_eq {s : Store} (ho : s.memory a = some o) (hmax : o.strong ≤ maxRefcount) :
    arcClone a s = .ok a (s.write a (some { o with strong := o.strong + 1 })) := by
  rw [arcClone, bind_eq _ (deref_eq ho), if_neg (Nat.not_lt.mpr hmax)]
  rfl

/-- While a reference is cloned, what is in the heap stays in it. -/
theorem arcClone_owned {live : List Addr} (roots : List Addr) (ha : a ∈ live) :
    Triple (fun s => s.Owned roots ∧ live ⊆ s.heap.objects) (arcClone a)
      (fun b s => b = a ∧ s.Owned (a :: roots) ∧ live ⊆ s.heap.objects) Regular := by
  intro s ⟨h, hlive⟩
  obtain ⟨o, ho⟩ := h.allocated.get (hlive ha)
  rw [arcClone, bind_eq _ (deref_eq ho)]
  by_cases hmax : o.strong > maxRefcount
  · rw [if_pos hmax]
    trivial
  · rw [if_neg hmax]
    exact ⟨rfl, h.clone (hlive ha) ho (Nat.le_of_not_lt hmax), hlive⟩

theorem arcRelease_shared {s : Store} (ho : s.memory a = some o) (h : o.strong ≠ 1) :
    arcRelease a s = .ok [] (s.write a (some { o with strong := o.strong - 1 })) := by
  rw [arcRelease, bind_eq _ (deref_eq ho), if_neg h]
  rfl

theorem arcRelease_last {s : Store} (ho : s.memory a = some o) (h : o.strong = 1) :
    arcRelease a s = .ok (refs o.data) (s.write a none) := by
  rw [arcRelease, bind_eq _ (deref_eq ho), if_pos h]
  rfl

theorem tryDeallocate_shared {s : Store} (ho : s.memory a = some o) (h : o.strong ≠ 2) :
    tryDeallocate p a s = .ok ⟨⟩ s := by
  rw [tryDeallocate, bind_eq _ (deref_eq ho), if_neg h]
  rfl

theorem lockHeap_eq {s : Store} (hp : s.poisoned = false) (hl : s.locked = false) :
    lockHeap msg s = .ok ⟨⟩ { s with locked := true } := by
  change (if s.poisoned then panicWith msg else if s.locked then throw .deadlock
    else MonadState.set { s with locked := true } : VM Store _) s = _
  rw [hp, hl]
  rfl

theorem lockHeap_poisoned {s : Store} (hp : s.poisoned = true) :
    lockHeap msg s = .error (.panic msg) s := by
  change (if s.poisoned then panicWith msg else if s.locked then throw .deadlock
    else MonadState.set { s with locked := true } : VM Store _) s = _
  rw [hp]
  rfl

theorem lockHeap_locked {s : Store} (hp : s.poisoned = false) (hl : s.locked = true) :
    lockHeap msg s = .error .deadlock s := by
  change (if s.poisoned then panicWith msg else if s.locked then throw .deadlock
    else MonadState.set { s with locked := true } : VM Store _) s = _
  rw [hp, hl]
  rfl

/-- The object is not in the set any more, and its own reference is the only one. -/
def Store.taken (s : Store) (a : Addr) (o : Object) : Store :=
  { s.write a (some { o with strong := o.strong - 1 }) with
    heap := { s.heap with objects := s.heap.objects.erase a }, locked := true }

theorem tryDeallocate_last {s : Store} (ho : s.memory a = some o) (h : o.strong = 2)
    (hp : s.poisoned = false) (hl : s.locked = false) (ha : a ∈ s.heap.objects) :
    tryDeallocate p a s = (do
      let allocCount ← checked (p.sub 64 s.heap.allocCount 1)
      modifyHeap fun heap => { heap with allocCount }
      unlockHeap : VM Store PUnit) (s.taken a o) := by
  rw [tryDeallocate, bind_eq _ (deref_eq ho), if_pos h, bind_eq _ (lockHeap_eq hp hl)]
  change (if a ∈ s.heap.objects then _ else _ : VM Store PUnit) _ = _
  rw [if_pos ha]
  rfl

theorem dropOnce_shared {s : Store} (ho : s.memory a = some o) (h1 : o.strong ≠ 1)
    (h2 : o.strong ≠ 2) :
    dropOnce p a s = .ok [] (s.write a (some { o with strong := o.strong - 1 })) := by
  rw [dropOnce, bind_eq _ (tryDeallocate_shared ho h2)]
  exact arcRelease_shared ho h1

theorem dropOnce_last {s : Store} (ho : s.memory a = some o) (h2 : o.strong = 2)
    (hp : s.poisoned = false) (hl : s.locked = false) (ha : a ∈ s.heap.objects)
    (hc : p.sub 64 s.heap.allocCount 1 = .ok n) :
    dropOnce p a s = .ok (refs o.data) (s.free a n) := by
  have ht : tryDeallocate p a s = .ok ⟨⟩ { s.taken a o with
      heap := { s.heap with objects := s.heap.objects.erase a, allocCount := n },
      locked := false } := by
    rw [tryDeallocate_last ho h2 hp hl ha, hc]
    rfl
  rw [dropOnce, bind_eq _ ht, arcRelease_last (if_pos rfl) (by rw [h2])]
  exact congrArg (fun m => EStateM.Result.ok _ { s.free a n with memory := m })
    (congrArg Store.memory (s.write_write a _ none))

theorem dropOnce_underflow {s : Store} (ho : s.memory a = some o) (h2 : o.strong = 2)
    (hp : s.poisoned = false) (hl : s.locked = false) (ha : a ∈ s.heap.objects)
    (hc : p.sub 64 s.heap.allocCount 1 = .error msg) :
    dropOnce p a s = .error (.panic msg) (s.taken a o) := by
  have ht : tryDeallocate p a s = .error (.panic msg) (s.taken a o) := by
    rw [tryDeallocate_last ho h2 hp hl ha, hc]
    rfl
  exact bind_error _ ht

theorem dropOnce_poisoned {s : Store} (ho : s.memory a = some o) (h2 : o.strong = 2)
    (hp : s.poisoned = true) : dropOnce p a s = .error (.panic deallocLockMsg) s := by
  have ht : tryDeallocate p a s = .error (.panic deallocLockMsg) s := by
    rw [tryDeallocate, bind_eq _ (deref_eq ho), if_pos h2]
    exact bind_error _ (lockHeap_poisoned hp)
  exact bind_error _ ht

theorem dropOnce_deadlock {s : Store} (ho : s.memory a = some o) (h2 : o.strong = 2)
    (hp : s.poisoned = false) (hl : s.locked = true) :
    dropOnce p a s = .error .deadlock s := by
  have ht : tryDeallocate p a s = .error .deadlock s := by
    rw [tryDeallocate, bind_eq _ (deref_eq ho), if_pos h2]
    exact bind_error _ (lockHeap_locked hp hl)
  exact bind_error _ ht

theorem heldRefs_eq (s : Store) : s.heldRefs = (s.graph.held s.heap.objects).length := by
  rw [Graph.held, List.length_flatMap, Store.heldRefs]
  refine congrArg List.sum (List.map_congr_left fun a _ => ?_)
  simp only [Store.graph]
  cases s.memory a <;> rfl

@[simp] theorem refs_nil : refs [] = [] := rfl

theorem refs_cons (slot : JVMSlot) (slots : List JVMSlot) :
    refs (slot :: slots) = slot.object?.toList ++ refs slots := by
  rw [refs, List.filterMap_cons]
  cases slot.object? <;> rfl

@[simp] theorem refs_append (slots slots' : List JVMSlot) :
    refs (slots ++ slots') = refs slots ++ refs slots' :=
  List.filterMap_append

theorem refs_count (h : a.Fits) (slots : List JVMSlot) :
    (refs slots).count a = slots.count (.fromObject a) := by
  induction slots with
  | nil => rfl
  | cons slot slots ih =>
    rw [refs_cons, List.count_append, ih, List.count_cons]
    cases hs : slot.object? with
    | none =>
      have hne : slot ≠ .fromObject a := by
        intro he
        rw [he, JVMSlot.object?_fromObject h] at hs
        cases hs
      rw [if_neg (by simpa using hne)]
      exact Nat.zero_add _
    | some b =>
      have heq := JVMSlot.eq_fromObject hs
      rw [heq] at hs ⊢
      by_cases hba : b = a
      · rw [hba, Nat.add_comm]
        simp
      · have hne : JVMSlot.fromObject b ≠ .fromObject a := by
          intro he
          rw [he, JVMSlot.object?_fromObject h] at hs
          exact hba (Option.some.inj hs).symm
        simp [hne, hba]

theorem held_free {s : Store} (h : s.Owned (a :: roots)) (ho : s.memory a = some o) (n : Nat) :
    (s.free a n).heldRefs + (refs o.data).length = s.heldRefs := by
  have hh : (s.free a n).graph.held (s.heap.objects.erase a) =
      s.graph.held (s.heap.objects.erase a) := by
    apply Graph.held_congr
    intro b hb
    obtain ⟨hba, _⟩ := (h.counted.nodup.mem_erase_iff).mp hb
    exact (Store.graph_of_memory (Store.memory_write_ne s none hba)).1
  have hp := (s.graph.held_erase (h.counted.root_mem a List.mem_cons_self)).length_eq
  rw [List.length_append, Store.graph_refs ho] at hp
  rw [heldRefs_eq, heldRefs_eq, hp]
  change ((s.free a n).graph.held (s.heap.objects.erase a)).length + _ = _
  rw [hh, Nat.add_comm]

theorem held_release {s : Store} (ho : s.memory a = some o) :
    (s.write a (some { o with strong := o.strong - 1 })).heldRefs = s.heldRefs := by
  rw [heldRefs_eq, heldRefs_eq]
  exact congrArg List.length (Graph.held_congr fun b _ => Store.graph_refs_write ho (by rfl) b)

theorem dropOnce_owned (p : Profile) (a : Addr) (roots : List Addr) (n : Nat) :
    Triple (fun s => s.Owned (a :: roots) ∧ s.heldRefs = n) (dropOnce p a)
      (fun nested s => s.Owned (nested ++ roots) ∧ s.heldRefs + nested.length = n) Regular := by
  intro s ⟨h, hn⟩
  have ha := h.counted.root_mem a List.mem_cons_self
  obtain ⟨o, ho⟩ := h.allocated.get ha
  have hs := h.two_le_strong ho
  by_cases h2 : o.strong = 2
  · cases hp : s.poisoned with
    | true =>
      rw [dropOnce_poisoned ho h2 hp]
      trivial
    | false =>
      cases hl : s.locked with
      | true =>
        rw [dropOnce_deadlock ho h2 hp hl]
        trivial
      | false =>
        cases hc : p.sub 64 s.heap.allocCount 1 with
        | error msg =>
          rw [dropOnce_underflow ho h2 hp hl ha hc]
          trivial
        | ok m =>
          rw [dropOnce_last ho h2 hp hl ha hc]
          exact ⟨h.free ho h2 m, (held_free h ho m).trans hn⟩
  · rw [dropOnce_shared ho (by omega) h2]
    exact ⟨h.release ho, (held_release ho).trans hn⟩

/-- Dropping references frees what they held alone, and the fuel is enough for it. -/
theorem dropRefs_owned (p : Profile) (roots : List Addr) :
    Triple (fun s => s.Owned (pending ++ roots) ∧ pending.length + s.heldRefs ≤ fuel)
      (dropRefs p fuel pending) (fun _ s => s.Owned roots) Regular := by
  induction fuel generalizing pending with
  | zero =>
    intro s ⟨h, hle⟩
    cases pending with
    | nil => exact h
    | cons a rest =>
      rw [List.length_cons] at hle
      omega
  | succ fuel ih =>
    intro s ⟨h, hle⟩
    cases pending with
    | nil => exact h
    | cons a rest =>
      refine Triple.bind (dropOnce_owned p a (rest ++ roots) s.heldRefs) ?_ s ⟨h, rfl⟩
      intro nested s' ⟨h', hn⟩
      refine ih s' ⟨?_, ?_⟩
      · rwa [List.append_assoc]
      · rw [List.length_cons] at hle
        rw [List.length_append]
        omega

theorem dropRef_owned (p : Profile) (a : Addr) (roots : List Addr) :
    Triple (fun s => s.Owned (a :: roots)) (dropRef p a) (fun _ s => s.Owned roots) Regular := by
  intro s h
  refine dropRefs_owned p roots s ⟨h, Nat.le_of_eq ?_⟩
  rw [List.length_singleton, Nat.add_comm]

theorem dropSlot_plain (p : Profile) (h : slot.object? = none) : dropSlot p slot = pure ⟨⟩ := by
  rw [dropSlot, h]

theorem dropSlot_owned (p : Profile) (slot : JVMSlot) (roots : List Addr) :
    Triple (fun s => s.Owned (refs [slot] ++ roots)) (dropSlot p slot) (fun _ s => s.Owned roots)
      Regular := by
  rw [refs_cons, dropSlot]
  cases slot.object? with
  | none => exact Triple.pure fun _ h => h
  | some a => exact dropRef_owned p a roots

theorem dropSlots_owned (p : Profile) (slots : List JVMSlot) (roots : List Addr) :
    Triple (fun s => s.Owned (refs slots ++ roots)) (dropSlots p slots)
      (fun _ s => s.Owned roots) Regular := by
  induction slots with
  | nil => exact Triple.pure fun _ h => h
  | cons slot slots ih =>
    refine Triple.bind (Triple.mono (dropSlot_owned p slot (refs slots ++ roots)) ?_
      (fun _ _ h => h) fun _ _ h => h) fun _ => ih
    intro s h
    rwa [← List.append_assoc, ← refs_append]

theorem withObject_none (p : Profile) (f : Addr → VM Store α) (h : slot.object? = none) :
    withObject p slot f = pure none := by
  rw [JVMSlot.object?] at h
  split at h
  · cases h
  · rename_i hi
    exact if_neg hi

/-- A reference to an object at an address in range is negated without overflow. -/
theorem withObject_some (p : Profile) (f : Addr → VM Store α) (h : slot.object? = some a)
    (hf : a.Fits) : withObject p slot f = (do
      let r ← f a
      pure (some r)) := by
  have hmin : slot.raw ≠ Int64.minValue := by
    intro hm
    have h' : (JVMSlot.mk Int64.minValue).object? = some a := hm ▸ h
    have hb : (JVMSlot.mk Int64.minValue).object? = some 0x8000000000000000 := by decide
    rw [← Option.some.inj (hb.symm.trans h')] at hf
    exact absurd hf (by decide)
  rw [JVMSlot.object?] at h
  split at h
  · rename_i hi
    cases h
    rw [withObject, if_pos hi, if_neg]
    rw [Bool.and_eq_true, beq_iff_eq]
    exact fun hc => hmin hc.2
  · cases h

theorem withObject_clone_owned {live : List Addr} (p : Profile) (roots : List Addr)
    (hs : refs [slot] ⊆ live) :
    Triple (fun s => s.Owned roots ∧ live ⊆ s.heap.objects) (withObject p slot arcClone)
      (fun a s => a = slot.object? ∧ s.Owned (refs [slot] ++ roots) ∧ live ⊆ s.heap.objects)
      Regular := by
  intro s ⟨h, hlive⟩
  rw [refs_cons] at hs ⊢
  cases hv : slot.object? with
  | none =>
    rw [withObject_none p arcClone hv]
    exact ⟨rfl, h, hlive⟩
  | some a =>
    have ha : a ∈ live := hs (by rw [hv]; exact List.mem_cons_self)
    have hf := (h.allocated a (hlive ha)).1
    rw [withObject_some p arcClone hv hf]
    apply Triple.bind (arcClone_owned roots ha) _ s ⟨h, hlive⟩
    exact fun b s hb => ⟨congrArg some hb.1, hb.2⟩

theorem cloneSlot_owned {live : List Addr} (p : Profile) (roots : List Addr)
    (hs : refs [slot] ⊆ live) :
    Triple (fun s => s.Owned roots ∧ live ⊆ s.heap.objects) (cloneSlot p slot)
      (fun c s => c = slot ∧ s.Owned (refs [slot] ++ roots) ∧ live ⊆ s.heap.objects) Regular := by
  apply Triple.bind (withObject_clone_owned p roots hs)
  intro a s ⟨ha, h⟩
  rw [ha]
  cases hv : slot.object? with
  | none => exact ⟨rfl, h⟩
  | some a => exact ⟨(JVMSlot.eq_fromObject hv).symm, h⟩

theorem cloneSlots_owned {live : List Addr} (p : Profile) (roots : List Addr)
    (hs : refs slots ⊆ live) :
    Triple (fun s => s.Owned roots ∧ live ⊆ s.heap.objects) (cloneSlots p slots)
      (fun cs s => cs = slots ∧ s.Owned (refs slots ++ roots) ∧ live ⊆ s.heap.objects)
      Regular := by
  induction slots generalizing roots with
  | nil => exact Triple.pure fun _ ⟨h, hl⟩ => ⟨rfl, h, hl⟩
  | cons slot slots ih =>
    have hsplit : refs (slot :: slots) = refs [slot] ++ refs slots := refs_append [slot] slots
    rw [hsplit] at hs ⊢
    have hs₁ : refs [slot] ⊆ live := fun b hb => hs (List.mem_append_left _ hb)
    have hs₂ : refs slots ⊆ live := fun b hb => hs (List.mem_append_right _ hb)
    apply Triple.bind (cloneSlot_owned p roots hs₁)
    intro c s ⟨hc, h, hl⟩
    refine Triple.bind (ih (refs [slot] ++ roots) hs₂) (fun cs => ?_) s ⟨h, hl⟩
    intro s ⟨hcs, h, hl⟩
    refine ⟨by rw [hc, hcs], h.perm ?_, hl⟩
    rw [← List.append_assoc]
    exact List.Perm.append_right roots List.perm_append_comm

theorem refs_replicate_null (n : Nat) : refs (List.replicate n .null) = [] := by
  apply List.filterMap_eq_nil_iff.mpr
  intro slot hs
  rw [List.eq_of_mem_replicate hs]
  exact JVMSlot.object?_null

theorem newData_refs (slots : Nat) (P : Store → Prop) :
    Triple P (newData slots) (fun data s => refs data = [] ∧ P s) Regular := by
  intro s h
  rw [newData]
  split
  · exact ⟨refs_replicate_null slots, h⟩
  · trivial

/-- The next address of the allocator can be given out. -/
def Store.Free (s : Store) : Prop :=
  (s.addresses s.allocated).Fits ∧ s.memory (s.addresses s.allocated) = none

/-- A new object is at the next address, and the heap and the caller refer to it. -/
def Store.withNew (s : Store) (kind : ObjectKind) (data : List JVMSlot) (allocCount : Nat) :
    Store :=
  { s.write (s.addresses s.allocated) (some ⟨2, 0, kind, data⟩) with
    heap := { s.heap with
      objects := s.heap.objects ++ [s.addresses s.allocated], allocCount }
    shouldStopTheWorld := allocCount ≥ gcThreshold || s.shouldStopTheWorld
    allocated := s.allocated + 1 }

/-- What an allocation can do: there is no free address, the counter overflows, or it is made. -/
theorem allocateFromObject_cases (p : Profile) (kind : ObjectKind) (data : List JVMSlot)
    (s : Store) :
    (¬ s.Free ∧ allocateFromObject p kind data s = .error .abort s) ∨
    (∃ msg s', p.add 64 s.heap.allocCount 1 = .error msg ∧
      allocateFromObject p kind data s = .error (.panic msg) s') ∨
    ∃ n, s.Free ∧ p.add 64 s.heap.allocCount 1 = .ok n ∧
      allocateFromObject p kind data s =
        .ok (s.addresses s.allocated) (s.withNew kind data n) := by
  rw [allocateFromObject]
  by_cases hfree : s.Free
  · right
    have hnew : arcNew ⟨1, 0, kind, data⟩ s = .ok (s.addresses s.allocated)
        { s.write (s.addresses s.allocated) (some ⟨1, 0, kind, data⟩) with
          allocated := s.allocated + 1 } := by
      unfold Store.Free at hfree
      rw [arcNew, bind_get, if_pos hfree]
      rfl
    rw [bind_eq _ hnew,
      bind_eq _ (arcClone_eq (o := ⟨1, 0, kind, data⟩) (if_pos rfl) (Nat.le_of_ble_eq_true rfl))]
    cases hadd : p.add 64 s.heap.allocCount 1 with
    | error msg =>
      left
      apply Exists.intro msg
      apply Exists.intro
      apply And.intro rfl
      change (checked (p.add 64 s.heap.allocCount 1) >>= fun n => _ : VM Store Addr) _ = _
      rw [hadd]
      rfl
    | ok n =>
      refine .inr ⟨n, hfree, rfl, ?_⟩
      change (checked (p.add 64 s.heap.allocCount 1) >>= fun n => _ : VM Store Addr) _ = _
      rw [hadd]
      have hw := congrArg Store.memory (s.write_write (s.addresses s.allocated)
        (some ⟨1, 0, kind, data⟩) (some ⟨2, 0, kind, data⟩))
      change EStateM.Result.ok _ (if n ≥ gcThreshold then _ else _) = _
      rw [Store.withNew, ← hw]
      split
      · rename_i hn
        rw [decide_eq_true hn]
        rfl
      · rename_i hn
        rw [decide_eq_false hn]
        rfl
  · left
    have hnew : arcNew ⟨1, 0, kind, data⟩ s = .error .abort s := by
      unfold Store.Free at hfree
      rw [arcNew, bind_get, if_neg hfree]
      rfl
    exact ⟨hfree, bind_error _ hnew⟩

theorem allocateFromObject_ok {s s' : Store} (h : allocateFromObject p kind data s = .ok a s') :
    ∃ n, s.Free ∧ p.add 64 s.heap.allocCount 1 = .ok n ∧ a = s.addresses s.allocated ∧
      s' = s.withNew kind data n := by
  rcases allocateFromObject_cases p kind data s with ⟨_, he⟩ | ⟨_, _, _, he⟩ | ⟨n, hf, hn, he⟩
  · cases h.symm.trans he
  · cases h.symm.trans he
  · cases h.symm.trans he
    exact ⟨n, hf, hn, rfl, rfl⟩

theorem allocateFromObject_owned (p : Profile) (kind : ObjectKind) (data : List JVMSlot)
    (roots : List Addr) :
    Triple (fun s => s.Owned (refs data ++ roots)) (allocateFromObject p kind data)
      (fun a s => s.Owned (a :: roots)) Regular := by
  intro s h
  rcases allocateFromObject_cases p kind data s with ⟨_, he⟩ | ⟨_, _, _, he⟩ | ⟨n, hf, _, he⟩
  · rw [he]
    trivial
  · rw [he]
    trivial
  · rw [he]
    exact h.alloc (o := ⟨2, 0, kind, data⟩) hf.2 hf.1 rfl rfl rfl rfl

theorem refs_set_perm {data : List JVMSlot} (h : data[i]? = some old) (slot : JVMSlot) :
    (refs [old] ++ refs (data.set i slot)).Perm (refs [slot] ++ refs data) := by
  induction data generalizing i with
  | nil => cases h
  | cons x data ih =>
    cases i with
    | zero =>
      cases h
      rw [List.set_cons_zero, refs_cons slot, refs_cons slot [], refs_cons old, refs_cons old data]
      apply List.perm_iff_count.mpr
      intro b
      simp only [List.count_append]
      omega
    | succ i =>
      have hp := ih h
      rw [List.set_cons_succ, refs_cons x, refs_cons x data]
      apply List.perm_iff_count.mpr
      intro b
      have hb := hp.count_eq b
      simp only [List.count_append] at hb ⊢
      omega

theorem replaceData_eq {s : Store} (ho : s.memory a = some o) (hi : o.data[i]? = some old)
    (slot : JVMSlot) : replaceData a i slot s =
      .ok old (s.write a (some { o with data := o.data.set i slot })) := by
  rw [replaceData, bind_eq _ (deref_eq ho), hi]
  rfl

theorem replaceData_owned (a : Addr) (i : Nat) (slot : JVMSlot) (roots : List Addr) :
    Triple (fun s => s.Owned (refs [slot] ++ roots) ∧ a ∈ s.heap.objects) (replaceData a i slot)
      (fun old s => s.Owned (refs [old] ++ roots)) Regular := by
  intro s ⟨h, ha⟩
  obtain ⟨o, ho⟩ := h.allocated.get ha
  cases hi : o.data[i]? with
  | none =>
    rw [replaceData, bind_eq _ (deref_eq ho), hi]
    trivial
  | some old =>
    rw [replaceData_eq ho hi]
    apply h.exchange ha ho
    apply List.perm_iff_count.mpr
    intro b
    have hb := (refs_set_perm hi slot).count_eq b
    simp only [List.count_append] at hb ⊢
    omega

end Janadinite
