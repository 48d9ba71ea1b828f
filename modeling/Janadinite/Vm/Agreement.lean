import Janadinite.Lib.Coupling
import Janadinite.Vm.Drops
import Janadinite.Vm.ExecuteListed

namespace Janadinite
open Coupling Hoare
set_option autoImplicit true

/-- The call stops for what no instruction can tell its program of. -/
def Stop.Fault : Stop → Prop
  | .error _ => False
  | .load _ => False
  | _ => True

/-- The stores of two runs of one program: what is at an address in both is the same object but for
its counts, and the allocators go on alike. One of the stores may have garbage that is gone in the
other. -/
structure Store.Agrees (s t : Store) : Prop where
  objects : ∀ a o o', s.memory a = some o → t.memory a = some o' →
    o'.kind = o.kind ∧ o'.data = o.data
  addresses : t.addresses = s.addresses
  allocated : t.allocated = s.allocated

/-- Objects are gone or counted anew, but none is changed or made. -/
structure Store.Settles (s s' : Store) : Prop where
  recounted : s.Recounted s'
  addresses : s'.addresses = s.addresses
  allocated : s'.allocated = s.allocated

/-- Whatever it does to counts and flags, the computation returns `v` and leaves objects as they
are. -/
def Calm (v : α) (m : VM Store α) : Prop :=
  ∀ s, Ends (fun a s' => a = v ∧ s.Settles s') (fun e _ => e.Fault) (m s)

/-- Runs of the computation from stores that agree end alike, in stores that agree. -/
abbrev Store.Alike (m : VM Store α) : Prop :=
  Coupled Store.Agrees m (fun _ => Store.Agrees) Stop.Fault

namespace Store

theorem Settles.refl (s : Store) : s.Settles s := ⟨.refl s, rfl, rfl⟩

theorem Settles.trans {s s' s'' : Store} (h : s.Settles s') (h' : s'.Settles s'') :
    s.Settles s'' :=
  ⟨h.recounted.trans h'.recounted, h'.addresses.trans h.addresses,
    h'.allocated.trans h.allocated⟩

theorem Settles.of_eq {s s' : Store} (hm : s'.memory = s.memory)
    (ha : s'.addresses = s.addresses) (hn : s'.allocated = s.allocated) : s.Settles s' :=
  ⟨fun _ o h => ⟨o, (congrFun hm _).symm.trans h, rfl, rfl⟩, ha, hn⟩

theorem Agrees.refl (s : Store) : s.Agrees s := by
  refine ⟨?_, rfl, rfl⟩
  intro a o o' ho ho'
  cases ho.symm.trans ho'
  exact ⟨rfl, rfl⟩

theorem Agrees.settle {s t s' t' : Store} (h : s.Agrees t) (hs : s.Settles s')
    (ht : t.Settles t') : s'.Agrees t' where
  objects a o o' ho ho' := by
    obtain ⟨o₁, ho₁, hk, hd⟩ := hs.recounted a o ho
    obtain ⟨o₂, ho₂, hk', hd'⟩ := ht.recounted a o' ho'
    obtain ⟨hkind, hdata⟩ := h.objects a o₁ o₂ ho₁ ho₂
    exact ⟨hk'.trans (hkind.trans hk.symm), hd'.trans (hdata.trans hd.symm)⟩
  addresses := ht.addresses.trans (h.addresses.trans hs.addresses.symm)
  allocated := ht.allocated.trans (h.allocated.trans hs.allocated.symm)

theorem Agrees.write {s t : Store} (h : s.Agrees t) (a : Addr) (hk : o'.kind = o.kind)
    (hd : o'.data = o.data) : (s.write a (some o)).Agrees (t.write a (some o')) where
  objects b ob ob' hb hb' := by
    by_cases hba : b = a
    · subst hba
      cases (memory_write_self ..).symm.trans hb
      cases (memory_write_self ..).symm.trans hb'
      exact ⟨hk, hd⟩
    · apply h.objects b ob ob'
      · exact (memory_write_ne s _ hba).symm.trans hb
      · exact (memory_write_ne t _ hba).symm.trans hb'
  addresses := h.addresses
  allocated := h.allocated

end Store

namespace Calm

theorem pure (v : α) : Calm v (Pure.pure v) := fun s => ⟨rfl, .refl s⟩

theorem bind {m : VM Store α} {f : α → VM Store β} (hm : Calm v m) (hf : Calm w (f v)) :
    Calm w (m >>= f) := by
  intro s
  apply (hm s).bind
  intro a s' _ ⟨ha, hs⟩
  rw [ha]
  apply (hf s').mono
  · exact fun _ _ h => ⟨h.1, hs.trans h.2⟩
  · exact fun _ _ he => he

theorem alike {m : VM Store α} (h : Calm v m) : Store.Alike m := by
  apply Coupled.alone (I := fun _ => True) fun s _ => h s
  · exact fun _ _ _ => ⟨trivial, trivial⟩
  · exact fun _ _ _ _ ha hs ht => ha.settle hs ht

end Calm

section
variable (p : Profile)

theorem dropOnce_settles (a : Addr) (s : Store) :
    Ends (fun _ s' => s.Settles s') (fun e _ => e.Fault) (dropOnce p a s) := by
  cases ho : s.memory a with
  | none =>
    rw [dropOnce, tryDeallocate, bind_error _ (bind_error _ (deref_none ho))]
    trivial
  | some o =>
    by_cases h2 : o.strong = 2
    · cases hp : s.poisoned with
      | true =>
        rw [dropOnce_poisoned ho h2 hp]
        trivial
      | false =>
        cases hl : s.locked with
        | true =>
          rw [dropOnce_deadlock ho h2 hp hl]
          trivial
        | false =>
          by_cases ha : a ∈ s.heap.objects
          · cases hc : p.sub 64 s.heap.allocCount 1 with
            | error msg =>
              rw [dropOnce_underflow ho h2 hp hl ha hc]
              trivial
            | ok n =>
              rw [dropOnce_last ho h2 hp hl ha hc]
              exact ⟨.remove s a, rfl, rfl⟩
          · rw [dropOnce_unlisted ho h2 hp hl ha]
            trivial
    · by_cases h1 : o.strong = 1
      · rw [dropOnce, bind_eq _ (tryDeallocate_shared ho h2), arcRelease_last ho h1]
        exact ⟨.remove s a, rfl, rfl⟩
      · rw [dropOnce_shared ho h1 h2]
        exact ⟨.write ho _, rfl, rfl⟩

theorem dropRefs_calm (fuel : Nat) (pending : List Addr) : Calm ⟨⟩ (dropRefs p fuel pending) := by
  induction fuel generalizing pending with
  | zero =>
    cases pending with
    | nil => exact .pure _
    | cons a rest => exact fun _ => trivial
  | succ fuel ih =>
    cases pending with
    | nil => exact .pure _
    | cons a rest =>
      intro s
      apply (dropOnce_settles p a s).bind
      intro nested s' _ hs
      apply (ih (nested ++ rest) s').mono
      · exact fun _ _ h => ⟨rfl, hs.trans h.2⟩
      · exact fun _ _ he => he

theorem dropRef_calm (a : Addr) : Calm ⟨⟩ (dropRef p a) :=
  fun s => dropRefs_calm p (s.heldRefs + 1) [a] s

theorem dropSlot_calm (slot : JVMSlot) : Calm ⟨⟩ (dropSlot p slot) := by
  rw [dropSlot]
  cases slot.object? with
  | some a => exact dropRef_calm p a
  | none => exact .pure _

theorem dropSlots_calm (slots : List JVMSlot) : Calm ⟨⟩ (dropSlots p slots) := by
  induction slots with
  | nil => exact .pure _
  | cons slot slots ih => exact (dropSlot_calm p slot).bind ih

theorem dropLast_calm (last : Option BareObject) : Calm ⟨⟩ (dropLast p last) := by
  cases last with
  | some old => exact dropSlots_calm p old.data
  | none => exact .pure _

/-- A panic stays one while `last_object` unwinds. -/
theorem newDimension_fault {s s' : Store} (last : Option BareObject)
    (h : BareObject.newArray p count size s = .error e s') :
    ∃ e' t, e'.Fault ∧ newDimension p last count size s = .error e' t := by
  obtain ⟨-, msg, rfl⟩ := newArray_panic h
  have hrun : newDimension p last count size s = (do
      dropLast p last
      panicWith msg : VM Store BareObject) s' := by
    unfold newDimension
    rw [h]
  have hq := dropLast_calm p last s'
  cases hd : dropLast p last s' with
  | error e t =>
    rw [hd] at hq
    exact ⟨e, t, hq, hrun.trans (bind_error _ hd)⟩
  | ok a t => exact ⟨.panic msg, t, trivial, hrun.trans (bind_eq _ hd)⟩

theorem newDimension_eq {s s' : Store} (last : Option BareObject)
    (h : BareObject.newArray p count size s = .ok obj s') :
    newDimension p last count size s = .ok obj s' := by
  unfold newDimension
  rw [h]

/-- A collection takes away what is not reachable, and nothing else. -/
theorem Heap.Collected.settles {s s' : Store} (h : s.Listed) (hc : Heap.Collected roots s s')
    (hother : ∀ a, a ∉ s.heap.objects → s.memory a = none → s'.memory a = none) :
    s.Settles s' := by
  refine ⟨?_, by rw [hc.frame], by rw [hc.frame]⟩
  intro a o' ho'
  obtain ⟨hmem, _⟩ := hc.listed h hother a o' ho'
  obtain ⟨o, o₁, ho, ho₁, hk, hd⟩ := hc.survivors a hmem
  cases ho'.symm.trans ho₁
  exact ⟨o, ho, hk, hd⟩

section
variable (roots : List Addr)

/-- From a store with counted references the call ends in one whose objects it has left as they
were. -/
def Settling (m : VM Store PUnit) : Prop :=
  ∀ s, s.Sound roots → Ends (fun _ s' => s.Settles s') (fun e _ => e.Fault) (m s)

theorem collect_settles {s : Store} (h : s.Sound roots) :
    ∃ s', Heap.collect p s = .ok ⟨⟩ s' ∧ s.Settles s' ∧ s'.Sound roots := by
  obtain ⟨s', hrun, hc, hother⟩ := Heap.collect_sweeps p h.1
  exact ⟨s', hrun, hc.settles h.2 hother, hc.owned, hc.listed h.2 hother⟩

theorem tryGc_settles : Settling roots (Heap.tryGc p) := by
  intro s h
  by_cases hthreads : s.heap.heapThreads = s.heap.parkedThreads
  · by_cases hcount : gcThreshold ≤ s.heap.allocCount
    · obtain ⟨s', hrun, hs, _⟩ := collect_settles p roots h
      rw [Heap.tryGc_eq p hthreads hcount, hrun]
      exact hs
    · rw [Heap.tryGc, bind_eq _ (readHeap_eq s), if_neg (fun hne => hne hthreads), if_neg hcount]
      exact .refl s
  · rw [Heap.tryGc_panics p hthreads]
    trivial

/-- What settles each store leaves the two stores alike. -/
theorem Settling.alike {m : VM Store PUnit} (h : Settling roots m) :
    Coupled (fun s t => s.Agrees t ∧ s.Sound roots ∧ t.Sound roots) m (fun _ => Store.Agrees)
      Stop.Fault := by
  apply Coupled.alone (v := ⟨⟩) (I := Store.Sound roots) (T := Store.Settles)
  · intro s hs
    apply (h s hs).mono
    · exact fun _ _ h => ⟨rfl, h⟩
    · exact fun _ _ he => he
  · exact fun _ _ h => h.2
  · exact fun _ _ _ _ h hs ht => h.1.settle hs ht

end

end

end Janadinite
