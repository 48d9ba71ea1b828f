import Janadinite.Vm.Gc

namespace Janadinite
open Hoare
set_option autoImplicit true

section
variable (roots : List Addr)

theorem unlockHeap_owned :
    Triple (fun s => s.Owned roots) unlockHeap (fun _ s => s.Owned roots) Regular := by
  intro s h
  exact h.congr rfl rfl rfl

theorem lockHeap_owned (msg : String) :
    Triple (fun s => s.Owned roots) (lockHeap msg) (fun _ s => s.Owned roots) Regular := by
  intro s h
  cases hp : s.poisoned with
  | true =>
    rw [lockHeap_poisoned hp]
    trivial
  | false =>
    cases hl : s.locked with
    | true =>
      rw [lockHeap_locked hp hl]
      trivial
    | false =>
      rw [lockHeap_eq hp hl]
      exact h.congr rfl rfl rfl

/-- What the collector does from where the thread has parked, up to its number and the flag. -/
theorem stopTheWorldInner_triple {p : Profile} {P Q : Store → Prop} {E : Stop → Store → Prop}
    (hpark : ∀ s n, P s → P { s with heap := { s.heap with parkedThreads := n } })
    (hgc : Triple P (Heap.tryGc p) (fun _ => Q) E) (hleave : ∀ s, P s → Q s)
    (hset : ∀ s n b, Q s →
      Q { s with heap := { s.heap with parkedThreads := n }, shouldStopTheWorld := b })
    (halone : ∀ s, E .deadlock s) : Triple P (stopTheWorldInner p) (fun _ => Q) E := by
  have park : Triple P
      (modifyHeap fun heap => { heap with parkedThreads := heap.parkedThreads + 1 })
      (fun _ => P) E := fun s h => hpark s _ h
  apply Triple.bind park
  intro _ s h
  rw [bind_get]
  split
  · change Ends _ _ ((if s.heap.parkedThreads < s.heap.heapThreads then _ else _ :
      VM Store PUnit) s)
    split
    · exact halone s
    · change Ends _ _ ((Heap.tryGc p >>= fun _ => _ : VM Store PUnit) s)
      apply Triple.bind hgc _ s h
      exact fun _ s h => hset s _ _ h
  · exact hset s _ _ (hleave s h)

theorem stopTheWorldInner_owned (p : Profile) :
    Triple (fun s => s.Owned roots) (stopTheWorldInner p) (fun _ s => s.Owned roots)
      Regular := by
  apply stopTheWorldInner_triple
  · exact fun _ _ h => h.congr rfl rfl rfl
  · exact Heap.tryGc_owned p roots
  · exact fun _ h => h
  · exact fun _ _ _ h => h.congr rfl rfl rfl
  · exact fun _ => trivial

theorem lockOrStop_owned (p : Profile) :
    Triple (fun s => s.Owned roots) (lockOrStop p) (fun _ s => s.Owned roots) Regular := by
  apply Triple.bind (lockHeap_owned roots _)
  intro _ s h
  rw [bind_get]
  split
  · exact stopTheWorldInner_owned roots p s h
  · exact h

theorem safepoint_owned (p : Profile) :
    Triple (fun s => s.Owned roots) (safepoint p) (fun _ s => s.Owned roots) Regular := by
  intro s h
  rw [safepoint, bind_get]
  split
  · apply Triple.bind (lockHeap_owned roots _) _ s h
    intro _
    apply Triple.bind (stopTheWorldInner_owned roots p)
    exact fun _ => unlockHeap_owned roots
  · exact h

theorem allocate_owned (p : Profile) (kind : ObjectKind) (slots : Nat) :
    Triple (fun s => s.Owned roots) (allocate p kind slots) (fun a s => s.Owned (a :: roots))
      Regular := by
  apply Triple.bind (newData_refs slots _)
  intro data s ⟨hd, h⟩
  apply allocateFromObject_owned p kind data roots
  rwa [hd]

theorem allocateInner_owned (p : Profile) (kind : ObjectKind) (slots : Nat) :
    Triple (fun s => s.Owned roots) (allocateInner p kind slots)
      (fun a s => s.Owned (a :: roots)) Regular := by
  apply Triple.bind (lockOrStop_owned roots p)
  intro _
  apply Triple.bind (allocate_owned roots p kind slots)
  intro a
  apply Triple.bind (unlockHeap_owned (a :: roots))
  exact fun _ => Triple.pure fun _ h => h

theorem allocateArray_owned (p : Profile) (count : Nat) (size : NonZeroU16) :
    Triple (fun s => s.Owned roots) (allocateArray p count size)
      (fun a s => s.Owned (a :: roots)) Regular := by
  intro s h
  unfold allocateArray
  cases hc : p.mul 64 count size.val.toNat with
  | error msg => trivial
  | ok slots => exact allocateInner_owned roots p (.array size) slots s h

end

end Janadinite
