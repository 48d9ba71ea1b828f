import Janadinite.Vm.Composed
import Janadinite.Vm.ExecuteFramed

namespace Janadinite
open RefCount Hoare
set_option autoImplicit true

/-- The heap lists every object in memory, and there is a reference besides the heap's to it. -/
def Store.Listed (s : Store) : Prop :=
  ∀ a o, s.memory a = some o → a ∈ s.heap.objects ∧ 2 ≤ o.strong

/-- A call that does not return has found all objects listed, and keeps `P` when it returns an
error. -/
def Clear (P : σ → Prop) : Stop → σ → Prop
  | .error _, s => P s
  | .panic msg, _ => msg ≠ unlistedMsg
  | _, _ => True

/-- The computation keeps `P`, and finds all objects listed. -/
abbrev Safely (P : σ → Prop) (m : VM σ α) : Prop := Triple P m (fun _ => P) (Clear P)

namespace Safely
variable {P : σ → Prop}

theorem pure (a : α) : Safely P (Pure.pure a) := Triple.pure fun _ h => h

theorem bind {m : VM σ α} {f : α → VM σ β} (hm : Safely P m) (hf : ∀ a, Safely P (f a)) :
    Safely P (m >>= f) :=
  Triple.bind hm hf

theorem get : Safely P (get : VM σ σ) := Triple.get fun _ h => h

theorem fail (e : VMError) : Safely P (fail e : VM σ α) := fun _ h => h

theorem panics (h : msg ≠ unlistedMsg) : Safely P (panicWith msg : VM σ α) := fun _ _ => h

theorem okOr (e : VMError) (o : Option α) : Safely P (okOr e o : VM σ α) := by
  cases o with
  | none => exact fail e
  | some a => exact pure a

theorem expect (h : msg ≠ unlistedMsg) (o : Option α) : Safely P (expect msg o : VM σ α) := by
  cases o with
  | none => exact panics h
  | some a => exact pure a

theorem checked {x : Except String α} (h : Mild x) : Safely P (checked x : VM σ α) := by
  cases x with
  | ok a => exact pure a
  | error msg => exact panics (h msg rfl)

end Safely

namespace Store.Listed
variable {s : Store}

theorem write (h : s.Listed) (ho : s.memory a = some o) (hs : 2 ≤ o'.strong) :
    (s.write a (some o')).Listed := by
  intro b ob hb
  by_cases hba : b = a
  · subst hba
    rw [memory_write_self] at hb
    cases hb
    exact ⟨(h b o ho).1, hs⟩
  · rw [memory_write_ne s _ hba] at hb
    exact h b ob hb

theorem free (h : s.Listed) (n : Nat) : (s.free a n).Listed := by
  intro b ob hb
  have hba : b ≠ a := by
    rintro rfl
    have hnone : (s.free b n).memory b = none := memory_write_self s b none
    cases hnone.symm.trans hb
  have hb' : s.memory b = some ob := (memory_write_ne s none hba).symm.trans hb
  obtain ⟨hmem, hs⟩ := h b ob hb'
  exact ⟨(List.mem_erase_of_ne hba).mpr hmem, hs⟩

theorem withNew (h : s.Listed) (kind : ObjectKind) (data : List JVMSlot) (n : Nat) :
    (s.withNew kind data n).Listed := by
  intro b ob hb
  by_cases hba : b = s.addresses s.allocated
  · rw [hba] at hb ⊢
    have hnew : (s.withNew kind data n).memory (s.addresses s.allocated) =
        some ⟨2, 0, kind, data⟩ := memory_write_self ..
    cases hnew.symm.trans hb
    exact ⟨List.mem_append_right _ (List.mem_singleton.mpr rfl), Nat.le_refl 2⟩
  · have hb' : s.memory b = some ob := (memory_write_ne s _ hba).symm.trans hb
    obtain ⟨hmem, hs⟩ := h b ob hb'
    exact ⟨List.mem_append_left _ hmem, hs⟩

end Store.Listed

theorem deref_none {s : Store} (h : s.memory a = none) : deref a s = .error .undefined s := by
  rw [deref, bind_get, h]
  rfl

theorem deref_safely {f : Object → VM Store α}
    (h : ∀ s o, s.Listed → s.memory a = some o →
      Ends (fun _ => Store.Listed) (Clear Store.Listed) (f o s)) :
    Safely Store.Listed (deref a >>= f) := by
  intro s hs
  cases ho : s.memory a with
  | none =>
    rw [bind_error _ (deref_none ho)]
    trivial
  | some o =>
    rw [bind_eq _ (deref_eq ho)]
    exact h s o hs ho

section
variable (p : Profile)

theorem dropOnce_safely (a : Addr) : Safely Store.Listed (dropOnce p a) := by
  intro s h
  cases ho : s.memory a with
  | none =>
    rw [dropOnce, tryDeallocate, bind_error _ (bind_error _ (deref_none ho))]
    trivial
  | some o =>
    obtain ⟨hmem, hs⟩ := h a o ho
    by_cases h2 : o.strong = 2
    · cases hp : s.poisoned with
      | true =>
        rw [dropOnce_poisoned ho h2 hp]
        change deallocLockMsg ≠ unlistedMsg
        decide
      | false =>
        cases hl : s.locked with
        | true =>
          rw [dropOnce_deadlock ho h2 hp hl]
          trivial
        | false =>
          cases hc : p.sub 64 s.heap.allocCount 1 with
          | error msg =>
            rw [dropOnce_underflow ho h2 hp hl hmem hc]
            exact mild_sub p _ _ _ msg hc
          | ok m =>
            rw [dropOnce_last ho h2 hp hl hmem hc]
            exact h.free m
    · rw [dropOnce_shared ho (by omega) h2]
      exact h.write ho (Nat.le_sub_of_add_le (by omega))

theorem dropRefs_safely (fuel : Nat) (pending : List Addr) :
    Safely Store.Listed (dropRefs p fuel pending) := by
  induction fuel generalizing pending with
  | zero =>
    cases pending with
    | nil => exact .pure _
    | cons a rest => exact fun _ _ => trivial
  | succ fuel ih =>
    cases pending with
    | nil => exact .pure _
    | cons a rest => exact (dropOnce_safely p a).bind fun nested => ih (nested ++ rest)

theorem dropRef_safely (a : Addr) : Safely Store.Listed (dropRef p a) :=
  Safely.get.bind fun s => dropRefs_safely p (s.heldRefs + 1) [a]

theorem dropSlot_safely (slot : JVMSlot) : Safely Store.Listed (dropSlot p slot) := by
  rw [dropSlot]
  cases slot.object? with
  | some a => exact dropRef_safely p a
  | none => exact .pure _

theorem dropSlots_safely (slots : List JVMSlot) : Safely Store.Listed (dropSlots p slots) := by
  induction slots with
  | nil => exact .pure _
  | cons slot slots ih => exact (dropSlot_safely p slot).bind fun _ => ih

theorem arcClone_safely (a : Addr) : Safely Store.Listed (arcClone a) := by
  apply deref_safely
  intro s o h ho
  split
  · trivial
  · exact h.write ho (Nat.le_succ_of_le (h a o ho).2)

theorem withObject_safely {P : Store → Prop} (slot : JVMSlot) {f : Addr → VM Store α}
    (hf : ∀ a, Safely P (f a)) : Safely P (withObject p slot f) := by
  rw [withObject]
  split
  · split
    · exact .panics (by decide)
    · exact (hf _).bind fun _ => .pure _
  · exact .pure _

theorem cloneSlot_safely (slot : JVMSlot) : Safely Store.Listed (cloneSlot p slot) := by
  apply (withObject_safely p slot arcClone_safely).bind
  intro a
  cases a with
  | some a => exact .pure _
  | none => exact .pure _

theorem cloneSlots_safely (slots : List JVMSlot) : Safely Store.Listed (cloneSlots p slots) := by
  induction slots with
  | nil => exact .pure _
  | cons slot slots ih => exact (cloneSlot_safely p slot).bind fun _ => ih.bind fun _ => .pure _

theorem look_safely (a : Addr) : Safely Store.Listed (deref a) := by
  have h := deref_safely (a := a) (f := fun o => pure o) fun _ _ hs _ => hs
  rwa [bind_pure] at h

theorem assignData_safely (a : Addr) (i : Nat) (slot : JVMSlot) :
    Safely Store.Listed (assignData p a i slot) := by
  apply Safely.bind _ fun old => dropSlot_safely p old
  apply deref_safely
  intro s o h ho
  cases o.data[i]? with
  | some old => exact h.write ho (h a o ho).2
  | none => exact Safely.panics (by decide) s h

theorem receiverClass_safely (args : List JVMSlot) :
    Safely Store.Listed (receiverClass p args) := by
  cases args with
  | nil => exact .panics (by decide)
  | cons slot args =>
    apply (withObject_safely p slot look_safely).bind
    intro found
    apply (Safely.okOr _ found).bind
    intro o
    cases o.kind with
    | «instance» cls => exact .pure _
    | array size => exact .fail _

theorem sliceData_safely (a : Addr) (start len : Nat) :
    Safely Store.Listed (sliceData a start len) := by
  apply (look_safely a).bind
  intro o
  split
  · exact .pure _
  · exact .panics (by decide)

theorem indexData_safely (a : Addr) (i : Nat) : Safely Store.Listed (indexData a i) :=
  (look_safely a).bind fun _ => .expect (by decide) _

theorem checkWide_safely (a : Addr) (index : Int32) :
    Safely Store.Listed (checkWide p a index) := by
  apply (look_safely a).bind
  intro o
  apply (Safely.checked (mild_add p _ _ _)).bind
  intro second
  split
  · exact (dropRef_safely p a).bind fun _ => .fail _
  · exact .pure _

theorem storeParts_safely : StoreParts p fun _ => Safely Store.Listed where
  dropRef := dropRef_safely p
  dropSlot := dropSlot_safely p
  dropSlots := dropSlots_safely p
  cloneSlot := cloneSlot_safely p
  cloneRef slot := withObject_safely p slot arcClone_safely
  receiverClass := receiverClass_safely p
  sliceData := sliceData_safely
  assignData := assignData_safely p
  indexData := indexData_safely
  checkWide := checkWide_safely p

theorem allocateFromObject_safely (kind : ObjectKind) (data : List JVMSlot) :
    Safely Store.Listed (allocateFromObject p kind data) := by
  intro s h
  rcases allocateFromObject_cases p kind data s with ⟨_, he⟩ | ⟨_, _, ha, he⟩ | ⟨n, _, _, he⟩
  · rw [he]
    trivial
  · rw [he]
    exact mild_add p _ _ _ _ ha
  · rw [he]
    exact h.withNew kind data n

theorem unlockHeap_safely : Safely Store.Listed unlockHeap := fun _ h => h

theorem dropLast_safely (last : Option BareObject) : Safely Store.Listed (dropLast p last) := by
  cases last with
  | some old => exact dropSlots_safely p old.data
  | none => exact .pure _

theorem newData_safely (n : Nat) : Safely Store.Listed (newData n) := by
  rw [newData]
  split
  · exact .pure _
  · exact .panics (by decide)

theorem cloneChildren_safely (child : BareObject) (n : Nat) :
    Safely Store.Listed (cloneChildren p child n) := by
  induction n with
  | zero => exact .pure _
  | succ n ih =>
    apply (cloneSlots_safely p child.data).bind
    intro data
    apply (allocateFromObject_safely p child.kind data).bind
    exact fun a => ih.bind fun _ => .pure _

theorem fillArray_safely (child : BareObject) (n : Nat) :
    Safely Store.Listed (fillArray p child n) := by
  cases n with
  | zero => exact (dropSlots_safely p child.data).bind fun _ => .pure _
  | succ n =>
    apply (cloneChildren_safely p child n).bind
    intro clones
    exact (allocateFromObject_safely p child.kind child.data).bind fun _ => .pure _

theorem newArray_safely (count : Nat) (size : NonZeroU16) :
    Safely Store.Listed (BareObject.newArray p count size) := by
  apply (Safely.checked (mild_mul p _ _ _)).bind
  exact fun len => (newData_safely len).bind fun _ => .pure _

theorem newArray_panics {s s' : Store}
    (h : BareObject.newArray p count size s = .error (.panic msg) s') : s' = s := by
  rw [BareObject.newArray] at h
  cases hm : p.mul 64 count size.val.toNat with
  | error text =>
    rw [hm] at h
    cases h
    rfl
  | ok len =>
    rw [hm] at h
    change (newData len >>= fun _ => _ : VM Store BareObject) s = _ at h
    rw [newData] at h
    split at h
    · cases h
    · cases h
      rfl

/-- When the array cannot be made, the last one is dropped and the panic goes on. -/
theorem newDimension_safely (last : Option BareObject) (count : Nat) (size : NonZeroU16) :
    Safely Store.Listed (newDimension p last count size) := by
  intro s h
  have hnew := newArray_safely p count size s h
  unfold newDimension
  cases he : BareObject.newArray p count size s with
  | ok obj s' =>
    rw [he] at hnew
    exact hnew
  | error e s' =>
    rw [he] at hnew
    cases e with
    | panic msg =>
      rw [newArray_panics p he]
      exact ((dropLast_safely p last).bind fun _ => .panics hnew) s h
    | _ => exact hnew

theorem addDimension_safely (last : Option BareObject) (len : Int32) (size : NonZeroU16) :
    Safely Store.Listed (addDimension p last len size) := by
  rw [addDimension]
  split
  · apply (newArray_safely p 0 size).bind
    exact fun obj => (dropLast_safely p last).bind fun _ => .pure _
  · apply (newDimension_safely p last _ size).bind
    intro obj
    cases last with
    | some child => exact (fillArray_safely p child _).bind fun _ => .pure _
    | none => exact .pure _

theorem arrayParts_safely : ArrayParts p fun _ => Safely Store.Listed where
  unlockHeap := unlockHeap_safely
  dropLast := dropLast_safely p
  addDimension := addDimension_safely p
  allocateFromObject := allocateFromObject_safely p

/-- A collection leaves the objects that are reachable, and something else than the heap refers to
each of them. -/
theorem Heap.Collected.listed {s s' : Store} (h : s.Listed) (hc : Heap.Collected roots s s')
    (hother : ∀ a, a ∉ s.heap.objects → s.memory a = none → s'.memory a = none) : s'.Listed := by
  intro a o ho
  have hmem : a ∈ s'.heap.objects := by
    by_contra hn
    have hnone : s'.memory a = none := by
      by_cases ha : a ∈ s.heap.objects
      · exact hc.freed a ha hn
      · cases hs : s.memory a with
        | none => exact hother a ha hs
        | some o' => exact absurd (h a o' hs).1 ha
    cases hnone.symm.trans ho
  refine ⟨hmem, ?_⟩
  have hstrong := hc.owned.strong hmem ho
  rcases ((hc.objects a).mp hmem).cases with hroot | ⟨b, hb, href⟩
  · have hpos := List.count_pos_iff.mpr hroot
    omega
  · -- the object that refers to it is reachable too, and has kept its slots
    obtain ⟨ob, ob', hob, hob', _, hdata⟩ := hc.survivors b ((hc.objects b).mpr hb)
    have hheld : a ∈ s'.graph.held s'.heap.objects := by
      apply List.mem_flatMap.mpr
      refine ⟨b, (hc.objects b).mpr hb, ?_⟩
      rw [Store.graph_refs hob', hdata, ← Store.graph_refs hob]
      exact href
    have hpos := List.count_pos_iff.mpr hheld
    omega

section
variable (roots : List Addr)

/-- The references are counted, and the objects are listed. -/
def Store.Sound (s : Store) : Prop := s.Owned roots ∧ s.Listed

theorem tryGc_listed :
    Triple (Store.Sound roots) (Heap.tryGc p) (fun _ => Store.Listed) (Clear Store.Listed) := by
  intro s ⟨h, hl⟩
  by_cases hthreads : s.heap.heapThreads = s.heap.parkedThreads
  · by_cases hcount : gcThreshold ≤ s.heap.allocCount
    · obtain ⟨s', hrun, hc, hother⟩ := Heap.collect_sweeps p h
      rw [Heap.tryGc_eq p hthreads hcount, hrun]
      exact hc.listed hl hother
    · rw [Heap.tryGc, bind_eq _ (readHeap_eq s), if_neg (fun hne => hne hthreads), if_neg hcount]
      exact hl
  · rw [Heap.tryGc_panics p hthreads]
    change "Called without stop-the-world happening first" ≠ unlistedMsg
    decide

theorem stopTheWorldInner_listed :
    Triple (Store.Sound roots) (stopTheWorldInner p) (fun _ => Store.Listed)
      (Clear Store.Listed) := by
  apply stopTheWorldInner_triple
  · exact fun _ _ h => ⟨h.1.congr rfl rfl rfl, h.2⟩
  · exact tryGc_listed p roots
  · exact fun _ h => h.2
  · exact fun _ _ _ h => h
  · exact fun _ => trivial

theorem lockHeap_safely {P : Store → Prop} (h : msg ≠ unlistedMsg)
    (hlock : ∀ s, P s → P { s with locked := true }) : Safely P (lockHeap msg) := by
  intro s hs
  cases hp : s.poisoned with
  | true =>
    rw [lockHeap_poisoned hp]
    exact h
  | false =>
    cases hl : s.locked with
    | true =>
      rw [lockHeap_locked hp hl]
      trivial
    | false =>
      rw [lockHeap_eq hp hl]
      exact hlock s hs

theorem lockHeap_sound (h : msg ≠ unlistedMsg) :
    Triple (Store.Sound roots) (lockHeap msg) (fun _ => Store.Sound roots)
      (Clear Store.Listed) := by
  apply (lockHeap_safely (P := Store.Sound roots) h fun _ hs =>
    ⟨hs.1.congr rfl rfl rfl, hs.2⟩).mono
  · exact fun _ hs => hs
  · exact fun _ _ hs => hs
  · intro e s he
    cases e with
    | error err => exact he.2
    | _ => exact he

theorem lockOrStop_listed :
    Triple (Store.Sound roots) (lockOrStop p) (fun _ => Store.Listed) (Clear Store.Listed) := by
  apply Triple.bind (lockHeap_sound roots (by decide))
  intro _ s h
  rw [bind_get]
  split
  · exact stopTheWorldInner_listed p roots s h
  · exact h.2

theorem safepoint_listed :
    Triple (Store.Sound roots) (safepoint p) (fun _ => Store.Listed) (Clear Store.Listed) := by
  intro s h
  rw [safepoint, bind_get]
  split
  · apply Triple.bind (lockHeap_sound roots (by decide)) _ s h
    intro _
    apply Triple.bind (stopTheWorldInner_listed p roots)
    exact fun _ => unlockHeap_safely
  · exact h.2

theorem allocateInner_listed (kind : ObjectKind) (slots : Nat) :
    Triple (Store.Sound roots) (allocateInner p kind slots) (fun _ => Store.Listed)
      (Clear Store.Listed) := by
  apply Triple.bind (lockOrStop_listed p roots)
  intro _
  have hall : Safely Store.Listed (allocate p kind slots) :=
    (newData_safely slots).bind fun data => allocateFromObject_safely p kind data
  exact hall.bind fun a => unlockHeap_safely.bind fun _ => .pure _

theorem allocateArray_listed (count : Nat) (size : NonZeroU16) :
    Triple (Store.Sound roots) (allocateArray p count size) (fun _ => Store.Listed)
      (Clear Store.Listed) := by
  intro s h
  unfold allocateArray
  cases hc : p.mul 64 count size.val.toNat with
  | error msg => exact mild_mul p _ _ _ msg hc
  | ok slots => exact allocateInner_listed p roots (.array size) slots s h

end

end

end Janadinite
