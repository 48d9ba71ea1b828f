import Janadinite.Vm.ArrayLevels
import Janadinite.Vm.Drops

namespace Janadinite
open Hoare
set_option autoImplicit true

namespace Silent

theorem get : Silent (get : VM Store Store) := fun _ _ _ h => by cases h

theorem set (s : Store) : Silent (set s) := fun _ _ _ h => by cases h

theorem modify (f : Store → Store) : Silent (modify f) := fun _ _ _ h => by cases h

theorem panics (msg : String) : Silent (panicWith msg : VM Store α) := fun _ _ _ h => by cases h

theorem writeObject (a : Addr) (o : Object) : Silent (writeObject a o) := modify _

theorem readHeap : Silent readHeap := get.bind fun _ => pure _

theorem unlockHeap : Silent unlockHeap := modify _

theorem arcClone (a : Addr) : Silent (arcClone a) := by
  apply (deref a).bind
  intro o
  split
  · exact fun _ _ _ h => by cases h
  · exact (writeObject a _).bind fun _ => pure _

theorem withObject (p : Profile) (slot : JVMSlot) {f : Addr → VM Store α}
    (hf : ∀ a, Silent (f a)) : Silent (withObject p slot f) := by
  rw [Janadinite.withObject]
  split
  · split
    · exact panics _
    · exact (hf _).bind fun _ => pure _
  · exact pure _

theorem cloneSlot (p : Profile) (slot : JVMSlot) : Silent (cloneSlot p slot) := by
  apply (withObject p slot arcClone).bind
  intro r
  cases r with
  | some a => exact pure _
  | none => exact pure _

theorem cloneSlots (p : Profile) (slots : List JVMSlot) : Silent (cloneSlots p slots) := by
  induction slots with
  | nil => exact pure _
  | cons slot slots ih => exact (cloneSlot p slot).bind fun _ => ih.bind fun _ => pure _

theorem gcRefs (a : Addr) : Silent (gcRefs a) := (deref a).bind fun _ => pure _

theorem setGcRefs (a : Addr) (n : Nat) : Silent (setGcRefs a n) :=
  (deref a).bind fun _ => writeObject a _

theorem replaceData (a : Addr) (i : Nat) (slot : JVMSlot) : Silent (replaceData a i slot) := by
  apply (deref a).bind
  intro o
  cases o.data[i]? with
  | some old => exact (writeObject a _).bind fun _ => pure _
  | none => exact panics _

theorem assignData (p : Profile) (a : Addr) (i : Nat) (slot : JVMSlot) :
    Silent (assignData p a i slot) :=
  (replaceData a i slot).bind fun old => dropSlot p old

theorem arcNew (o : Object) : Silent (arcNew o) := by
  apply get.bind
  intro s
  dsimp only
  split
  · exact (set _).bind fun _ => pure _
  · exact fun _ _ _ h => by cases h

theorem allocateFromObject (p : Profile) (kind : ObjectKind) (data : List JVMSlot) :
    Silent (allocateFromObject p kind data) := by
  apply (arcNew _).bind
  intro a
  apply (arcClone a).bind
  intro a
  apply (modifyHeap _).bind
  intro _
  apply readHeap.bind
  intro heap
  apply (checked _).bind
  intro n
  apply (modifyHeap _).bind
  intro _
  exact (modify _).bind fun _ => pure a

theorem newData (slots : Nat) : Silent (newData slots) := by
  rw [Janadinite.newData]
  split
  · exact pure _
  · exact panics _

theorem countRefs (p : Profile) (objects : List Addr) : Silent (Heap.countRefs p objects) := by
  induction objects with
  | nil => exact pure _
  | cons a objects ih =>
    exact (deref a).bind fun _ => (checked _).bind fun n => (setGcRefs a n).bind fun _ => ih

theorem forChildren (p : Profile) {f : Addr → VM Store PUnit} (hf : ∀ a, Silent (f a))
    (data : List JVMSlot) : Silent (Heap.forChildren p f data) := by
  induction data with
  | nil => exact pure _
  | cons slot data ih => exact (withObject p slot hf).bind fun _ => ih

theorem subtractRef (p : Profile) (a : Addr) : Silent (Heap.subtractRef p a) :=
  (gcRefs a).bind fun _ => (checked _).bind fun n => setGcRefs a n

theorem subtractInternal (p : Profile) (objects : List Addr) :
    Silent (Heap.subtractInternal p objects) := by
  induction objects with
  | nil => exact pure _
  | cons a objects ih =>
    exact (deref a).bind fun o => (forChildren p (subtractRef p) o.data).bind fun _ => ih

theorem extractUnreachable (objects : List Addr) : Silent (Heap.extractUnreachable objects) := by
  induction objects with
  | nil => exact pure _
  | cons a objects ih =>
    apply (gcRefs a).bind
    intro n
    split
    · exact (setGcRefs a _).bind fun _ => ih.bind fun _ => pure _
    · exact ih.bind fun _ => pure _

theorem findChild (child : Addr) (found : Bool) : Silent (Heap.findChild child found) := by
  apply (gcRefs child).bind
  intro n
  split
  · exact (setGcRefs child 1).bind fun _ => pure _
  · exact pure _

theorem findChildren (p : Profile) (data : List JVMSlot) (found : Bool) :
    Silent (Heap.findChildren p data found) := by
  induction data generalizing found with
  | nil => exact pure _
  | cons slot data ih =>
    apply (withObject p slot fun child => findChild child found).bind
    intro r
    cases r with
    | some found => exact ih found
    | none => exact ih found

theorem findFromRoots (p : Profile) (objects : List Addr) (found : Bool) :
    Silent (Heap.findFromRoots p objects found) := by
  induction objects generalizing found with
  | nil => exact pure _
  | cons a objects ih =>
    exact (deref a).bind fun o => (findChildren p o.data found).bind fun found => ih found

theorem findFromFound (p : Profile) (objects : List Addr) (found : Bool) :
    Silent (Heap.findFromFound p objects found) := by
  induction objects generalizing found with
  | nil => exact pure _
  | cons a objects ih =>
    apply (deref a).bind
    intro o
    split
    · exact (findChildren p o.data found).bind fun found => ih found
    · exact ih found

theorem findLoop (p : Profile) (unreachable : List Addr) (fuel : Nat) (found : Bool) :
    Silent (Heap.findLoop p unreachable fuel found) := by
  induction fuel generalizing found with
  | zero =>
    cases found with
    | false => exact pure _
    | true => exact fun _ _ _ h => by cases h
  | succ fuel ih =>
    cases found with
    | false => exact pure _
    | true => exact (findFromFound p unreachable false).bind fun found => ih found

theorem dropArc (p : Profile) (a : Addr) : Silent (Heap.dropArc p a) :=
  get.bind fun _ => (arcRelease a).bind fun nested => dropRefs p _ nested

theorem emptySlots (p : Profile) (a : Addr) (i n : Nat) : Silent (Heap.emptySlots p a i n) := by
  induction n generalizing i with
  | zero => exact pure _
  | succ n ih =>
    apply (replaceData a i .null).bind
    intro old
    cases old.object? with
    | some child => exact (dropArc p child).bind fun _ => ih (i + 1)
    | none => exact ih (i + 1)

theorem drain (p : Profile) (unreachable : List Addr) : Silent (Heap.drain p unreachable) := by
  induction unreachable with
  | nil => exact modifyHeap _
  | cons a unreachable ih =>
    apply (deref a).bind
    intro o
    split
    · exact (modifyHeap _).bind fun _ => ih
    · exact (emptySlots p a 0 _).bind fun _ => (dropArc p a).bind fun _ => ih

theorem collect (p : Profile) : Silent (Heap.collect p) := by
  apply readHeap.bind
  intro heap
  apply (countRefs p _).bind
  intro _
  apply (subtractInternal p _).bind
  intro _
  apply (extractUnreachable _).bind
  intro split
  apply (modifyHeap _).bind
  intro _
  apply (findFromRoots p _ _).bind
  intro found
  apply readHeap.bind
  intro heap
  apply (findLoop p _ _ found).bind
  intro _
  exact (drain p _).bind fun _ => modifyHeap _

theorem tryGc (p : Profile) : Silent (Heap.tryGc p) := by
  apply readHeap.bind
  intro heap
  split
  · exact panics _
  · split
    · exact collect p
    · exact pure _

theorem stopTheWorldInner (p : Profile) : Silent (stopTheWorldInner p) := by
  apply (modifyHeap _).bind
  intro _
  apply get.bind
  intro s
  split
  · split
    · exact bind (fun _ _ _ h => by cases h) fun _ => (tryGc p).bind fun _ =>
        (modify _).bind fun _ => modifyHeap _
    · exact (tryGc p).bind fun _ => (modify _).bind fun _ => modifyHeap _
  · exact modifyHeap _

theorem lockOrStop (p : Profile) : Silent (lockOrStop p) := by
  apply (lockHeap _).bind
  intro _
  apply get.bind
  intro s
  split
  · exact stopTheWorldInner p
  · exact pure _

theorem allocateInner (p : Profile) (kind : ObjectKind) (slots : Nat) :
    Silent (allocateInner p kind slots) := by
  apply (lockOrStop p).bind
  intro _
  apply bind ((newData slots).bind fun data => allocateFromObject p kind data)
  intro a
  exact unlockHeap.bind fun _ => pure a

theorem allocateArray (p : Profile) (count : Nat) (size : NonZeroU16) :
    Silent (allocateArray p count size) :=
  (checked _).bind fun slots => allocateInner p _ slots

theorem newArray (p : Profile) (count : Nat) (size : NonZeroU16) :
    Silent (BareObject.newArray p count size) :=
  (checked _).bind fun len => (newData len).bind fun _ => pure _

theorem cloneChildren (p : Profile) (child : BareObject) (n : Nat) :
    Silent (cloneChildren p child n) := by
  induction n with
  | zero => exact pure _
  | succ n ih =>
    apply (cloneSlots p child.data).bind
    intro data
    exact (allocateFromObject p child.kind data).bind fun a => ih.bind fun _ => pure _

theorem fillArray (p : Profile) (child : BareObject) (n : Nat) : Silent (fillArray p child n) := by
  cases n with
  | zero => exact (dropSlots p child.data).bind fun _ => pure _
  | succ n =>
    apply (cloneChildren p child n).bind
    intro clones
    exact (allocateFromObject p child.kind child.data).bind fun a => pure _

theorem dropLast (p : Profile) (last : Option BareObject) : Silent (dropLast p last) := by
  cases last with
  | some old => exact dropSlots p old.data
  | none => exact pure _

theorem newDimension (p : Profile) (last : Option BareObject) (count : Nat) (size : NonZeroU16) :
    Silent (newDimension p last count size) := by
  intro s x s' h
  cases hn : BareObject.newArray p count size s with
  | ok obj s₁ => cases (newDimension_ok last hn).symm.trans h
  | error e s₁ =>
    cases e with
    | panic msg =>
      have hp : Silent (do
          Janadinite.dropLast p last
          panicWith msg : VM Store BareObject) := (dropLast p last).bind fun _ => panics msg
      exact hp s₁ x s' ((newDimension_panic last hn).symm.trans h)
    | error y => exact newArray p count size s y s₁ hn
    | _ =>
      rw [Janadinite.newDimension, hn] at h
      cases h

theorem addDimension (p : Profile) (last : Option BareObject) (len : Int32) (size : NonZeroU16) :
    Silent (addDimension p last len size) := by
  rw [Janadinite.addDimension]
  split
  · exact (newArray p 0 size).bind fun _ => (dropLast p last).bind fun _ => pure _
  · apply (newDimension p last _ size).bind
    intro obj
    cases last with
    | some child => exact (fillArray p child _).bind fun _ => pure _
    | none => exact pure _

end Silent

end Janadinite
