import Janadinite.Vm.Agreement

namespace Janadinite
open Hoare
set_option autoImplicit true

/-- What holds of the kind and the number of slots of every object. -/
def Store.Shaped (P : ObjectKind → Nat → Prop) (s : Store) : Prop :=
  ∀ a o, s.memory a = some o → P o.kind o.data.length

/-- Where all objects are shaped they are still shaped when the computation returns. -/
abbrev Shaping (P : ObjectKind → Nat → Prop) (m : VM Store α) : Prop :=
  Triple (Store.Shaped P) m (fun _ => Store.Shaped P) fun _ _ => True

/-- And what it returns has `Q`. -/
abbrev ShapingTo (P : ObjectKind → Nat → Prop) (Q : α → Prop) (m : VM Store α) : Prop :=
  Triple (Store.Shaped P) m (fun a s => Q a ∧ s.Shaped P) fun _ _ => True

namespace Store
variable {P : ObjectKind → Nat → Prop} {s s' : Store}

theorem Shaped.of_memory (h : s.Shaped P) (hm : s'.memory = s.memory) : s'.Shaped P :=
  fun a o ho => h a o ((congrFun hm a).symm.trans ho)

theorem Shaped.recounted (h : s.Shaped P) (hr : s.Recounted s') : s'.Shaped P := by
  intro a o' ho'
  obtain ⟨o, ho, hk, hd⟩ := hr a o' ho'
  rw [hk, hd]
  exact h a o ho

theorem Shaped.write (h : s.Shaped P) (a : Addr) (ho : P o.kind o.data.length) :
    (s.write a (some o)).Shaped P := by
  intro b ob hb
  by_cases hba : b = a
  · subst hba
    cases (memory_write_self ..).symm.trans hb
    exact ho
  · exact h b ob ((memory_write_ne s _ hba).symm.trans hb)

theorem Shaped.free (h : s.Shaped P) (a : Addr) : (s.write a none).Shaped P := by
  intro b ob hb
  by_cases hba : b = a
  · subst hba
    cases (memory_write_self ..).symm.trans hb
  · exact h b ob ((memory_write_ne s _ hba).symm.trans hb)

end Store

namespace Shaping
variable {P : ObjectKind → Nat → Prop} {p : Profile}

theorem pure (a : α) : Shaping P (Pure.pure a) := fun _ h => h

theorem throw (e : Stop) : Shaping P (MonadExcept.throw e : VM Store α) := fun _ _ => trivial

theorem of_ok {m : VM Store α} (h : ∀ s a s', s.Shaped P → m s = .ok a s' → s'.Shaped P) :
    Shaping P m := by
  intro s hs
  cases hm : m s with
  | ok a s' => exact h s a s' hs hm
  | error e s' => trivial

theorem ok {m : VM Store α} {s s' : Store} (h : Shaping P m) (hs : s.Shaped P)
    (hm : m s = .ok a s') : s'.Shaped P := by
  have hends := h s hs
  rwa [hm] at hends

theorem bind {m : VM Store α} {f : α → VM Store β} (hm : Shaping P m)
    (hf : ∀ a, Shaping P (f a)) : Shaping P (m >>= f) :=
  Triple.bind hm hf

theorem get_bind {f : Store → VM Store α} (hf : ∀ s, Shaping P (f s)) :
    Shaping P (get >>= f) :=
  fun s => hf s s

theorem modify {f : Store → Store} (hf : ∀ s, (f s).memory = s.memory) :
    Shaping P (modify f : VM Store PUnit) :=
  fun s h => h.of_memory (hf s)

theorem modifyHeap (f : Heap → Heap) : Shaping P (modifyHeap f) := modify fun _ => rfl

theorem readHeap_bind {f : Heap → VM Store α} (hf : ∀ heap, Shaping P (f heap)) :
    Shaping P (readHeap >>= f) :=
  fun s => hf s.heap s

theorem checked (r : Except String α) : Shaping P (checked r) := by
  cases r with
  | ok a => exact pure a
  | error msg => exact throw _

theorem okOr (e : VMError) (o : Option α) : Shaping P (okOr e o) := by
  cases o with
  | none => exact throw _
  | some a => exact pure a

theorem expect (msg : String) (o : Option α) : Shaping P (expect msg o) := by
  cases o with
  | none => exact throw _
  | some a => exact pure a

theorem deref_bind {f : Object → VM Store α}
    (hf : ∀ o, P o.kind o.data.length → Shaping P (f o)) : Shaping P (deref a >>= f) := by
  intro s hs
  cases ho : s.memory a with
  | none =>
    rw [bind_error _ (deref_none ho)]
    trivial
  | some o =>
    rw [bind_eq _ (deref_eq ho)]
    exact hf o (hs a o ho) s hs

theorem deref (a : Addr) : Shaping P (deref a) := by
  apply of_ok
  intro s o s' hs h
  obtain ⟨-, rfl⟩ := deref_ok h
  exact hs

theorem writeObject (a : Addr) (ho : P o.kind o.data.length) : Shaping P (writeObject a o) :=
  fun _ h => h.write a ho

theorem withObject (slot : JVMSlot) {f : Addr → VM Store α} (hf : ∀ a, Shaping P (f a)) :
    Shaping P (withObject p slot f) := by
  rw [Janadinite.withObject]
  split
  · split
    · exact throw _
    · exact (hf _).bind fun _ => pure _
  · exact pure none

theorem arcClone (a : Addr) : Shaping P (arcClone a) := by
  apply deref_bind
  intro o ho
  split
  · exact throw _
  · apply bind _ fun _ => pure a
    exact writeObject a ho

theorem cloneSlot (slot : JVMSlot) : Shaping P (cloneSlot p slot) := by
  apply (withObject slot arcClone).bind
  intro a
  cases a with
  | some a => exact pure _
  | none => exact pure slot

theorem cloneSlots (slots : List JVMSlot) :
    ShapingTo P (fun clones => clones.length = slots.length) (cloneSlots p slots) := by
  induction slots with
  | nil => exact fun _ hs => ⟨rfl, hs⟩
  | cons slot slots ih =>
    apply Triple.bind (cloneSlot slot)
    intro c
    apply Triple.bind ih
    rintro cs s ⟨hlen, hs⟩
    exact ⟨congrArg Nat.succ hlen, hs⟩

theorem dropRefs (fuel : Nat) (pending : List Addr) : Shaping P (dropRefs p fuel pending) :=
  of_ok fun _ _ _ hs h => hs.recounted (dropRefs_recounted h)

theorem dropRef (a : Addr) : Shaping P (dropRef p a) := get_bind fun _ => dropRefs _ _

theorem dropSlot (slot : JVMSlot) : Shaping P (dropSlot p slot) :=
  of_ok fun _ _ _ hs h => hs.recounted (dropSlot_recounted h)

theorem dropSlots (slots : List JVMSlot) : Shaping P (dropSlots p slots) :=
  of_ok fun _ _ _ hs h => hs.recounted (dropSlots_recounted h)

theorem replaceData (a : Addr) (i : Nat) (slot : JVMSlot) :
    Shaping P (replaceData a i slot) := by
  apply deref_bind
  intro o ho
  split
  · apply bind _ fun _ => pure _
    apply writeObject
    rw [List.length_set]
    exact ho
  · exact throw _

theorem receiverClass (args : List JVMSlot) : Shaping P (receiverClass p args) := by
  cases args with
  | nil => exact throw _
  | cons slot args =>
    apply (withObject slot deref).bind
    intro o
    apply (okOr _ o).bind
    intro o
    split
    · exact pure _
    · exact throw _

theorem storeParts (p : Profile) : StoreParts p fun _ m => ∀ P, Shaping P m where
  dropRef a _ := dropRef a
  dropSlot slot _ := dropSlot slot
  dropSlots slots _ := dropSlots slots
  cloneSlot slot _ := cloneSlot slot
  cloneRef slot _ := withObject slot arcClone
  receiverClass args _ := receiverClass args
  sliceData a start len _ := by
    apply deref_bind
    intro o _
    split
    · exact pure _
    · exact throw _
  assignData a i slot _ := (replaceData a i slot).bind fun old => dropSlot old
  indexData a i _ := deref_bind fun o _ => expect _ _
  checkWide a index _ := by
    apply deref_bind
    intro o _
    apply (checked _).bind
    intro second
    split
    · exact (dropRef a).bind fun _ => throw _
    · exact pure _

section
variable (p : Profile)

theorem setGcRefs (a : Addr) (n : Nat) : Shaping P (setGcRefs a n) :=
  deref_bind fun _ ho => writeObject a ho

theorem gcRefs_bind {f : Nat → VM Store α} (hf : ∀ n, Shaping P (f n)) :
    Shaping P (gcRefs a >>= f) := by
  rw [gcRefs, bind_assoc]
  exact deref_bind fun o _ => hf o.gcRefs

theorem countRefs (objects : List Addr) : Shaping P (Heap.countRefs p objects) := by
  induction objects with
  | nil => exact pure _
  | cons obj objects ih =>
    apply deref_bind
    intro o _
    apply (checked _).bind
    exact fun n => (setGcRefs obj n).bind fun _ => ih

theorem forChildren {f : Addr → VM Store PUnit} (hf : ∀ a, Shaping P (f a))
    (data : List JVMSlot) : Shaping P (Heap.forChildren p f data) := by
  induction data with
  | nil => exact pure _
  | cons slot data ih => exact (withObject slot hf).bind fun _ => ih

theorem subtractRef (child : Addr) : Shaping P (Heap.subtractRef p child) := by
  apply gcRefs_bind
  intro n
  apply (checked _).bind
  exact setGcRefs child

theorem subtractInternal (objects : List Addr) : Shaping P (Heap.subtractInternal p objects) := by
  induction objects with
  | nil => exact pure _
  | cons obj objects ih =>
    apply deref_bind
    intro o _
    exact (forChildren p (subtractRef p) o.data).bind fun _ => ih

theorem extractUnreachable (objects : List Addr) :
    Shaping P (Heap.extractUnreachable objects) := by
  induction objects with
  | nil => exact pure _
  | cons obj objects ih =>
    apply gcRefs_bind
    intro n
    split
    · exact (setGcRefs obj usizeMax).bind fun _ => ih.bind fun _ => pure _
    · exact ih.bind fun _ => pure _

theorem findChild (child : Addr) (found : Bool) : Shaping P (Heap.findChild child found) := by
  apply gcRefs_bind
  intro n
  split
  · exact (setGcRefs child 1).bind fun _ => pure _
  · exact pure _

theorem findChildren (data : List JVMSlot) (found : Bool) :
    Shaping P (Heap.findChildren p data found) := by
  induction data generalizing found with
  | nil => exact pure _
  | cons slot data ih =>
    apply (withObject slot fun child => findChild child found).bind
    intro found
    cases found with
    | some found => exact ih found
    | none => exact ih _

theorem findFromRoots (objects : List Addr) (found : Bool) :
    Shaping P (Heap.findFromRoots p objects found) := by
  induction objects generalizing found with
  | nil => exact pure _
  | cons obj objects ih =>
    apply deref_bind
    intro o _
    exact (findChildren p o.data found).bind ih

theorem findFromFound (objects : List Addr) (found : Bool) :
    Shaping P (Heap.findFromFound p objects found) := by
  induction objects generalizing found with
  | nil => exact pure _
  | cons obj objects ih =>
    apply deref_bind
    intro o _
    split
    · exact (findChildren p o.data found).bind ih
    · exact ih found

theorem findLoop (unreachable : List Addr) (fuel : Nat) (found : Bool) :
    Shaping P (Heap.findLoop p unreachable fuel found) := by
  induction fuel generalizing found with
  | zero => cases found <;> first | exact pure _ | exact throw _
  | succ fuel ih =>
    cases found with
    | false => exact pure _
    | true => exact (findFromFound p unreachable false).bind ih

theorem arcRelease (a : Addr) : Shaping P (arcRelease a) := by
  apply deref_bind
  intro o ho
  split
  · exact bind (fun _ hs => hs.free a) fun _ => pure _
  · apply bind _ fun _ => pure _
    exact writeObject a ho

theorem dropArc (a : Addr) : Shaping P (Heap.dropArc p a) :=
  get_bind fun _ => (arcRelease a).bind fun nested => dropRefs _ nested

theorem emptySlots (a : Addr) (i n : Nat) : Shaping P (Heap.emptySlots p a i n) := by
  induction n generalizing i with
  | zero => exact pure _
  | succ n ih =>
    apply (replaceData a i .null).bind
    intro old
    cases old.object? with
    | some child => exact (dropArc p child).bind fun _ => ih (i + 1)
    | none => exact ih (i + 1)

theorem drain (objects : List Addr) : Shaping P (Heap.drain p objects) := by
  induction objects with
  | nil => exact modifyHeap _
  | cons obj objects ih =>
    apply deref_bind
    intro o _
    split
    · exact (modifyHeap _).bind fun _ => ih
    · exact (emptySlots p obj 0 o.data.length).bind fun _ => (dropArc p obj).bind fun _ => ih

/-- A collection frees objects, and empties those that it frees. -/
theorem collect : Shaping P (Heap.collect p) := by
  apply readHeap_bind
  intro heap
  apply (countRefs p heap.objects).bind
  intro _
  apply (subtractInternal p heap.objects).bind
  intro _
  apply (extractUnreachable heap.objects).bind
  intro (stay, moved)
  apply (modifyHeap _).bind
  intro _
  apply (findFromRoots p stay false).bind
  intro found
  apply readHeap_bind
  intro heap
  apply (findLoop p heap.unreachable _ found).bind
  intro _
  exact (drain p heap.unreachable).bind fun _ => modifyHeap _

theorem tryGc : Shaping P (Heap.tryGc p) := by
  apply readHeap_bind
  intro heap
  split
  · exact throw _
  · split
    · exact collect p
    · exact pure _

theorem lockHeap (msg : String) : Shaping P (lockHeap msg) := by
  apply of_ok
  intro s _ s' hs h
  cases hp : s.poisoned with
  | true => cases (lockHeap_poisoned hp).symm.trans h
  | false =>
    cases hl : s.locked with
    | true => cases (lockHeap_locked hp hl).symm.trans h
    | false =>
      cases (lockHeap_eq hp hl).symm.trans h
      exact hs.of_memory rfl

theorem unlockHeap : Shaping P unlockHeap := modify fun _ => rfl

theorem stopTheWorldInner : Shaping P (stopTheWorldInner p) := by
  apply (modifyHeap _).bind
  intro _
  apply get_bind
  intro s
  split
  · split
    · exact throw _
    · apply (tryGc p).bind
      intro _
      apply bind
      · exact modify fun _ => rfl
      · exact fun _ => modifyHeap _
  · exact modifyHeap _

theorem lockOrStop : Shaping P (lockOrStop p) := by
  apply (lockHeap _).bind
  intro _
  apply get_bind
  intro s
  split
  · exact stopTheWorldInner p
  · exact pure _

theorem safepoint : Shaping P (safepoint p) := by
  apply get_bind
  intro s
  split
  · exact (lockHeap _).bind fun _ => (stopTheWorldInner p).bind fun _ => unlockHeap
  · exact pure _

theorem allocateFromObject (kind : ObjectKind) (data : List JVMSlot) (ho : P kind data.length) :
    Shaping P (allocateFromObject p kind data) := by
  intro s hs
  rcases allocateFromObject_cases p kind data s with ⟨-, h⟩ | ⟨msg, s', -, h⟩ | ⟨n, -, -, h⟩
  · rw [h]
    trivial
  · rw [h]
    trivial
  · rw [h]
    exact (hs.write (o := ⟨2, 0, kind, data⟩) _ ho).of_memory rfl

theorem allocateInner (kind : ObjectKind) (slots : Nat) (ho : P kind slots) :
    Shaping P (allocateInner p kind slots) := by
  apply (lockOrStop p).bind
  intro _
  apply bind _ fun a => unlockHeap.bind fun _ => pure a
  rw [allocate, newData]
  split
  · rw [pure_bind]
    apply allocateFromObject
    rwa [List.length_replicate]
  · exact throw _

theorem allocateArray (count : Nat) (size : NonZeroU16)
    (ho : ∀ slots, p.mul 64 count size.val.toNat = .ok slots → P (.array size) slots) :
    Shaping P (allocateArray p count size) := by
  rw [Janadinite.allocateArray]
  cases hslots : p.mul 64 count size.val.toNat with
  | ok slots => exact allocateInner p _ slots (ho slots hslots)
  | error msg => exact throw _

theorem cloneChildren (child : BareObject) (ho : P child.kind child.data.length) (n : Nat) :
    ShapingTo P (fun slots => slots.length = n) (cloneChildren p child n) := by
  induction n with
  | zero => exact fun _ hs => ⟨rfl, hs⟩
  | succ n ih =>
    apply Triple.bind (cloneSlots child.data)
    rintro data s ⟨hlen, hs⟩
    apply Triple.bind (allocateFromObject p child.kind data (hlen ▸ ho)) _ s hs
    intro a
    apply Triple.bind ih
    rintro rest s ⟨hrest, hs⟩
    exact ⟨congrArg Nat.succ hrest, hs⟩

theorem fillArray (child : BareObject) (ho : P child.kind child.data.length) (n : Nat) :
    ShapingTo P (fun slots => slots.length = n) (fillArray p child n) := by
  cases n with
  | zero =>
    apply Triple.bind (dropSlots child.data)
    exact fun _ _ hs => ⟨rfl, hs⟩
  | succ n =>
    apply Triple.bind (cloneChildren p child ho n)
    rintro clones s ⟨hlen, hs⟩
    apply Triple.bind (allocateFromObject p child.kind child.data ho) _ s hs
    intro a s hs
    have hall : (clones ++ [JVMSlot.fromObject a]).length = n + 1 := by
      rw [List.length_append, hlen, List.length_singleton]
    exact ⟨hall, hs⟩

theorem dropLast (last : Option BareObject) : Shaping P (dropLast p last) := by
  cases last with
  | some old => exact dropSlots old.data
  | none => exact pure _

section
variable {Q : ObjectKind → Nat → Prop} (size : NonZeroU16)
  (hsize : ∀ count slots, p.mul 64 count size.val.toNat = .ok slots → Q (.array size) slots)
include hsize

theorem newArray (count : Nat) : ShapingTo P (fun obj => Q obj.kind obj.data.length)
    (BareObject.newArray p count size) := by
  rw [BareObject.newArray]
  cases hlen : p.mul 64 count size.val.toNat with
  | error msg => exact fun _ _ => trivial
  | ok len =>
    change ShapingTo P _ (newData len >>= fun data => _)
    rw [newData]
    split
    · refine fun s hs => ⟨?_, hs⟩
      change Q (.array size) (List.replicate len _).length
      rw [List.length_replicate]
      exact hsize count len hlen
    · exact fun _ _ => trivial

theorem newDimension (last : Option BareObject) (count : Nat) :
    ShapingTo P (fun obj => Q obj.kind obj.data.length) (newDimension p last count size) := by
  intro s hs
  have hnew := newArray p size hsize count s hs
  cases hrun : BareObject.newArray p count size s with
  | ok obj s' =>
    rw [newDimension_eq p last hrun, ← hrun]
    exact hnew
  | error e s' =>
    obtain ⟨e', t, -, h⟩ := newDimension_fault p last hrun
    rw [h]
    trivial

theorem addDimension (last : Option BareObject) (len : Int32)
    (ho : ∀ child, last = some child → P child.kind child.data.length) :
    ShapingTo P (fun obj => Q obj.kind obj.data.length) (addDimension p last len size) := by
  rw [Janadinite.addDimension]
  split
  · apply Triple.bind (newArray p size hsize 0)
    rintro obj s ⟨hobj, hs⟩
    apply Triple.bind (dropLast p last) _ s hs
    exact fun _ _ hs => ⟨hobj, hs⟩
  · apply Triple.bind (newDimension p size hsize last (usizeOf len))
    rintro obj s ⟨hobj, hs⟩
    cases last with
    | none => exact ⟨hobj, hs⟩
    | some child =>
      apply Triple.bind (fillArray p child (ho child rfl) obj.data.length) _ s hs
      rintro data s ⟨hlen, hs⟩
      have hdata : Q obj.kind data.length := hlen.symm ▸ hobj
      exact ⟨hdata, hs⟩

end

end

end Shaping

end Janadinite
