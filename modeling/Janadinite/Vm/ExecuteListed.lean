import Janadinite.Vm.Listed

namespace Janadinite
open Hoare ThreadContext
set_option autoImplicit true

section
variable {P : ClassTable → Prop}

theorem nameOrType_safely (pool : VMConstantPool) (index : UInt16) (hb : badIndex ≠ unlistedMsg)
    (hn : notUtf8 ≠ unlistedMsg) : Safely P (pool.nameOrType index badIndex notUtf8) := by
  apply (Safely.expect hb _).bind
  intro e
  cases e with
  | utf8 str => exact .pure str
  | _ => exact .panics hn

theorem getNameAndType_safely (pool : VMConstantPool) (index : UInt16) :
    Safely P (pool.getNameAndType index) := by
  unfold VMConstantPool.getNameAndType
  split
  · apply (nameOrType_safely pool _ (by decide) (by decide)).bind
    intro name
    exact (nameOrType_safely pool _ (by decide) (by decide)).bind fun _ => .pure _
  · exact .pure none

end

theorem entry_safely {f : VMConstantPoolEntry → VM ClassTable α} (refIdx : UInt16)
    (pool : VMConstantPool) (hf : ∀ e, Safely (fun _ => True) (f e)) :
    Safely (fun _ => True) (okOr (.invalidConstantPoolEntry refIdx) (pool.getEntry refIdx) >>= f) :=
  (Safely.okOr _ _).bind hf

theorem withClassOrLoadByName_safely (name : String) (cell : PoolCell)
    (filled : ClassRef → VMConstantPoolEntry) :
    Safely (fun _ => True) (withClassOrLoadByName name cell filled) := by
  intro t _
  rw [withClassOrLoadByName, bind_get]
  cases t.lookup name with
  | none => trivial
  | some c => trivial

theorem getClassOrLoadByRef_safely (this : ClassRef) (refIdx : UInt16) :
    Safely (fun _ => True) (getClassOrLoadByRef this refIdx) := by
  apply Safely.get.bind
  intro t
  apply entry_safely refIdx
  intro e
  cases e with
  | «class» nameIdx resolved =>
    cases resolved with
    | some c => exact .pure c
    | none =>
      apply (Safely.expect (by decide) _).bind
      exact fun name => withClassOrLoadByName_safely name _ _
  | _ => exact .fail _

theorem getClassOrArrayByRef_safely (this : ClassRef) (refIdx : UInt16) :
    Safely (fun _ => True) (getClassOrArrayByRef this refIdx) := by
  apply Safely.get.bind
  intro t
  apply entry_safely refIdx
  intro e
  cases e with
  | «class» nameIdx resolved =>
    cases resolved with
    | some c => exact .pure _
    | none =>
      apply (Safely.expect (by decide) _).bind
      exact fun name => (withClassOrLoadByName_safely name _ _).bind fun _ => .pure _
  | primitiveArray dimensions ty => exact .pure _
  | classArray descIdx dimensions resolved =>
    cases resolved with
    | some c => exact .pure _
    | none =>
      apply (Safely.expect (by decide) _).bind
      intro descriptor
      apply (Safely.expect (by decide) _).bind
      exact fun name => (withClassOrLoadByName_safely name _ _).bind fun _ => .pure _
  | _ => exact .fail _

theorem search_safely (search : ClassTable → Option (ClassRef × α)) (key : α → β)
    (cell : PoolCell) (filled : ClassRef × β → VMConstantPoolEntry) (e : VMError) :
    Safely (fun _ => True) (do
      let t ← get
      let (cls, found) ← okOr e (search t)
      set (t.setEntry cell (filled (cls, key found)))
      pure (cls, key found) : VM ClassTable (ClassRef × β)) := by
  intro t _
  rw [bind_get]
  cases search t with
  | none => trivial
  | some found => trivial

theorem getMethodOrResolve_safely (this : ClassRef) (refIdx : UInt16) :
    Safely (fun _ => True) (getMethodOrResolve this refIdx) := by
  apply Safely.get.bind
  intro t
  apply entry_safely refIdx
  intro e
  cases e with
  | methodRef classIdx nameAndDesc resolved =>
    cases resolved with
    | some found => exact .pure found
    | none =>
      apply (getNameAndType_safely _ _).bind
      intro names
      apply (Safely.expect (by decide) names).bind
      intro (name, descriptor)
      apply (getClassOrLoadByRef_safely this classIdx).bind
      intro root
      exact search_safely
        (fun t => t.searchUp (fun c => c.methodByName name (some descriptor)) root)
        VMMethod.id _ (fun found => .methodRef classIdx nameAndDesc (some found)) _
  | resolvedMethod m => exact .pure _
  | _ => exact .fail _

theorem getFieldOrResolve_safely (this : ClassRef) (refIdx : UInt16) :
    Safely (fun _ => True) (getFieldOrResolve this refIdx) := by
  apply Safely.get.bind
  intro t
  apply entry_safely refIdx
  intro e
  cases e with
  | filedRef classIdx nameAndDesc resolved =>
    cases resolved with
    | some found => exact .pure found
    | none =>
      apply (getNameAndType_safely _ _).bind
      intro names
      apply (Safely.expect (by decide) names).bind
      intro (name, _)
      apply (getClassOrLoadByRef_safely this classIdx).bind
      intro root
      exact search_safely (fun t => t.searchUp (fun c => c.fieldByName name) root)
        VMField.off _ (fun found => .filedRef classIdx nameAndDesc (some found)) _
  | resolvedField f => exact .pure _
  | _ => exact .fail _

def Runtime.Listed (r : Runtime) : Prop := r.store.Listed

theorem onStore_listed {m : VM Store α} {P : Runtime → Prop} {Q : Store → Prop}
    (h : Triple Q m (fun _ => Store.Listed) (Clear Store.Listed)) (hp : ∀ r, P r → Q r.store) :
    Triple P (onStore m) (fun _ => Runtime.Listed) (Clear Runtime.Listed) := by
  intro r hr
  have hm := h r.store (hp r hr)
  unfold onStore
  cases he : m r.store with
  | ok a s =>
    rw [he] at hm
    exact hm
  | error e s =>
    rw [he] at hm
    cases e <;> exact hm

theorem onTable_safely {m : VM ClassTable α} (h : Safely (fun _ => True) m) :
    Safely Runtime.Listed (onTable m) := by
  intro r hr
  have hm := h r.table trivial
  unfold onTable
  cases he : m r.table with
  | ok a t => exact hr
  | error e t =>
    rw [he] at hm
    cases e with
    | error err => exact hr
    | _ => exact hm

theorem safely_composes :
    Composes (fun _ => Safely Store.Listed) (fun _ => Safely Runtime.Listed) where
  pure := .pure
  bind := .bind
  reads h _ := .bind .get h
  looks a _ h _ := .bind (onStore_listed (look_safely a) fun _ hr => hr) h
  context _ := Triple.modify fun _ h => h
  fail := .fail
  panics _ h := .panics h
  onStore h := onStore_listed h fun _ hr => hr
  classRef cls refIdx := onTable_safely (getClassOrLoadByRef_safely cls refIdx)
  arrayRef cls refIdx := onTable_safely (getClassOrArrayByRef_safely cls refIdx)
  methodRef cls refIdx := onTable_safely (getMethodOrResolve_safely cls refIdx)
  fieldRef cls refIdx := onTable_safely (getFieldOrResolve_safely cls refIdx)
  setStatic _ _ _ _ := Triple.modify fun _ h => h

/-- What is known of the references and of the list goes on side by side. -/
theorem framed_listed {m : VM Runtime α} {made : α → List Addr}
    (h : Triple (Framed b temps) m (fun a => Framed b (made a)) Regular)
    (h' : Safely Runtime.Listed m) :
    Triple (fun r => Framed b temps r ∧ r.Listed) m (fun a r => Framed b (made a) r ∧ r.Listed)
      (Clear Runtime.Listed) := by
  apply (h.and h').mono
  · exact fun _ hr => hr
  · exact fun _ _ hr => hr
  · exact fun _ _ he => he.2

section
variable (p : Profile) {b : Outset}

/-- A computation that may collect needs the references counted when it begins. -/
theorem soundStore_listed {m : VM Store α}
    (h : ∀ roots, Triple (Store.Sound roots) m (fun _ => Store.Listed) (Clear Store.Listed)) :
    Triple (fun r => Framed b temps r ∧ r.Listed) (onStore m) (fun _ => Runtime.Listed)
      (Clear Runtime.Listed) := by
  intro r hr
  have hm := h (temps ++ (refs r.slots ++ b.others))
  apply onStore_listed (P := (· = r)) hm _ r rfl
  rintro _ rfl
  exact ⟨hr.1.owned, hr.2⟩

theorem allocated_listed {m : VM Store Addr}
    (h : ∀ roots, Triple (Store.Sound roots) m (fun _ => Store.Listed) (Clear Store.Listed)) :
    Triple (fun r => Framed b temps r ∧ r.Listed) (onStore m >>= fun a => pushThen (apush a))
      (fun _ => Runtime.Listed) (Clear Runtime.Listed) :=
  (soundStore_listed h).bind fun _ => safely_composes.pushThen (safely_composes.pushSlot _)

theorem ipop_listed :
    Triple (fun r => Framed b temps r ∧ r.Listed) (ipop p)
      (fun _ r => Framed b temps r ∧ r.Listed) (Clear Runtime.Listed) :=
  framed_listed (ipop_framed p) (safely_composes.ipop (storeParts_safely p))

theorem newObject_listed (cls : ClassRef) (classRef : UInt16) :
    Triple (fun r => Framed b [] r ∧ r.Listed) (newObject p cls classRef)
      (fun _ => Runtime.Listed) (Clear Runtime.Listed) := by
  apply (framed_listed (onTable_framed (getClassOrLoadByRef_resolves cls classRef))
    (safely_composes.classRef cls classRef)).bind
  intro newClass r h
  rw [bind_get]
  exact allocated_listed (fun roots => allocateInner_listed p roots _ _) r h

theorem newArray_listed (t : UInt8) :
    Triple (fun r => Framed b [] r ∧ r.Listed) (newArray p t)
      (fun _ => Runtime.Listed) (Clear Runtime.Listed) := by
  apply (framed_listed (expect_triple fun _ _ _ h => h) (.expect (by decide) _)).bind
  intro prim
  apply (ipop_listed p).bind
  exact fun len => allocated_listed fun roots => allocateArray_listed p roots _ _

theorem aNewArray_listed (cls : ClassRef) (refIdx : UInt16) :
    Triple (fun r => Framed b [] r ∧ r.Listed) (aNewArray p cls refIdx)
      (fun _ => Runtime.Listed) (Clear Runtime.Listed) := by
  apply (framed_listed (onTable_framed (getClassOrArrayByRef_resolves cls refIdx))
    (safely_composes.arrayRef cls refIdx)).bind
  intro _
  apply (ipop_listed p).bind
  exact fun len => allocated_listed fun roots => allocateArray_listed p roots _ _

/-- Nothing is collected while the dimensions are made, once `HEAP` is locked. -/
theorem allocateMultiarray_listed (dimensions : Nat) (lastDimOSize : NonZeroU16) :
    Triple (fun r => Framed b [] r ∧ r.Listed) (allocateMultiarray p dimensions lastDimOSize)
      (fun _ => Runtime.Listed) (Clear Runtime.Listed) := by
  apply (soundStore_listed fun roots => lockOrStop_listed p roots).bind
  intro _
  apply (safely_composes.addDimensions (storeParts_safely p) (arrayParts_safely p) lastDimOSize
    dimensions none).bind
  intro last
  cases last with
  | none => exact (safely_composes.onStore unlockHeap_safely).bind fun _ => .fail _
  | some obj =>
    apply (safely_composes.onStore (allocateFromObject_safely p obj.kind obj.data)).bind
    exact fun a => (safely_composes.onStore unlockHeap_safely).bind fun _ => .pure a

theorem multiANewArray_listed (cls : ClassRef) (refIdx : UInt16) (dim : UInt8) :
    Triple (fun r => Framed b [] r ∧ r.Listed) (multiANewArray p cls refIdx dim)
      (fun _ => Runtime.Listed) (Clear Runtime.Listed) := by
  unfold multiANewArray
  split
  · exact fun _ h => h.2
  · apply (framed_listed (onTable_framed (getClassOrArrayByRef_resolves cls refIdx))
      (safely_composes.arrayRef cls refIdx)).bind
    intro found
    cases found with
    | _ =>
      apply (allocateMultiarray_listed p dim.toNat _).bind
      exact fun a => safely_composes.pushThen (safely_composes.pushSlot _)

/-- After an instruction all objects are listed again. -/
theorem execute_listed [FloatArith] (cls : ClassRef) (lastPc : UInt16) (op : OpCode) :
    Triple (fun r => Framed b [] r ∧ r.Listed) (execute p cls lastPc op)
      (fun _ => Runtime.Listed) (Clear Runtime.Listed) := by
  by_cases hop : op.allocates = true
  · cases op with
    | new classRef => exact newObject_listed p cls classRef
    | newArray t => exact newArray_listed p t
    | aNewArray refIdx => exact aNewArray_listed p cls refIdx
    | multiANewArray refIdx dim => exact multiANewArray_listed p cls refIdx dim
    | _ => cases hop
  · apply (safely_composes.execute (storeParts_safely p) (fun h => absurd h hop) cls lastPc).mono
    · exact fun _ h => h.2
    · exact fun _ _ h => h
    · exact fun _ _ h => h

end

end Janadinite
