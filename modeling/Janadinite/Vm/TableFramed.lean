import Janadinite.Vm.Execute
import Janadinite.Vm.Framed

namespace Janadinite
open Hoare ThreadContext
set_option autoImplicit true

/-- Only cells of constant pools are set, with what they stand for already. -/
inductive ClassTable.FilledTo (t : ClassTable) : ClassTable → Prop
  | refl : FilledTo t t
  | set (h : FilledTo t t')
      (he : ((t'.get cell.owner).constantPool.getEntry cell.index).map (·.unresolved) =
        some entry.unresolved) :
      FilledTo t (t'.setEntry cell entry)

theorem ClassTable.FilledTo.trans {t t' t'' : ClassTable} (h : t.FilledTo t')
    (h' : t'.FilledTo t'') : t.FilledTo t'' := by
  induction h' with
  | refl => exact h
  | set _ he ih => exact ih.set he

theorem pool_setEntry (t : ClassTable) {cell : PoolCell} {entry : VMConstantPoolEntry}
    (he : ((t.get cell.owner).constantPool.getEntry cell.index).map (·.unresolved) =
      some entry.unresolved) (c : ClassRef) :
    ((t.setEntry cell entry).get c).constantPool.map VMConstantPoolEntry.unresolved =
      (t.get c).constantPool.map VMConstantPoolEntry.unresolved := by
  by_cases hc : cell.owner = c
  · subst hc
    rw [VMConstantPool.getEntry, ← List.getElem?_map] at he
    simp only [ClassTable.get, ClassTable.setEntry, ClassTable.modifyClass,
      List.getD_eq_getElem?_getD, List.getElem?_modify, if_true] at he ⊢
    cases hx : t.classes[cell.owner]? with
    | none => rfl
    | some x =>
      rw [hx, Option.getD_some] at he
      change (x.constantPool.set cell.index.toNat entry).map _ = x.constantPool.map _
      obtain ⟨_, hself⟩ := List.getElem?_eq_some_iff.mp he
      rw [List.map_set, ← hself, List.set_getElem_self]
  · simp only [ClassTable.get, ClassTable.setEntry, ClassTable.modifyClass,
      List.getD_eq_getElem?_getD, List.getElem?_modify, if_neg hc]
    cases t.classes[c]? <;> rfl

theorem ClassTable.FilledTo.pool {t t' : ClassTable} (h : t.FilledTo t') (c : ClassRef) :
    (t'.get c).constantPool.map VMConstantPoolEntry.unresolved =
      (t.get c).constantPool.map VMConstantPoolEntry.unresolved := by
  induction h with
  | refl => rfl
  | set _ he ih => rw [pool_setEntry _ he, ih]

theorem ClassTable.FilledTo.getEntry {t t' : ClassTable} (h : t.FilledTo t') {index : UInt16}
    (he : (t.get c).constantPool.getEntry index = some entry) :
    ((t'.get c).constantPool.getEntry index).map (·.unresolved) = some entry.unresolved := by
  have hp := congrArg (·[index.toNat]?) (h.pool c)
  simp only [List.getElem?_map] at hp
  rw [VMConstantPool.getEntry] at he ⊢
  rw [hp, he]
  rfl

def Resolves (m : VM ClassTable α) : Prop := ∀ t, Ends (fun _ => t.FilledTo) Regular (m t)

namespace Resolves

theorem pure (a : α) : Resolves (Pure.pure a) := fun _ => .refl

theorem panicWith (msg : String) : Resolves (Janadinite.panicWith msg : VM ClassTable α) :=
  fun _ => trivial

theorem expect (msg : String) (o : Option α) : Resolves (Janadinite.expect msg o) := by
  intro t
  cases o with
  | none => trivial
  | some a => exact .refl

theorem bind {m : VM ClassTable α} {f : α → VM ClassTable β} (hm : Resolves m)
    (hf : ∀ a, Resolves (f a)) : Resolves (m >>= f) := by
  intro t
  apply Ends.bind (hm t)
  intro a t' _ h
  apply (hf a t').mono
  · exact fun _ _ h' => h.trans h'
  · exact fun _ _ h' => h'

theorem entry {f : VMConstantPool → VMConstantPoolEntry → VM ClassTable α} (this : ClassRef)
    (refIdx : UInt16)
    (hf : ∀ t e, (t.get this).constantPool.getEntry refIdx = some e →
      Ends (fun _ => t.FilledTo) Regular (f (t.get this).constantPool e t)) :
    Resolves (do
      let pool ← poolOf this
      let e ← Janadinite.okOr (.invalidConstantPoolEntry refIdx) (pool.getEntry refIdx)
      f pool e) := by
  intro t
  change Ends _ _ ((Janadinite.okOr _ ((t.get this).constantPool.getEntry refIdx) >>=
    f (t.get this).constantPool) t)
  cases he : (t.get this).constantPool.getEntry refIdx with
  | none => trivial
  | some e => exact hf t e he

end Resolves

theorem nameOrType_resolves (pool : VMConstantPool) (index : UInt16) (badIndex notUtf8 : String) :
    Resolves (pool.nameOrType index badIndex notUtf8) := by
  apply Resolves.bind (.expect _ _)
  intro e
  cases e with
  | utf8 str => exact .pure str
  | _ => exact .panicWith notUtf8

theorem getNameAndType_resolves (pool : VMConstantPool) (index : UInt16) :
    Resolves (pool.getNameAndType index) := by
  unfold VMConstantPool.getNameAndType
  split
  · apply Resolves.bind (nameOrType_resolves _ _ _ _)
    intro name
    apply Resolves.bind (nameOrType_resolves _ _ _ _)
    exact fun _ => .pure _
  · exact .pure none

theorem withClassOrLoadByName_filled (name : String) {t : ClassTable}
    (he : (t.get cell.owner).constantPool.getEntry cell.index = some entry)
    (hf : ∀ c, (filled c).unresolved = entry.unresolved) :
    Ends (fun _ => t.FilledTo) Regular (withClassOrLoadByName name cell filled t) := by
  rw [withClassOrLoadByName, bind_get]
  cases t.lookup name with
  | none => trivial
  | some c =>
    apply ClassTable.FilledTo.refl.set
    rw [he, hf]
    rfl

theorem withClassOrLoadByName_returned (name : String) (g : ClassRef → α) {t : ClassTable}
    (he : (t.get cell.owner).constantPool.getEntry cell.index = some entry)
    (hf : ∀ c, (filled c).unresolved = entry.unresolved) :
    Ends (fun _ => t.FilledTo) Regular ((do
      let c ← withClassOrLoadByName name cell filled
      pure (g c) : VM ClassTable α) t) := by
  apply Ends.bind (withClassOrLoadByName_filled name he hf)
  exact fun _ _ _ h => h

theorem getClassOrLoadByRef_resolves (this : ClassRef) (refIdx : UInt16) :
    Resolves (getClassOrLoadByRef this refIdx) := by
  apply Resolves.entry this refIdx
  intro t e he
  cases e with
  | «class» nameIdx resolved =>
    cases resolved with
    | some c => exact .refl
    | none =>
      dsimp only
      cases (t.get this).constantPool.getUtf8 nameIdx with
      | none => trivial
      | some name => exact withClassOrLoadByName_filled name he fun _ => rfl
  | _ => trivial

theorem getClassOrArrayByRef_resolves (this : ClassRef) (refIdx : UInt16) :
    Resolves (getClassOrArrayByRef this refIdx) := by
  apply Resolves.entry this refIdx
  intro t e he
  cases e with
  | «class» nameIdx resolved =>
    cases resolved with
    | some c => exact .refl
    | none =>
      dsimp only
      cases (t.get this).constantPool.getUtf8 nameIdx with
      | none => trivial
      | some name =>
        change Ends _ _ ((withClassOrLoadByName name _ _ >>= fun _ => _ :
          VM ClassTable ClassOrArray) t)
        exact withClassOrLoadByName_returned name ClassOrArray.class he fun _ => rfl
  | primitiveArray dimensions ty => exact .refl
  | classArray descIdx dimensions resolved =>
    cases resolved with
    | some c => exact .refl
    | none =>
      dsimp only
      cases (t.get this).constantPool.getUtf8 descIdx with
      | none => trivial
      | some descriptor =>
        change Ends _ _ ((expect _ (arrayClassName descriptor) >>= fun _ => _ :
          VM ClassTable ClassOrArray) t)
        cases arrayClassName descriptor with
        | none => trivial
        | some name =>
          change Ends _ _ ((withClassOrLoadByName name _ _ >>= fun _ => _ :
            VM ClassTable ClassOrArray) t)
          exact withClassOrLoadByName_returned name (ClassOrArray.classArray dimensions) he
            fun _ => rfl
  | _ => trivial

theorem search_filled {search : ClassTable → Option (ClassRef × α)} (key : α → β)
    (filled : ClassRef × β → VMConstantPoolEntry) (e : VMError) {t t' : ClassTable}
    (h : t.FilledTo t') (he : (t.get cell.owner).constantPool.getEntry cell.index = some entry)
    (hf : ∀ found, (filled found).unresolved = entry.unresolved) :
    Ends (fun _ => t.FilledTo) Regular ((do
      let t ← get
      let (cls, found) ← okOr e (search t)
      set (t.setEntry cell (filled (cls, key found)))
      pure (cls, key found) : VM ClassTable (ClassRef × β)) t') := by
  rw [bind_get]
  cases search t' with
  | none => trivial
  | some found =>
    apply h.set
    rw [h.getEntry he, hf]

theorem getMethodOrResolve_resolves (this : ClassRef) (refIdx : UInt16) :
    Resolves (getMethodOrResolve this refIdx) := by
  apply Resolves.entry this refIdx
  intro t e he
  cases e with
  | methodRef classIdx nameAndDesc resolved =>
    cases resolved with
    | some found => exact .refl
    | none =>
      apply Ends.bind (getNameAndType_resolves _ _ t)
      intro names t₁ _ h₁
      cases names with
      | none => trivial
      | some names =>
        apply Ends.bind (getClassOrLoadByRef_resolves this classIdx t₁)
        intro root t₂ _ h₂
        exact search_filled VMMethod.id
          (fun found => .methodRef classIdx nameAndDesc (some found)) _ (h₁.trans h₂) he
          fun _ => rfl
  | resolvedMethod m => exact .refl
  | _ => trivial

theorem getFieldOrResolve_resolves (this : ClassRef) (refIdx : UInt16) :
    Resolves (getFieldOrResolve this refIdx) := by
  apply Resolves.entry this refIdx
  intro t e he
  cases e with
  | filedRef classIdx nameAndDesc resolved =>
    cases resolved with
    | some found => exact .refl
    | none =>
      apply Ends.bind (getNameAndType_resolves _ _ t)
      intro names t₁ _ h₁
      cases names with
      | none => trivial
      | some names =>
        apply Ends.bind (getClassOrLoadByRef_resolves this classIdx t₁)
        intro root t₂ _ h₂
        exact search_filled VMField.off
          (fun found => .filedRef classIdx nameAndDesc (some found)) _ (h₁.trans h₂) he
          fun _ => rfl
  | resolvedField f => exact .refl
  | _ => trivial

theorem ClassTable.Keeps.refl (t : ClassTable) : t.Keeps t :=
  ⟨rfl, rfl, fun _ => rfl, fun _ => rfl, fun _ => rfl⟩

theorem ClassTable.Keeps.trans {t t' t'' : ClassTable} (h : t.Keeps t') (h' : t'.Keeps t'') :
    t.Keeps t'' where
  loaded := h'.loaded.trans h.loaded
  length := h'.length.trans h.length
  vtable c := (h'.vtable c).trans (h.vtable c)
  staticVtable c := (h'.staticVtable c).trans (h.staticVtable c)
  pool c := (h'.pool c).trans (h.pool c)

theorem keeps_setEntry (t : ClassTable) {cell : PoolCell} {entry : VMConstantPoolEntry}
    (he : ((t.get cell.owner).constantPool.getEntry cell.index).map (·.unresolved) =
      some entry.unresolved) : t.Keeps (t.setEntry cell entry) where
  loaded := rfl
  length := List.length_modify ..
  vtable := by
    apply t.get_modifyClass (g := VMClass.vtable)
    exact fun _ => rfl
  staticVtable := by
    apply t.get_modifyClass (g := VMClass.staticVtable)
    exact fun _ => rfl
  pool := pool_setEntry t he

theorem ClassTable.FilledTo.keeps {t t' : ClassTable} (h : t.FilledTo t') : t.Keeps t' := by
  induction h with
  | refl => exact .refl t
  | set _ he ih => exact ih.trans (keeps_setEntry _ he)

theorem keeps_setStatic (t : ClassTable) (cls : ClassRef) (off : FieldOff) (k : Nat)
    (slot : JVMSlot) : t.Keeps (t.setStatic cls off k slot) where
  loaded := rfl
  length := List.length_modify ..
  vtable := by
    apply t.get_modifyClass (g := VMClass.vtable)
    exact fun _ => rfl
  staticVtable := by
    apply t.get_modifyClass (g := VMClass.staticVtable)
    exact fun _ => rfl
  pool r := by
    apply congrArg
    apply t.get_modifyClass (g := VMClass.constantPool)
    exact fun _ => rfl

/-- What the slots of one element give away and get, those of all elements do. -/
theorem flatMap_modify_perm {xs : List α} {f : α → List JVMSlot} {g : α → α} (h : xs[i]? = some x)
    (hp : (made ++ refs (f (g x))).Perm (used ++ refs (f x))) :
    (made ++ refs ((xs.modify i g).flatMap f)).Perm (used ++ refs (xs.flatMap f)) := by
  induction xs generalizing i with
  | nil => cases h
  | cons y xs ih =>
    apply List.perm_iff_count.mpr
    intro a
    cases i with
    | zero =>
      cases h
      have ha := hp.count_eq a
      simp only [List.modify_zero_cons, List.flatMap_cons, refs_append, List.count_append] at ha ⊢
      omega
    | succ i =>
      have ha := (ih h).count_eq a
      simp only [List.modify_succ_cons, List.flatMap_cons, refs_append, List.count_append] at ha ⊢
      omega

theorem statics_modifyClass (t : ClassTable) {f : VMClass → VMClass}
    (h : ∀ c, (f c).statics = c.statics) (c : ClassRef) :
    (refs (t.modifyClass c f).statics).Perm (refs t.statics) := by
  cases hc : t.classes[c]? with
  | none =>
    have ht : t.modifyClass c f = t := by
      rw [ClassTable.modifyClass, List.modify_eq_self (List.getElem?_eq_none_iff.mp hc)]
    rw [ht]
  | some x =>
    have hp : ([] ++ refs (f x).statics).Perm ([] ++ refs x.statics) := by rw [h]
    exact flatMap_modify_perm hc hp

theorem onTable_framed {m : VM ClassTable α} (h : Resolves m) :
    Triple (Framed b temps) (onTable m) (fun _ => Framed b temps) Regular := by
  intro r hr
  have hm := h r.table
  unfold onTable
  cases he : m r.table with
  | error e t =>
    rw [he] at hm
    cases e <;> exact hm
  | ok a t =>
    rw [he] at hm
    change r.table.FilledTo t at hm
    change Framed b temps { r with table := t }
    clear he
    induction hm with
    | refl => exact hr
    | @set t cell entry _ he ih =>
      have hp : (refs (t.setEntry cell entry).statics).Perm (refs t.statics) := by
        apply statics_modifyClass
        exact fun _ => rfl
      exact ih.setTable (ih.table.trans (keeps_setEntry t he)) (hp.append_left temps)

theorem VMField.statics_setStatic {f : VMField} (h : f.statics[k]? = some old) (slot : JVMSlot) :
    (f.setStatic k slot).statics = f.statics.set k slot := by
  unfold statics setStatic at *
  cases hd : f.data with
  | normal off =>
    rw [hd] at h
    cases h
  | static slots => rfl

theorem setStatic_perm {t : ClassTable} (h : t.static? cls off k = some old) (slot : JVMSlot) :
    (refs [old] ++ refs (t.setStatic cls off k slot).statics).Perm
      (refs [slot] ++ refs t.statics) := by
  obtain ⟨f, hf, hk⟩ := Option.bind_eq_some_iff.mp h
  have hslots : f.statics[k]? = some old := by
    unfold VMField.statics
    cases hd : f.data with
    | normal off =>
      rw [hd] at hk
      cases hk
    | static slots =>
      rw [hd] at hk
      exact hk
  cases hc : t.classes[cls]? with
  | none =>
    rw [ClassTable.get, List.getD_eq_getElem?_getD, hc] at hf
    cases hf
  | some c =>
    rw [ClassTable.get, List.getD_eq_getElem?_getD, hc] at hf
    apply flatMap_modify_perm hc
    apply flatMap_modify_perm (f := VMField.statics) (x := f) hf
    rw [VMField.statics_setStatic hslots]
    exact refs_set_perm hslots slot

theorem popStatics_framed (p : Profile) (cls : ClassRef) (off : FieldOff) (k : Nat) :
    Triple (Framed b temps) (popStatics p cls off k) (fun _ => Framed b temps) Regular := by
  induction k with
  | zero => exact Triple.pure fun _ h => h
  | succ k ih =>
    apply Triple.bind popSlotOr_framed
    intro slot r h
    rw [bind_get]
    cases ho : r.table.static? cls off k with
    | none => trivial
    | some old =>
      apply Triple.bind (dropSlot_framed p old) fun _ => ih
      apply h.setTable (h.table.trans (keeps_setStatic r.table cls off k slot))
      apply List.perm_iff_count.mpr
      intro a
      have ha := (setStatic_perm ho slot).count_eq a
      simp only [List.count_append] at ha ⊢
      omega

end Janadinite
