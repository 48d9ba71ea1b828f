import Janadinite.Vm.TableGrowth

namespace Janadinite
open Hoare Relation ClassTable Machine
set_option autoImplicit true

namespace VMConstantPool

def className (pool : VMConstantPool) (index : UInt16) : Option String :=
  match pool.getEntry index with
  | some (.class nameIdx _) => pool.getUtf8 nameIdx
  | _ => none

/-- The name of the class that has to be loaded for a reference. -/
def named (pool : VMConstantPool) (index : UInt16) : Option String :=
  match pool.getEntry index with
  | some (.class nameIdx _) => pool.getUtf8 nameIdx
  | some (.classArray descIdx _ _) => (pool.getUtf8 descIdx).bind arrayClassName
  | some (.methodRef classIdx _ _) => pool.className classIdx
  | _ => none

end VMConstantPool

def Returns : EStateM.Result Stop σ α → Prop
  | .ok _ _ => True
  | .error (.error _) _ => True
  | .error _ _ => False

/-- A call returns a value or a `VMError`. When it asks for the class that is named instead, which
is not loaded, it does so as soon as that is. -/
def Resolvable (p : Profile) (t : ClassTable) (target : Option String)
    (call : ClassTable → EStateM.Result Stop σ α) : Prop :=
  Returns (call t) ∨ ∃ name s, target = some name ∧ t.lookup name = none ∧
    call t = .error (.load name) s ∧
      ∀ t', ReflTransGen (Evolves p) t t' → t'.lookup name ≠ none → Returns (call t')

/-- Why a reference is not resolved: there is a `VMError`, or the class that is named has to be
loaded. -/
def Refused (t : ClassTable) (target : Option String) (e : Stop) (_ : σ) : Prop :=
  (∃ err, e = .error err) ∨ ∃ name, e = .load name ∧ target = some name ∧ t.lookup name = none

def Answers (t : ClassTable) (target : Option String) (r : EStateM.Result Stop σ α) : Prop :=
  Ends (fun _ _ => True) (Refused t target) r

theorem Answers.resolvable {call : ClassTable → EStateM.Result Stop σ α}
    (h : ∀ t', ReflTransGen (Evolves p) t t' → Answers t' target (call t')) :
    Resolvable p t target call := by
  have ht := h t .refl
  cases hr : call t with
  | ok a s =>
    left
    rw [hr]
    trivial
  | error e s =>
    rw [hr] at ht
    rcases ht with ⟨err, rfl⟩ | ⟨name, rfl, hname, hnone⟩
    · left
      rw [hr]
      trivial
    · refine .inr ⟨name, s, hname, hnone, hr, fun t' ht' hl => ?_⟩
      have hthen := h t' ht'
      cases hr' : call t' with
      | ok a s' => trivial
      | error e' s' =>
        rw [hr'] at hthen
        rcases hthen with ⟨err, rfl⟩ | ⟨name', rfl, hname', hnone'⟩
        · trivial
        · cases hname.symm.trans hname'
          exact absurd hnone' hl

theorem Answers.mono {r : EStateM.Result Stop σ α} (h : Answers t target r)
    (hn : ∀ name, target = some name → target' = some name) : Answers t target' r := by
  apply Ends.mono h
  · exact fun _ _ _ => trivial
  · rintro e s (herr | ⟨name, he, hname, hl⟩)
    · exact .inl herr
    · exact .inr ⟨name, he, hn name hname, hl⟩

theorem className_named {pool : VMConstantPool} (name : String)
    (h : pool.className index = some name) : pool.named index = some name := by
  rw [VMConstantPool.className] at h
  split at h
  · rename_i nameIdx resolved he
    rw [VMConstantPool.named, he]
    exact h
  · cases h

theorem getUtf8_entry {pool : VMConstantPool} (h : pool.getUtf8 index = some str) :
    pool.getEntry index = some (.utf8 str) := by
  rw [VMConstantPool.getUtf8] at h
  split at h
  · rename_i name he
    cases h
    exact he
  · cases h

theorem nameOrType_utf8 {pool : VMConstantPool} (h : pool.getUtf8 index = some str)
    (badIndex notUtf8 : String) (t : ClassTable) :
    pool.nameOrType index badIndex notUtf8 t = .ok str t := by
  rw [VMConstantPool.nameOrType, getUtf8_entry h]
  rfl

theorem getNameAndType_named {pool : VMConstantPool} (h : pool.Linked)
    (he : pool.getEntry index = some (.nameAndType nameIdx descIdx)) (t : ClassTable) :
    ∃ names, pool.getNameAndType index t = .ok (some names) t := by
  obtain ⟨⟨name, hn⟩, descriptor, hd⟩ := h index _ he
  refine ⟨(name, descriptor), ?_⟩
  rw [VMConstantPool.getNameAndType, he]
  dsimp only
  rw [bind_eq _ (nameOrType_utf8 hn _ _ t), bind_eq _ (nameOrType_utf8 hd _ _ t)]
  rfl

theorem getNameAndType_returns {pool : VMConstantPool} (h : pool.Linked) (index : UInt16)
    (t : ClassTable) : ∃ names, pool.getNameAndType index t = .ok names t := by
  cases he : pool.getEntry index with
  | none =>
    rw [VMConstantPool.getNameAndType, he]
    exact ⟨none, rfl⟩
  | some e =>
    cases e with
    | nameAndType nameIdx descIdx =>
      obtain ⟨names, hnames⟩ := getNameAndType_named h he t
      exact ⟨some names, hnames⟩
    | _ =>
      rw [VMConstantPool.getNameAndType, he]
      exact ⟨none, rfl⟩

section
variable {t : ClassTable} {target : Option String}

theorem answers_fail (e : VMError) (s : σ) : Answers t target (fail e s : EStateM.Result _ _ α) :=
  .inl ⟨e, rfl⟩

theorem withClassOrLoadByName_answers (h : target = some name) :
    Answers t target (withClassOrLoadByName name cell filled t) := by
  rw [withClassOrLoadByName, bind_get]
  cases hl : t.lookup name with
  | some c => trivial
  | none => exact .inr ⟨name, rfl, h, hl⟩

theorem answers_entry {f : VMConstantPool → VMConstantPoolEntry → VM ClassTable α}
    (this : ClassRef) (refIdx : UInt16)
    (h : ∀ e, (t.get this).constantPool.getEntry refIdx = some e →
      Answers t target (f (t.get this).constantPool e t)) :
    Answers t target ((do
      let pool ← poolOf this
      let e ← okOr (.invalidConstantPoolEntry refIdx) (pool.getEntry refIdx)
      f pool e : VM ClassTable α) t) := by
  change Answers t target ((okOr _ ((t.get this).constantPool.getEntry refIdx) >>= _) t)
  cases he : (t.get this).constantPool.getEntry refIdx with
  | none => exact answers_fail _ t
  | some e => exact h e he

theorem getClassOrLoadByRef_answers (hl : (t.get this).constantPool.Linked) (refIdx : UInt16) :
    Answers t ((t.get this).constantPool.className refIdx) (getClassOrLoadByRef this refIdx t) := by
  apply answers_entry this refIdx
  intro e he
  cases e with
  | «class» nameIdx resolved =>
    cases resolved with
    | some c => trivial
    | none =>
      obtain ⟨name, hn⟩ := hl refIdx _ he
      dsimp only
      rw [hn]
      apply withClassOrLoadByName_answers
      rw [VMConstantPool.className, he]
      exact hn
  | _ => exact answers_fail _ t

theorem getClassOrArrayByRef_answers (hl : (t.get this).constantPool.Linked) (refIdx : UInt16) :
    Answers t ((t.get this).constantPool.named refIdx) (getClassOrArrayByRef this refIdx t) := by
  apply answers_entry this refIdx
  intro e he
  cases e with
  | «class» nameIdx resolved =>
    cases resolved with
    | some c => trivial
    | none =>
      obtain ⟨name, hn⟩ := hl refIdx _ he
      dsimp only
      rw [hn]
      have hnamed : (t.get this).constantPool.named refIdx = some name := by
        rw [VMConstantPool.named, he]
        exact hn
      exact (withClassOrLoadByName_answers hnamed).bind fun _ _ _ _ => trivial
  | primitiveArray dimensions ty => trivial
  | classArray descIdx dimensions resolved =>
    cases resolved with
    | some c => trivial
    | none =>
      obtain ⟨descriptor, name, hd, hn⟩ := hl refIdx _ he
      dsimp only
      rw [hd]
      change Answers t _ ((expect _ (arrayClassName descriptor) >>= _) t)
      rw [hn]
      have hnamed : (t.get this).constantPool.named refIdx = some name := by
        rw [VMConstantPool.named, he]
        dsimp only
        rw [hd]
        exact hn
      exact (withClassOrLoadByName_answers hnamed).bind fun _ _ _ _ => trivial
  | _ => exact answers_fail _ t

theorem getMethodOrResolve_answers (hl : (t.get this).constantPool.Linked) (refIdx : UInt16) :
    Answers t ((t.get this).constantPool.named refIdx) (getMethodOrResolve this refIdx t) := by
  apply answers_entry this refIdx
  intro e he
  cases e with
  | methodRef classIdx nameAndDesc resolved =>
    cases resolved with
    | some found => trivial
    | none =>
      obtain ⟨nameIdx, descIdx, hnd⟩ := hl refIdx _ he
      obtain ⟨names, hnames⟩ := getNameAndType_named hl hnd t
      dsimp only
      rw [bind_eq _ hnames]
      have hnamed : (t.get this).constantPool.named refIdx =
          (t.get this).constantPool.className classIdx := by
        rw [VMConstantPool.named, he]
      rw [hnamed]
      apply (getClassOrLoadByRef_answers hl classIdx).bind
      intro root t' _ _
      rw [bind_get]
      cases t'.searchUp (fun c => c.methodByName names.1 (some names.2)) root with
      | none => exact answers_fail _ t'
      | some found => trivial
  | resolvedMethod methodId => trivial
  | _ => exact answers_fail _ t

end

/-- What a reference to a method is resolved to is a method of a class in the table. -/
theorem getMethodOrResolve_found {t t' : ClassTable} (h : t.Sound)
    (hr : getMethodOrResolve this refIdx t = .ok found t') : t'.HasMethod found := by
  have hmethods := h.methodRef hr
  cases getMethodOrResolve_ok hr with
  | cell he | own he => exact hmethods _ _ _ he
  | searched he hn hc hf =>
    obtain ⟨e, he', _⟩ := entryAt_classRef he hc
    exact hmethods this refIdx _ (entryAt_setEntry_self he' _)

theorem resolveMethod_answers {r : Runtime} (h : r.table.Sound) (this : ClassRef)
    (refIdx : UInt16) :
    Answers r.table ((r.table.get this).constantPool.named refIdx)
      (resolveMethod this refIdx r) := by
  have hanswers := getMethodOrResolve_answers (h.linked this) refIdx
  have honTable : Answers r.table ((r.table.get this).constantPool.named refIdx)
      (onTable (getMethodOrResolve this refIdx) r) := by
    rw [onTable]
    cases hr : getMethodOrResolve this refIdx r.table with
    | ok found t => trivial
    | error e t =>
      rw [hr] at hanswers
      exact hanswers
  apply honTable.bind
  intro found r' hr _
  obtain ⟨t, ht, rfl⟩ := onTable_ok hr
  obtain ⟨_, meth, hm⟩ := getMethodOrResolve_found h ht
  change Answers _ _ ((unwrap ((t.get found.1).methodById found.2) >>= _) _)
  rw [hm]
  trivial

theorem unresolved_unresolved (e : VMConstantPoolEntry) :
    e.unresolved.unresolved = e.unresolved := by
  cases e <;> rfl

theorem named_unresolved {pool pool' : VMConstantPool}
    (h : pool'.map VMConstantPoolEntry.unresolved = pool.map VMConstantPoolEntry.unresolved)
    (index : UInt16) : pool'.named index = pool.named index := by
  have key (pool : VMConstantPool) :
      VMConstantPool.named (pool.map VMConstantPoolEntry.unresolved) index = pool.named index := by
    have hutf8 (index : UInt16) : VMConstantPool.getUtf8 (pool.map VMConstantPoolEntry.unresolved)
        index = pool.getUtf8 index := by
      apply getUtf8_unresolved
      rw [List.map_map]
      exact List.map_congr_left fun e _ => unresolved_unresolved e
    have hclass (index : UInt16) : VMConstantPool.className
        (pool.map VMConstantPoolEntry.unresolved) index = pool.className index := by
      simp only [VMConstantPool.className, VMConstantPool.getEntry, List.getElem?_map]
      cases pool[index.toNat]? with
      | none => rfl
      | some e =>
        cases e with
        | «class» nameIdx => exact hutf8 nameIdx
        | _ => rfl
    simp only [VMConstantPool.named, VMConstantPool.getEntry, List.getElem?_map]
    cases pool[index.toNat]? with
    | none => rfl
    | some e =>
      cases e with
      | «class» nameIdx => exact hutf8 nameIdx
      | classArray descIdx => exact congrArg (·.bind arrayClassName) (hutf8 descIdx)
      | methodRef classIdx => exact hclass classIdx
      | _ => rfl
  rw [← key pool', h, key]

/-- A class that is in the table stays there and goes on naming the same classes. -/
theorem named_evolves {t t' : ClassTable} (h : ReflTransGen (Evolves p) t t')
    (hthis : this < t.classes.length) :
    this < t'.classes.length ∧ ∀ refIdx,
      (t'.get this).constantPool.named refIdx = (t.get this).constantPool.named refIdx := by
  induction h with
  | refl => exact ⟨hthis, fun _ => rfl⟩
  | tail _ he ih =>
    obtain ⟨hlt, hnamed⟩ := ih
    cases he with
    | used hu =>
      have hk := hu.keeps
      refine ⟨hk.length ▸ hlt, fun refIdx => ?_⟩
      rw [named_unresolved (hk.pool this), hnamed]
    | added hnone hs hv =>
      refine ⟨?_, fun refIdx => ?_⟩
      · rw [List.length_append]
        exact Nat.lt_add_right 1 hlt
      · rw [get_added, if_neg (Nat.ne_of_lt hlt), hnamed]

section
variable {σ : Type} {t : ClassTable} {call : ClassTable → EStateM.Result Stop σ α}

theorem Resolvable.of_answers (h : Grown p t) (hthis : this < t.classes.length) (refIdx : UInt16)
    (hc : ∀ t', t'.Sound → Answers t' ((t'.get this).constantPool.named refIdx) (call t')) :
    Resolvable p t ((t.get this).constantPool.named refIdx) call := by
  apply Answers.resolvable
  intro t' ht'
  obtain ⟨_, hnamed⟩ := named_evolves ht' hthis
  have hgrown : Grown p t' := h.trans ht'
  rw [← hnamed]
  exact hc t' hgrown.sound

end

/-- Every index into the constant pool of a class can be resolved: no check that the link step has
made can fail again, however the cells have been set since, and a class that is named is asked for
at most until it is loaded. -/
theorem references_resolvable (h : Grown p t) (hthis : this < t.classes.length) (refIdx : UInt16) :
    (∃ names, (t.get this).constantPool.getNameAndType refIdx t = .ok names t) ∧
      Resolvable p t ((t.get this).constantPool.named refIdx) (getClassOrLoadByRef this refIdx) ∧
      Resolvable p t ((t.get this).constantPool.named refIdx) (getClassOrArrayByRef this refIdx) ∧
      Resolvable p t ((t.get this).constantPool.named refIdx) (getMethodOrResolve this refIdx) ∧
      ∀ store context, Resolvable p t ((t.get this).constantPool.named refIdx)
        fun t => resolveMethod this refIdx ⟨t, store, context⟩ := by
  refine ⟨getNameAndType_returns (h.sound.linked this) refIdx t, ?_, ?_, ?_, ?_⟩
  · apply Resolvable.of_answers h hthis
    intro t' ht'
    exact (getClassOrLoadByRef_answers (ht'.linked this) refIdx).mono className_named
  · apply Resolvable.of_answers h hthis
    exact fun t' ht' => getClassOrArrayByRef_answers (ht'.linked this) refIdx
  · apply Resolvable.of_answers h hthis
    exact fun t' ht' => getMethodOrResolve_answers (ht'.linked this) refIdx
  · intro store context
    apply Resolvable.of_answers h hthis
    exact fun t' ht' => resolveMethod_answers (r := ⟨t', store, context⟩) ht' this refIdx

def arraysAdded : ClassTable :=
  ⟨[.javaLangObject, { arraysClass with vtable := VMClass.javaLangObject.vtable }],
    [("A", 1), ("java/lang/Object", 0)]⟩

theorem arraysAdded_grown : Grown ⟨true⟩ arraysAdded := by
  have hv : VMClass.create ⟨true⟩ arraysFile ((some 0).map fun c => (c, fromClassPath.get c)) =
      .ok { arraysClass with vtable := VMClass.javaLangObject.vtable } := rfl
  apply ReflTransGen.single
  apply Evolves.added rfl _ hv
  intro s hs
  cases hs
  exact Nat.one_pos

/-- An array of another class, that has to be loaded first. -/
theorem arrayOfOther_resolvable :
    getClassOrArrayByRef 1 2 arraysAdded = .error (.load "B") arraysAdded ∧
      Resolvable ⟨true⟩ arraysAdded ((arraysAdded.get 1).constantPool.named 2)
        (getClassOrArrayByRef 1 2) :=
  ⟨rfl, (references_resolvable arraysAdded_grown (by decide) 2).2.2.1⟩

end Janadinite
