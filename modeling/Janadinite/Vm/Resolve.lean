import Janadinite.Lib.Triple
import Janadinite.Vm.Error

namespace Janadinite
set_option autoImplicit true

/-- An entry of a class's constant pool. -/
structure PoolCell where
  owner : ClassRef
  index : UInt16
  deriving DecidableEq, Repr

/-- The classes made so far and the map `loaded_classes`. -/
structure ClassTable where
  classes : List VMClass
  loaded : List (String × ClassRef)

namespace ClassTable

def get (t : ClassTable) (c : ClassRef) : VMClass := t.classes.getD c .javaLangObject

def lookup (t : ClassTable) (name : String) : Option ClassRef := t.loaded.lookup name

def modifyClass (t : ClassTable) (c : ClassRef) (f : VMClass → VMClass) : ClassTable :=
  { t with classes := t.classes.modify c f }

def setEntry (t : ClassTable) (cell : PoolCell) (entry : VMConstantPoolEntry) : ClassTable :=
  t.modifyClass cell.owner fun c =>
    { c with constantPool := c.constantPool.set cell.index.toNat entry }

/-- The loop up the superclasses; a superclass was made before its subclasses. -/
def findUp (t : ClassTable) (pick : VMClass → Option α) : Nat → ClassRef → Option (ClassRef × α)
  | 0, _ => none
  | depth + 1, c =>
    match pick (t.get c) with
    | some found => some (c, found)
    | none => ((t.get c).superClass).bind (findUp t pick depth)

def searchUp (t : ClassTable) (pick : VMClass → Option α) (root : ClassRef) :
    Option (ClassRef × α) :=
  t.findUp pick (root + 1) root

theorem findUp_pick {t : ClassTable} {pick : VMClass → Option α}
    (h : t.findUp pick depth c = some (r, a)) : pick (t.get r) = some a := by
  induction depth generalizing c with
  | zero => cases h
  | succ depth ih =>
    rw [findUp] at h
    split at h
    · rename_i found hf
      cases h
      exact hf
    · cases hs : (t.get c).superClass with
      | none =>
        rw [hs] at h
        cases h
      | some s =>
        rw [hs] at h
        exact ih h

theorem get_modifyClass {f : VMClass → VMClass} {g : VMClass → α} (t : ClassTable)
    (h : ∀ x, g (f x) = g x) (r : ClassRef) :
    g ((t.modifyClass c f).get r) = g (t.get r) := by
  simp only [get, modifyClass, List.getD_eq_getElem?_getD, List.getElem?_modify]
  split
  · cases t.classes[r]? with
    | none => rfl
    | some x => exact h x
  · cases t.classes[r]? <;> rfl

/-- Setting a cell leaves alone what does not depend on the constant pool. -/
theorem get_setEntry {g : VMClass → α} (t : ClassTable)
    (hg : ∀ x pool, g { x with constantPool := pool } = g x) (cell : PoolCell)
    (entry : VMConstantPoolEntry) (r : ClassRef) :
    g ((t.setEntry cell entry).get r) = g (t.get r) :=
  get_modifyClass t (fun x => hg x _) r

@[simp] theorem get_setEntry_fields (t : ClassTable) (cell : PoolCell)
    (entry : VMConstantPoolEntry) (r : ClassRef) :
    ((t.setEntry cell entry).get r).fields = (t.get r).fields :=
  get_setEntry (g := VMClass.fields) t (fun _ _ => rfl) cell entry r

/-- What a cell of the constant pool of a class holds. -/
def entryAt (t : ClassTable) (cell : PoolCell) : Option VMConstantPoolEntry :=
  (t.get cell.owner).constantPool[cell.index.toNat]?

theorem get_modifyClass_self {t : ClassTable} (hc : c < t.classes.length) (f : VMClass → VMClass) :
    (t.modifyClass c f).get c = f (t.get c) := by
  simp only [get, modifyClass, List.getD_eq_getElem?_getD, List.getElem?_modify,
    List.getElem?_eq_getElem hc]
  rfl

theorem get_modifyClass_ne {t : ClassTable} (h : c ≠ d) (f : VMClass → VMClass) :
    (t.modifyClass c f).get d = t.get d := by
  simp only [get, modifyClass, List.getD_eq_getElem?_getD, List.getElem?_modify, if_neg h]
  cases t.classes[d]? <;> rfl

theorem owner_lt {t : ClassTable} (h : t.entryAt cell = some e) :
    cell.owner < t.classes.length := by
  apply Classical.byContradiction
  intro hge
  rw [entryAt, get, List.getD_eq_getElem?_getD, List.getElem?_eq_none (Nat.le_of_not_lt hge)] at h
  cases h

theorem entryAt_setEntry_self {t : ClassTable} (h : t.entryAt cell = some e₀)
    (e : VMConstantPoolEntry) : (t.setEntry cell e).entryAt cell = some e := by
  have hi : cell.index.toNat < (t.get cell.owner).constantPool.length :=
    (List.getElem?_eq_some_iff.mp h).1
  rw [entryAt, setEntry, get_modifyClass_self (owner_lt h)]
  exact List.getElem?_set_self hi

theorem entryAt_setEntry_ne {t : ClassTable} (h : cell ≠ cell') (e : VMConstantPoolEntry) :
    (t.setEntry cell e).entryAt cell' = t.entryAt cell' := by
  by_cases ho : cell.owner = cell'.owner
  · have hi : cell.index.toNat ≠ cell'.index.toNat := by
      intro hi
      apply h
      cases cell
      cases cell'
      cases ho
      cases UInt16.toNat_inj.mp hi
      rfl
    by_cases hlt : cell'.owner < t.classes.length
    · rw [entryAt, setEntry, ho, get_modifyClass_self hlt]
      exact List.getElem?_set_ne hi
    · have hnone : ∀ s : ClassTable, s.classes.length = t.classes.length →
          s.entryAt cell' = none := by
        intro s hs
        apply Option.eq_none_iff_forall_ne_some.mpr
        intro e' he'
        exact hlt (hs ▸ owner_lt he')
      rw [hnone t rfl, hnone _ (List.length_modify ..)]
  · rw [entryAt, setEntry, get_modifyClass_ne ho, entryAt]

theorem entryAt_setEntry {t : ClassTable} (h : t.entryAt cell' = some e₀) (cell : PoolCell)
    (e : VMConstantPoolEntry) : ∃ e', (t.setEntry cell e).entryAt cell' = some e' := by
  by_cases hc : cell = cell'
  · subst hc
    exact ⟨e, entryAt_setEntry_self h e⟩
  · exact ⟨e₀, (entryAt_setEntry_ne hc e).trans h⟩

theorem findUp_congr {t t' : ClassTable} {pick : VMClass → Option α}
    (hp : ∀ r, pick (t'.get r) = pick (t.get r))
    (hs : ∀ r, (t'.get r).superClass = (t.get r).superClass) (depth : Nat) (c : ClassRef) :
    t'.findUp pick depth c = t.findUp pick depth c := by
  induction depth generalizing c with
  | zero => rfl
  | succ depth ih =>
    have hup : t'.findUp pick depth = t.findUp pick depth := funext ih
    rw [findUp, findUp, hp, hs, hup]

end ClassTable

inductive ClassOrArray where
  | class (cls : ClassRef)
  | primitiveArray (dimensions : NonZeroU16) (ty : PrimitiveArrayType)
  | classArray (dimensions : NonZeroU16) (cls : ClassRef)
  deriving DecidableEq, Repr

namespace VMConstantPool

def getEntry (pool : VMConstantPool) (index : UInt16) : Option VMConstantPoolEntry :=
  pool[index.toNat]?

def getUtf8 (pool : VMConstantPool) (index : UInt16) : Option String :=
  match pool.getEntry index with
  | some (.utf8 name) => some name
  | _ => none

/-- One of the two names of a `NameAndType`. -/
def nameOrType (pool : VMConstantPool) (index : UInt16) (badIndex notUtf8 : String) :
    VM ClassTable String := do
  match ← expect badIndex (pool.getEntry index) with
  | .utf8 str => pure str
  | _ => panicWith notUtf8

def getNameAndType (pool : VMConstantPool) (index : UInt16) :
    VM ClassTable (Option (String × String)) :=
  match pool.getEntry index with
  | some (.nameAndType name descriptor) => do
    let name ← pool.nameOrType name "Bad name index in NameAndType"
      "NameAndType name didn't point to UTF8 entry."
    let desc ← pool.nameOrType descriptor "Bad descriptor index in NameAndType"
      "NameAndType descriptor didn't point to UTF8 entry."
    pure (some (name, desc))
  | _ => pure none

end VMConstantPool

open ClassTable

def poolOf (c : ClassRef) : VM ClassTable VMConstantPool := do
  let t ← get
  pure (t.get c).constantPool

/-- `with_class_or_load_by_name`, for a class that is put into a cell. A class that is not loaded
yet is loaded first, and the lookup made again. -/
def withClassOrLoadByName (name : String) (cell : PoolCell)
    (filled : ClassRef → VMConstantPoolEntry) : VM ClassTable ClassRef := do
  let t ← get
  match t.lookup name with
  | some c =>
    set (t.setEntry cell (filled c))
    pure c
  | none => throw (.load name)

def getClassOrLoadByRef (thisClass : ClassRef) (refIdx : UInt16) : VM ClassTable ClassRef := do
  let pool ← poolOf thisClass
  match ← okOr (.invalidConstantPoolEntry refIdx) (pool.getEntry refIdx) with
  | .class _ (some resolved) => pure resolved
  | .class nameIdx none =>
    let name ← expect "Class name should be valid UTF8" (pool.getUtf8 nameIdx)
    withClassOrLoadByName name ⟨thisClass, refIdx⟩ fun c => .class nameIdx (some c)
  | _ => fail (.invalidConstantPoolEntry refIdx)

def arrayClassName (descriptor : String) : Option String :=
  (FieldDescriptor.fromStr descriptor).findSome? fun desc =>
    match desc with
    | .object o => some o
    | _ => none

def getClassOrArrayByRef (thisClass : ClassRef) (refIdx : UInt16) :
    VM ClassTable ClassOrArray := do
  let pool ← poolOf thisClass
  match ← okOr (.invalidConstantPoolEntry refIdx) (pool.getEntry refIdx) with
  | .class _ (some cls) => pure (.class cls)
  | .class nameIdx none =>
    let name ← expect "Class name doesn't point to UTF8" (pool.getUtf8 nameIdx)
    let c ← withClassOrLoadByName name ⟨thisClass, refIdx⟩ fun c => .class nameIdx (some c)
    pure (.class c)
  | .primitiveArray dimensions ty => pure (.primitiveArray dimensions ty)
  | .classArray _ dimensions (some cls) => pure (.classArray dimensions cls)
  | .classArray descIdx dimensions none =>
    let descriptor ← expect "Array Class descriptor doesn't point to UTF8" (pool.getUtf8 descIdx)
    let name ← expect "Array class descriptor is invalid" (arrayClassName descriptor)
    let c ← withClassOrLoadByName name ⟨thisClass, refIdx⟩ fun c =>
      .classArray descIdx dimensions (some c)
    pure (.classArray dimensions c)
  | _ => fail (.invalidConstantPoolEntry refIdx)

def getMethodOrResolve (thisClass : ClassRef) (refIdx : UInt16) :
    VM ClassTable (ClassRef × MethodID) := do
  let pool ← poolOf thisClass
  match ← okOr (.invalidConstantPoolEntry refIdx) (pool.getEntry refIdx) with
  | .methodRef _ _ (some resolved) => pure resolved
  | .methodRef classIdx nameAndDesc none =>
    let (name, descriptor) ← expect "MethodRef points to invalid NameAndType"
      (← pool.getNameAndType nameAndDesc)
    let rootClass ← getClassOrLoadByRef thisClass classIdx
    let t ← get
    let (cls, meth) ← okOr (.noSuchMethodInClass name)
      (t.searchUp (fun c => c.methodByName name (some descriptor)) rootClass)
    set (t.setEntry ⟨thisClass, refIdx⟩ (.methodRef classIdx nameAndDesc (some (cls, meth.id))))
    pure (cls, meth.id)
  | .resolvedMethod m => pure (thisClass, m)
  | _ => fail (.invalidConstantPoolEntry refIdx)

def getFieldOrResolve (thisClass : ClassRef) (refIdx : UInt16) :
    VM ClassTable (ClassRef × FieldOff) := do
  let pool ← poolOf thisClass
  match ← okOr (.invalidConstantPoolEntry refIdx) (pool.getEntry refIdx) with
  | .filedRef _ _ (some resolved) => pure resolved
  | .filedRef classIdx nameAndDesc none =>
    let (name, _) ← expect "MethodRef points to invalid NameAndType"
      (← pool.getNameAndType nameAndDesc)
    let rootClass ← getClassOrLoadByRef thisClass classIdx
    let t ← get
    let (cls, field) ← okOr (.noSuchFieldInClass name)
      (t.searchUp (fun c => c.fieldByName name) rootClass)
    set (t.setEntry ⟨thisClass, refIdx⟩ (.filedRef classIdx nameAndDesc (some (cls, field.off))))
    pure (cls, field.off)
  | .resolvedField f => pure (thisClass, f)
  | _ => fail (.invalidConstantPoolEntry refIdx)

section
open Hoare

theorem nameOrType_ok {pool : VMConstantPool} {t t' : ClassTable}
    (h : pool.nameOrType index badIndex notUtf8 t = .ok str t') : t' = t := by
  rw [VMConstantPool.nameOrType] at h
  obtain ⟨e, t₁, he, h⟩ := bind_ok h
  obtain ⟨_, rfl⟩ := expect_ok he
  cases e with
  | utf8 str =>
    cases h
    rfl
  | _ => cases h

theorem getNameAndType_ok {pool : VMConstantPool} {t t' : ClassTable}
    (h : pool.getNameAndType index t = .ok names t') : t' = t := by
  unfold VMConstantPool.getNameAndType at h
  cases he : pool.getEntry index with
  | none =>
    rw [he] at h
    cases h
    rfl
  | some e =>
    rw [he] at h
    cases e with
    | nameAndType name descriptor =>
      obtain ⟨name, t₁, hn, h⟩ := bind_ok h
      obtain ⟨desc, t₂, hd, h⟩ := bind_ok h
      cases h
      rw [nameOrType_ok hd, nameOrType_ok hn]
    | _ =>
      cases h
      rfl

theorem withClassOrLoadByName_ok {t t' : ClassTable}
    (h : withClassOrLoadByName name cell filled t = .ok c t') :
    t.lookup name = some c ∧ t' = t.setEntry cell (filled c) := by
  unfold withClassOrLoadByName at h
  obtain ⟨t₁, t₂, hg, h⟩ := bind_ok h
  cases hg
  cases hl : t.lookup name with
  | none =>
    rw [hl] at h
    cases h
  | some c =>
    rw [hl] at h
    cases h
    exact ⟨rfl, rfl⟩

/-- What resolving a reference to a class comes to. -/
inductive ClassResolved (t : ClassTable) (this : ClassRef) (refIdx : UInt16) :
    ClassRef → ClassTable → Prop
  | cell (he : t.entryAt ⟨this, refIdx⟩ = some (.class nameIdx (some c))) :
      ClassResolved t this refIdx c t
  | found (he : t.entryAt ⟨this, refIdx⟩ = some (.class nameIdx none))
      (hn : (t.get this).constantPool.getUtf8 nameIdx = some name) (hl : t.lookup name = some c) :
      ClassResolved t this refIdx c (t.setEntry ⟨this, refIdx⟩ (.class nameIdx (some c)))

theorem getClassOrLoadByRef_ok {t t' : ClassTable}
    (h : getClassOrLoadByRef this refIdx t = .ok c t') : ClassResolved t this refIdx c t' := by
  unfold getClassOrLoadByRef at h
  obtain ⟨pool, t₁, hp, h₁⟩ := bind_ok h
  cases hp
  obtain ⟨e, t₁, hentry, h₂⟩ := bind_ok h₁
  obtain ⟨he, rfl⟩ := okOr_ok hentry
  cases e with
  | «class» nameIdx resolved =>
    cases resolved with
    | some c =>
      cases h₂
      exact .cell he
    | none =>
      obtain ⟨name, t₂, hexpect, h₃⟩ := bind_ok h₂
      obtain ⟨hn, rfl⟩ := expect_ok hexpect
      obtain ⟨hl, rfl⟩ := withClassOrLoadByName_ok h₃
      exact .found he hn hl
  | _ => cases h₂

theorem getClassOrLoadByRef_keeps {g : VMClass → α} {t t' : ClassTable}
    (hg : ∀ x pool, g { x with constantPool := pool } = g x)
    (h : getClassOrLoadByRef this refIdx t = .ok c t') (r : ClassRef) :
    g (t'.get r) = g (t.get r) := by
  cases getClassOrLoadByRef_ok h with
  | cell => rfl
  | found => exact ClassTable.get_setEntry t hg ..

theorem getClassOrLoadByRef_entry {t t' : ClassTable}
    (h : getClassOrLoadByRef this refIdx t = .ok c t') (cell : PoolCell)
    (he : t.entryAt cell = some e₀) :
    ∃ e, t'.entryAt cell = some e := by
  cases getClassOrLoadByRef_ok h with
  | cell => exact ⟨e₀, he⟩
  | found => exact ClassTable.entryAt_setEntry he ..

/-- What resolving a reference to a class or an array comes to. -/
inductive ArrayResolved (t : ClassTable) (this : ClassRef) (refIdx : UInt16) :
    ClassOrArray → ClassTable → Prop
  | class (he : t.entryAt ⟨this, refIdx⟩ = some (.class nameIdx (some c))) :
      ArrayResolved t this refIdx (.class c) t
  | foundClass (he : t.entryAt ⟨this, refIdx⟩ = some (.class nameIdx none))
      (hn : (t.get this).constantPool.getUtf8 nameIdx = some name) (hl : t.lookup name = some c) :
      ArrayResolved t this refIdx (.class c)
        (t.setEntry ⟨this, refIdx⟩ (.class nameIdx (some c)))
  | primitive (he : t.entryAt ⟨this, refIdx⟩ = some (.primitiveArray dimensions ty)) :
      ArrayResolved t this refIdx (.primitiveArray dimensions ty) t
  | array (he : t.entryAt ⟨this, refIdx⟩ = some (.classArray descIdx dimensions (some c))) :
      ArrayResolved t this refIdx (.classArray dimensions c) t
  | foundArray (he : t.entryAt ⟨this, refIdx⟩ = some (.classArray descIdx dimensions none))
      (hd : (t.get this).constantPool.getUtf8 descIdx = some descriptor)
      (hn : arrayClassName descriptor = some name) (hl : t.lookup name = some c) :
      ArrayResolved t this refIdx (.classArray dimensions c)
        (t.setEntry ⟨this, refIdx⟩ (.classArray descIdx dimensions (some c)))

theorem getClassOrArrayByRef_ok {t t' : ClassTable}
    (h : getClassOrArrayByRef this refIdx t = .ok found t') :
    ArrayResolved t this refIdx found t' := by
  unfold getClassOrArrayByRef at h
  obtain ⟨pool, t₁, hp, h₁⟩ := bind_ok h
  cases hp
  obtain ⟨e, t₁, hentry, h₂⟩ := bind_ok h₁
  obtain ⟨he, rfl⟩ := okOr_ok hentry
  cases e with
  | «class» nameIdx resolved =>
    cases resolved with
    | some c =>
      cases h₂
      exact .class he
    | none =>
      obtain ⟨name, t₂, hexpect, h₃⟩ := bind_ok h₂
      obtain ⟨hn, rfl⟩ := expect_ok hexpect
      obtain ⟨c, t₃, hc, h₄⟩ := bind_ok h₃
      obtain ⟨hl, rfl⟩ := withClassOrLoadByName_ok hc
      cases h₄
      exact .foundClass he hn hl
  | primitiveArray dimensions ty =>
    cases h₂
    exact .primitive he
  | classArray descIdx dimensions resolved =>
    cases resolved with
    | some c =>
      cases h₂
      exact .array he
    | none =>
      obtain ⟨descriptor, t₂, hdesc, h₃⟩ := bind_ok h₂
      obtain ⟨hd, rfl⟩ := expect_ok hdesc
      obtain ⟨name, t₃, hname, h₄⟩ := bind_ok h₃
      obtain ⟨hn, rfl⟩ := expect_ok hname
      obtain ⟨c, t₄, hc, h₅⟩ := bind_ok h₄
      obtain ⟨hl, rfl⟩ := withClassOrLoadByName_ok hc
      cases h₅
      exact .foundArray he hd hn hl
  | _ => cases h₂

inductive MethodResolved (t : ClassTable) (this : ClassRef) (refIdx : UInt16) :
    ClassRef × MethodID → ClassTable → Prop
  | cell (he : t.entryAt ⟨this, refIdx⟩ = some (.methodRef classIdx nameAndDesc (some found))) :
      MethodResolved t this refIdx found t
  | own (he : t.entryAt ⟨this, refIdx⟩ = some (.resolvedMethod methodId)) :
      MethodResolved t this refIdx (this, methodId) t
  | searched (he : t.entryAt ⟨this, refIdx⟩ = some (.methodRef classIdx nameAndDesc none))
      (hn : (t.get this).constantPool.getNameAndType nameAndDesc t =
        .ok (some (name, descriptor)) t)
      (hc : getClassOrLoadByRef this classIdx t = .ok root t')
      (hf : t'.searchUp (fun c => c.methodByName name (some descriptor)) root = some (cls, meth)) :
      MethodResolved t this refIdx (cls, meth.id) (t'.setEntry ⟨this, refIdx⟩
        (.methodRef classIdx nameAndDesc (some (cls, meth.id))))

theorem getMethodOrResolve_ok {t t' : ClassTable}
    (h : getMethodOrResolve this refIdx t = .ok found t') :
    MethodResolved t this refIdx found t' := by
  unfold getMethodOrResolve at h
  obtain ⟨pool, t₁, hp, h₁⟩ := bind_ok h
  cases hp
  obtain ⟨e, t₁, hentry, h₂⟩ := bind_ok h₁
  obtain ⟨he, rfl⟩ := okOr_ok hentry
  cases e with
  | methodRef classIdx nameAndDesc resolved =>
    cases resolved with
    | some found' =>
      cases h₂
      exact .cell he
    | none =>
      obtain ⟨names, t₂, hn, h₃⟩ := bind_ok h₂
      cases getNameAndType_ok hn
      obtain ⟨⟨name, descriptor⟩, t₂, hs, h₄⟩ := bind_ok h₃
      obtain ⟨rfl, rfl⟩ := expect_ok hs
      obtain ⟨root, t₃, hc, h₅⟩ := bind_ok h₄
      obtain ⟨t₄, t₅, hg, h₆⟩ := bind_ok h₅
      cases hg
      obtain ⟨⟨cls, meth⟩, t₆, hsearch, h₇⟩ := bind_ok h₆
      obtain ⟨hf, rfl⟩ := okOr_ok hsearch
      cases h₇
      exact .searched he hn hc hf
  | resolvedMethod id =>
    cases h₂
    exact .own he
  | _ => cases h₂

inductive FieldResolved (t : ClassTable) (this : ClassRef) (refIdx : UInt16) :
    ClassRef × FieldOff → ClassTable → Prop
  | cell (he : t.entryAt ⟨this, refIdx⟩ = some (.filedRef classIdx nameAndDesc (some found))) :
      FieldResolved t this refIdx found t
  | own (he : t.entryAt ⟨this, refIdx⟩ = some (.resolvedField off)) :
      FieldResolved t this refIdx (this, off) t
  | searched (he : t.entryAt ⟨this, refIdx⟩ = some (.filedRef classIdx nameAndDesc none))
      (hn : (t.get this).constantPool.getNameAndType nameAndDesc t =
        .ok (some (name, descriptor)) t)
      (hc : getClassOrLoadByRef this classIdx t = .ok root t')
      (hf : t'.searchUp (fun c => c.fieldByName name) root = some (cls, field)) :
      FieldResolved t this refIdx (cls, field.off) (t'.setEntry ⟨this, refIdx⟩
        (.filedRef classIdx nameAndDesc (some (cls, field.off))))

theorem getFieldOrResolve_ok {t t' : ClassTable}
    (h : getFieldOrResolve this refIdx t = .ok found t') :
    FieldResolved t this refIdx found t' := by
  unfold getFieldOrResolve at h
  obtain ⟨pool, t₁, hp, h₁⟩ := bind_ok h
  cases hp
  obtain ⟨e, t₁, hentry, h₂⟩ := bind_ok h₁
  obtain ⟨he, rfl⟩ := okOr_ok hentry
  cases e with
  | filedRef classIdx nameAndDesc resolved =>
    cases resolved with
    | some found' =>
      cases h₂
      exact .cell he
    | none =>
      obtain ⟨names, t₂, hn, h₃⟩ := bind_ok h₂
      cases getNameAndType_ok hn
      obtain ⟨⟨name, descriptor⟩, t₂, hs, h₄⟩ := bind_ok h₃
      obtain ⟨rfl, rfl⟩ := expect_ok hs
      obtain ⟨root, t₃, hc, h₅⟩ := bind_ok h₄
      obtain ⟨t₄, t₅, hg, h₆⟩ := bind_ok h₅
      cases hg
      obtain ⟨⟨cls, field⟩, t₆, hsearch, h₇⟩ := bind_ok h₆
      obtain ⟨hf, rfl⟩ := okOr_ok hsearch
      cases h₇
      exact .searched he hn hc hf
  | resolvedField off =>
    cases h₂
    exact .own he
  | _ => cases h₂

/-- A field is resolved once: its cell then leads to it at once. -/
theorem getFieldOrResolve_again {t t' : ClassTable}
    (h : getFieldOrResolve this refIdx t = .ok found t') :
    getFieldOrResolve this refIdx t' = .ok found t' := by
  cases getFieldOrResolve_ok h with
  | cell => exact h
  | own => exact h
  | searched he hn hc hf =>
    obtain ⟨e, he'⟩ := getClassOrLoadByRef_entry hc ⟨this, refIdx⟩ he
    change (okOr _ (ClassTable.entryAt _ ⟨this, refIdx⟩) >>= _) _ = _
    rw [ClassTable.entryAt_setEntry_self he']
    rfl

theorem getClassOrLoadByRef_fields {t t' : ClassTable}
    (h : getClassOrLoadByRef this refIdx t = .ok c t') (r : ClassRef) :
    (t'.get r).fields = (t.get r).fields :=
  getClassOrLoadByRef_keeps (g := VMClass.fields) (fun _ _ => rfl) h r

end

end Janadinite
