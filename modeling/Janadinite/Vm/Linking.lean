import Janadinite.Vm.Definitions
import Janadinite.Vm.Resolution

namespace Janadinite
open Hoare Relation Runs ClassTable
set_option autoImplicit true

namespace ClassDefinition

def methodId (name descriptor : String) (d : ClassDefinition) : Option MethodID :=
  ((d.vtable ++ d.staticVtable).find? fun m =>
    m.method.name == name && m.method.descriptor == descriptor).map VMMethod.id

/-- Fields are looked for by name alone. -/
def fieldOff (name _descriptor : String) (d : ClassDefinition) : Option FieldOff :=
  (d.fields.find? fun f => f.2.2.name == name).map Prod.fst

end ClassDefinition

theorem VMClass.definition_methodId (v : VMClass) (name descriptor : String) :
    (v.methodByName name (some descriptor)).map VMMethod.id =
      v.definition.methodId name descriptor := by
  simp only [methodByName, Option.all_some, ClassDefinition.methodId, definition]
  congr 2
  funext m
  congr 1
  exact Bool.beq_comm

theorem VMClass.definition_fieldOff (v : VMClass) (name descriptor : String) :
    (v.fieldByName name).map VMField.off = v.definition.fieldOff name descriptor := by
  rw [fieldByName, ClassDefinition.fieldOff, definition, List.find?_map, Option.map_map]
  rfl

def Pedigree.first (l : Pedigree) (pick : ClassDefinition → Option α) : Option (String × α) :=
  l.findSome? fun cls => (pick cls.2).map fun a => (cls.1, a)

theorem Pedigree.first_cons (name : String) (d : ClassDefinition) (supers : Pedigree)
    (pick : ClassDefinition → Option α) :
    Pedigree.first ((name, d) :: supers) pick =
      ((pick d).map fun a => (name, a)).or (Pedigree.first supers pick) := by
  rw [first, List.findSome?_cons]
  cases pick d <;> rfl

theorem ClassTable.Ancestry.findUp {t : ClassTable} (h : t.Ancestry c l)
    {pick : VMClass → Option α} {key : α → β} {pick' : ClassDefinition → Option β}
    (hp : ∀ v : VMClass, (pick v).map key = pick' v.definition)
    (hf : t.findUp pick depth c = some (r, a)) :
    ∃ owner, l.first pick' = some (owner, key a) ∧ t.lookup owner = some r := by
  induction h generalizing depth with
  | @root name c d hl hd hs =>
    cases depth with
    | zero => cases hf
    | succ depth =>
      rw [ClassTable.findUp, hs] at hf
      have hpick := hp (t.get c)
      rw [Pedigree.first_cons, ← hd, ← hpick]
      split at hf
      · rename_i found hfound
        cases hf
        rw [hfound]
        exact ⟨_, rfl, hl⟩
      · cases hf
  | @extend name c d s l hl hd hs h ih =>
    cases depth with
    | zero => cases hf
    | succ depth =>
      rw [ClassTable.findUp, hs] at hf
      have hpick := hp (t.get c)
      rw [Pedigree.first_cons, ← hd, ← hpick]
      split at hf
      · rename_i found hfound
        cases hf
        rw [hfound]
        exact ⟨_, rfl, hl⟩
      · rename_i hnone
        obtain ⟨owner, hfirst, hlookup⟩ := ih hf
        rw [hnone]
        exact ⟨owner, hfirst, hlookup⟩

def VMConstantPool.nameAndType (pool : VMConstantPool) (index : UInt16) :
    Option (String × String) :=
  match pool.getEntry index with
  | some (.nameAndType nameIdx descIdx) =>
    (pool.getUtf8 nameIdx).bind fun name => (pool.getUtf8 descIdx).map fun desc => (name, desc)
  | _ => none

theorem nameOrType_text {pool : VMConstantPool} {t t' : ClassTable}
    (h : pool.nameOrType index badIndex notUtf8 t = .ok str t') :
    pool.getUtf8 index = some str := by
  rw [VMConstantPool.nameOrType] at h
  obtain ⟨e, t₁, hexpect, h⟩ := bind_ok h
  obtain ⟨he, rfl⟩ := expect_ok hexpect
  cases e with
  | utf8 str =>
    cases h
    rw [VMConstantPool.getUtf8, he]
  | _ => cases h

theorem getNameAndType_names {pool : VMConstantPool} {t t' : ClassTable}
    (h : pool.getNameAndType index t = .ok (some names) t') :
    pool.nameAndType index = some names := by
  unfold VMConstantPool.getNameAndType at h
  rw [VMConstantPool.nameAndType]
  cases he : pool.getEntry index with
  | none =>
    rw [he] at h
    cases h
  | some e =>
    rw [he] at h
    cases e with
    | nameAndType nameIdx descIdx =>
      obtain ⟨name, t₁, hn, h⟩ := bind_ok h
      obtain ⟨desc, t₂, hd, h⟩ := bind_ok h
      cases h
      dsimp only
      rw [nameOrType_text hn, nameOrType_text hd]
      rfl
    | _ => cases h

theorem unresolved_map (pool : VMConstantPool) :
    (pool.map VMConstantPoolEntry.unresolved).map VMConstantPoolEntry.unresolved =
      pool.map VMConstantPoolEntry.unresolved := by
  rw [List.map_map]
  exact List.map_congr_left fun e _ => unresolved_unresolved e

theorem className_congr {pool pool' : VMConstantPool}
    (h : pool'.map VMConstantPoolEntry.unresolved = pool.map VMConstantPoolEntry.unresolved)
    (index : UInt16) : pool'.className index = pool.className index := by
  have key (pool : VMConstantPool) : VMConstantPool.className
      (pool.map VMConstantPoolEntry.unresolved) index = pool.className index := by
    have hutf8 := getUtf8_unresolved (unresolved_map pool)
    simp only [VMConstantPool.className, VMConstantPool.getEntry, List.getElem?_map]
    cases pool[index.toNat]? with
    | none => rfl
    | some e =>
      cases e with
      | «class» nameIdx => exact hutf8 nameIdx
      | _ => rfl
  rw [← key pool', h, key]

theorem nameAndType_congr {pool pool' : VMConstantPool}
    (h : pool'.map VMConstantPoolEntry.unresolved = pool.map VMConstantPoolEntry.unresolved)
    (index : UInt16) : pool'.nameAndType index = pool.nameAndType index := by
  have key (pool : VMConstantPool) : VMConstantPool.nameAndType
      (pool.map VMConstantPoolEntry.unresolved) index = pool.nameAndType index := by
    have hutf8 := getUtf8_unresolved (unresolved_map pool)
    simp only [VMConstantPool.nameAndType, VMConstantPool.getEntry, List.getElem?_map]
    cases pool[index.toNat]? with
    | none => rfl
    | some e =>
      cases e with
      | nameAndType nameIdx descIdx =>
        simp only [Option.map_some, VMConstantPoolEntry.unresolved, hutf8]
      | _ => rfl
  rw [← key pool', h, key]

/-- What the class files say that a reference to a method or a field leads to: the first class with
it, from the class that the reference names on. -/
def ClassPath.Finds (p : Profile) (path : ClassPath)
    (pick : String → String → ClassDefinition → Option α) (pool : VMConstantPool)
    (classIdx nameAndDesc : UInt16) (found : String × α) : Prop :=
  ∃ root name descriptor l, pool.className classIdx = some root ∧
    pool.nameAndType nameAndDesc = some (name, descriptor) ∧ path.Defines p root l ∧
    l.first (pick name descriptor) = some found

section
variable {p : Profile} {path : ClassPath} {pool pool' : VMConstantPool}
  {pick : String → String → ClassDefinition → Option α}

theorem ClassPath.Finds.unique (h : path.Finds p pick pool classIdx nameAndDesc found)
    (h' : path.Finds p pick pool classIdx nameAndDesc found') : found' = found := by
  obtain ⟨root, name, descriptor, l, hc, hn, hl, hf⟩ := h
  obtain ⟨root', name', descriptor', l', hc', hn', hl', hf'⟩ := h'
  cases hc.symm.trans hc'
  cases hn.symm.trans hn'
  cases hl.unique hl'
  exact Option.some.inj (hf'.symm.trans hf)

theorem ClassPath.Finds.congr (h : path.Finds p pick pool classIdx nameAndDesc found)
    (hp : pool'.map VMConstantPoolEntry.unresolved = pool.map VMConstantPoolEntry.unresolved) :
    path.Finds p pick pool' classIdx nameAndDesc found := by
  obtain ⟨root, name, descriptor, l, hc, hn, hl, hf⟩ := h
  refine ⟨root, name, descriptor, l, ?_, ?_, hl, hf⟩
  · rw [className_congr hp, hc]
  · rw [nameAndType_congr hp, hn]

end

/-- A cell that has been set to a method or a field holds what the class files say. -/
def VMConstantPoolEntry.Determined (p : Profile) (path : ClassPath) (t : ClassTable)
    (pool : VMConstantPool) : VMConstantPoolEntry → Prop
  | .methodRef classIdx nameAndDesc (some (c, id)) => ∃ owner, t.lookup owner = some c ∧
      path.Finds p ClassDefinition.methodId pool classIdx nameAndDesc (owner, id)
  | .filedRef classIdx nameAndDesc (some (c, off)) => ∃ owner, t.lookup owner = some c ∧
      path.Finds p ClassDefinition.fieldOff pool classIdx nameAndDesc (owner, off)
  | _ => True

namespace ClassTable

def Determined (p : Profile) (path : ClassPath) (t : ClassTable) : Prop :=
  ∀ c idx e, (t.get c).constantPool.getEntry idx = some e →
    e.Determined p path t (t.get c).constantPool

end ClassTable

section
variable {p : Profile} {path : ClassPath} {t t' : ClassTable} {pool pool' : VMConstantPool}
  {e : VMConstantPoolEntry}

theorem VMConstantPoolEntry.Determined.mono (h : e.Determined p path t pool)
    (hl : ∀ name c, t.lookup name = some c → t'.lookup name = some c)
    (hp : pool'.map VMConstantPoolEntry.unresolved = pool.map VMConstantPoolEntry.unresolved) :
    e.Determined p path t' pool' := by
  cases e with
  | methodRef classIdx nameAndDesc resolved =>
    cases resolved with
    | none => trivial
    | some found =>
      obtain ⟨owner, hlookup, hf⟩ := h
      exact ⟨owner, hl _ _ hlookup, hf.congr hp⟩
  | filedRef classIdx nameAndDesc resolved =>
    cases resolved with
    | none => trivial
    | some found =>
      obtain ⟨owner, hlookup, hf⟩ := h
      exact ⟨owner, hl _ _ hlookup, hf.congr hp⟩
  | _ => trivial

theorem ClassTable.Determined.set {cell : PoolCell} {entry e₀ : VMConstantPoolEntry}
    (h : t.Determined p path) (he : t.entryAt cell = some e₀)
    (hu : entry.unresolved = e₀.unresolved)
    (hd : entry.Determined p path t (t.get cell.owner).constantPool) :
    (t.setEntry cell entry).Determined p path := by
  have hk : t.Keeps (t.setEntry cell entry) := by
    apply keeps_setEntry
    change (t.entryAt cell).map _ = _
    rw [he, hu]
    rfl
  intro c idx e hidx
  change (t.setEntry cell entry).entryAt ⟨c, idx⟩ = some e at hidx
  by_cases hcell : cell = ⟨c, idx⟩
  · subst hcell
    rw [entryAt_setEntry_self he] at hidx
    cases hidx
    exact hd.mono (fun _ _ hl => hl) (hk.pool c)
  · rw [entryAt_setEntry_ne hcell] at hidx
    exact (h c idx e hidx).mono (fun _ _ hl => hl) (hk.pool c)

theorem ClassResolved.named (h : ClassResolved t this refIdx c t') (hcells : t.CellsNamed) :
    ∃ name, (t.get this).constantPool.className refIdx = some name ∧ t.lookup name = some c := by
  cases h with
  | cell he =>
    obtain ⟨name, hn, hl⟩ := hcells _ _ _ he
    refine ⟨name, ?_, hl⟩
    change VMConstantPool.getEntry _ refIdx = _ at he
    rw [VMConstantPool.className, he]
    exact hn
  | found he hn hl =>
    refine ⟨_, ?_, hl⟩
    change VMConstantPool.getEntry _ refIdx = _ at he
    rw [VMConstantPool.className, he]
    exact hn

/-- The search for a method or a field comes to what the class files say. -/
theorem searched_finds {pick : VMClass → Option α} {key : α → β}
    {pick' : String → String → ClassDefinition → Option β} (hs : t.Sound) (hd : t.Defined p path)
    (hn : (t.get this).constantPool.getNameAndType nameAndDesc t =
      .ok (some (name, descriptor)) t)
    (hc : getClassOrLoadByRef this classIdx t = .ok root t')
    (hp : ∀ v : VMClass, (pick v).map key = pick' name descriptor v.definition)
    (hf : t'.searchUp pick root = some (c, a)) :
    ∃ owner, t.lookup owner = some c ∧
      path.Finds p pick' (t.get this).constantPool classIdx nameAndDesc (owner, key a) := by
  have hu : t.Uses t' := .class hc
  obtain ⟨rootName, hname, hl⟩ := (getClassOrLoadByRef_ok hc).named hs.cells
  obtain ⟨l, hl, ha⟩ := hd.known rootName root hl
  obtain ⟨owner, hfirst, hlookup⟩ := (ha.uses hu).findUp hp hf
  rw [hu.lookup] at hlookup
  exact ⟨owner, hlookup, rootName, name, descriptor, l, hname, getNameAndType_names hn, hl, hfirst⟩

namespace ClassTable

theorem Determined.classRef (h : t.Determined p path)
    (hr : getClassOrLoadByRef this refIdx t = .ok c t') : t'.Determined p path := by
  cases getClassOrLoadByRef_ok hr with
  | cell => exact h
  | found he => exact h.set he rfl trivial

theorem Determined.uses (h : t.Determined p path) (hs : t.Sound) (hd : t.Defined p path)
    (hu : t.Uses t') : t'.Determined p path := by
  cases hu with
  | «class» hr => exact h.classRef hr
  | classOrArray hr =>
    cases getClassOrArrayByRef_ok hr with
    | «class» | primitive | array => exact h
    | foundClass he | foundArray he => exact h.set he rfl trivial
  | method hr =>
    cases getMethodOrResolve_ok hr with
    | cell | own => exact h
    | searched he hn hc hf =>
      obtain ⟨e, he', hunset⟩ := entryAt_classRef he hc
      obtain ⟨owner, hl, hfinds⟩ := searched_finds hs hd hn hc
        (fun v => v.definition_methodId _ _) hf
      have hu : t.Uses _ := .class hc
      apply (h.classRef hc).set he'
      · exact hunset
      · exact ⟨owner, (hu.lookup owner).trans hl, hfinds.congr (hu.keeps.pool _)⟩
  | field hr =>
    cases getFieldOrResolve_ok hr with
    | cell | own => exact h
    | searched he hn hc hf =>
      obtain ⟨e, he', hunset⟩ := entryAt_classRef he hc
      obtain ⟨owner, hl, hfinds⟩ := searched_finds hs hd hn hc
        (fun v => v.definition_fieldOff _ _) hf
      have hu : t.Uses _ := .class hc
      apply (h.classRef hc).set he'
      · exact hunset
      · exact ⟨owner, (hu.lookup owner).trans hl, hfinds.congr (hu.keeps.pool _)⟩
  | static cls off k slot =>
    intro c idx e he
    have hpool : ((t.setStatic cls off k slot).get c).constantPool = (t.get c).constantPool := by
      apply get_modifyClass (g := VMClass.constantPool) t
      exact fun _ => rfl
    rw [hpool] at he
    exact (h c idx e he).mono (fun _ _ hl => hl) (congrArg _ hpool)

theorem Determined.added (h : t.Determined p path) (hnone : t.lookup name = none)
    (hv : VMClass.create p cls superClass = .ok v) :
    Determined p path ⟨t.classes ++ [v], (name, t.classes.length) :: t.loaded⟩ := by
  obtain ⟨_, _, _, hparts⟩ := create_parts hv
  intro c idx e he
  rw [get_added] at he
  split at he
  · have hunset := fromUnresolved_unset hparts.pool (List.mem_of_getElem? he)
    cases e with
    | methodRef classIdx nameAndDesc resolved | filedRef classIdx nameAndDesc resolved =>
      cases resolved with
      | none => trivial
      | some found => cases hunset
    | _ => trivial
  · rename_i hc
    apply (h c idx e he).mono
    · exact fun other c hl => lookup_added hnone v hl
    · rw [get_added, if_neg hc]

theorem fromClassPath_determined : Determined p path .fromClassPath := by
  intro c idx e he
  have hget : ClassTable.fromClassPath.get c = .javaLangObject := by
    cases c <;> rfl
  rw [hget] at he
  cases he

end ClassTable

end

end Janadinite
