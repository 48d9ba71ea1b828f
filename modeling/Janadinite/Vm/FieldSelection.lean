import Janadinite.Lib.Chain
import Janadinite.Lib.Search
import Janadinite.Vm.FieldIndex
import Janadinite.Vm.FieldLayout
import Mathlib.Data.List.Find

namespace Janadinite
open Hoare Search Chain
set_option autoImplicit true

/-- A field as a class file declares it: at `place` in the field table of a class that has `depth`
superclasses with class files. -/
structure Declaration where
  depth : Nat
  place : Nat
  field : JVMField

def declarationsOf (depth : Nat) (fields : List JVMField) : List Declaration :=
  fields.mapIdx fun place field => { depth, place, field }

/-- All fields that the class files declare, those of the nearest class first. -/
def declarations : List Class → List Declaration
  | [] => []
  | cls :: supers => declarationsOf supers.length cls.fields ++ declarations supers

def tableDeclarations : List Class → List Declaration
  | [] => []
  | cls :: supers =>
    (tableDeclarations supers).filter (fun d => !d.field.isStatic) ++
      declarationsOf supers.length cls.fields

def named (name : String) (f : JVMField) : Bool := f.name == name

def isField (name descriptor : String) (f : JVMField) : Bool :=
  f.name == name && f.descriptor == descriptor

/-- The field with the name and the descriptor that the nearest class declares. -/
def nearest (files : List Class) (name descriptor : String) : Option Declaration :=
  (declarations files).find? fun d => isField name descriptor d.field

/-- Searches that begin at a class with `start` superclasses come to `e` before `d`: the table of
that class holds the instance fields of its superclasses, from the root class down, and then its
own fields, but the static fields of a superclass are only in the table of the superclass. -/
def Declaration.Before (start : Nat) (e d : Declaration) : Prop :=
  if d.field.isStatic = true ∧ d.depth < start then
    e.field.isStatic = false ∨ d.depth < e.depth ∨ (e.depth = d.depth ∧ e.place < d.place)
  else
    (e.field.isStatic = false ∧ e.depth < d.depth) ∨
      (e.depth = d.depth ∧ e.place < d.place ∧ (e.field.isStatic = false ∨ d.depth = start))

/-- Every field of the name comes in searches at or after the nearest one that has the descriptor,
too. -/
def Unobstructed (files : List Class) (name descriptor : String) : Prop :=
  ∀ e ∈ declarations files, e.field.name = name →
    ∃ d, nearest files name descriptor = some d ∧ ¬ e.Before (files.length - 1) d

def searchOrder : List Class → List Declaration
  | [] => []
  | cls :: supers =>
    tableDeclarations (cls :: supers) ++ (declarations supers).filter fun d => d.field.isStatic

theorem Declaration.Before.asymm {e d : Declaration} (h : e.Before start d) :
    ¬ d.Before start e := by
  unfold Before at h ⊢
  grind

theorem mem_declarationsOf (h : d ∈ declarationsOf depth fields) : d.depth = depth := by
  obtain ⟨i, hi, rfl⟩ := List.mem_mapIdx.mp h
  rfl

theorem declarationsOf_pairwise (depth : Nat) (fields : List JVMField) :
    (declarationsOf depth fields).Pairwise fun e d => e.place < d.place := by
  rw [List.pairwise_iff_getElem]
  intro i j hi hj hij
  simpa only [declarationsOf, List.getElem_mapIdx] using hij

theorem declarations_depth (h : d ∈ declarations files) : d.depth < files.length := by
  induction files with
  | nil => cases h
  | cons cls supers ih =>
    rcases List.mem_append.mp h with h | h
    · rw [mem_declarationsOf h]
      exact Nat.lt_succ_self _
    · exact Nat.lt_succ_of_lt (ih h)

/-- A class's table has the instance fields of the class and its superclasses, and its own static
fields. -/
theorem mem_tableDeclarations :
    d ∈ tableDeclarations files ↔
      d ∈ declarations files ∧ (d.field.isStatic = false ∨ d.depth + 1 = files.length) := by
  induction files with
  | nil => simp [tableDeclarations, declarations]
  | cons cls supers ih =>
    simp only [tableDeclarations, declarations, List.mem_append, List.mem_filter, ih,
      Bool.not_eq_true', List.length_cons, Nat.add_right_cancel_iff]
    constructor
    · rintro (⟨⟨hd, _⟩, hs⟩ | hd)
      · exact ⟨.inr hd, .inl hs⟩
      · exact ⟨.inl hd, .inr (mem_declarationsOf hd)⟩
    · rintro ⟨hd | hd, hs⟩
      · exact .inr hd
      · have hlt := declarations_depth hd
        rcases hs with hs | hs
        · exact .inl ⟨⟨hd, .inl hs⟩, hs⟩
        · omega

theorem mem_searchOrder : d ∈ searchOrder files ↔ d ∈ declarations files := by
  cases files with
  | nil => exact Iff.rfl
  | cons cls supers =>
    rw [searchOrder, List.mem_append, mem_tableDeclarations, List.mem_filter]
    constructor
    · rintro (⟨hd, _⟩ | ⟨hd, _⟩)
      · exact hd
      · exact List.mem_append_right _ hd
    · intro hd
      cases hs : d.field.isStatic with
      | false => exact .inl ⟨hd, .inl rfl⟩
      | true =>
        rcases List.mem_append.mp hd with hown | hsup
        · refine .inl ⟨hd, .inr ?_⟩
          rw [mem_declarationsOf hown]
          rfl
        · exact .inr ⟨hsup, rfl⟩

theorem instanceDeclarations_pairwise (files : List Class) :
    ((tableDeclarations files).filter fun d => !d.field.isStatic).Pairwise fun e d =>
      e.depth < d.depth ∨ (e.depth = d.depth ∧ e.place < d.place) := by
  induction files with
  | nil => exact .nil
  | cons cls supers ih =>
    rw [tableDeclarations, List.filter_append, List.pairwise_append]
    refine ⟨ih.filter _, ?_, ?_⟩
    · refine ((declarationsOf_pairwise _ _).imp_of_mem ?_).filter _
      intro e d he hd hlt
      exact .inr ⟨(mem_declarationsOf he).trans (mem_declarationsOf hd).symm, hlt⟩
    · intro e he d hd
      left
      have hsup := (mem_tableDeclarations.mp (List.mem_of_mem_filter (List.mem_of_mem_filter he))).1
      rw [mem_declarationsOf (List.mem_of_mem_filter hd)]
      exact declarations_depth hsup

theorem declarations_pairwise (files : List Class) :
    (declarations files).Pairwise fun e d =>
      d.depth < e.depth ∨ (e.depth = d.depth ∧ e.place < d.place) := by
  induction files with
  | nil => exact .nil
  | cons cls supers ih =>
    rw [declarations, List.pairwise_append]
    refine ⟨(declarationsOf_pairwise _ _).imp_of_mem ?_, ih, ?_⟩
    · intro e d he hd hlt
      exact .inr ⟨(mem_declarationsOf he).trans (mem_declarationsOf hd).symm, hlt⟩
    · intro e he d hd
      left
      rw [mem_declarationsOf he]
      exact declarations_depth hd

theorem searchOrder_pairwise (files : List Class) :
    (searchOrder files).Pairwise (Declaration.Before (files.length - 1)) := by
  cases files with
  | nil => exact .nil
  | cons cls supers =>
    rw [searchOrder, tableDeclarations, List.pairwise_append, List.pairwise_append]
    have hinst {d : Declaration} (hd : d ∈ (tableDeclarations supers).filter fun d =>
        !d.field.isStatic) : d.field.isStatic = false ∧ d.depth < supers.length := by
      obtain ⟨hmem, hs⟩ := List.mem_filter.mp hd
      refine ⟨by simpa using hs, declarations_depth (mem_tableDeclarations.mp hmem).1⟩
    have hstat {d : Declaration} (hd : d ∈ (declarations supers).filter fun d =>
        d.field.isStatic) : d.field.isStatic = true ∧ d.depth < supers.length := by
      obtain ⟨hmem, hs⟩ := List.mem_filter.mp hd
      exact ⟨hs, declarations_depth hmem⟩
    rw [List.length_cons, Nat.add_sub_cancel]
    refine ⟨⟨?_, ?_, ?_⟩, ?_, ?_⟩
    · apply (instanceDeclarations_pairwise supers).imp_of_mem
      intro e d he hd h
      have he := hinst he
      have hd := hinst hd
      unfold Declaration.Before
      grind
    · apply (declarationsOf_pairwise _ _).imp_of_mem
      intro e d he hd h
      have he := mem_declarationsOf he
      have hd := mem_declarationsOf hd
      unfold Declaration.Before
      grind
    · intro e he d hd
      have he := hinst he
      have hd := mem_declarationsOf hd
      unfold Declaration.Before
      grind
    · apply ((declarations_pairwise supers).filter _).imp_of_mem
      intro e d he hd h
      have he := hstat he
      have hd := hstat hd
      unfold Declaration.Before
      grind
    · intro e he d hd
      have hd := hstat hd
      unfold Declaration.Before
      rcases List.mem_append.mp he with he | he
      · have he := hinst he
        grind
      · have he := mem_declarationsOf he
        grind

/-- The first field of a name is the nearest one with the descriptor exactly when no other field of
the name is in its way. -/
theorem searchOrder_find?_iff (files : List Class) (name descriptor : String) :
    (searchOrder files).find? (fun d => named name d.field) = nearest files name descriptor ↔
      Unobstructed files name descriptor := by
  have hord := searchOrder_pairwise files
  constructor
  · intro h e he hname
    cases hn : nearest files name descriptor with
    | none =>
      rw [hn, List.find?_eq_none] at h
      exact absurd (beq_iff_eq.mpr hname) (h e (mem_searchOrder.mpr he))
    | some d =>
      rw [hn, find?_ordered hord fun _ _ => Declaration.Before.asymm] at h
      exact ⟨d, rfl, h.2.2 e (mem_searchOrder.mpr he) (beq_iff_eq.mpr hname)⟩
  · intro h
    cases hn : nearest files name descriptor with
    | none =>
      rw [List.find?_eq_none]
      intro e he hname
      obtain ⟨d, hd, _⟩ := h e (mem_searchOrder.mp he) (beq_iff_eq.mp hname)
      rw [hn] at hd
      cases hd
    | some d =>
      rw [find?_ordered hord fun _ _ => Declaration.Before.asymm]
      have hmem := List.mem_of_find?_eq_some hn
      have hpass := List.find?_some hn
      rw [isField, Bool.and_eq_true] at hpass
      refine ⟨mem_searchOrder.mpr hmem, hpass.1, ?_⟩
      intro e he hname
      obtain ⟨d', hd', hbefore⟩ := h e (mem_searchOrder.mp he) (beq_iff_eq.mp hname)
      rw [hn] at hd'
      cases hd'
      exact hbefore

/-- The tables that the loop of `get_field_or_resolve` goes through. -/
def searched : List Class → List Declaration
  | [] => []
  | cls :: supers => tableDeclarations (cls :: supers) ++ searched supers

/-- Above a class whose table has no match, only static fields are left to find. -/
theorem searched_find?_static {test : JVMField → Bool} (hinst : ∀ d ∈ tableDeclarations files,
      d.field.isStatic = false → test d.field = false) :
    (searched files).find? (fun d => test d.field) =
      ((declarations files).filter fun d => d.field.isStatic).find? fun d => test d.field := by
  induction files with
  | nil => rfl
  | cons cls supers ih =>
    have hsup : ∀ d ∈ tableDeclarations supers, d.field.isStatic = false →
      test d.field = false := by
      intro d hd hs
      refine hinst d (List.mem_append_left _ (List.mem_filter.mpr ⟨hd, ?_⟩)) hs
      rw [hs]
      rfl
    have hinh : ((tableDeclarations supers).filter fun d => !d.field.isStatic).find?
        (fun d => test d.field) = none := by
      rw [List.find?_eq_none]
      intro d hd
      obtain ⟨hmem, hs⟩ := List.mem_filter.mp hd
      rw [hsup d hmem (by simpa using hs)]
      exact Bool.false_ne_true
    have hown : (declarationsOf supers.length cls.fields).find? (fun d => test d.field) =
        ((declarationsOf supers.length cls.fields).filter fun d => d.field.isStatic).find?
          fun d => test d.field := by
      rw [List.find?_filter]
      apply List.find?_congr
      intro d hd
      cases hs : d.field.isStatic with
      | true => simp
      | false => simpa using hinst d (List.mem_append_right _ hd) hs
    rw [searched, declarations, tableDeclarations, List.filter_append, List.find?_append,
      List.find?_append, List.find?_append, hinh, Option.none_or, hown, ih hsup]

theorem searched_eq (files : List Class) :
    searched files = tableDeclarations files ++ searched files.tail := by
  cases files <;> rfl

/-- Where searches by name alone find the nearest field, a field in the table that has the
descriptor too is the nearest one. -/
theorem nearest_of_table
    (hnear : (searched files).find? (fun d => named name d.field) = nearest files name descriptor)
    (hd : (tableDeclarations files).find? (fun d => isField name descriptor d.field) = some d) :
    nearest files name descriptor = some d := by
  have himp (d : Declaration) (h : isField name descriptor d.field = true) :
      named name d.field = true := (Bool.and_eq_true _ _ ▸ h).1
  have hpass := List.find?_some hd
  have hname := himp d hpass
  rw [searched_eq, List.find?_append] at hnear
  cases htable : (tableDeclarations files).find? fun d => named name d.field with
  | none =>
    rw [List.find?_eq_none] at htable
    exact absurd hname (htable d (List.mem_of_find?_eq_some hd))
  | some d₁ =>
    rw [htable, Option.some_or] at hnear
    have hfield := List.find?_some hnear.symm
    rw [find?_narrow htable hfield himp] at hd
    rw [← hnear, hd]

theorem searched_find? (test : JVMField → Bool) (files : List Class) :
    (searched files).find? (fun d => test d.field) =
      (searchOrder files).find? fun d => test d.field := by
  cases files with
  | nil => rfl
  | cons cls supers =>
    rw [searched, searchOrder, List.find?_append, List.find?_append]
    cases ht : (tableDeclarations (cls :: supers)).find? fun d => test d.field with
    | some d => rfl
    | none =>
      rw [Option.none_or, Option.none_or]
      apply searched_find?_static
      intro d hd hs
      rw [List.find?_eq_none] at ht
      have hmem : d ∈ tableDeclarations (cls :: supers) := by
        refine List.mem_append_left _ (List.mem_filter.mpr ⟨hd, ?_⟩)
        rw [hs]
        rfl
      simpa using ht d hmem

/-- What of a field decides whether it is found and whether it is inherited. -/
def VMField.found (f : VMField) : JVMField × Bool := (f.field, f.objOff.isSome)

def Declaration.found (d : Declaration) : JVMField × Bool := (d.field, !d.field.isStatic)

/-- The table holds a field for each declaration. -/
def VMClass.Tabled (v : VMClass) (files : List Class) : Prop :=
  v.fields.map VMField.found = (tableDeclarations files).map Declaration.found

theorem inheritFields_instances (h : VMClass.inheritFields p off supe = .ok (off', fields)) :
    fields = instances supe := by
  induction supe generalizing off off' fields with
  | nil =>
    cases h
    rfl
  | cons f supe ih =>
    rw [VMClass.inheritFields] at h
    cases hd : f.data with
    | static slots =>
      rw [hd] at h
      rw [instances_static hd]
      exact ih h
    | normal o =>
      rw [hd] at h
      obtain ⟨_, _, h⟩ := exceptBind_ok h
      obtain ⟨⟨off'', rest⟩, hrest, h⟩ := exceptBind_ok h
      cases h
      rw [instances_normal hd, ← ih hrest, ← hd]

theorem ownFields_found (h : VMClass.ownFields p idx off decls = .ok fields) :
    fields.map VMField.found = decls.map fun f => (f, !f.isStatic) := by
  induction decls generalizing idx off fields with
  | nil =>
    cases h
    rfl
  | cons f decls ih =>
    rw [VMClass.ownFields] at h
    cases hs : f.isStatic with
    | true =>
      rw [if_pos hs] at h
      obtain ⟨rest, hrest, h⟩ := exceptBind_ok h
      cases h
      rw [List.map_cons, List.map_cons, ih hrest, hs]
      rfl
    | false =>
      rw [hs, if_neg Bool.false_ne_true] at h
      obtain ⟨nextOff, _, h⟩ := exceptBind_ok h
      obtain ⟨rest, hrest, h⟩ := exceptBind_ok h
      cases h
      rw [List.map_cons, List.map_cons, ih hrest, hs]
      rfl

theorem create_tabled (hs : (supeFields superClass).map VMField.found =
      (tableDeclarations supers).map Declaration.found)
    (h : VMClass.create p cls superClass = .ok v) : v.Tabled (cls :: supers) := by
  obtain ⟨currOff, inherited, own, hv⟩ := create_parts h
  have hinh : (instances (supeFields superClass)).map VMField.found =
      ((tableDeclarations supers).filter fun d => !d.field.isStatic).map Declaration.found := by
    have hf := congrArg (List.filter Prod.snd) hs
    rw [List.filter_map, List.filter_map] at hf
    exact hf
  have hown : (declarationsOf supers.length cls.fields).map Declaration.found =
      cls.fields.map fun f => (f, !f.isStatic) := by
    apply List.ext_getElem?
    intro i
    simp only [declarationsOf, List.getElem?_map, List.getElem?_mapIdx]
    cases cls.fields[i]? <;> rfl
  rw [VMClass.Tabled, hv.fields, inheritFields_instances hv.inherit, List.map_append,
    ownFields_found hv.declare, hinh, tableDeclarations, List.map_append, hown]

theorem VMClass.SameLayout.tabled {s s' : VMClass} (h : s'.SameLayout s) :
    s'.Tabled files ↔ s.Tabled files := by
  have hfound : s'.fields.map VMField.found = s.fields.map VMField.found := by
    have hm := congrArg (List.map fun l => (l.2.2, l.2.1.isSome)) h.fields
    rwa [List.map_map, List.map_map] at hm
  rw [VMClass.Tabled, VMClass.Tabled, hfound]

/-- A class of the table and its superclasses were made from these class files, the class's own
first. -/
inductive ClassTable.Lineage (p : Profile) (t : ClassTable) : List Class → ClassRef → Prop
  | object (hl : (t.get c).SameLayout .javaLangObject) : Lineage p t [] c
  | root (h : VMClass.create p cls none = .ok v) (hl : (t.get c).SameLayout v) :
      Lineage p t [cls] c
  | extend (hs : Lineage p t supers s) (hlt : s < c) (hsl : (t.get s).SameLayout s')
      (h : VMClass.create p cls (some (s, s')) = .ok v) (hl : (t.get c).SameLayout v) :
      Lineage p t (cls :: supers) c

namespace ClassTable

def superOf (t : ClassTable) (c : ClassRef) : Option ClassRef := (t.get c).superClass

theorem Lineage.tabled (h : Lineage p t files c) : (t.get c).Tabled files := by
  induction h with
  | object hl => exact hl.tabled.mpr rfl
  | root h hl => exact hl.tabled.mpr (create_tabled rfl h)
  | @extend supers s c s' cls v hs hlt hsl h hl ih =>
    have hsup : (supeFields (some (s, s'))).map VMField.found =
        (tableDeclarations supers).map Declaration.found := hsl.tabled.mp ih
    exact hl.tabled.mpr (create_tabled hsup h)

theorem Lineage.superOf_lt (h : Lineage p t files c) (hs : t.superOf c = some s) :
    s < c ∧ Lineage p t files.tail s := by
  cases h with
  | object hl =>
    rw [superOf, hl.superClass] at hs
    cases hs
  | root h hl =>
    obtain ⟨_, _, _, hv⟩ := create_parts h
    rw [superOf, hl.superClass, hv.superClass] at hs
    cases hs
  | extend hsup hlt _ h hl =>
    obtain ⟨_, _, _, hv⟩ := create_parts h
    rw [superOf, hl.superClass, hv.superClass] at hs
    cases hs
    exact ⟨hlt, hsup⟩

theorem Lineage.superOf_none (h : Lineage p t files c) (hs : t.superOf c = none) :
    files.tail = [] := by
  cases h with
  | object => rfl
  | root => rfl
  | extend hsup hlt _ h hl =>
    obtain ⟨_, _, _, hv⟩ := create_parts h
    rw [superOf, hl.superClass, hv.superClass] at hs
    cases hs

/-- So many superclasses up is a class made from the rest of the class files, and classes further up
were made earlier. -/
theorem Lineage.chain (h : Lineage p t files c) (hk : Chain.chain t.superOf c k = some r) :
    Lineage p t (files.drop k) r ∧ r + k ≤ c := by
  induction k generalizing r with
  | zero =>
    cases hk
    exact ⟨h, Nat.le_refl _⟩
  | succ k ih =>
    obtain ⟨s, hs, hr⟩ := Option.bind_eq_some_iff.mp hk
    obtain ⟨hl, hle⟩ := ih hs
    obtain ⟨hlt, hl'⟩ := hl.superOf_lt hr
    rw [← List.drop_one, List.drop_drop] at hl'
    refine ⟨hl', Nat.le_trans ?_ hle⟩
    rw [Nat.add_comm k 1, ← Nat.add_assoc]
    exact Nat.add_le_add_right hlt k

theorem Lineage.chain_inj (h : Lineage p t files c) (hk : Chain.chain t.superOf c k = some r)
    (hn : Chain.chain t.superOf c n = some r) : k = n := by
  have key {k n : Nat} (hlt : k < n) (hk : Chain.chain t.superOf c k = some r)
      (hn : Chain.chain t.superOf c n = some r) : False := by
    have hrest := chain_add hk (n - k)
    rw [Nat.add_sub_cancel' (Nat.le_of_lt hlt), hn] at hrest
    have hle := ((h.chain hk).1.chain hrest.symm).2
    exact Nat.not_lt_of_le hle (Nat.lt_add_of_pos_right (Nat.sub_pos_of_lt hlt))
  rcases Nat.lt_trichotomy k n with hlt | heq | hgt
  · exact (key hlt hk hn).elim
  · exact heq
  · exact (key hgt hn hk).elim

end ClassTable

/-- The first field of the table that passes the test is that of the declaration. -/
def VMClass.Selects (v : VMClass) (files : List Class) (test : JVMField → Bool) (f : VMField)
    (d : Declaration) : Prop :=
  ∃ i, FirstAt (fun f : VMField => test f.field) v.fields i f ∧
    (tableDeclarations files)[i]? = some d

namespace VMClass

theorem Tabled.fields {v : VMClass} (h : v.Tabled files) :
    v.fields.map VMField.field = (tableDeclarations files).map Declaration.field := by
  have hm := congrArg (List.map Prod.fst) h
  rwa [List.map_map, List.map_map] at hm

theorem Tabled.selects {v : VMClass} (h : v.Tabled files) (test : JVMField → Bool)
    (hf : v.fields.find? (fun f => test f.field) = some f) :
    ∃ d, v.Selects files test f d ∧
      (tableDeclarations files).find? (fun d => test d.field) = some d := by
  obtain ⟨i, hi⟩ := find?_firstAt hf
  obtain ⟨d, hd, _⟩ := hi.aligned h.fields
  exact ⟨d, ⟨i, hi, hd.here⟩, hd.find?⟩

theorem Tabled.find?_none {v : VMClass} (h : v.Tabled files) (test : JVMField → Bool)
    (hf : v.fields.find? (fun f => test f.field) = none) :
    (tableDeclarations files).find? (fun d => test d.field) = none := by
  have hm := congrArg (List.find? test) h.fields
  rw [List.find?_map, List.find?_map] at hm
  change (v.fields.find? fun f => test f.field).map _ = _ at hm
  rw [hf] at hm
  exact Option.map_eq_none_iff.mp hm.symm

theorem Selects.unique {v : VMClass} (h : v.Selects files test f d)
    (h' : v.Selects files test f' d') : d = d' := by
  obtain ⟨i, hi, hd⟩ := h
  obtain ⟨j, hj, hd'⟩ := h'
  rw [hi.unique hj, hd'] at hd
  exact (Option.some.inj hd).symm

end VMClass

theorem VMClass.Tabled.pick {v : VMClass} (h : v.Tabled files) (name : String) :
    (v.fieldByName name = none ∧
      (tableDeclarations files).find? (fun d => named name d.field) = none) ∨
    ∃ f d, v.fieldByName name = some f ∧ v.Selects files (named name) f d ∧
      (tableDeclarations files).find? (fun d => named name d.field) = some d := by
  cases hf : v.fieldByName name with
  | none => exact .inl ⟨rfl, h.find?_none (named name) hf⟩
  | some f =>
    obtain ⟨d, hs, hd⟩ := h.selects (named name) hf
    exact .inr ⟨f, d, rfl, hs, hd⟩

theorem ClassTable.Lineage.findUp (h : Lineage p t files c) (hc : c < depth) (name : String) :
    ((searched files).find? (fun d => named name d.field) = none ∧
      t.findUp (fun v => v.fieldByName name) depth c = none) ∨
    ∃ d k r f, (searched files).find? (fun d => named name d.field) = some d ∧
      Chain.chain t.superOf c k = some r ∧
      t.findUp (fun v => v.fieldByName name) depth c = some (r, f) ∧
      (t.get r).Selects (files.drop k) (named name) f d := by
  induction depth generalizing files c with
  | zero => exact absurd hc (Nat.not_lt_zero _)
  | succ depth ih =>
    rw [searched_eq, List.find?_append, ClassTable.findUp]
    rcases h.tabled.pick name with ⟨hf, hd⟩ | ⟨f, d, hf, hs, hd⟩
    · rw [hf, hd, Option.none_or]
      cases hsup : (t.get c).superClass with
      | none =>
        rw [h.superOf_none hsup]
        exact .inl ⟨rfl, rfl⟩
      | some s =>
        obtain ⟨hlt, hl⟩ := h.superOf_lt hsup
        have hs := Nat.lt_of_lt_of_le hlt (Nat.le_of_lt_succ hc)
        rcases ih hl hs with ⟨hn, hup⟩ | ⟨d, k, r, f, hd, hk, hup, hs⟩
        · exact .inl ⟨hn, hup⟩
        · refine .inr ⟨d, k + 1, r, f, hd, ?_, hup, ?_⟩
          · rw [chain_succ, superOf, hsup]
            exact hk
          · rwa [← List.drop_one, List.drop_drop, Nat.add_comm] at hs
    · rw [hf, hd]
      exact .inr ⟨d, 0, c, f, rfl, rfl, rfl, hs⟩

/-- Whether a reference to a field of the class `c` is resolved already when the constant pool of
`c` is made, or later through the entry `refIdx` of the class `this`: what is selected is the
nearest field with the name and the descriptor, and without one the later resolution fails. -/
structure SelectsNearest (t : ClassTable) (files : List Class) (c this : ClassRef)
    (refIdx : UInt16) (name descriptor : String) : Prop where
  eager : ∀ f,
    eagerField (t.get c).name (t.get c).fields ⟨(t.get c).name, name, descriptor⟩ = some f →
    ∃ d, nearest files name descriptor = some d ∧
      (t.get c).Selects files (isField name descriptor) f d
  lazily : ∀ d, nearest files name descriptor = some d → ∃ k r f t',
    Chain.chain t.superOf c k = some r ∧ (t.get r).Selects (files.drop k) (named name) f d ∧
      getFieldOrResolve this refIdx t = .ok (r, f.off) t'
  missing : nearest files name descriptor = none →
    ∃ t', getFieldOrResolve this refIdx t = .error (.error (.noSuchFieldInClass name)) t'

section
variable {t t₁ : ClassTable}

theorem getFieldOrResolve_search
    (he : (t.get this).constantPool.getEntry refIdx = some (.filedRef classIdx nameAndDesc none))
    (hn : (t.get this).constantPool.getNameAndType nameAndDesc t = .ok (some (name, descriptor)) t)
    (hc : getClassOrLoadByRef this classIdx t = .ok c t₁) :
    (∀ r f, t.searchUp (fun v => v.fieldByName name) c = some (r, f) →
      ∃ t', getFieldOrResolve this refIdx t = .ok (r, f.off) t') ∧
    (t.searchUp (fun v => v.fieldByName name) c = none →
      ∃ t', getFieldOrResolve this refIdx t = .error (.error (.noSuchFieldInClass name)) t') := by
  have hup : t₁.searchUp (fun v => v.fieldByName name) c =
      t.searchUp (fun v => v.fieldByName name) c := by
    apply ClassTable.findUp_congr
    · intro r
      rw [VMClass.fieldByName, VMClass.fieldByName, getClassOrLoadByRef_fields hc]
    · exact getClassOrLoadByRef_keeps (g := VMClass.superClass) (fun _ _ => rfl) hc
  have hrun : getFieldOrResolve this refIdx t = (do
      let found ← okOr (.noSuchFieldInClass name)
        (t₁.searchUp (fun v => v.fieldByName name) c)
      set (t₁.setEntry ⟨this, refIdx⟩
        (.filedRef classIdx nameAndDesc (some (found.1, found.2.off))))
      pure (found.1, found.2.off) : VM ClassTable (ClassRef × FieldOff)) t₁ := by
    change (okOr _ ((t.get this).constantPool.getEntry refIdx) >>= _) t = _
    rw [he]
    change ((t.get this).constantPool.getNameAndType nameAndDesc >>= _) t = _
    rw [bind_eq _ hn]
    change (getClassOrLoadByRef this classIdx >>= _) t = _
    rw [bind_eq _ hc]
    rfl
  rw [hrun, hup]
  constructor
  · intro r f hf
    rw [hf]
    exact ⟨_, rfl⟩
  · intro hf
    rw [hf]
    exact ⟨_, rfl⟩

/-- A reference to a field selects the nearest field with the name and the descriptor exactly when
no other field of the name is in the way of searches. -/
theorem selectsNearest_iff (h : t.Lineage p files c)
    (he : (t.get this).constantPool.getEntry refIdx = some (.filedRef classIdx nameAndDesc none))
    (hn : (t.get this).constantPool.getNameAndType nameAndDesc t = .ok (some (name, descriptor)) t)
    (hc : getClassOrLoadByRef this classIdx t = .ok c t₁) :
    SelectsNearest t files c this refIdx name descriptor ↔
      Unobstructed files name descriptor := by
  obtain ⟨hfound, hnone⟩ := getFieldOrResolve_search he hn hc
  rw [← searchOrder_find?_iff, ← searched_find? (named name)]
  have hup := h.findUp (Nat.lt_succ_self c) name
  constructor
  · intro hs
    rcases hup with ⟨hd, hup⟩ | ⟨d, k, r, f, hd, hk, hup, hsel⟩
    · cases hnear : nearest files name descriptor with
      | none => rw [hd]
      | some d =>
        obtain ⟨_, _, _, _, _, _, hrun⟩ := hs.lazily d hnear
        obtain ⟨_, hrun'⟩ := hnone hup
        cases hrun.symm.trans hrun'
    · obtain ⟨_, hrun⟩ := hfound r f hup
      cases hnear : nearest files name descriptor with
      | none =>
        obtain ⟨_, hrun'⟩ := hs.missing hnear
        cases hrun.symm.trans hrun'
      | some d' =>
        obtain ⟨k', r', f', _, hk', hsel', hrun'⟩ := hs.lazily d' hnear
        have hres := hrun.symm.trans hrun'
        injection hres with hres
        obtain ⟨rfl, _⟩ := Prod.mk.inj hres
        rw [h.chain_inj hk hk'] at hsel
        rw [hd, hsel.unique hsel']
  · intro hnear
    refine ⟨?_, ?_, ?_⟩
    · intro f hf
      rw [eagerField, if_pos rfl] at hf
      obtain ⟨d, hsel, hd⟩ := h.tabled.selects (isField name descriptor) hf
      exact ⟨d, nearest_of_table hnear hd, hsel⟩
    · intro d hd
      rcases hup with ⟨hd', _⟩ | ⟨d', k, r, f, hd', hk, hup, hsel⟩
      · rw [← hnear, hd'] at hd
        cases hd
      · rw [← hnear, hd'] at hd
        cases hd
        obtain ⟨t', hrun⟩ := hfound r f hup
        exact ⟨k, r, f, t', hk, hsel, hrun⟩
    · intro hd
      rcases hup with ⟨_, hup⟩ | ⟨d', k, r, f, hd', _⟩
      · exact hnone hup
      · rw [hnear, hd] at hd'
        cases hd'

end

def readsX (className : String) : VMClass where
  name := "Main"
  superClass := some 0
  vtable := []
  staticVtable := []
  fields := []
  constantPool := [.unusable, .utf8 className, .class 1 none, .utf8 "x", .utf8 "I",
    .nameAndType 3 4, .filedRef 2 5 none]

/-- `java/lang/Object`, a class `Point` with a field `x`, and a class that extends it with these
fields, together with one that reads its field `x`. -/
def pointTable (className : String) (names : List String) (fields : List VMField) : ClassTable where
  classes := [.javaLangObject,
    intClass (some 0) "Point" "java/lang/Object" ["x"] [intField 0 0 "x"],
    intClass (some 1) className "Point" names fields, readsX className]
  loaded := [(className, 2)]

def pointFiles (className : String) (names : List String) : List Class :=
  [intFields className "Point" names, intFields "Point" "java/lang/Object" ["x"]]

theorem pointTable_point (className : String) (names : List String) (fields : List VMField) :
    (pointTable className names fields).Lineage ⟨true⟩
      [intFields "Point" "java/lang/Object" ["x"]] 1 :=
  .extend (.object (.refl _)) Nat.one_pos (.refl _) rfl (.refl _)

/-- The reference to the field `x` of a class that declares it selects the `x` of its superclass. -/
theorem hidden_field_selected :
    (pointTable "Sub" ["x"] [intField 0 0 "x", intField 0 1 "x"]).Lineage ⟨true⟩
      (pointFiles "Sub" ["x"]) 2 ∧
    (nearest (pointFiles "Sub" ["x"]) "x" "I").map Declaration.depth = some 1 ∧
    (∃ d, (intClass (some 1) "Sub" "Point" ["x"] [intField 0 0 "x", intField 0 1 "x"]).Selects
      (pointFiles "Sub" ["x"]) (isField "x" "I") (intField 0 0 "x") d ∧ d.depth = 0) ∧
    ¬ SelectsNearest (pointTable "Sub" ["x"] [intField 0 0 "x", intField 0 1 "x"])
      (pointFiles "Sub" ["x"]) 2 3 6 "x" "I" := by
  have hsel : (intClass (some 1) "Sub" "Point" ["x"] [intField 0 0 "x", intField 0 1 "x"]).Selects
      (pointFiles "Sub" ["x"]) (isField "x" "I") (intField 0 0 "x")
      ⟨0, 0, (intField 0 0 "x").field⟩ :=
    ⟨0, .zero rfl, rfl⟩
  refine ⟨.extend (pointTable_point ..) (Nat.lt_succ_self 1) (.refl _) rfl (.refl _), rfl,
    ⟨_, hsel, rfl⟩, ?_⟩
  intro h
  obtain ⟨d, hd, hsel'⟩ := h.eager (intField 0 0 "x") rfl
  rw [← hsel.unique hsel'] at hd
  exact absurd (congrArg (Option.map Declaration.depth) hd) (by decide)

theorem marker_x_selected :
    SelectsNearest (pointTable "Marker" [] [intField 0 0 "x"]) (pointFiles "Marker" []) 2 3 6 "x"
      "I" := by
  refine (selectsNearest_iff (p := ⟨true⟩) (c := 2)
    (.extend (pointTable_point ..) (Nat.lt_succ_self 1)
    (.refl _) rfl (.refl _)) rfl rfl rfl).mpr ?_
  intro e he hname
  have heq : e = ⟨0, 0, (intField 0 0 "x").field⟩ := List.mem_singleton.mp he
  refine ⟨e, by rw [heq]; rfl, ?_⟩
  exact fun hbefore => hbefore.asymm hbefore

end Janadinite
