import Janadinite.Vm.Shapes

namespace Janadinite
open Hoare ClassTable
set_option autoImplicit true

/-- What of a class is settled when it is made. -/
structure ClassDefinition where
  name : String
  vtable : List VMMethod
  staticVtable : List VMMethod
  fields : List (FieldOff × Option UInt32 × JVMField)
  constantPool : VMConstantPool

def VMClass.definition (v : VMClass) : ClassDefinition where
  name := v.name
  vtable := v.vtable
  staticVtable := v.staticVtable
  fields := v.fields.map VMField.layout
  constantPool := v.constantPool.map VMConstantPoolEntry.unresolved

/-- A class and its superclasses, the nearest first, each under the name that it is loaded by. -/
abbrev Pedigree := List (String × ClassDefinition)

/-- What the class files say that is to be loaded by a name. The superclass may have been in use
before the class is made. -/
inductive ClassPath.Defines (p : Profile) (path : ClassPath) : String → Pedigree → Prop
  | object : Defines p path VMClass.javaLangObject.name
      [(VMClass.javaLangObject.name, VMClass.javaLangObject.definition)]
  | root (hn : name ≠ VMClass.javaLangObject.name) (hp : path name = some (.ok cls))
      (hs : cls.superName = "") (hv : VMClass.create p cls none = .ok v) :
      Defines p path name [(name, v.definition)]
  | extend (hn : name ≠ VMClass.javaLangObject.name) (hp : path name = some (.ok cls))
      (hs : cls.superName ≠ "") (h : Defines p path cls.superName l)
      (hd : l.head? = some (superName, s.definition))
      (hv : VMClass.create p cls (some (r, s)) = .ok v) :
      Defines p path name ((name, v.definition) :: l)

theorem inheritFields_congr {fields fields' : List VMField}
    (h : fields'.map VMField.layout = fields.map VMField.layout) (off : UInt32) :
    VMClass.inheritFields p off fields' = VMClass.inheritFields p off fields := by
  induction fields generalizing fields' off with
  | nil =>
    cases fields' with
    | nil => rfl
    | cons f' fields' => cases h
  | cons f fields ih =>
    cases fields' with
    | nil => cases h
    | cons f' fields' =>
      rw [List.map_cons, List.map_cons, List.cons.injEq] at h
      obtain ⟨hf, h⟩ := h
      obtain ⟨idx, data, field⟩ := f
      obtain ⟨idx', data', field'⟩ := f'
      cases data with
      | static slots =>
        cases data' with
        | static slots' =>
          cases hf
          exact ih h off
        | normal o' => cases hf
      | normal o =>
        cases data' with
        | static slots' => cases hf
        | normal o' =>
          cases hf
          simp only [VMClass.inheritFields, ih h]

/-- A class is made from the definition of its superclass. -/
theorem create_congr {s s' : VMClass} (hd : s'.definition = s.definition) (r r' : ClassRef) :
    VMClass.create p cls (some (r', s')) =
      (VMClass.create p cls (some (r, s))).map fun v => { v with superClass := some r' } := by
  have hvtable : s'.vtable = s.vtable := congrArg ClassDefinition.vtable hd
  have hfields (off : UInt32) : VMClass.inheritFields p off s'.fields =
      VMClass.inheritFields p off s.fields :=
    inheritFields_congr (congrArg ClassDefinition.fields hd) off
  simp only [VMClass.create, Option.map_some, Option.getD_some, hvtable, hfields]
  cases VMClass.inheritFields p 0 s.fields with
  | error e => rfl
  | ok inherited =>
    change (VMClass.ownFields p 0 inherited.1 cls.fields >>= _) =
      (VMClass.ownFields p 0 inherited.1 cls.fields >>= _).map _
    cases VMClass.ownFields p 0 inherited.1 cls.fields with
    | error e => rfl
    | ok own =>
      change (VMConstantPool.fromUnresolved _ _ _ _ >>= _) =
        (VMConstantPool.fromUnresolved _ _ _ _ >>= _).map _
      cases VMConstantPool.fromUnresolved cls.constantPool cls.thisName
        ((cls.methods.foldl VMClass.addMethod (s.vtable, [])).1 ++
          (cls.methods.foldl VMClass.addMethod (s.vtable, [])).2) (inherited.2 ++ own) with
      | error e => rfl
      | ok pool => rfl

theorem create_definition {s s' : VMClass} (hd : s'.definition = s.definition)
    (hv : VMClass.create p cls (some (r, s)) = .ok v)
    (hv' : VMClass.create p cls (some (r', s')) = .ok v') : v'.definition = v.definition := by
  rw [create_congr hd r r', hv] at hv'
  cases hv'
  rfl

namespace ClassPath.Defines
variable {p : Profile} {path : ClassPath}

theorem head (h : path.Defines p name l) : ∃ d supers, l = (name, d) :: supers := by
  cases h with
  | object => exact ⟨_, _, rfl⟩
  | root => exact ⟨_, _, rfl⟩
  | extend => exact ⟨_, _, rfl⟩

/-- The class files settle what a class is. -/
theorem unique (h : path.Defines p name l) (h' : path.Defines p name l') : l' = l := by
  induction h generalizing l' with
  | object =>
    cases h' with
    | object => rfl
    | root hn | extend hn => exact absurd rfl hn
  | root hn hp hs hv =>
    cases h' with
    | object => exact absurd rfl hn
    | root hn' hp' hs' hv' =>
      cases hp.symm.trans hp'
      cases hv.symm.trans hv'
      rfl
    | extend hn' hp' hs' =>
      cases hp.symm.trans hp'
      exact absurd hs hs'
  | extend hn hp hs h hd hv ih =>
    cases h' with
    | object => exact absurd rfl hn
    | root hn' hp' hs' =>
      cases hp.symm.trans hp'
      exact absurd hs' hs
    | extend hn' hp' hs' h' hd' hv' =>
      cases hp.symm.trans hp'
      obtain rfl := ih h'
      have hsame := Option.some.inj (hd.symm.trans hd')
      rw [create_definition (congrArg Prod.snd hsame).symm hv hv']

end ClassPath.Defines

namespace ClassTable

/-- A class of the table with its superclasses. -/
inductive Ancestry (t : ClassTable) : ClassRef → Pedigree → Prop
  | root (hl : t.lookup name = some c) (hd : (t.get c).definition = d)
      (hs : (t.get c).superClass = none) : Ancestry t c [(name, d)]
  | extend (hl : t.lookup name = some c) (hd : (t.get c).definition = d)
      (hs : (t.get c).superClass = some s) (h : Ancestry t s l) : Ancestry t c ((name, d) :: l)

/-- Every class is what the class files say that is loaded by its name. -/
structure Defined (p : Profile) (path : ClassPath) (t : ClassTable) : Prop where
  object : t.lookup VMClass.javaLangObject.name ≠ none
  known : ∀ name c, t.lookup name = some c → ∃ l, path.Defines p name l ∧ t.Ancestry c l

def SuperOf (t : ClassTable) (cls : Class) : Option ClassRef → Prop
  | none => cls.superName = ""
  | some s => cls.superName ≠ "" ∧ t.lookup cls.superName = some s

section
variable {t t' : ClassTable}

theorem Ancestry.congr (h : t.Ancestry c l)
    (hl : ∀ name c, t.lookup name = some c → t'.lookup name = some c)
    (hd : ∀ name c, t.lookup name = some c → (t'.get c).definition = (t.get c).definition)
    (hs : ∀ name c, t.lookup name = some c → (t'.get c).superClass = (t.get c).superClass) :
    t'.Ancestry c l := by
  induction h with
  | root hname hdef hsuper =>
    exact .root (hl _ _ hname) ((hd _ _ hname).trans hdef) ((hs _ _ hname).trans hsuper)
  | extend hname hdef hsuper _ ih =>
    exact .extend (hl _ _ hname) ((hd _ _ hname).trans hdef) ((hs _ _ hname).trans hsuper) ih

theorem Ancestry.head (h : t.Ancestry c l) : ∃ name supers,
    l = (name, (t.get c).definition) :: supers := by
  cases h with
  | root _ hd | extend _ hd => exact ⟨_, _, by rw [hd]⟩

theorem Uses.definition (h : t.Uses t') (c : ClassRef) :
    (t'.get c).definition = (t.get c).definition := by
  have hk := h.keeps
  have hname : (t'.get c).name = (t.get c).name := by
    apply h.unchanged (g := VMClass.name)
    · exact fun _ _ => rfl
    · exact fun _ _ _ _ => rfl
  rw [VMClass.definition, VMClass.definition, hname, hk.vtable, hk.staticVtable, hk.pool,
    h.fieldLayout]

theorem Uses.lookup (h : t.Uses t') (name : String) : t'.lookup name = t.lookup name :=
  congrArg (List.lookup name) h.keeps.loaded

theorem Ancestry.uses (h : t.Ancestry c l) (hu : t.Uses t') : t'.Ancestry c l := by
  apply h.congr
  · exact fun name c hl => (hu.lookup name).trans hl
  · exact fun _ c _ => hu.definition c
  · exact fun _ c _ => hu.superClass c

theorem Defined.uses (h : t.Defined p path) (hu : t.Uses t') : t'.Defined p path where
  object := by
    rw [hu.lookup]
    exact h.object
  known name c hl := by
    rw [hu.lookup] at hl
    obtain ⟨l, hl, ha⟩ := h.known name c hl
    exact ⟨l, hl, ha.uses hu⟩

theorem lookup_added (hnone : t.lookup name = none) (v : VMClass) {other : String} {c : ClassRef}
    (hl : t.lookup other = some c) :
    ClassTable.lookup ⟨t.classes ++ [v], (name, t.classes.length) :: t.loaded⟩ other = some c := by
  have hne : other ≠ name := by
    rintro rfl
    rw [hnone] at hl
    cases hl
  rw [ClassTable.lookup, List.lookup_cons, beq_false_of_ne hne]
  exact hl

theorem Ancestry.added (h : t.Ancestry c l) (hsound : t.Sound) (hnone : t.lookup name = none)
    (v : VMClass) :
    Ancestry ⟨t.classes ++ [v], (name, t.classes.length) :: t.loaded⟩ c l := by
  have hold (other : String) (c : ClassRef) (hl : t.lookup other = some c) :
      ClassTable.get ⟨t.classes ++ [v], (name, t.classes.length) :: t.loaded⟩ c = t.get c := by
    rw [get_added, if_neg (Nat.ne_of_lt (hsound.lookup other c hl))]
  apply h.congr
  · exact fun other c hl => lookup_added hnone v hl
  · exact fun other c hl => congrArg VMClass.definition (hold other c hl)
  · exact fun other c hl => congrArg VMClass.superClass (hold other c hl)

theorem lookup_added_self (t : ClassTable) (name : String) (v : VMClass) :
    ClassTable.lookup ⟨t.classes ++ [v], (name, t.classes.length) :: t.loaded⟩ name =
      some t.classes.length := by
  rw [ClassTable.lookup, List.lookup_cons, beq_self_eq_true]

theorem Defined.added {superClass : Option ClassRef} (h : t.Defined p path) (hsound : t.Sound)
    (hnone : t.lookup name = none) (hp : path name = some (.ok cls))
    (hs : t.SuperOf cls superClass)
    (hv : VMClass.create p cls (superClass.map fun c => (c, t.get c)) = .ok v) :
    Defined p path ⟨t.classes ++ [v], (name, t.classes.length) :: t.loaded⟩ := by
  have hne : name ≠ VMClass.javaLangObject.name := by
    rintro rfl
    exact h.object hnone
  obtain ⟨_, _, _, hparts⟩ := create_parts hv
  have hself := lookup_added_self t name v
  have hget : ClassTable.get ⟨t.classes ++ [v], (name, t.classes.length) :: t.loaded⟩
      t.classes.length = v := by
    rw [get_added, if_pos rfl]
  constructor
  · intro hl
    cases hobject : t.lookup VMClass.javaLangObject.name with
    | none => exact h.object hobject
    | some c => cases (lookup_added hnone v hobject).symm.trans hl
  · intro other c hl
    by_cases ho : other = name
    · subst ho
      cases hself.symm.trans hl
      have hd := congrArg VMClass.definition hget
      have hsuper := (congrArg VMClass.superClass hget).trans hparts.superClass
      cases superClass with
      | none => exact ⟨_, .root hne hp hs hv, .root hself hd hsuper⟩
      | some s =>
        obtain ⟨hnamed, hls⟩ := hs
        obtain ⟨l, hdef, ha⟩ := h.known _ s hls
        obtain ⟨superName, supers, hl⟩ := ha.head
        exact ⟨_, .extend hne hp hnamed hdef (congrArg List.head? hl) hv,
          .extend hself hd hsuper (ha.added hsound hnone v)⟩
    · have hold : t.lookup other = some c := by
        rw [ClassTable.lookup, List.lookup_cons, beq_false_of_ne ho] at hl
        exact hl
      obtain ⟨l, hdef, ha⟩ := h.known other c hold
      exact ⟨l, hdef, ha.added hsound hnone v⟩

theorem fromClassPath_defined : Defined p path .fromClassPath := by
  have hlookup : ClassTable.fromClassPath.lookup VMClass.javaLangObject.name = some 0 := rfl
  constructor
  · rw [hlookup]
    exact Option.some_ne_none 0
  · intro name c hl
    rw [ClassTable.lookup, fromClassPath, List.lookup_cons] at hl
    split at hl
    · rename_i hname
      cases hl
      cases beq_iff_eq.mp hname
      exact ⟨_, .object, .root hlookup rfl rfl⟩
    · cases hl

end

end ClassTable

end Janadinite
