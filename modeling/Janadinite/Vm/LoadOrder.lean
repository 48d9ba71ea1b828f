import Janadinite.Vm.Linking

namespace Janadinite
open Hoare Relation Runs ClassTable
set_option autoImplicit true

def ClassTable.Same (t t' : ClassTable) (c c' : ClassRef) : Prop :=
  ∃ name, t.lookup name = some c ∧ t'.lookup name = some c'

inductive ClassOrArray.Same (t t' : ClassTable) : ClassOrArray → ClassOrArray → Prop
  | class (h : t.Same t' c c') : Same t t' (.class c) (.class c')
  | primitiveArray : Same t t' (.primitiveArray n ty) (.primitiveArray n ty)
  | classArray (h : t.Same t' c c') : Same t t' (.classArray n c) (.classArray n c')

/-- Whenever two calls return, what they return is related. -/
def Agree (related : α → α → Prop) (r r' : EStateM.Result Stop ClassTable α) : Prop :=
  ∀ a s a' s', r = .ok a s → r' = .ok a' s' → related a a'

/-- Two classes, of two tables, are the same class: it is made in the same way, it has the same
superclass, and whatever its constant pool refers to is the same. -/
structure ClassTable.Alike (t t' : ClassTable) (c c' : ClassRef) : Prop where
  definition : (t'.get c').definition = (t.get c).definition
  superClass : Option.Rel (t.Same t') (t.get c).superClass (t'.get c').superClass
  classRef : ∀ index, Agree (t.Same t') (getClassOrLoadByRef c index t)
    (getClassOrLoadByRef c' index t')
  arrayRef : ∀ index, Agree (ClassOrArray.Same t t') (getClassOrArrayByRef c index t)
    (getClassOrArrayByRef c' index t')
  methodRef : ∀ index, Agree (fun x x' => t.Same t' x.1 x'.1 ∧ x.2 = x'.2)
    (getMethodOrResolve c index t) (getMethodOrResolve c' index t')
  fieldRef : ∀ index, Agree (fun x x' => t.Same t' x.1 x'.1 ∧ x.2 = x'.2)
    (getFieldOrResolve c index t) (getFieldOrResolve c' index t')

/-- The classes and what their cells hold are what the class files say. -/
structure ClassTable.Faithful (p : Profile) (path : ClassPath) (t : ClassTable) : Prop where
  sound : t.Sound
  defined : t.Defined p path
  determined : t.Determined p path

section
variable {t t' : ClassTable} {pool pool' : VMConstantPool}

theorem ClassTable.Ancestry.same (h : t.Ancestry c l) (h' : t'.Ancestry c' l) :
    t.Same t' c c' := by
  cases h with
  | root hl | extend hl =>
    cases h' with
    | root hl' | extend hl' => exact ⟨_, hl, hl'⟩

theorem ClassTable.Ancestry.superClass (h : t.Ancestry c l) (h' : t'.Ancestry c' l) :
    Option.Rel (t.Same t') (t.get c).superClass (t'.get c').superClass := by
  cases h with
  | root hl hd hs =>
    cases h' with
    | root hl' hd' hs' =>
      rw [hs, hs']
      exact .none
    | extend hl' hd' hs' h' =>
      obtain ⟨_, _, hnil⟩ := h'.head
      cases hnil
  | extend hl hd hs h =>
    cases h' with
    | root =>
      obtain ⟨_, _, hnil⟩ := h.head
      cases hnil
    | extend hl' hd' hs' h' =>
      rw [hs, hs']
      exact .some (h.same h')

theorem ClassTable.Ancestry.definition (h : t.Ancestry c l) (h' : t'.Ancestry c' l) :
    (t'.get c').definition = (t.get c).definition := by
  cases h with
  | root _ hd | extend _ hd =>
    cases h' with
    | root _ hd' | extend _ hd' => exact hd'.trans hd.symm

theorem entry_congr {index : UInt16}
    (hp : pool'.map VMConstantPoolEntry.unresolved = pool.map VMConstantPoolEntry.unresolved)
    (he : pool.getEntry index = some e) (he' : pool'.getEntry index = some e') :
    e'.unresolved = e.unresolved := by
  have hcell := congrArg (·[index.toNat]?) hp
  rw [VMConstantPool.getEntry] at he he'
  simpa only [List.getElem?_map, he, he', Option.map_some, Option.some.injEq] using hcell

/-- What a reference to a class or an array is resolved to. -/
inductive ArrayNamed (t : ClassTable) (pool : VMConstantPool) (index : UInt16) :
    ClassOrArray → Prop
  | class (he : pool.getEntry index = some (.class nameIdx resolved))
      (hn : pool.getUtf8 nameIdx = some name) (hl : t.lookup name = some c) :
      ArrayNamed t pool index (.class c)
  | primitiveArray (he : pool.getEntry index = some (.primitiveArray dimensions ty)) :
      ArrayNamed t pool index (.primitiveArray dimensions ty)
  | classArray (he : pool.getEntry index = some (.classArray descIdx dimensions resolved))
      (hd : pool.getUtf8 descIdx = some descriptor) (hn : arrayClassName descriptor = some name)
      (hl : t.lookup name = some c) : ArrayNamed t pool index (.classArray dimensions c)

theorem ArrayResolved.named (h : ArrayResolved t c index found s) (ht : t.CellsNamed) :
    ArrayNamed t (t.get c).constantPool index found := by
  cases h with
  | «class» he =>
    obtain ⟨name, hn, hl⟩ := ht _ _ _ he
    exact .class he hn hl
  | foundClass he hn hl => exact .class he hn hl
  | primitive he => exact .primitiveArray he
  | array he =>
    obtain ⟨descriptor, name, hd, hn, hl⟩ := ht _ _ _ he
    exact .classArray he hd hn hl
  | foundArray he hd hn hl => exact .classArray he hd hn hl

theorem ArrayNamed.same (h : ArrayNamed t pool index found) (h' : ArrayNamed t' pool' index found')
    (hp : pool'.map VMConstantPoolEntry.unresolved = pool.map VMConstantPoolEntry.unresolved) :
    ClassOrArray.Same t t' found found' := by
  have hutf8 := getUtf8_unresolved hp
  cases h with
  | «class» he hn hl =>
    cases h' with
    | «class» he' hn' hl' =>
      cases entry_congr hp he he'
      rw [hutf8] at hn'
      cases hn.symm.trans hn'
      exact .class ⟨_, hl, hl'⟩
    | primitiveArray he' | classArray he' => cases entry_congr hp he he'
  | primitiveArray he =>
    cases h' with
    | primitiveArray he' =>
      cases entry_congr hp he he'
      exact .primitiveArray
    | «class» he' | classArray he' => cases entry_congr hp he he'
  | classArray he hd hn hl =>
    cases h' with
    | classArray he' hd' hn' hl' =>
      cases entry_congr hp he he'
      rw [hutf8] at hd'
      cases hd.symm.trans hd'
      cases hn.symm.trans hn'
      exact .classArray ⟨_, hl, hl'⟩
    | «class» he' | primitiveArray he' => cases entry_congr hp he he'

/-- What a reference to a method or a field is resolved to: an own one, that the link step has
found, or what the class files say. -/
inductive MemberFound (p : Profile) (path : ClassPath) (t : ClassTable) (this : ClassRef)
    (own : α → VMConstantPoolEntry)
    (lazy : UInt16 → UInt16 → Option (ClassRef × α) → VMConstantPoolEntry)
    (pick : String → String → ClassDefinition → Option α) (index : UInt16) :
    ClassRef × α → Prop
  | own (he : t.entryAt ⟨this, index⟩ = some (own a)) :
      MemberFound p path t this own lazy pick index (this, a)
  | searched (he : t.entryAt ⟨this, index⟩ = some (lazy classIdx nameAndDesc resolved))
      (hl : t.lookup owner = some c)
      (hf : path.Finds p pick (t.get this).constantPool classIdx nameAndDesc (owner, a)) :
      MemberFound p path t this own lazy pick index (c, a)

theorem MemberFound.same {own : α → VMConstantPoolEntry}
    {lazy : UInt16 → UInt16 → Option (ClassRef × α) → VMConstantPoolEntry}
    (h : MemberFound p path t c own lazy pick index found)
    (h' : MemberFound p path t' c' own lazy pick index found') (hc : t.Same t' c c')
    (hp : (t'.get c').constantPool.map VMConstantPoolEntry.unresolved =
      (t.get c).constantPool.map VMConstantPoolEntry.unresolved)
    (hown : ∀ a a', (own a').unresolved = (own a).unresolved → a = a')
    (hlazy : ∀ i j r i' j' r', (lazy i' j' r').unresolved = (lazy i j r).unresolved →
      i' = i ∧ j' = j)
    (hne : ∀ a i j r, (own a).unresolved ≠ (lazy i j r).unresolved) :
    t.Same t' found.1 found'.1 ∧ found.2 = found'.2 := by
  cases h with
  | own he =>
    cases h' with
    | own he' => exact ⟨hc, hown _ _ (entry_congr hp he he')⟩
    | searched he' => exact absurd (entry_congr hp he he').symm (hne _ _ _ _)
  | searched he hl hf =>
    cases h' with
    | own he' => exact absurd (entry_congr hp he he') (hne _ _ _ _)
    | searched he' hl' hf' =>
      obtain ⟨rfl, rfl⟩ := hlazy _ _ _ _ _ _ (entry_congr hp he he')
      cases (hf.congr hp).unique hf'
      exact ⟨⟨_, hl, hl'⟩, rfl⟩

section
variable {p : Profile} {path : ClassPath}

theorem getMethodOrResolve_member (ht : t.Faithful p path)
    (h : getMethodOrResolve c index t = .ok found s) :
    MemberFound p path t c .resolvedMethod .methodRef ClassDefinition.methodId index found := by
  cases getMethodOrResolve_ok h with
  | cell he =>
    obtain ⟨owner, hl, hf⟩ := ht.determined _ _ _ he
    exact .searched he hl hf
  | own he => exact .own he
  | searched he hn hc hf =>
    obtain ⟨owner, hl, hfinds⟩ := searched_finds ht.sound ht.defined hn hc
      (fun v => v.definition_methodId _ _) hf
    exact .searched he hl hfinds

theorem getFieldOrResolve_member (ht : t.Faithful p path)
    (h : getFieldOrResolve c index t = .ok found s) :
    MemberFound p path t c .resolvedField .filedRef ClassDefinition.fieldOff index found := by
  cases getFieldOrResolve_ok h with
  | cell he =>
    obtain ⟨owner, hl, hf⟩ := ht.determined _ _ _ he
    exact .searched he hl hf
  | own he => exact .own he
  | searched he hn hc hf =>
    obtain ⟨owner, hl, hfinds⟩ := searched_finds ht.sound ht.defined hn hc
      (fun v => v.definition_fieldOff _ _) hf
    exact .searched he hl hfinds

theorem ClassTable.Faithful.alike (ht : t.Faithful p path) (ht' : t'.Faithful p path)
    (hc : t.lookup name = some c) (hc' : t'.lookup name = some c') : t.Alike t' c c' := by
  obtain ⟨l, hl, ha⟩ := ht.defined.known name c hc
  obtain ⟨l', hl', ha'⟩ := ht'.defined.known name c' hc'
  cases hl.unique hl'
  have hsame : t.Same t' c c' := ⟨name, hc, hc'⟩
  have hd := ha.definition ha'
  have hp := congrArg ClassDefinition.constantPool hd
  refine ⟨hd, ha.superClass ha', ?_, ?_, ?_, ?_⟩
  · intro index d s d' s' h h'
    obtain ⟨other, hn, hl⟩ := (getClassOrLoadByRef_ok h).named ht.sound.cells
    obtain ⟨other', hn', hl'⟩ := (getClassOrLoadByRef_ok h').named ht'.sound.cells
    rw [className_congr hp] at hn'
    cases hn.symm.trans hn'
    exact ⟨other, hl, hl'⟩
  · intro index found s found' s' h h'
    exact ((getClassOrArrayByRef_ok h).named ht.sound.cells).same
      ((getClassOrArrayByRef_ok h').named ht'.sound.cells) hp
  · intro index found s found' s' h h'
    apply (getMethodOrResolve_member ht h).same (getMethodOrResolve_member ht' h') hsame hp
    · intro a a' heq
      cases heq
      rfl
    · intro i j r i' j' r' heq
      cases heq
      exact ⟨rfl, rfl⟩
    · intro a i j r heq
      cases heq
  · intro index found s found' s' h h'
    apply (getFieldOrResolve_member ht h).same (getFieldOrResolve_member ht' h') hsame hp
    · intro a a' heq
      cases heq
      rfl
    · intro i j r i' j' r' heq
      cases heq
      exact ⟨rfl, rfl⟩
    · intro a i j r heq
      cases heq

end

end

/-- A class that was asked for as a superclass was asked for by the name in the class file. -/
def LoadCaller.Asks (name : String) : LoadCaller → Prop
  | .superClass _ cls _ => cls.superName = name
  | _ => True

/-- The name by which a class is returned as a superclass, with the class. -/
def LoadCaller.answered (c : ClassRef) : LoadCaller → List (String × ClassRef)
  | .superClass _ cls _ => [(cls.superName, c)]
  | _ => []

mutual

/-- The loading of a class waits for the superclass that its class file names. -/
def CodeCaller.Asked (path : ClassPath) : CodeCaller → Prop
  | .main => True
  | .invoke _ caller => caller.Asked path
  | .clinit _ caller => caller.Asked path

def LoadCaller.Asked (path : ClassPath) : LoadCaller → Prop
  | .open => True
  | .perform _ _ _ caller => caller.Asked path
  | .superClass name cls caller => path name = some (.ok cls) ∧ cls.superName ≠ "" ∧
      caller.Asks name ∧ caller.Asked path

end

mutual

/-- The classes that are returned as superclasses when their `<clinit>` has run. -/
def CodeCaller.expected : CodeCaller → List (String × ClassRef)
  | .main => []
  | .invoke _ caller => caller.expected
  | .clinit c caller => caller.answered c ++ caller.expected

def LoadCaller.expected : LoadCaller → List (String × ClassRef)
  | .open => []
  | .perform _ _ _ caller => caller.expected
  | .superClass _ _ caller => caller.expected

end

namespace Control

def Asked (path : ClassPath) : Control → Prop
  | .run _ _ caller => caller.Asked path
  | .perform _ _ _ caller => caller.Asked path
  | .load name caller => caller.Asks name ∧ caller.Asked path
  | .loaded _ caller => caller.Asked path
  | .finished _ => True

def expected : Control → List (String × ClassRef)
  | .run _ _ caller => caller.expected
  | .perform _ _ _ caller => caller.expected
  | .load _ caller => caller.expected
  | .loaded c caller => caller.answered c ++ caller.expected
  | .finished _ => []

end Control

theorem LoadCaller.Asks.answered {caller : LoadCaller} (h : caller.Asks name)
    (hx : x ∈ caller.answered c) : x = (name, c) := by
  cases caller with
  | superClass own cls caller =>
    cases h
    exact List.mem_singleton.mp hx
  | «open» => cases hx
  | perform act op context caller => cases hx

namespace Machine

/-- The classes in the table and what their cells hold are what the class files say. -/
structure Faithful (p : Profile) (path : ClassPath) (m : Machine) : Prop where
  grows : m.Grows p
  defined : m.table.Defined p path
  determined : m.table.Determined p path
  asked : m.control.Asked path
  expected : ∀ x ∈ m.control.expected, m.table.lookup x.1 = some x.2

section
variable {p : Profile} {path : ClassPath} {m m' : Machine}

theorem Faithful.used {t : ClassTable} {s : Store} {next : Control} (h : m.Faithful p path)
    (hu : ReflTransGen Uses m.table t)
    (hg : Grows p { m with table := t, store := s, control := next })
    (ha : next.Asked path) (he : ∀ x ∈ next.expected, m.table.lookup x.1 = some x.2) :
    Faithful p path { m with table := t, store := s, control := next } := by
  have key : t.Defined p path ∧ t.Determined p path ∧
      (∀ name, t.lookup name = m.table.lookup name) ∧ Grown p t := by
    clear hg
    induction hu with
    | refl => exact ⟨h.defined, h.determined, fun _ => rfl, h.grows.grown⟩
    | tail _ hu ih =>
      obtain ⟨hd, hdet, hl, hg⟩ := ih
      exact ⟨hd.uses hu, hdet.uses hg.sound hd hu, fun name => (hu.lookup name).trans (hl name),
        hg.used (.single hu)⟩
  exact ⟨hg, key.1, key.2.1, ha, fun x hx => (key.2.2.1 x.1).trans (he x hx)⟩

/-- What is known of a class that is about to be made. -/
structure Ordered (path : ClassPath) (m : Machine) (name : String) (cls : Class)
    (superClass : Option ClassRef) (caller : LoadCaller) : Prop where
  fresh : m.table.lookup name = none
  file : path name = some (.ok cls)
  superClass : m.table.SuperOf cls superClass
  asks : caller.Asks name
  asked : caller.Asked path
  expected : ∀ x ∈ caller.expected, m.table.lookup x.1 = some x.2

theorem Faithful.ordered {superClass : Option ClassRef} (h : m.Faithful p path)
    (hmk : Making path m name cls superClass caller) :
    m.Ordered path name cls superClass caller := by
  have ha := h.asked
  have he := h.expected
  cases hmk with
  | root hm hl hp hs =>
    rw [hm] at ha he
    exact ⟨hl, hp, hs, ha.1, ha.2, he⟩
  | derived hm hl =>
    rw [hm] at ha he
    obtain ⟨hp, hs, hasks, hasked⟩ := ha
    have hsuper := he (cls.superName, _) List.mem_cons_self
    exact ⟨hl, hp, ⟨hs, hsuper⟩, hasks, hasked, fun x hx => he x (List.mem_cons_of_mem _ hx)⟩

theorem Faithful.made {superClass : Option ClassRef} {next : Control} (h : m.Faithful p path)
    (hmk : Making path m name cls superClass caller)
    (hv : VMClass.create p cls (superClass.map fun c => (c, m.table.get c)) = .ok v)
    (hg : (m.withClass name cls v next).Grows p) (ha : next.Asked path)
    (hx : ∀ x ∈ next.expected, x ∈ caller.answered m.table.classes.length ∨ x ∈ caller.expected) :
    (m.withClass name cls v next).Faithful p path := by
  have ho := h.ordered hmk
  have hs := h.grows.grown.sound
  refine ⟨hg, h.defined.added hs ho.fresh ho.file ho.superClass hv,
    h.determined.added ho.fresh hv, ha, fun x hmem => ?_⟩
  rcases hx x hmem with hx | hx
  · cases ho.asks.answered hx
    exact lookup_added_self m.table name v
  · exact lookup_added ho.fresh v (ho.expected x hx)

theorem Returning.faithful [FloatArith] {r : Runtime} (h : Returning p m result r caller)
    (hm : m.Faithful p path) : caller.Asked path ∧
      ∀ x ∈ caller.expected, m.table.lookup x.1 = some x.2 := by
  have ha := hm.asked
  have he := hm.expected
  cases h with
  | codeEnds hc | instruction hc =>
    rw [hc] at ha he
    exact ⟨ha, he⟩

variable [FloatArith]

theorem advances_faithful (h : m.Faithful p path) (ha : Advances p path m m') :
    m'.Faithful p path := by
  have hg := advances_grows h.grows ha
  have hasked := h.asked
  have hexpected := h.expected
  cases ha with
  | fetch hm hop hs =>
    rw [hm] at hasked hexpected
    exact h.used .refl hg hasked hexpected
  | next hm hx | jump hm hx | call hm hx =>
    rw [hm] at hasked hexpected
    exact h.used (execute_uses hx) hg hasked hexpected
  | needs hm hx =>
    rw [hm] at hasked hexpected
    exact h.used .refl hg ⟨trivial, hasked⟩ hexpected
  | finish hret hd =>
    apply h.used hret.uses hg trivial
    intro x hx
    cases hx
  | leave hret hl =>
    obtain ⟨hasked, hexpected⟩ := hret.faithful h
    rw [(leaveFrame_ok hl).1] at hg ⊢
    exact h.used hret.uses hg hasked hexpected
  | endClinit hret hd =>
    obtain ⟨hasked, hexpected⟩ := hret.faithful h
    exact h.used hret.uses hg hasked hexpected
  | found hm hl =>
    rw [hm] at hasked hexpected
    apply h.used .refl hg hasked.2
    intro x hx
    rcases List.mem_append.mp hx with hx | hx
    · cases hasked.1.answered hx
      exact hl
    · exact hexpected x hx
  | superclass hm hl hp hs =>
    rw [hm] at hasked hexpected
    exact h.used .refl hg ⟨rfl, hp, hs, hasked⟩ hexpected
  | create hmk hv hc =>
    apply h.made hmk hv hg (h.ordered hmk).asked
    exact fun x hx => List.mem_append.mp hx
  | startClinit hmk hv hc hcode =>
    apply h.made hmk hv hg (h.ordered hmk).asked
    exact fun x hx => List.mem_append.mp hx
  | startMain hm hmain hs hcode =>
    apply h.used .refl hg trivial
    intro x hx
    cases hx
  | resume hm =>
    rw [hm] at hasked hexpected
    exact h.used .refl hg hasked hexpected
  | superFound hm hl =>
    rw [hm] at hasked hexpected
    obtain ⟨hp, hs, hasks, hasked⟩ := hasked
    apply h.used .refl hg hasked
    intro x hx
    rcases List.mem_append.mp hx with hx | hx
    · cases hasks.answered hx
      exact hl
    · exact hexpected x (List.mem_cons_of_mem _ hx)
  | idle hm => exact h

omit [FloatArith] in
theorem opened_faithful (h : Opened m) : m.Faithful p path := by
  have hg := opened_grows (p := p) h
  cases h
  refine ⟨hg, fromClassPath_defined, fromClassPath_determined, ⟨trivial, trivial⟩, fun x hx => ?_⟩
  cases hx

theorem step_faithful (h : m.Faithful p path) (hs : Step p path m e m') : m'.Faithful p path := by
  have hg := step_grows h.grows hs
  cases e with
  | main => exact advances_faithful h (next_advances hs)
  | gcThread =>
    obtain ⟨hcontrol, _, htable⟩ := wakeGc_keeps hs
    refine ⟨hg, ?_, ?_, ?_, ?_⟩
    · exact htable ▸ h.defined
    · exact htable ▸ h.determined
    · exact hcontrol ▸ h.asked
    · rw [hcontrol, htable]
      exact h.expected

theorem reaches_faithful (h : Reaches (Step p path) Ok Opened m) : m.Faithful p path :=
  h.invariant (fun _ => opened_faithful) fun _ _ _ hi _ hs => step_faithful hi hs

omit [FloatArith] in
theorem Faithful.onTable (h : m.Faithful p path) : m.table.Faithful p path :=
  ⟨h.grows.grown.sound, h.defined, h.determined⟩

/-- Neither the order in which classes are loaded and references resolved nor anything else that two
programs do makes a difference to a class that both of them have loaded. -/
theorem load_order_irrelevant (h : Reaches (Step p path) Ok Opened m)
    (h' : Reaches (Step p path) Ok' Opened m') (hc : m.table.lookup name = some c)
    (hc' : m'.table.lookup name = some c') : m.table.Alike m'.table c c' :=
  (reaches_faithful h).onTable.alike (reaches_faithful h').onTable hc hc'

end

end Machine

def pointFirst (n : Nat) : Except Stop Machine :=
  @(Machine.open (fun k => .ofNat (8 * (k + 1))) "Point").after noFloats ⟨true⟩
    (.ofClasses newPoint3) n

theorem pointFirst_reaches (h : pointFirst n = .ok m) :
    Reaches (MainStep newPoint3) (fun _ _ => True) Machine.Opened m := by
  let _ := noFloats
  exact Machine.reaches_after (.mk _ "Point") h fun _ _ _ _ => trivial

/-- The class `Point` is loaded as the second class by one program and as the first by another. -/
theorem point_alike : ∃ m m', mainRun newPoint3 13 = .ok m ∧ pointFirst 3 = .ok m' ∧
    m.table.lookup "Point" = some 2 ∧ m'.table.lookup "Point" = some 1 ∧
    m.table.Alike m'.table 2 1 := by
  refine ⟨_, _, rfl, rfl, rfl, rfl, ?_⟩
  have hreach : Reaches (MainStep newPoint3) (fun _ _ => True) Machine.Opened _ :=
    mainRun_reaches (rfl : mainRun newPoint3 13 = _) fun _ _ _ _ => trivial
  have hreach' := pointFirst_reaches (rfl : pointFirst 3 = _)
  exact @Machine.load_order_irrelevant _ _ _ _ noFloats _ _ "Point" 2 1 hreach hreach' rfl rfl

end Janadinite
