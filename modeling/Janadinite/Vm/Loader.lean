import Janadinite.Vm.LoadOrder
import Janadinite.Vm.RunCode
import Janadinite.Vm.SuperChain

namespace Janadinite
open Hoare Relation Runs ClassTable
set_option autoImplicit true

theorem ClassPath.Defines.noClinit {p : Profile} {path : ClassPath} (h : path.Defines p name l)
    (hpath : path.NoClinit) : ∀ x ∈ l, ∀ m ∈ x.2.vtable, m.method.NotClinit := by
  induction h with
  | object =>
    intro x hx m hm
    cases List.mem_singleton.mp hx
    rw [List.mem_singleton.mp hm]
    exact show "<init>" ≠ "<clinit>" by decide
  | root hn hp hs hv =>
    intro x hx m hm
    cases List.mem_singleton.mp hx
    apply create_noClinit _ (hpath _ _ hp) hv
    · exact List.mem_append_left _ hm
    · exact nofun
  | extend hn hp hs h hd hv ih =>
    have hsuper := List.mem_of_mem_head? hd
    intro x hx m hm
    rcases List.mem_cons.mp hx with rfl | hx
    · apply create_noClinit _ (hpath _ _ hp) hv
      · exact List.mem_append_left _ hm
      · exact ih _ hsuper
    · exact ih x hx m hm

namespace ClassTable
variable {p : Profile} {path : ClassPath} {t : ClassTable}

theorem SuperOf.supeVtable_noClinit {superClass : Option ClassRef} (h : t.SuperOf cls superClass)
    (ht : t.Defined p path) (hpath : path.NoClinit) :
    ∀ m ∈ supeVtable (superClass.map fun c => (c, t.get c)), m.method.NotClinit := by
  cases superClass with
  | none => exact nofun
  | some s =>
    obtain ⟨l, hl, ha⟩ := ht.known _ s h.2
    obtain ⟨name, supers, rfl⟩ := ha.head
    exact hl.noClinit hpath _ List.mem_cons_self

theorem Faithful.added {superClass : Option ClassRef} (h : t.Faithful p path)
    (hnone : t.lookup name = none) (hp : path name = some (.ok cls))
    (hs : t.SuperOf cls superClass)
    (hv : VMClass.create p cls (superClass.map fun c => (c, t.get c)) = .ok v) :
    Faithful p path ⟨t.classes ++ [v], (name, t.classes.length) :: t.loaded⟩ where
  sound := by
    apply h.sound.added hnone _ hv
    intro s hsome
    cases hsome
    exact h.sound.lookup _ s hs.2
  defined := h.defined.added h.sound hnone hp hs hv
  determined := h.determined.added hnone hv

end ClassTable

namespace World
variable {p : Profile} {path : ClassPath} {w w' : World}

/-- The class is there with its superclasses as the class files say. Besides these classes nothing
has changed. -/
structure Loads (p : Profile) (path : ClassPath) (w w' : World) (name : String) (c : ClassRef)
    (l : Pedigree) : Prop where
  lookup : w'.table.lookup name = some c
  defines : path.Defines p name l
  ancestry : w'.table.Ancestry c l
  classes : w.table.classes <+: w'.table.classes
  keeps : ∀ other d, w.table.lookup other = some d → w'.table.lookup other = some d
  only : ∀ other d, w'.table.lookup other = some d →
    w.table.lookup other = some d ∨ other ∈ l.map Prod.fst
  store : w'.store = w.store

theorem Loads.found (h : w.table.Defined p path) (hl : w.table.lookup name = some c) :
    ∃ l, Loads p path w w name c l := by
  obtain ⟨l, hd, ha⟩ := h.known name c hl
  exact ⟨l, hl, hd, ha, List.prefix_refl _, fun _ _ h => h, fun _ _ h => .inl h, rfl⟩

section
variable {run : World → Activation → ThreadContext →
  Evaluation.Eval Stop (World × ThreadContext × Option JVMValue)} {superClass : Option ClassRef}

theorem create_made (ht : w.table.Defined p path) (hpath : path.NoClinit)
    (hp : path name = some (.ok cls)) (hs : w.table.SuperOf cls superClass)
    (hv : VMClass.create p cls (superClass.map fun c => (c, w.table.get c)) = .ok v) :
    w.create p run name cls superClass = pure (w.insert name cls v, w.table.classes.length) := by
  have hclinit := create_noClinit (hs.supeVtable_noClinit ht hpath) (hpath _ _ hp) hv
  have hnone : v.methodByName "<clinit>" (some "()V") = none := by
    apply List.find?_eq_none.mpr
    intro meth hmem hmatch
    have hname := beq_iff_eq.mp (Bool.and_eq_true_iff.mp hmatch).1
    exact hclinit meth hmem hname
  rw [create, hv]
  dsimp only
  rw [hnone]

theorem create_inserts (ht : w.table.Defined p path) (hpath : path.NoClinit)
    (hp : path name = some (.ok cls)) (hs : w.table.SuperOf cls superClass)
    (h : w.create p run name cls superClass = pure (w', c)) :
    ∃ v, VMClass.create p cls (superClass.map fun c => (c, w.table.get c)) = .ok v ∧
      w' = w.insert name cls v ∧ c = w.table.classes.length := by
  cases hv : VMClass.create p cls (superClass.map fun c => (c, w.table.get c)) with
  | error e =>
    rw [create, hv] at h
    cases h
  | ok v =>
    rw [create_made ht hpath hp hs hv] at h
    cases h
    exact ⟨v, rfl, rfl, rfl⟩

end

theorem Loads.made {superClass : Option ClassRef} (h : w.table.Faithful p path)
    (hnone : w.table.lookup name = none) (hp : path name = some (.ok cls))
    (hs : w.table.SuperOf cls superClass)
    (hv : VMClass.create p cls (superClass.map fun c => (c, w.table.get c)) = .ok v) :
    ∃ l, Loads p path w (w.insert name cls v) name w.table.classes.length l := by
  have hadded := h.added hnone hp hs hv
  have hself := lookup_added_self w.table name v
  obtain ⟨l, hd, ha⟩ := hadded.defined.known name _ hself
  refine ⟨l, hself, hd, ha, List.prefix_append _ _, ?_, ?_, rfl⟩
  · exact fun other d hl => lookup_added hnone v hl
  · intro other d hl
    by_cases ho : other = name
    · right
      obtain ⟨d, supers, rfl⟩ := hd.head
      rw [ho]
      exact List.mem_cons_self
    · left
      change List.lookup other ((name, w.table.classes.length) :: w.table.loaded) = some d at hl
      rw [List.lookup_cons, beq_false_of_ne ho] at hl
      exact hl

theorem Loads.after {w₁ : World} (hs : Loads p path w w₁ superName s ls)
    (h : Loads p path w₁ w' name c l) (hsub : ∀ other ∈ ls.map Prod.fst, other ∈ l.map Prod.fst) :
    Loads p path w w' name c l where
  lookup := h.lookup
  defines := h.defines
  ancestry := h.ancestry
  classes := hs.classes.trans h.classes
  keeps other d hl := h.keeps other d (hs.keeps other d hl)
  only other d hl := by
    rcases h.only other d hl with hl | hmem
    · exact (hs.only other d hl).imp_right (hsub other)
    · exact .inr hmem
  store := h.store.trans hs.store

end World

theorem ClassPath.Defines.file {p : Profile} {path : ClassPath} (h : path.Defines p name l) :
    name = VMClass.javaLangObject.name ∨ ∃ cls, path name = some (.ok cls) := by
  cases h with
  | object => exact .inl rfl
  | root _ hp | extend _ hp => exact .inr ⟨_, hp⟩

theorem ClassPath.Defines.tail {p : Profile} {path : ClassPath} (h : path.Defines p name l)
    (hn : name ≠ VMClass.javaLangObject.name) (hp : path name = some (.ok cls))
    (hs : cls.superName ≠ "") : ∃ d ls, l = (name, d) :: ls ∧ path.Defines p cls.superName ls := by
  cases h with
  | object => exact absurd rfl hn
  | root _ hp' hs' =>
    cases hp.symm.trans hp'
    exact absurd hs' hs
  | extend _ hp' _ h =>
    cases hp.symm.trans hp'
    exact ⟨_, _, rfl, h⟩

namespace World
variable {p : Profile} {path : ClassPath} {w w' : World} [FloatArith]

/-- Whatever `load_class_by_name` returns is as the class files say. -/
theorem loads (hpath : path.NoClinit) (hw : w.table.Faithful p path)
    (h : w.loadClassByName p path name fuel = pure (w', c)) :
    w'.table.Faithful p path ∧ ∃ l, Loads p path w w' name c l := by
  induction fuel generalizing w name w' c with
  | zero =>
    rw [loadClassByName] at h
    cases h
  | succ fuel ih =>
    rw [loadClassByName] at h
    cases hl : w.table.lookup name with
    | some c =>
      rw [hl] at h
      cases h
      exact ⟨hw, Loads.found hw.defined hl⟩
    | none =>
      rw [hl] at h
      cases hp : path name with
      | none =>
        rw [hp] at h
        cases h
      | some file =>
        rw [hp] at h
        cases file with
        | error e => cases h
        | ok cls =>
          dsimp only at h
          split at h
          · rename_i hroot
            have hs : w.table.SuperOf cls none := hroot
            obtain ⟨v, hv, rfl, rfl⟩ := create_inserts hw.defined hpath hp hs h
            exact ⟨hw.added hl hp hs hv, Loads.made hw hl hp hs hv⟩
          · rename_i hnamed
            have hne : name ≠ VMClass.javaLangObject.name := by
              rintro rfl
              exact hw.defined.object hl
            obtain ⟨⟨w₁, s⟩, hload, h⟩ := Evaluation.bind_value h
            obtain ⟨hw₁, ls, hsuper⟩ := ih hw hload
            have hsub {l : Pedigree} (hd : path.Defines p name l) :
                ∀ other ∈ ls.map Prod.fst, other ∈ l.map Prod.fst := by
              obtain ⟨d, ls', rfl, hls⟩ := hd.tail hne hp hnamed
              cases hsuper.defines.unique hls
              exact fun other hmem => List.mem_cons_of_mem _ hmem
            cases hl₁ : w₁.table.lookup name with
            | some c =>
              simp only [hl₁] at h
              cases h
              obtain ⟨l, hc⟩ := Loads.found hw₁.defined hl₁
              exact ⟨hw₁, l, hsuper.after hc (hsub hc.defines)⟩
            | none =>
              simp only [hl₁] at h
              have hs : w₁.table.SuperOf cls (some s) := ⟨hnamed, hsuper.lookup⟩
              obtain ⟨v, hv, rfl, rfl⟩ := create_inserts hw₁.defined hpath hp hs h
              obtain ⟨l, hc⟩ := Loads.made hw₁ hl₁ hp hs hv
              exact ⟨hw₁.added hl₁ hp hs hv, l, hsuper.after hc (hsub hc.defines)⟩

/-- What the class files say that is loaded by a name is loaded by it. -/
theorem loads_defined (hpath : path.NoClinit) (hd : path.Defines p name l)
    (hw : w.table.Faithful p path) :
    ∃ fuel w' c, w.loadClassByName p path name fuel = pure (w', c) := by
  induction hd with
  | object =>
    cases hl : w.table.lookup VMClass.javaLangObject.name with
    | none => exact absurd hl hw.defined.object
    | some c =>
      refine ⟨1, w, c, ?_⟩
      rw [loadClassByName, hl]
  | @root name cls v hn hp hs hv =>
    cases hl : w.table.lookup name with
    | some c =>
      refine ⟨1, w, c, ?_⟩
      rw [loadClassByName, hl]
    | none =>
      have hso : w.table.SuperOf cls none := hs
      refine ⟨1, w.insert name cls v, w.table.classes.length, ?_⟩
      rw [loadClassByName, hl, hp]
      dsimp only
      rw [if_pos hs]
      exact create_made hw.defined hpath hp hso hv
  | @extend name cls l superName r s v hn hp hs h hd hv ih =>
    cases hl : w.table.lookup name with
    | some c =>
      refine ⟨1, w, c, ?_⟩
      rw [loadClassByName, hl]
    | none =>
      obtain ⟨fuel, w₁, d, hload⟩ := ih
      obtain ⟨hw₁, ls, hsuper⟩ := loads hpath hw hload
      cases hl₁ : w₁.table.lookup name with
      | some c =>
        refine ⟨fuel + 1, w₁, c, ?_⟩
        rw [loadClassByName, hl, hp]
        dsimp only
        rw [if_neg hs, hload, pure_bind]
        dsimp only
        rw [hl₁]
      | none =>
        have hso : w₁.table.SuperOf cls (some d) := ⟨hs, hsuper.lookup⟩
        have hdef : (w₁.table.get d).definition = s.definition := by
          obtain ⟨other, supers, hls⟩ := hsuper.ancestry.head
          rw [hsuper.defines.unique h, hls] at hd
          exact congrArg Prod.snd (Option.some.inj hd)
        have hv' : VMClass.create p cls (some (d, w₁.table.get d)) = _ := create_congr hdef r d
        rw [hv] at hv'
        refine ⟨fuel + 1, w₁.insert name cls { v with superClass := some d },
          w₁.table.classes.length, ?_⟩
        rw [loadClassByName, hl, hp]
        dsimp only
        rw [if_neg hs, hload, pure_bind]
        dsimp only
        rw [hl₁]
        exact create_made hw₁.defined hpath hp hso hv'

/-- Without `<clinit>` methods `load_class_by_name` returns a class exactly when the class files say
what is loaded by the name, whatever has been run before. It then is that class, with the right
superclasses. No other class is loaded and nothing else is changed. -/
theorem loader_correct (hpath : path.NoClinit)
    (h : Reaches (Machine.Step p path) Ok Machine.Opened m) (name : String) :
    ((∃ fuel w c, World.loadClassByName p path ⟨m.table, m.files, m.store⟩ name fuel =
      pure (w, c)) ↔ ∃ l, path.Defines p name l) ∧
    ∀ fuel w c, World.loadClassByName p path ⟨m.table, m.files, m.store⟩ name fuel = pure (w, c) →
      ∃ l, Loads p path ⟨m.table, m.files, m.store⟩ w name c l := by
  have hw := (Machine.reaches_faithful h).onTable
  constructor
  · constructor
    · rintro ⟨fuel, w, c, hload⟩
      obtain ⟨_, l, hloads⟩ := loads hpath hw hload
      exact ⟨l, hloads.defines⟩
    · rintro ⟨l, hd⟩
      exact loads_defined hpath hd hw
  · intro fuel w c hload
    exact (loads hpath hw hload).2

end World

def World.opened : World :=
  ⟨.fromClassPath, [.javaLangObject], (Machine.openFiles "Leaf").store⟩

/-- A class that is loaded with its superclass, and a name without a class file. -/
theorem leaf_loaded :
    (∃ w l, @World.loadClassByName noFloats ⟨true⟩ leafNode .opened "Leaf" 3 = pure (w, 2) ∧
      World.Loads ⟨true⟩ leafNode .opened w "Leaf" 2 l) ∧
    ¬ ∃ fuel w c, @World.loadClassByName noFloats ⟨true⟩ leafNode .opened "Stem" fuel =
      pure (w, c) := by
  have hreach : Reaches (@Machine.Step noFloats ⟨true⟩ leafNode) (fun _ _ => True) Machine.Opened
      (.openFiles "Leaf") := .start (.mk _ "Leaf")
  have hcorrect := @World.loader_correct ⟨true⟩ leafNode noFloats _ _ (superFiles_noClinit _) hreach
  constructor
  · obtain ⟨w, hw⟩ : ∃ w, @World.loadClassByName noFloats ⟨true⟩ leafNode .opened "Leaf" 3 =
      pure (w, 2) := ⟨_, rfl⟩
    obtain ⟨l, hl⟩ := (hcorrect "Leaf").2 3 w 2 hw
    exact ⟨w, l, hw, hl⟩
  · rintro hloads
    obtain ⟨l, hd⟩ := (hcorrect "Stem").1.mp hloads
    have hnone : leafNode "Stem" = none := by decide +kernel
    rcases hd.file with hobject | ⟨cls, hp⟩
    · exact absurd hobject (by decide)
    · cases hnone.symm.trans hp

end Janadinite
