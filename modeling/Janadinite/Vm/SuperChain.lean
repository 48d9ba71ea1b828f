import Janadinite.Lib.Chain
import Janadinite.Vm.Declared

namespace Janadinite
open Chain
set_option autoImplicit true

/-- The superclass that `load_class_by_name` calls itself for. -/
def superNameOf (table : ClassTable) (path : ClassPath) (name : String) : Option String :=
  match table.lookup name with
  | some _ => none
  | none =>
    match path name with
    | some (.ok cls) => if cls.superName = "" then none else some cls.superName
    | _ => none

/-- The superclasses to load for a class come back to one of them. -/
abbrev CyclicSupers (table : ClassTable) (path : ClassPath) (name : String) : Prop :=
  Repeats (superNameOf table path) name

/-- Only so many names have class files. -/
def ClassPath.Finite (path : ClassPath) : Prop :=
  ∃ names : List String, ∀ name, path name ≠ none → name ∈ names

def JVMMethod.NotClinit (m : JVMMethod) : Prop := m.name ≠ "<clinit>"

def ClassPath.NoClinit (path : ClassPath) : Prop :=
  ∀ name cls, path name = some (.ok cls) → ∀ m ∈ cls.methods, m.NotClinit

def ClassTable.NoClinit (table : ClassTable) : Prop :=
  ∀ v ∈ table.classes, ∀ m ∈ v.vtable, m.method.NotClinit

namespace Machine
variable [FloatArith]

/-- The call of `load_class_by_name` that the machine is in returns a class, or the thread ends
with an error. -/
def LoadTerminates (p : Profile) (path : ClassPath) (m : Machine) (caller : LoadCaller) : Prop :=
  ∃ n, (∃ e, m.after p path n = .error e) ∨
    ∃ m' c, m.after p path n = .ok m' ∧ m'.control = .loaded c caller

/-- The call returns a `VMError`. -/
def LoadFails (p : Profile) (path : ClassPath) (m : Machine) : Prop :=
  ∃ n e, m.after p path n = .error (.error e)

end Machine

theorem superNameOf_finite (h : path.Finite) (table : ClassTable) :
    ∃ names : List String, ∀ a b, superNameOf table path a = some b → a ∈ names := by
  obtain ⟨names, hnames⟩ := h
  refine ⟨names, fun a b hab => hnames a fun hnone => ?_⟩
  rw [superNameOf, hnone] at hab
  cases hc : table.lookup a <;> rw [hc] at hab <;> cases hab

theorem addMethods_all {P : JVMMethod → Prop} (tables : List VMMethod × List VMMethod)
    {methods : List JVMMethod} (h : ∀ m ∈ methods, P m)
    (ht : ∀ m ∈ tables.1 ++ tables.2, P m.method) :
    let tables' := methods.foldl VMClass.addMethod tables
    ∀ m ∈ tables'.1 ++ tables'.2, P m.method := by
  induction methods generalizing tables with
  | nil => exact ht
  | cons meth methods ih =>
    have hmeth := h meth List.mem_cons_self
    apply ih _ fun m hm => h m (List.mem_cons_of_mem _ hm)
    obtain ⟨vtable, staticVtable⟩ := tables
    intro m hm
    cases hs : meth.isStatic with
    | true =>
      rw [addMethod_static hs] at hm
      simp only [List.mem_append, List.mem_singleton] at hm ht
      rcases hm with hm | hm | rfl
      · exact ht m (.inl hm)
      · exact ht m (.inr hm)
      · exact hmeth
    | false =>
      rcases addMethod_cases hs staticVtable with ⟨i, _, _, _, heq⟩ | ⟨_, heq⟩
      · rw [heq] at hm
        simp only [List.mem_append] at hm ht
        rcases hm with hm | hm
        · rcases List.mem_or_eq_of_mem_set hm with hm | rfl
          · exact ht m (.inl hm)
          · exact hmeth
        · exact ht m (.inr hm)
      · rw [heq] at hm
        simp only [List.mem_append, List.mem_singleton] at hm ht
        rcases hm with (hm | rfl) | hm
        · exact ht m (.inl hm)
        · exact hmeth
        · exact ht m (.inr hm)

theorem ClassTable.NoClinit.get {table : ClassTable} (h : table.NoClinit) (c : ClassRef) :
    ∀ m ∈ (table.get c).vtable, m.method.NotClinit := by
  rw [ClassTable.get, List.getD_eq_getElem?_getD]
  cases hc : table.classes[c]? with
  | some v => exact h v (List.mem_of_getElem? hc)
  | none =>
    intro m hm
    rw [List.mem_singleton.mp hm]
    exact show "<init>" ≠ "<clinit>" by decide

theorem create_noClinit {superClass : Option (ClassRef × VMClass)}
    (hs : ∀ m ∈ supeVtable superClass, m.method.NotClinit) (hcls : ∀ m ∈ cls.methods, m.NotClinit)
    (hv : VMClass.create p cls superClass = .ok v) :
    ∀ m ∈ v.vtable ++ v.staticVtable, m.method.NotClinit := by
  obtain ⟨_, _, _, hparts⟩ := create_parts hv
  have hall := addMethods_all (supeVtable superClass, []) hcls (by rwa [List.append_nil])
  rwa [← hparts.tables] at hall

namespace Machine
variable [FloatArith] {p : Profile} {path : ClassPath}

theorem after_next {m s : Machine} (h : m.next p path = .ok s) (n : Nat) :
    m.after p path (1 + n) = s.after p path n := by
  have hone : m.after p path 1 = .ok s := h
  exact (after_after hone n).symm

/-- The table has no `<clinit>`, and the call returns a class or the thread ends with an error. -/
def EndsLoad (p : Profile) (path : ClassPath) (m : Machine) (caller : LoadCaller) : Prop :=
  ∃ n, (∃ e, m.after p path n = .error e) ∨
    ∃ m' c, m.after p path n = .ok m' ∧ m'.control = .loaded c caller ∧ m'.table.NoClinit

theorem EndsLoad.terminates {m : Machine} (h : m.EndsLoad p path caller) :
    m.LoadTerminates p path caller := by
  obtain ⟨n, he | ⟨m', c, hm, hc, _⟩⟩ := h
  · exact ⟨n, .inl he⟩
  · exact ⟨n, .inr ⟨m', c, hm, hc⟩⟩

theorem EndsLoad.loaded {m : Machine} (h : m.next p path = .ok m')
    (hc : m'.control = .loaded c caller)
    (ht : m'.table.NoClinit) : m.EndsLoad p path caller :=
  ⟨1, .inr ⟨m', c, h, hc, ht⟩⟩

theorem EndsLoad.stop {m : Machine} (h : m.next p path = .error e) : m.EndsLoad p path caller :=
  ⟨1, .inl ⟨e, h⟩⟩

theorem EndsLoad.next {m : Machine} (h : m.next p path = .ok s) (hs : s.EndsLoad p path caller) :
    m.EndsLoad p path caller := by
  obtain ⟨n, hn⟩ := hs
  refine ⟨1 + n, ?_⟩
  rw [after_next h]
  exact hn

theorem EndsLoad.then {m : Machine} (h : m.EndsLoad p path caller)
    (hthen : ∀ (m' : Machine) c, m'.control = .loaded c caller → m'.table.NoClinit →
      m'.EndsLoad p path caller') : m.EndsLoad p path caller' := by
  obtain ⟨n, he | ⟨m', c, hm, hc, ht⟩⟩ := h
  · exact ⟨n, .inl he⟩
  · obtain ⟨k, hk⟩ := hthen m' c hc ht
    refine ⟨n + k, ?_⟩
    rw [← after_after hm]
    exact hk

theorem create_ends {m : Machine} {superClass : Option ClassRef} (ht : m.table.NoClinit)
    (hcls : ∀ m ∈ cls.methods, m.NotClinit)
    (hnext : m.next p path = m.create p name cls superClass caller) : m.EndsLoad p path caller := by
  unfold Machine.create at hnext
  cases hv : VMClass.create p cls (superClass.map fun c => (c, m.table.get c)) with
  | error e =>
    rw [hv] at hnext
    exact .stop hnext
  | ok v =>
    have hsupe : ∀ meth ∈ supeVtable (superClass.map fun c => (c, m.table.get c)),
        meth.method.NotClinit := by
      cases superClass with
      | none => exact nofun
      | some c => exact ht.get c
    have hclinit := create_noClinit hsupe hcls hv
    have hnone : v.methodByName "<clinit>" (some "()V") = none := by
      apply List.find?_eq_none.mpr
      intro meth hmem hmatch
      have hname := beq_iff_eq.mp (Bool.and_eq_true_iff.mp hmatch).1
      exact hclinit meth hmem hname
    rw [hv] at hnext
    simp only [hnone] at hnext
    apply EndsLoad.loaded hnext rfl
    intro u hu
    rcases List.mem_append.mp hu with hu | hu
    · exact ht u hu
    · rw [List.mem_singleton.mp hu]
      exact fun meth hmem => hclinit meth (List.mem_append_left _ hmem)

theorem superLoaded_ends {m : Machine} (ht : m.table.NoClinit)
    (hcls : ∀ m ∈ cls.methods, m.NotClinit)
    (hm : m.control = .loaded c (.superClass name cls caller)) : m.EndsLoad p path caller := by
  have hnext : m.next p path = m.loaded p c (.superClass name cls caller) := next_loaded hm
  unfold Machine.loaded at hnext
  cases hc : m.table.lookup name with
  | some c =>
    simp only [hc] at hnext
    exact .loaded hnext rfl ht
  | none =>
    simp only [hc] at hnext
    exact create_ends ht hcls hnext

/-- The induction is on the number of superclasses that are still to be loaded. -/
theorem load_ends (hpath : path.NoClinit) {m : Machine} (ht : m.table.NoClinit)
    (hm : m.control = .load name caller)
    (hn : chain (superNameOf m.table path) name n = none) : m.EndsLoad p path caller := by
  induction n generalizing m name caller with
  | zero => cases hn
  | succ n ih =>
    have hnext : m.next p path = m.load p path name caller := next_load hm
    unfold Machine.load at hnext
    rw [chain_succ] at hn
    cases hc : m.table.lookup name with
    | some c =>
      rw [hc] at hnext
      exact .loaded hnext rfl ht
    | none =>
      cases hp : path name with
      | none =>
        rw [hc, hp] at hnext
        exact .stop hnext
      | some file =>
        cases file with
        | error e =>
          rw [hc, hp] at hnext
          exact .stop hnext
        | ok cls =>
          rw [hc, hp] at hnext
          dsimp only at hnext
          have hcls := hpath name cls hp
          by_cases hsup : cls.superName = ""
          · rw [if_pos hsup] at hnext
            exact create_ends ht hcls hnext
          · rw [if_neg hsup] at hnext
            have hname : superNameOf m.table path name = some cls.superName := by
              simp only [superNameOf, hc, hp, if_neg hsup]
            rw [hname] at hn
            apply EndsLoad.next hnext
            have hload : EndsLoad p path
                { m with control := .load cls.superName (.superClass name cls caller) }
                (.superClass name cls caller) := ih ht rfl hn
            exact hload.then fun m' c hm' ht' => superLoaded_ends ht' hcls hm'

/-- While superclasses remain, the call only calls itself. -/
theorem load_continues {m : Machine} (hm : m.control = .load name caller)
    (hn : chain (superNameOf m.table path) name n = some name') :
    ∃ m' caller', m.after p path n = .ok m' ∧ m'.table = m.table ∧
      m'.control = .load name' caller' := by
  induction n generalizing name' with
  | zero =>
    cases hn
    exact ⟨m, caller, rfl, rfl, hm⟩
  | succ n ih =>
    obtain ⟨x, hx, hstep⟩ := Option.bind_eq_some_iff.mp hn
    obtain ⟨s, caller', hs, htable, hcontrol⟩ := ih hx
    have hnext : m.after p path (n + 1) = s.load p path x caller' := by
      rw [after, hs]
      exact next_load hcontrol
    unfold Machine.load at hnext
    rw [superNameOf] at hstep
    cases hc : m.table.lookup x with
    | some c =>
      rw [hc] at hstep
      cases hstep
    | none =>
      have hc' : s.table.lookup x = none := htable ▸ hc
      rw [hc] at hstep
      rw [hc'] at hnext
      dsimp only at hstep hnext
      split at hstep
      · rename_i cls hp
        split at hstep
        · cases hstep
        · rename_i hsup
          cases hstep
          simp only [hp, if_neg hsup] at hnext
          exact ⟨_, _, hnext, htable, rfl⟩
      · cases hstep

theorem cyclic_not_terminates {m : Machine} (hm : m.control = .load name caller)
    (h : CyclicSupers m.table path name) : ¬ m.LoadTerminates p path caller := by
  rintro ⟨n, hn⟩
  cases hc : chain (superNameOf m.table path) name n with
  | none => exact h.not_ends ⟨n, hc⟩
  | some name' =>
    obtain ⟨m', caller', hm', -, hcontrol⟩ := load_continues hm hc
    rcases hn with ⟨e, he⟩ | ⟨m'', c, hm'', hc''⟩
    · cases he.symm.trans hm'
    · cases hm''.symm.trans hm'
      cases hc''.symm.trans hcontrol

/-- With class files without `<clinit>`, the call ends, and with an error when the superclasses are
cyclic, exactly when they are not. -/
theorem load_terminates_iff {m : Machine} (hfin : path.Finite) (hpath : path.NoClinit)
    (ht : m.table.NoClinit) (hm : m.control = .load name caller) :
    (m.LoadTerminates p path caller ∧ (CyclicSupers m.table path name → m.LoadFails p path)) ↔
      ¬ CyclicSupers m.table path name := by
  constructor
  · exact fun h hcyclic => cyclic_not_terminates hm hcyclic h.1
  · intro h
    obtain ⟨n, hn⟩ := (ends_iff (superNameOf_finite hfin m.table)).mpr h
    exact ⟨(load_ends hpath ht hm hn).terminates, fun hcyclic => absurd hcyclic h⟩

end Machine

theorem ofClasses_mem {classes : List Class} (h : ClassPath.ofClasses classes name = some file) :
    ∃ cls ∈ classes, cls.thisName = name ∧ file = .ok cls := by
  obtain ⟨cls, hfind, rfl⟩ := Option.map_eq_some_iff.mp h
  have hname := List.find?_some hfind
  exact ⟨cls, List.mem_of_find?_eq_some hfind, beq_iff_eq.mp hname, rfl⟩

theorem ofClasses_finite (classes : List Class) : (ClassPath.ofClasses classes).Finite := by
  refine ⟨classes.map (·.thisName), fun name h => ?_⟩
  obtain ⟨file, hfile⟩ := Option.ne_none_iff_exists'.mp h
  obtain ⟨cls, hcls, rfl, -⟩ := ofClasses_mem hfile
  exact List.mem_map_of_mem hcls

def superFiles (supers : List (String × String)) : ClassPath :=
  .ofClasses (supers.map fun (thisName, superName) =>
    { staticMethods thisName [] [] with superName })

theorem superFiles_noClinit (supers : List (String × String)) : (superFiles supers).NoClinit := by
  intro name cls hfile
  obtain ⟨cls, hcls, -, heq⟩ := ofClasses_mem hfile
  cases heq
  obtain ⟨pair, -, rfl⟩ := List.mem_map.mp hcls
  exact nofun

theorem fromClassPath_noClinit : ClassTable.fromClassPath.NoClinit := by
  intro v hv meth hm
  rw [List.mem_singleton.mp hv] at hm
  rw [List.mem_singleton.mp hm]
  exact nofun

def Machine.openFiles (mainClass : String) : Machine :=
  .open (fun k => .ofNat (8 * (k + 1))) mainClass

/-- Two classes that are each other's superclass. -/
def pingPong : ClassPath := superFiles [("Ping", "Pong"), ("Pong", "Ping")]

theorem pingPong_not_terminates : pingPong.Finite ∧ pingPong.NoClinit ∧
    ¬ @Machine.LoadTerminates noFloats ⟨true⟩ pingPong (.openFiles "Ping") .open := by
  refine ⟨ofClasses_finite _, superFiles_noClinit _, ?_⟩
  have hcyclic : CyclicSupers .fromClassPath pingPong "Ping" :=
    ⟨0, 2, "Ping", Nat.two_pos, rfl, by decide +kernel⟩
  exact @Machine.cyclic_not_terminates noFloats _ _ _ _ _ rfl hcyclic

def leafNode : ClassPath := superFiles [("Leaf", "Node"), ("Node", "java/lang/Object")]

theorem leaf_terminates :
    @Machine.LoadTerminates noFloats ⟨true⟩ leafNode (.openFiles "Leaf") .open := by
  have hends : Ends (superNameOf .fromClassPath leafNode) "Leaf" := ⟨3, by decide +kernel⟩
  have hiff := @Machine.load_terminates_iff noFloats ⟨true⟩ leafNode "Leaf" .open
    (.openFiles "Leaf") (ofClasses_finite _) (superFiles_noClinit _) fromClassPath_noClinit rfl
  exact (hiff.mpr fun h => h.not_ends hends).1

end Janadinite
