import Janadinite.Vm.MachineOwned
import Janadinite.Vm.Vtable

namespace Janadinite
open Runs Hoare ThreadContext
set_option autoImplicit true

/-- The run-time pool of a class is made from the constant pool of a class file; cells may have been
set since. -/
def VMClass.PoolFrom (v : VMClass) (file : Class) : Prop :=
  ∃ methods fields pool,
    VMConstantPool.fromUnresolved file.constantPool file.thisName methods fields = .ok pool ∧
    v.constantPool.map VMConstantPoolEntry.unresolved = pool.map VMConstantPoolEntry.unresolved

/-- The vtable has what `decl` gives: the declarations of the class file, and inherited ones for
other signatures. -/
structure VtableFrom (file : Class) (decl : String × String → Option JVMMethod)
    (vtable : List VMMethod) : Prop where
  indexed : Indexed decl vtable
  notStatic : ∀ sig m, decl sig = some m → m.isStatic = false
  own : ∀ sig m, lastDeclared file.methods sig = some m → decl sig = some m

/-- How a class goes back to its class file. -/
structure FromFile (file : Class) (v : VMClass) : Prop where
  pool : v.PoolFrom file
  vtable : ∃ decl, VtableFrom file decl v.vtable
  staticVtable : ∀ e ∈ v.staticVtable, e.method ∈ file.methods ∧ e.method.isStatic = true

def Class.declares (file : Class) (m : JVMMethod) : Bool :=
  file.methods.any fun d => d.isStatic == m.isStatic && d.signature == m.signature

theorem lastDeclared_some (h : lastDeclared methods sig = some m) :
    m ∈ methods ∧ m.Declares sig := by
  have hm := List.mem_of_find?_eq_some h
  have hd := List.find?_some h
  exact ⟨List.mem_reverse.mp hm, of_decide_eq_true hd⟩

theorem lastDeclared_exists (hd : d ∈ methods) (h : d.Declares sig) :
    ∃ m, lastDeclared methods sig = some m := by
  cases hl : lastDeclared methods sig with
  | some m => exact ⟨m, rfl⟩
  | none =>
    have hn := List.find?_eq_none.mp hl d (List.mem_reverse.mpr hd)
    exact absurd (decide_eq_true h) hn

theorem FromFile.declared (h : FromFile file v) (he : e ∈ v.vtable ++ v.staticVtable)
    (hd : file.declares e.method = true) : e.method ∈ file.methods := by
  rcases List.mem_append.mp he with he | he
  · obtain ⟨decl, hv⟩ := h.vtable
    obtain ⟨d, hmem, hmatch⟩ := List.any_eq_true.mp hd
    rw [Bool.and_eq_true, beq_iff_eq, beq_iff_eq] at hmatch
    have hdecl := hv.indexed.decl e he
    have hstatic := hv.notStatic _ _ hdecl
    obtain ⟨m, hm⟩ := lastDeclared_exists hmem ⟨hmatch.1.trans hstatic, hmatch.2⟩
    obtain rfl : m = e.method := Option.some.inj ((hv.own _ _ hm).symm.trans hdecl)
    exact (lastDeclared_some hm).1
  · exact (h.staticVtable e he).1

theorem VMClass.PoolFrom.keeps {t t' : ClassTable} (h : (t.get c).PoolFrom file)
    (hk : t.Keeps t') : (t'.get c).PoolFrom file := by
  obtain ⟨methods, fields, pool, hpool, hmap⟩ := h
  exact ⟨methods, fields, pool, hpool, (hk.pool c).trans hmap⟩

theorem FromFile.keeps {t t' : ClassTable} (h : FromFile file (t.get c)) (hk : t.Keeps t') :
    FromFile file (t'.get c) := by
  refine ⟨h.pool.keeps hk, ?_, ?_⟩
  · rw [hk.vtable]
    exact h.vtable
  · rw [hk.staticVtable]
    exact h.staticVtable

theorem addMethod_static_mem {tables : List VMMethod × List VMMethod} {meth : JVMMethod}
    (he : e ∈ (VMClass.addMethod tables meth).2) :
    e ∈ tables.2 ∨ e.method = meth ∧ meth.isStatic = true := by
  obtain ⟨vtable, staticVtable⟩ := tables
  cases hs : meth.isStatic with
  | true =>
    rw [addMethod_static hs] at he
    rcases List.mem_append.mp he with he | he
    · exact .inl he
    · rw [List.mem_singleton.mp he]
      exact .inr ⟨rfl, rfl⟩
  | false =>
    rcases addMethod_cases hs staticVtable with ⟨_, _, _, _, heq⟩ | ⟨_, heq⟩
    · rw [heq] at he
      exact .inl he
    · rw [heq] at he
      exact .inl he

theorem addMethods_static_mem {tables : List VMMethod × List VMMethod} {methods : List JVMMethod}
    (he : e ∈ (methods.foldl VMClass.addMethod tables).2) :
    e ∈ tables.2 ∨ e.method ∈ methods ∧ e.method.isStatic = true := by
  induction methods generalizing tables with
  | nil => exact .inl he
  | cons meth methods ih =>
    rcases ih he with he | ⟨he, hs⟩
    · rcases addMethod_static_mem he with he | ⟨rfl, hs⟩
      · exact .inl he
      · exact .inr ⟨List.mem_cons_self, hs⟩
    · exact .inr ⟨List.mem_cons_of_mem _ he, hs⟩

theorem object_fromFile : FromFile .javaLangObject .javaLangObject where
  pool := ⟨[], [], [], rfl, rfl⟩
  vtable := by
    refine ⟨mostDerived [], object_indexed, ?_, ?_⟩
    · intro sig m h
      exact (lastDeclared_some h).2.1
    · exact fun sig m h => h
  staticVtable := fun _ he => absurd he List.not_mem_nil

/-- The superclass need only be a class with its own methods in its vtable. -/
theorem create_fromFile (hs : ∀ r s, superClass = some (r, s) → ∃ file, FromFile file s)
    (h : VMClass.create p cls superClass = .ok v) : FromFile cls v := by
  obtain ⟨_, _, _, hv⟩ := create_parts h
  obtain ⟨decl, hidx, hstatic⟩ : ∃ decl, Indexed decl (supeVtable superClass) ∧
      ∀ sig m, decl sig = some m → m.isStatic = false := by
    cases superClass with
    | none =>
      refine ⟨fun _ => none, ⟨?_, List.nodup_nil, ?_⟩, nofun⟩
      · exact fun _ _ hi => nomatch hi
      · exact fun _ hm => absurd hm List.not_mem_nil
    | some supe =>
      obtain ⟨file, hfile⟩ := hs supe.1 supe.2 rfl
      obtain ⟨decl, hdecl⟩ := hfile.vtable
      exact ⟨decl, hdecl.indexed, hdecl.notStatic⟩
  refine ⟨⟨_, _, _, hv.name ▸ hv.pool, rfl⟩,
    ⟨fun sig => (lastDeclared cls.methods sig).or (decl sig), ?_, ?_, ?_⟩, ?_⟩
  · have hfold := (addMethods_indexed hidx [] cls.methods).1
    rw [← hv.tables] at hfold
    exact hfold
  · intro sig m hm
    rcases Option.or_eq_some_iff.mp hm with hm | ⟨_, hm⟩
    · exact (lastDeclared_some hm).2.1
    · exact hstatic sig m hm
  · intro sig m hm
    exact Option.or_eq_some_iff.mpr (.inl hm)
  · intro e he
    have htables := congrArg Prod.snd hv.tables
    dsimp only at htables
    rw [htables] at he
    rcases addMethods_static_mem he with he | he
    · exact absurd he List.not_mem_nil
    · exact he

/-- The activation of a callee with the invoke that called it, none if it was not called so. -/
def CodeCaller.entered (act : Activation) : CodeCaller → List Activation
  | .invoke _ _ => [act]
  | _ => []

mutual

def CodeCaller.invoked : CodeCaller → List Activation
  | .main => []
  | .invoke act caller => caller.entered act ++ caller.invoked
  | .clinit _ caller => caller.invoked

def LoadCaller.invoked : LoadCaller → List Activation
  | .open => []
  | .perform act _ _ caller => caller.entered act ++ caller.invoked
  | .superClass _ _ caller => caller.invoked

end

/-- The calls of `run_code` in progress that an invoke has made. -/
def Control.invoked : Control → List Activation
  | .run act _ caller => caller.entered act ++ caller.invoked
  | .perform act _ _ caller => caller.entered act ++ caller.invoked
  | .load _ caller => caller.invoked
  | .loaded _ caller => caller.invoked
  | .finished _ => []

/-- The code comes from a method that the class file of the class in use declares. -/
def Activation.OwnMethod (files : List Class) (act : Activation) : Prop :=
  ∃ file, files[act.cls]? = some file ∧ act.method ∈ file.methods ∧
    ∃ code, act.method.code = some code ∧ act.instr.bytes = code.code

theorem Activation.OwnMethod.congr {act act' : Activation} (h : act.OwnMethod files)
    (hcls : act'.cls = act.cls) (hmeth : act'.method = act.method)
    (hbytes : act'.instr.bytes = act.instr.bytes) : act'.OwnMethod files := by
  obtain ⟨file, hfile, hmem, code, hcode, hb⟩ := h
  refine ⟨file, ?_, ?_, code, ?_, hbytes.trans hb⟩
  · rw [hcls]
    exact hfile
  · rw [hmeth]
    exact hmem
  · rw [hmeth]
    exact hcode

theorem Activation.OwnMethod.append {act : Activation} (h : act.OwnMethod files) (file : Class) :
    act.OwnMethod (files ++ [file]) := by
  obtain ⟨own, hfile, hrest⟩ := h
  refine ⟨own, ?_, hrest⟩
  rw [List.getElem?_append_left (List.getElem?_eq_some_iff.mp hfile).1]
  exact hfile

theorem entered_congr {act act' : Activation} {caller : CodeCaller}
    (h : ∀ a ∈ caller.entered act ++ caller.invoked, a.OwnMethod files)
    (hcls : act'.cls = act.cls) (hmeth : act'.method = act.method)
    (hbytes : act'.instr.bytes = act.instr.bytes) :
    ∀ a ∈ caller.entered act' ++ caller.invoked, a.OwnMethod files := by
  intro a ha
  rcases List.mem_append.mp ha with ha | ha
  · cases caller with
    | invoke _ _ =>
      rw [List.mem_singleton.mp ha]
      exact (h act List.mem_cons_self).congr hcls hmeth hbytes
    | _ => exact absurd ha List.not_mem_nil
  · exact h a (List.mem_append_right _ ha)

namespace Machine

structure Filed (m : Machine) : Prop where
  length : m.files.length = m.table.classes.length
  made : ∀ c file, m.files[c]? = some file → FromFile file (m.table.get c)

theorem Filed.keeps {m m' : Machine} (h : m.Filed) (hf : m'.files = m.files)
    (ht : m.table.Keeps m'.table) : m'.Filed := by
  constructor
  · rw [hf, ht.length]
    exact h.length
  · intro c file hfile
    rw [hf] at hfile
    exact (h.made c file hfile).keeps ht

/-- All methods that were invoked run with the class that declares them. -/
def OwnMethods (m : Machine) : Prop := ∀ act ∈ m.control.invoked, act.OwnMethod m.files

/-- The class in which an invoke finds its method last declares the method itself. -/
def targetDeclares (p : Profile) (m : Machine) : Bool :=
  match m.control with
  | .perform act op context _ =>
    match invokeTarget p act.cls op ⟨m.table, m.store, context⟩ with
    | .ok (some (target, method)) _ =>
      match m.files[target]? with
      | some file => file.declares method
      | none => false
    | _ => true
  | _ => true

theorem targetDeclares_perform {m : Machine} (h : m.targetDeclares p = true)
    (hm : m.control = .perform act op context caller)
    (ht : invokeTarget p act.cls op ⟨m.table, m.store, context⟩ = .ok (some (target, method)) r) :
    ∃ file, m.files[target]? = some file ∧ file.declares method = true := by
  rw [targetDeclares, hm] at h
  dsimp only at h
  rw [ht] at h
  dsimp only at h
  cases hf : m.files[target]? with
  | none =>
    rw [hf] at h
    cases h
  | some file =>
    rw [hf] at h
    exact ⟨file, rfl, h⟩

theorem Filed.fromFile {m : Machine} (h : m.Filed) (c : ClassRef) :
    ∃ file, FromFile file (m.table.get c) := by
  cases hf : m.files[c]? with
  | some file => exact ⟨file, h.made c file hf⟩
  | none =>
    have hlen := List.getElem?_eq_none_iff.mp hf
    rw [h.length] at hlen
    refine ⟨.javaLangObject, ?_⟩
    rw [ClassTable.get, List.getD_eq_getElem?_getD, List.getElem?_eq_none hlen]
    exact object_fromFile

theorem Filed.create {m m' : Machine} {superClass : Option ClassRef} (h : m.Filed)
    (hv : VMClass.create p cls (superClass.map fun c => (c, m.table.get c)) = .ok v)
    (hf : m'.files = m.files ++ [cls]) (ht : m'.table.classes = m.table.classes ++ [v]) :
    m'.Filed := by
  constructor
  · rw [hf, ht, List.length_append, List.length_append, h.length]
    rfl
  · intro c file hfile
    rw [hf] at hfile
    rw [ClassTable.get, ht, List.getD_eq_getElem?_getD]
    rcases Nat.lt_or_ge c m.files.length with hlt | hge
    · rw [List.getElem?_append_left hlt] at hfile
      rw [List.getElem?_append_left (h.length ▸ hlt), ← List.getD_eq_getElem?_getD]
      exact h.made c file hfile
    · rw [List.getElem?_append_right hge] at hfile
      rw [List.getElem?_append_right (h.length ▸ hge), ← h.length]
      obtain ⟨hlt, rfl⟩ := List.getElem?_eq_some_iff.mp hfile
      have hzero : c - m.files.length = 0 := Nat.lt_one_iff.mp hlt
      simp only [hzero, List.getElem_singleton, List.getElem?_cons_zero, Option.getD_some]
      apply create_fromFile _ hv
      intro r s hs
      obtain ⟨c, _, hc⟩ := Option.map_eq_some_iff.mp hs
      cases hc
      exact h.fromFile _

theorem OwnMethods.returning [FloatArith] {m : Machine} (h : m.OwnMethods)
    (hr : m.Returning p result r caller) : ∀ a ∈ caller.invoked, a.OwnMethod m.files := by
  rw [OwnMethods] at h
  cases hr with
  | codeEnds hm =>
    rw [hm] at h
    exact fun a ha => h a (List.mem_append_right _ ha)
  | instruction hm =>
    rw [hm] at h
    exact fun a ha => h a (List.mem_append_right _ ha)

theorem OwnMethods.making {m : Machine} {superClass : Option ClassRef} {caller : LoadCaller}
    (h : m.OwnMethods) (hmk : m.Making path name cls superClass caller) :
    ∀ a ∈ caller.invoked, a.OwnMethod (m.files ++ [cls]) := by
  have hc : ∀ a ∈ caller.invoked, a.OwnMethod m.files := by
    rw [OwnMethods] at h
    cases hmk with
    | root hm => rwa [hm] at h
    | derived hm => rwa [hm] at h
  exact fun a ha => (hc a ha).append cls

theorem returning_keeps [FloatArith] {m : Machine} (ho : m.Owned)
    (hr : m.Returning p result r caller) : m.table.Keeps r.table := by
  cases hr with
  | codeEnds _ _ ht => exact ht ▸ .refl _
  | instruction hm hx => exact (execute_keeps ho hm hx fun _ _ _ => nofun).2

theorem call_own [FloatArith] {m : Machine} (ho : m.Owned) (hfiled : m.Filed)
    (hdecl : m.targetDeclares p = true) (hm : m.control = .perform act op context caller)
    (hx : execute p act.cls act.lastPc op ⟨m.table, m.store, context⟩ =
      .ok (.call cls method code) r) :
    m.table.Keeps r.table ∧ (Activation.start cls method code).OwnMethod m.files := by
  obtain ⟨_, _, _, _, _, _, heq, _, htarget, hcalled⟩ := execute_called ho hm hx
  cases heq
  obtain ⟨file, hfile, hdeclares⟩ := targetDeclares_perform hdecl hm htarget
  obtain ⟨e, he, hmeth⟩ := hcalled.found
  have hmem := (hfiled.made _ _ hfile).declared he (hmeth ▸ hdeclares)
  rw [hmeth] at hmem
  exact ⟨hcalled.table, file, hfile, hmem, code, hcalled.code, rfl⟩

theorem advances_own [FloatArith] {m m' : Machine} (ho : m.Owned) (hfiled : m.Filed)
    (hdecl : m.targetDeclares p = true) (h : m.OwnMethods) (ha : m.Advances p path m') :
    m'.Filed ∧ m'.OwnMethods := by
  have h' := h
  rw [OwnMethods] at h'
  cases ha with
  | fetch hm hop =>
    rw [hm] at h'
    exact ⟨hfiled.keeps rfl (.refl _), entered_congr h' rfl rfl (nextOp_bytes hop)⟩
  | next hm hx =>
    rw [hm] at h'
    obtain ⟨-, ht⟩ := execute_keeps ho hm hx fun _ _ _ => nofun
    exact ⟨hfiled.keeps rfl ht, entered_congr h' rfl rfl rfl⟩
  | jump hm hx =>
    rw [hm] at h'
    obtain ⟨-, ht⟩ := execute_keeps ho hm hx fun _ _ _ => nofun
    exact ⟨hfiled.keeps rfl ht, entered_congr h' rfl rfl rfl⟩
  | call hm hx =>
    rw [hm] at h'
    obtain ⟨ht, hown⟩ := call_own ho hfiled hdecl hm hx
    refine ⟨hfiled.keeps rfl ht, ?_⟩
    intro a ha
    rcases List.mem_cons.mp ha with rfl | ha
    · exact hown
    · exact h' a ha
  | finish hr =>
    exact ⟨hfiled.keeps rfl (returning_keeps ho hr), fun _ ha => absurd ha List.not_mem_nil⟩
  | leave hr hl =>
    have ht := returning_keeps ho hr
    rw [← (leaveFrame_ok hl).1] at ht
    exact ⟨hfiled.keeps rfl ht, entered_congr (h.returning hr) rfl rfl rfl⟩
  | endClinit hr => exact ⟨hfiled.keeps rfl (returning_keeps ho hr), h.returning hr⟩
  | create hmk hv => exact ⟨hfiled.create hv rfl rfl, h.making hmk⟩
  | startClinit hmk hv => exact ⟨hfiled.create hv rfl rfl, h.making hmk⟩
  | startMain hm =>
    exact ⟨hfiled.keeps rfl (.refl _), fun _ ha => absurd ha List.not_mem_nil⟩
  | idle => exact ⟨hfiled, h⟩
  | needs hm | found hm | superclass hm | resume hm | superFound hm =>
    rw [hm] at h'
    exact ⟨hfiled.keeps rfl (.refl _), h'⟩

/-- The condition on a step: an invoke finds its method in the class that declares it. -/
def TargetDeclares (p : Profile) (m : Machine) (e : Event) : Prop :=
  e = .main → m.targetDeclares p = true

theorem opened_filed (h : Opened m) : m.Filed := by
  cases h
  refine ⟨rfl, ?_⟩
  intro c file hc
  cases c with
  | zero =>
    cases hc
    exact object_fromFile
  | succ c => cases hc

/-- When every invoke finds its method in the class that declares it, every method that was invoked
runs with the constant pool of its own class file. -/
theorem own_pools [FloatArith] {p : Profile} {path : ClassPath}
    (h : Reaches (Step p path) (TargetDeclares p) Opened m) :
    ∀ act ∈ m.control.invoked, ∃ file, m.files[act.cls]? = some file ∧
      act.method ∈ file.methods ∧
      (∃ code, act.method.code = some code ∧ act.instr.bytes = code.code) ∧
      (m.table.get act.cls).PoolFrom file := by
  have hinv : m.Owned ∧ m.Filed ∧ m.OwnMethods := by
    apply h.invariant
    · intro m hm
      refine ⟨opened_owned hm, opened_filed hm, ?_⟩
      cases hm
      exact fun _ ha => absurd ha List.not_mem_nil
    · intro m e m' ⟨ho, hfiled, hown⟩ hok hstep
      refine ⟨step_owned ho hstep, ?_⟩
      cases e with
      | main => exact advances_own ho hfiled (hok rfl) hown (next_advances hstep)
      | gcThread =>
        have hw : m.wakeGc p = some m' := hstep
        obtain ⟨hc, hf, ht⟩ := wakeGc_keeps hw
        refine ⟨hfiled.keeps hf (ht ▸ .refl _), ?_⟩
        rw [OwnMethods, hc, hf]
        exact hown
  obtain ⟨_, hfiled, hown⟩ := hinv
  intro act hact
  obtain ⟨file, hfile, hmem, hcode⟩ := hown act hact
  exact ⟨file, hfile, hmem, hcode, (hfiled.made _ _ hfile).pool⟩

end Machine

def getFirst : JVMMethod := ⟨"get", "()I", 0, .accPublic, some ⟨1, 1, [0x12, 1, 0xac], [], []⟩, []⟩

/-- `Base` with the constant 11, of which `Main` is a subclass. -/
def firstBase : Class where
  thisName := "Base"
  superName := "java/lang/Object"
  minorVersion := 0
  majorVersion := 65
  accessFlags := .accPublic
  constantPool := [.unusable, .integer 11]
  methods := [getFirst]
  fields := []
  attributes := []

def firstMain (methods : List JVMMethod) : Class where
  thisName := "Main"
  superName := "Base"
  minorVersion := 0
  majorVersion := 65
  accessFlags := .accPublic
  constantPool := [.unusable, .integer 22, .utf8 "Main", .class 2, .utf8 "get", .utf8 "()I",
    .nameAndType 4 5, .methodref 3 6]
  methods := ⟨"main", "()I", 0, .accStatic,
    some ⟨0, 1, [0xbb, 0, 3, 0xb6, 0, 7, 0xac], [], []⟩, []⟩ :: methods
  fields := []
  attributes := []

def Machine.foreign (m : Machine) (act : Activation) : Bool :=
  (m.files[act.cls]?).all fun file => file.methods.all fun d => d.name != act.method.name

/-- The inherited `get` runs with the constant pool of `Main`, and so the constant 22 is
returned. -/
theorem inherited_get_misreads :
    (∃ m act, Reaches (MainStep [firstBase, firstMain []]) (fun _ _ => True) Machine.Opened m ∧
      act ∈ m.control.invoked ∧
      ∀ file, m.files[act.cls]? = some file → act.method ∉ file.methods) ∧
    (mainRun [firstBase, firstMain []] 16).toOption.any (fun m => match m.control with
      | .finished result => result == some (.int 22)
      | _ => false) = true := by
  refine ⟨?_, by decide +kernel⟩
  obtain ⟨m, hm, hforeign⟩ : ∃ m, mainRun [firstBase, firstMain []] 10 = .ok m ∧
      m.control.invoked.any m.foreign = true := mainRun_any (by decide +kernel)
  obtain ⟨act, hact, hforeign⟩ := List.any_eq_true.mp hforeign
  refine ⟨m, act, mainRun_reaches hm fun _ _ _ _ => trivial, hact, ?_⟩
  intro file hfile hmem
  rw [Machine.foreign, hfile, Option.all_some] at hforeign
  have hname := List.all_eq_true.mp hforeign _ hmem
  rw [bne_self_eq_false] at hname
  cases hname

/-- When `Main` overrides `get` its own constant is the right one. -/
theorem own_get_reads : ∃ m act, mainRun [firstBase, firstMain [getFirst]] 10 = .ok m ∧
    act ∈ m.control.invoked ∧ ∃ file, m.files[act.cls]? = some file ∧
      act.method ∈ file.methods := by
  obtain ⟨m, hm, hcalled⟩ : ∃ m, mainRun [firstBase, firstMain [getFirst]] 10 = .ok m ∧
      m.control.invoked.any (fun _ => true) = true := mainRun_any (by decide +kernel)
  obtain ⟨act, hact, _⟩ := List.any_eq_true.mp hcalled
  have hdeclares : ∀ i, 0 ≤ i → i < 0 + 10 → ∀ s,
      mainRun [firstBase, firstMain [getFirst]] i = .ok s → s.targetDeclares ⟨true⟩ = true :=
    mainRun_all (by decide +kernel)
  have hrun : Reaches (MainStep [firstBase, firstMain [getFirst]]) (Machine.TargetDeclares ⟨true⟩)
      Machine.Opened m := by
    apply mainRun_reaches hm
    exact fun i hi s hs _ => hdeclares i (Nat.zero_le i) (by omega) s hs
  obtain ⟨file, hfile, hmem, _⟩ := @Machine.own_pools _ noFloats _ _ hrun act hact
  exact ⟨m, act, hm, hact, file, hfile, hmem⟩

end Janadinite
