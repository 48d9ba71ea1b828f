import Janadinite.Lib.Runs
import Janadinite.Vm.Execute

namespace Janadinite
open Runs Hoare
set_option autoImplicit true

/-- What opening and decoding the file of a class gives, if there is such a file. -/
abbrev ClassPath := String → Option (Except Fault Class)

def ClassPath.ofClasses (classes : List Class) : ClassPath := fun name =>
  (classes.find? fun cls => cls.thisName == name).map .ok

/-- A call of `run_code` in progress, for the code of `method`. -/
structure Activation where
  cls : ClassRef
  method : JVMMethod
  instr : Instructions
  lastPc : UInt16

def Activation.start (cls : ClassRef) (method : JVMMethod) (code : JVMCode) : Activation :=
  ⟨cls, method, code.instructions, 0⟩

mutual

/-- Where a call of `run_code` returns to. -/
inductive CodeCaller where
  | main
  | invoke (act : Activation) (caller : CodeCaller)
  | clinit (cls : ClassRef) (caller : LoadCaller)

/-- Where a call of `load_class_by_name` returns to. An instruction that waits for a class is begun
again after it: it has changed nothing before. -/
inductive LoadCaller where
  | open
  | perform (act : Activation) (op : OpCode) (context : ThreadContext) (caller : CodeCaller)
  | superClass (name : String) (cls : Class) (caller : LoadCaller)

end

/-- What the thread does next. -/
inductive Control where
  | run (act : Activation) (context : ThreadContext) (caller : CodeCaller)
  | perform (act : Activation) (op : OpCode) (context : ThreadContext) (caller : CodeCaller)
  | load (name : String) (caller : LoadCaller)
  | loaded (cls : ClassRef) (caller : LoadCaller)
  | finished (result : Option JVMValue)

/-- The state between two instructions or within the loading of a class; `files` are the class
files that the classes were made from. -/
structure Machine where
  table : ClassTable
  files : List Class
  store : Store
  control : Control

/-- A class file with what is built in for `java/lang/Object`. -/
def Class.javaLangObject : Class where
  thisName := VMClass.javaLangObject.name
  superName := ""
  minorVersion := 0
  majorVersion := 0
  accessFlags := .accPublic
  constantPool := []
  methods := VMClass.javaLangObject.vtable.map (·.method)
  fields := []
  attributes := []

def ClassTable.fromClassPath : ClassTable :=
  ⟨[.javaLangObject], [(VMClass.javaLangObject.name, 0)]⟩

/-- The memory of the process before it runs, with one thread registered. -/
def Store.initial (addresses : Nat → Addr) : Store where
  memory _ := none
  heap := { Heap.new with heapThreads := 1 }
  shouldStopTheWorld := false
  locked := false
  poisoned := false
  addresses := addresses
  allocated := 0

/-- `map_err(|e| VMError::Corrupted(e.message().into()))`. -/
def Fault.corrupted : Fault → Stop
  | .error e => .error (.corrupted e.message)
  | .panic msg => .panic msg

def Fault.stop : Fault → Stop
  | .error e => .panic e.message
  | .panic msg => .panic msg

def dropContext (p : Profile) (c : ThreadContext) : VM Store PUnit := do
  dropSlots p c.stack
  dropSlots p c.locals

/-- The frame of a method that has returned is popped, and its result pushed. -/
def leaveFrame (p : Profile) (result : Option JVMValue) : VM Runtime PUnit := do
  ThreadContext.popFrame p
  ThreadContext.pushSlots (resultSlots result)

namespace Machine

def withStore (m : Machine) (control : Control) (x : VM Store PUnit) : Except Stop Machine :=
  match x m.store with
  | .ok _ store => .ok { m with store, control }
  | .error e _ => .error e

def returns (p : Profile) (m : Machine) (context : ThreadContext) (result : Option JVMValue) :
    CodeCaller → Except Stop Machine
  | .main => m.withStore (.finished result) (dropContext p context)
  | .invoke act caller =>
    match leaveFrame p result ⟨m.table, m.store, context⟩ with
    | .ok _ r => .ok {
        m with table := r.table, store := r.store
               control := .run { act with lastPc := act.instr.pc } r.context caller }
    | .error e _ => .error e
  | .clinit cls caller => m.withStore (.loaded cls caller) do
    dropSlots p (resultSlots result)
    dropContext p context

/-- The next instruction is decoded, and before an invoke the thread may stop for a collection. -/
def fetch (p : Profile) (m : Machine) (act : Activation) (context : ThreadContext)
    (caller : CodeCaller) : Except Stop Machine :=
  match act.instr.nextOp p with
  | .error e => .error e.stop
  | .ok (none, _) => m.returns p context none caller
  | .ok (some op, instr) => m.withStore (.perform { act with instr } op context caller)
      (if op.isInvoke then safepoint p else pure ⟨⟩)

/-- What follows an instruction. -/
def proceed (p : Profile) (m : Machine) (act : Activation) (context : ThreadContext)
    (caller : CodeCaller) : Outcome → Except Stop Machine
  | .next => .ok { m with control := .run { act with lastPc := act.instr.pc } context caller }
  | .jump pc => .ok {
      m with control := .run { act with instr := act.instr.setPc pc, lastPc := pc } context caller }
  | .call cls method code => .ok {
      m with control := .run (.start cls method code) context (.invoke act caller) }
  | .return result => m.returns p context result caller

def perform [FloatArith] (p : Profile) (m : Machine) (act : Activation) (op : OpCode)
    (context : ThreadContext) (caller : CodeCaller) : Except Stop Machine :=
  match execute p act.cls act.lastPc op ⟨m.table, m.store, context⟩ with
  | .ok outcome r =>
    { m with table := r.table, store := r.store }.proceed p act r.context caller outcome
  | .error (.load name) _ =>
    .ok { m with control := .load name (.perform act op context caller) }
  | .error e _ => .error e

/-- A class is made from its class file, and its `<clinit>` run. -/
def create (p : Profile) (m : Machine) (name : String) (cls : Class)
    (superClass : Option ClassRef) (caller : LoadCaller) : Except Stop Machine :=
  match VMClass.create p cls (superClass.map fun c => (c, m.table.get c)) with
  | .error e => .error e.corrupted
  | .ok v =>
    let c := m.table.classes.length
    let m := {
      m with table := ⟨m.table.classes ++ [v], (name, c) :: m.table.loaded⟩
             files := m.files ++ [cls] }
    match v.methodByName "<clinit>" (some "()V") with
    | none => .ok { m with control := .loaded c caller }
    | some clinit =>
      match clinit.method.code with
      | none => .error (.panic "<clinit> no code")
      | some code =>
        let context := ThreadContext.new code.maxStack code.maxLocals
        .ok { m with control := .run (.start c clinit.method code) context (.clinit c caller) }

/-- `load_class_by_name`, up to the call of itself for the superclass. -/
def load (p : Profile) (path : ClassPath) (m : Machine) (name : String) (caller : LoadCaller) :
    Except Stop Machine :=
  match m.table.lookup name with
  | some c => .ok { m with control := .loaded c caller }
  | none =>
    match path name with
    | none => .error (.error (.noSuchClass name))
    | some (.error e) => .error e.corrupted
    | some (.ok cls) =>
      if cls.superName = "" then m.create p name cls none caller
      else .ok { m with control := .load cls.superName (.superClass name cls caller) }

def runMain (m : Machine) (mainClass : ClassRef) : Except Stop Machine :=
  match (m.table.get mainClass).methodByName "main" none with
  | none => .error (.error (.noSuchMethodInClass "main"))
  | some meth =>
    if meth.method.isStatic then
      match meth.method.code with
      | none => .error (.error (.invalidMain "no code"))
      | some code =>
        let context := ThreadContext.new code.maxStack code.maxLocals
        .ok { m with control := .run (.start mainClass meth.method code) context .main }
    else .error (.error (.invalidMain "not static"))

def loaded (p : Profile) (m : Machine) (c : ClassRef) : LoadCaller → Except Stop Machine
  | .open => m.runMain c
  | .perform act op context caller => .ok { m with control := .perform act op context caller }
  | .superClass name cls caller =>
    match m.table.lookup name with
    | some c => .ok { m with control := .loaded c caller }
    | none => m.create p name cls (some c) caller

/-- What the thread that runs `main` does. -/
def next [FloatArith] (p : Profile) (path : ClassPath) (m : Machine) : Except Stop Machine :=
  match m.control with
  | .run act context caller => m.fetch p act context caller
  | .perform act op context caller => m.perform p act op context caller
  | .load name caller => m.load p path name caller
  | .loaded cls caller => m.loaded p cls caller
  | .finished _ => .ok m

/-- What the GC thread does when it finds the flag set while no thread is parked: it collects or
panics with `HEAP` locked, and so it does at most once when `main` runs. -/
def wakeGc (p : Profile) (m : Machine) : Option Machine :=
  if m.store.shouldStopTheWorld && !m.store.locked && !m.store.poisoned then
    match Heap.tryGc p m.store with
    | .ok _ store => some { m with store := { store with shouldStopTheWorld := false } }
    | .error _ store => some { m with store := { store with poisoned := true } }
  else none

inductive Event where
  | main
  | gcThread

def Step [FloatArith] (p : Profile) (path : ClassPath) (m : Machine) : Event → Machine → Prop
  | .main, m' => m.next p path = .ok m'
  | .gcThread, m' => m.wakeGc p = some m'

def «open» (addresses : Nat → Addr) (mainClass : String) : Machine :=
  ⟨.fromClassPath, [.javaLangObject], .initial addresses, .load mainClass .open⟩

inductive Opened : Machine → Prop
  | mk (addresses : Nat → Addr) (mainClass : String) : Opened (.open addresses mainClass)

def after [FloatArith] (p : Profile) (path : ClassPath) (m : Machine) : Nat → Except Stop Machine
  | 0 => .ok m
  | n + 1 => do (← m.after p path n).next p path

theorem reaches_after [FloatArith] {p : Profile} {path : ClassPath} {Ok : Machine → Event → Prop}
    {Start : Machine → Prop} (hstart : Start m) (h : m.after p path n = .ok m')
    (hok : ∀ k < n, ∀ s, m.after p path k = .ok s → Ok s .main) :
    Reaches (Step p path) Ok Start m' := by
  induction n generalizing m' with
  | zero =>
    cases h
    exact .start hstart
  | succ n ih =>
    obtain ⟨s, hs, h⟩ := exceptBind_ok h
    have hreach := ih hs fun k hk => hok k (Nat.lt_succ_of_lt hk)
    exact .next hreach (hok n (Nat.lt_succ_self n) s hs) h

theorem after_after [FloatArith] {p : Profile} {path : ClassPath} {m s : Machine}
    (h : m.after p path k = .ok s) (n : Nat) : s.after p path n = m.after p path (k + n) := by
  induction n with
  | zero => exact h.symm
  | succ n ih =>
    change (s.after p path n >>= fun s => s.next p path) = _
    rw [ih]
    rfl

end Machine

/-- For programs without arithmetic on floats. -/
abbrev noFloats : FloatArith where
  add32 x _ := x
  sub32 x _ := x
  mul32 x _ := x
  div32 x _ := x
  rem32 x _ := x
  neg32 x := x
  partialCmp32 _ _ := none
  ofI32 _ := ⟨0⟩
  add64 x _ := x
  sub64 x _ := x
  mul64 x _ := x
  div64 x _ := x
  rem64 x _ := x
  neg64 x := x
  partialCmp64 _ _ := none
  ofI32d _ := ⟨0⟩

def staticMethods (thisName : String) (constantPool : List ConstantPoolEntry)
    (methods : List (String × String × JVMCode)) : Class where
  thisName := thisName
  superName := "java/lang/Object"
  minorVersion := 0
  majorVersion := 65
  accessFlags := .accPublic
  constantPool := constantPool
  methods := methods.map fun (name, descriptor, code) =>
    ⟨name, descriptor, (MethodDescriptor.new descriptor).argsSize, .accStatic, some code, []⟩
  fields := []
  attributes := []

/-- The run of a program that begins with the class `Main`, with multiples of eight as addresses. -/
def mainRun (classes : List Class) (n : Nat) : Except Stop Machine :=
  @(Machine.open (fun k => .ofNat (8 * (k + 1))) "Main").after noFloats ⟨true⟩
    (.ofClasses classes) n

/-- The steps that such a run is made of, or of which the GC thread makes some. -/
abbrev MainStep (classes : List Class) : Machine → Machine.Event → Machine → Prop :=
  @Machine.Step noFloats ⟨true⟩ (.ofClasses classes)

theorem mainRun_reaches {Ok : Machine → Machine.Event → Prop} (h : mainRun classes n = .ok m)
    (hok : ∀ k < n, ∀ s, mainRun classes k = .ok s → Ok s .main) :
    Reaches (MainStep classes) Ok Machine.Opened m := by
  let _ := noFloats
  exact Machine.reaches_after (.mk _ "Main") h hok

theorem mainRun_any {check : Machine → Bool} (h : (mainRun classes n).toOption.any check = true) :
    ∃ m, mainRun classes n = .ok m ∧ check m = true := by
  cases hm : mainRun classes n with
  | error e =>
    rw [hm] at h
    cases h
  | ok m =>
    rw [hm] at h
    exact ⟨m, rfl, h⟩

/-- A condition that all states of a part of a run meet. -/
theorem mainRun_all {check : Machine → Bool}
    (h : ((List.range' k n).all fun i => (mainRun classes i).toOption.all check) = true) :
    ∀ i, k ≤ i → i < k + n → ∀ s, mainRun classes i = .ok s → check s = true := by
  intro i hk hn s hs
  have hall := List.all_eq_true.mp h i (List.mem_range'_1.mpr ⟨hk, hn⟩)
  rwa [hs] at hall

end Janadinite
