import Janadinite.Lib.Lock
import Janadinite.Lib.Registry
import Janadinite.Vm.Machine

namespace Janadinite.ClassLoading
open Runs Registry
set_option autoImplicit true

mutual

/-- The code that asks for a class: that of a thread, or the `<clinit>` of a class that a call of
`load_class_by_name` has inserted. -/
inductive CodeCaller where
  | thread
  | clinit (c : ClassRef) (caller : LoadCaller)

/-- Where a call of `load_class_by_name` returns to: a request, or the call of it that has decoded
`cls` and waits for the superclass. -/
inductive LoadCaller where
  | request (name : String) (caller : CodeCaller)
  | superClass (cls : Class) (caller : LoadCaller)

end

def LoadCaller.name : LoadCaller → String
  | .request name _ => name
  | .superClass cls _ => cls.superName

/-- Where a thread is: in code, in `with_class_or_load_by_name` before the read lock or between
the two locks, or in `load_class_by_name` at its begin, before `VMClass::create` or after the call
of itself. -/
inductive Thread where
  | running (caller : CodeCaller)
  | looking (name : String) (caller : CodeCaller)
  | missed (name : String) (caller : CodeCaller)
  | loading (caller : LoadCaller)
  | creating (cls : Class) (superClass : Option ClassRef) (caller : LoadCaller)
  | superLoaded (superClass : ClassRef) (cls : Class) (caller : LoadCaller)
  | died

/-- The thread has a `write_guard`. -/
def Thread.holds : Thread → Bool
  | .loading _ => true
  | .creating .. => true
  | _ => false

/-- What the threads share. `writer` is the thread that has the write guard of `loaded_classes`;
the `log` is no part of the program: it says what was done to the map, newest first. -/
structure World where
  table : ClassTable
  writer : Option Nat
  poisoned : Bool
  threads : List Thread
  log : List (Entry String ClassRef)

namespace World

def initial : World :=
  ⟨.fromClassPath, none, false, [], [.plain 0, .put VMClass.javaLangObject.name 0]⟩

def setThread (w : World) (t : Nat) (s : Thread) : World :=
  { w with threads := w.threads.set t s }

def release (w : World) : World := { w with writer := none }

def record (w : World) (e : Entry String ClassRef) : World := { w with log := e :: w.log }

/-- A class that was asked for is there. -/
def deliver (w : World) (t : Nat) (via : Via) (c : ClassRef) (caller : LoadCaller) : World :=
  let w := w.record (.got t via caller.name c)
  match caller with
  | .request _ caller => w.setThread t (.running caller)
  | .superClass cls caller => w.setThread t (.superLoaded c cls caller)

/-- An error ends all the calls that wait for the class. In a `<clinit>` it is a panic. -/
def fail (w : World) (t : Nat) : LoadCaller → World
  | .request _ .thread => w.setThread t (.running .thread)
  | .request _ (.clinit ..) => w.setThread t .died
  | .superClass _ caller => w.fail t caller

def poison (w : World) (t : Nat) : World :=
  { w.release with poisoned := true }.setThread t .died

/-- `with_class_or_load_by_name` under the read lock. -/
def lookUp (w : World) (t : Nat) (name : String) (caller : CodeCaller) : World :=
  if w.poisoned then w.setThread t .died
  else
    match w.table.lookup name with
    | some c => w.deliver t .found c (.request name caller)
    | none => w.setThread t (.missed name caller)

/-- `with_class_or_load_by_name` under the write lock, which is handed to `load_class_by_name`. -/
def lookAgain (w : World) (t : Nat) (name : String) (caller : CodeCaller) : World :=
  if w.poisoned then w.setThread t .died
  else
    match w.table.lookup name with
    | some c => w.deliver t .found c (.request name caller)
    | none => { w with writer := some t }.setThread t (.loading (.request name caller))

/-- `load_class_by_name`, up to the call of itself, which is handed the write guard. -/
def load (path : ClassPath) (w : World) (t : Nat) (caller : LoadCaller) : World :=
  match w.table.lookup caller.name with
  | some c => w.release.deliver t .found c caller
  | none =>
    match path caller.name with
    | none => w.release.fail t caller
    | some (.error (.error _)) => w.release.fail t caller
    | some (.error (.panic _)) => w.poison t
    | some (.ok cls) =>
      if cls.superName = "" then w.setThread t (.creating cls none caller)
      else w.setThread t (.loading (.superClass cls caller))

/-- `load_class_by_name` when its superclass is loaded. -/
def relock (w : World) (t : Nat) (superClass : ClassRef) (cls : Class) (caller : LoadCaller) :
    World :=
  if w.poisoned then w.setThread t .died
  else
    match w.table.lookup caller.name with
    | some c => w.deliver t .found c caller
    | none => { w with writer := some t }.setThread t (.creating cls (some superClass) caller)

/-- `write_guard.insert`, and the drop of the guard. -/
def insert (w : World) (name : String) (v : VMClass) : World :=
  let c := w.table.classes.length
  { w.release.record (.put name c) with
    table := ⟨w.table.classes ++ [v], (name, c) :: w.table.loaded⟩ }

/-- The rest of `load_class_by_name`, up to the run of `<clinit>`. -/
def create (p : Profile) (w : World) (t : Nat) (cls : Class) (superClass : Option ClassRef)
    (caller : LoadCaller) : World :=
  match VMClass.create p cls (superClass.map fun c => (c, w.table.get c)) with
  | .error (.error _) => w.release.fail t caller
  | .error (.panic _) => w.poison t
  | .ok v =>
    let c := w.table.classes.length
    let w := w.insert caller.name v
    match v.methodByName "<clinit>" (some "()V") with
    | none => (w.record (.plain c)).deliver t .made c caller
    | some clinit =>
      match clinit.method.code with
      | none => w.setThread t .died
      | some _ => (w.record (.begun c)).setThread t (.running (.clinit c caller))

/-- What a thread does that is not in code. It waits for a lock that another thread has. -/
def continues (p : Profile) (path : ClassPath) (w : World) (t : Nat) : Thread → Option World
  | .looking name caller => if w.writer.isSome then none else some (w.lookUp t name caller)
  | .missed name caller => if w.writer.isSome then none else some (w.lookAgain t name caller)
  | .loading caller => some (w.load path t caller)
  | .creating cls superClass caller => some (w.create p t cls superClass caller)
  | .superLoaded superClass cls caller =>
    if w.writer.isSome then none else some (w.relock t superClass cls caller)
  | .running _ => none
  | .died => none

end World

/-- Code of any thread asks for any class, and a `<clinit>` returns or fails. -/
inductive Event where
  | spawn
  | request (t : Nat) (name : String)
  | continues (t : Nat)
  | returns (t : Nat)
  | panics (t : Nat)
  deriving DecidableEq, Repr

def next (p : Profile) (path : ClassPath) (w : World) : Event → Option World
  | .spawn => some { w with threads := w.threads ++ [.running .thread] }
  | .request t name =>
    match w.threads[t]? with
    | some (.running caller) => some (w.setThread t (.looking name caller))
    | _ => none
  | .continues t => w.threads[t]?.bind (w.continues p path t)
  | .returns t =>
    match w.threads[t]? with
    | some (.running (.clinit c caller)) => some ((w.record (.done c)).deliver t .made c caller)
    | _ => none
  | .panics t =>
    match w.threads[t]? with
    | some (.running _) => some (w.setThread t .died)
    | _ => none

def Step (p : Profile) (path : ClassPath) (w : World) (e : Event) (w' : World) : Prop :=
  next p path w e = some w'

abbrev Reachable (p : Profile) (path : ClassPath) : World → Prop :=
  Reaches (Step p path) (fun _ _ => True) (· = World.initial)

abbrev Later (p : Profile) (path : ClassPath) (w : World) : World → Prop :=
  Reaches (Step p path) (fun _ _ => True) (· = w)

end Janadinite.ClassLoading
