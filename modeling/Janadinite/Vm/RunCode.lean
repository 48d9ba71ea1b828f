import Janadinite.Lib.Evaluation
import Janadinite.Vm.Machine

namespace Janadinite
open Evaluation
set_option autoImplicit true

/-- What `run_code` and `load_class_by_name` have in common: the classes, the files they were made
from, and the memory. -/
structure World where
  table : ClassTable
  files : List Class
  store : Store

/-- `expect("<clinit> run failed")`: a panic within it is passed on. -/
def clinitFailed : Stop → Stop
  | .error _ => .panic "<clinit> run failed"
  | e => e

namespace World

def withStore (w : World) (x : VM Store PUnit) : Eval Stop World :=
  match x w.store with
  | .ok _ store => pure { w with store }
  | .error e _ => throw e

def withContext (w : World) (context : ThreadContext) (x : VM Runtime PUnit) :
    Eval Stop (World × ThreadContext) :=
  match x ⟨w.table, w.store, context⟩ with
  | .ok _ r => pure ({ w with table := r.table, store := r.store }, r.context)
  | .error e _ => throw e

def insert (w : World) (name : String) (cls : Class) (v : VMClass) : World := {
  w with table := ⟨w.table.classes ++ [v], (name, w.table.classes.length) :: w.table.loaded⟩
         files := w.files ++ [cls] }

/-- The part of `load_class_by_name` from `VMClass::create` on. The context of a `<clinit>` is dropped
when that has returned. -/
def create (p : Profile) (run : World → Activation → ThreadContext →
    Eval Stop (World × ThreadContext × Option JVMValue)) (w : World) (name : String) (cls : Class)
    (superClass : Option ClassRef) : Eval Stop (World × ClassRef) :=
  match VMClass.create p cls (superClass.map fun c => (c, w.table.get c)) with
  | .error e => throw e.corrupted
  | .ok v =>
    let c := w.table.classes.length
    let w := w.insert name cls v
    match v.methodByName "<clinit>" (some "()V") with
    | none => pure (w, c)
    | some clinit =>
      match clinit.method.code with
      | none => throw (.panic "<clinit> no code")
      | some code => do
        let context := ThreadContext.new code.maxStack code.maxLocals
        let (w, context, result) ←
          (run w (.start c clinit.method code) context).adapt clinitFailed
        let w ← w.withStore do
          dropSlots p (resultSlots result)
          dropContext p context
        pure (w, c)

section
variable [FloatArith] (p : Profile) (path : ClassPath)

mutual

/-- `run_code`, which calls itself for an invoke. The fuel bounds the depth of the calls and the
length of the loop. -/
def runCode (w : World) (act : Activation) (context : ThreadContext) :
    Nat → Eval Stop (World × ThreadContext × Option JVMValue)
  | 0 => outOfFuel
  | fuel + 1 =>
    match act.instr.nextOp p with
    | .error e => throw e.stop
    | .ok (none, _) => pure (w, context, none)
    | .ok (some op, instr) => do
      let w ← w.withStore (if op.isInvoke then safepoint p else pure ⟨⟩)
      let (w, context, outcome) ← w.instruction { act with instr } op context fuel
      match outcome with
      | .next => w.runCode { act with instr, lastPc := instr.pc } context fuel
      | .jump pc => w.runCode { act with instr := instr.setPc pc, lastPc := pc } context fuel
      | .call cls method code => do
        let (w, context, result) ← w.runCode (.start cls method code) context fuel
        let (w, context) ← w.withContext context (leaveFrame p result)
        w.runCode { act with instr, lastPc := instr.pc } context fuel
      | .return result => pure (w, context, result)

/-- An arm of the `match` of `run_code`, with the classes that it has to load first. -/
def instruction (w : World) (act : Activation) (op : OpCode) (context : ThreadContext) :
    Nat → Eval Stop (World × ThreadContext × Outcome)
  | 0 => outOfFuel
  | fuel + 1 =>
    match execute p act.cls act.lastPc op ⟨w.table, w.store, context⟩ with
    | .ok outcome r => pure ({ w with table := r.table, store := r.store }, r.context, outcome)
    | .error (.load name) _ => do
      let (w, _) ← w.loadClassByName name fuel
      w.instruction act op context fuel
    | .error e _ => throw e

def loadClassByName (w : World) (name : String) : Nat → Eval Stop (World × ClassRef)
  | 0 => outOfFuel
  | fuel + 1 =>
    match w.table.lookup name with
    | some c => pure (w, c)
    | none =>
      match path name with
      | none => throw (.error (.noSuchClass name))
      | some (.error e) => throw e.corrupted
      | some (.ok cls) =>
        if cls.superName = "" then
          w.create p (fun w act context => w.runCode act context fuel) name cls none
        else do
          let (w, superClass) ← w.loadClassByName cls.superName fuel
          match w.table.lookup name with
          | some c => pure (w, c)
          | none =>
            w.create p (fun w act context => w.runCode act context fuel) name cls (some superClass)

end

/-- `VM::open` and `run_main`, but for the drop of the context after an error. -/
def runMain (addresses : Nat → Addr) (mainClass : String) (fuel : Nat) :
    Eval Stop (World × Option JVMValue) := do
  let (w, c) ← loadClassByName p path ⟨.fromClassPath, [.javaLangObject], .initial addresses⟩
    mainClass fuel
  match (w.table.get c).methodByName "main" none with
  | none => throw (.error (.noSuchMethodInClass "main"))
  | some meth =>
    if meth.method.isStatic then
      match meth.method.code with
      | none => throw (.error (.invalidMain "no code"))
      | some code => do
        let (w, context, result) ← w.runCode p path (.start c meth.method code)
          (.new code.maxStack code.maxLocals) fuel
        let w ← w.withStore (dropContext p context)
        pure (w, result)
    else throw (.error (.invalidMain "not static"))

end

end World

end Janadinite
