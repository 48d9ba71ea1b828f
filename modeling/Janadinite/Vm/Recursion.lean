import Janadinite.Vm.Drops
import Janadinite.Vm.RunCode

namespace Janadinite
open Evaluation Hoare
set_option autoImplicit true

mutual

/-- How an error of a call comes out of the calls around it. -/
def CodeCaller.reports : CodeCaller → Stop → Stop
  | .main, e => e
  | .invoke _ caller, e => caller.reports e
  | .clinit _ caller, e => caller.reports (clinitFailed e)

def LoadCaller.reports : LoadCaller → Stop → Stop
  | .open, e => e
  | .perform _ _ _ caller, e => caller.reports e
  | .superClass _ _ caller, e => caller.reports e

end

def Control.reports : Control → Stop → Stop
  | .run _ _ caller => caller.reports
  | .perform _ _ _ caller => caller.reports
  | .load _ caller => caller.reports
  | .loaded _ caller => caller.reports
  | .finished _ => id

namespace Machine

def Finished (m : Machine) : Prop := ∃ result, m.control = .finished result

/-- The machine, with the errors as they come out of all calls. -/
def reporting [FloatArith] (p : Profile) (path : ClassPath) : Automaton Stop Machine where
  next m := (m.next p path).mapError m.control.reports
  Final := Finished
  stays m h := by
    obtain ⟨result, h⟩ := h
    rw [next, h]
    rfl

end Machine

namespace World

def doing (w : World) (control : Control) : Machine := ⟨w.table, w.files, w.store, control⟩

/-- How the machine goes on when `run_code` has returned. -/
def afterRun (p : Profile) (caller : CodeCaller) :
    World × ThreadContext × Option JVMValue → Except Stop Machine
  | (w, context, result) =>
    ((w.doing (.finished none)).returns p context result caller).mapError caller.reports

def afterInstruction (p : Profile) (act : Activation) (caller : CodeCaller) :
    World × ThreadContext × Outcome → Except Stop Machine
  | (w, context, outcome) =>
    ((w.doing (.finished none)).proceed p act context caller outcome).mapError caller.reports

def afterLoad (caller : LoadCaller) : World × ClassRef → Except Stop Machine
  | (w, c) => .ok (w.doing (.loaded c caller))

theorem returns_doing (p : Profile) (w : World) (control : Control) (context : ThreadContext)
    (result : Option JVMValue) (caller : CodeCaller) :
    ((w.doing control).returns p context result caller).mapError caller.reports =
      afterRun p caller (w, context, result) := by
  cases caller <;> rfl

theorem proceed_doing (p : Profile) (w : World) (control : Control) (act : Activation)
    (context : ThreadContext) (outcome : Outcome) (caller : CodeCaller) :
    ((w.doing control).proceed p act context caller outcome).mapError caller.reports =
      afterInstruction p act caller (w, context, outcome) := by
  cases outcome with
  | «return» result => cases caller <;> rfl
  | _ => rfl

/-- The drops behind `<clinit>` do not end with an error that could come out as another. -/
theorem dropping_clinitFailed (p : Profile) (result : Option JVMValue) (context : ThreadContext)
    (s s' : Store) (e : Stop)
    (h : (do dropSlots p (resultSlots result); dropContext p context : VM Store PUnit) s =
      .error e s') : clinitFailed e = e := by
  have hsilent : Silent (do dropSlots p (resultSlots result); dropContext p context) :=
    (Silent.dropSlots p _).bind fun _ => (Silent.dropSlots p _).bind fun _ => Silent.dropSlots p _
  cases e with
  | error x => exact (hsilent s x s' h).elim
  | _ => rfl

section
variable [FloatArith] {p : Profile} {path : ClassPath}

theorem withStore_follows {w : World} {control control' : Control} {x : VM Store PUnit}
    {f : World → Eval Stop α} {k : α → Except Stop Machine} {raise raise' : Stop → Stop}
    (he : ∀ e s, x w.store = .error e s → raise' e = raise e)
    (h : ∀ w' : World,
      (Machine.reporting p path).Follows fuel (.ok (w'.doing control)) k raise (f w')) :
    (Machine.reporting p path).Follows fuel
      (((w.doing control').withStore control x).mapError raise') k raise (w.withStore x >>= f) := by
  rw [withStore, Machine.withStore]
  simp only [doing]
  cases hx : x w.store with
  | ok _ store => exact h { w with store }
  | error e s =>
    change Automaton.Follows _ _ (.error (raise' e)) _ _ _
    rw [he e s hx]
    exact .raised e

/-- The calls with so much fuel agree with the machine. -/
structure Followed (p : Profile) (path : ClassPath) (fuel : Nat) : Prop where
  run : ∀ (w : World) act context caller, (Machine.reporting p path).Follows fuel
    (.ok (w.doing (.run act context caller))) (afterRun p caller) caller.reports
    (w.runCode p path act context fuel)
  instruction : ∀ (w : World) act op context caller, (Machine.reporting p path).Follows fuel
    (.ok (w.doing (.perform act op context caller))) (afterInstruction p act caller) caller.reports
    (w.instruction p path act op context fuel)
  load : ∀ (w : World) name caller, (Machine.reporting p path).Follows fuel
    (.ok (w.doing (.load name caller))) (afterLoad caller) caller.reports
    (w.loadClassByName p path name fuel)

theorem unfinished (w : World) {control : Control} (h : ∀ result, control ≠ .finished result) :
    ¬ (Machine.reporting p path).Final (w.doing control) := by
  rintro ⟨result, heq⟩
  exact h result heq

theorem create_follows (h : Followed p path fuel) (w : World) (control : Control) (name : String)
    (cls : Class) (superClass : Option ClassRef) (caller : LoadCaller) :
    (Machine.reporting p path).Follows fuel
      (((w.doing control).create p name cls superClass caller).mapError caller.reports)
      (afterLoad caller) caller.reports
      (w.create p (fun w act context => w.runCode p path act context fuel) name cls
        superClass) := by
  have hraised (e : Stop) : (Machine.reporting p path).Follows fuel (.error (caller.reports e))
      (afterLoad caller) caller.reports (throw e) := .raised e
  have hvalue (w : World) (c : ClassRef) : (Machine.reporting p path).Follows fuel
      (afterLoad caller (w, c)) (afterLoad caller) caller.reports (pure (w, c)) := .value (w, c)
  rw [Machine.create, create]
  simp only [doing]
  cases VMClass.create p cls (superClass.map fun c => (c, w.table.get c)) with
  | error e => exact hraised e.corrupted
  | ok v =>
    let c := w.table.classes.length
    simp only
    cases v.methodByName "<clinit>" (some "()V") with
    | none => exact hvalue (w.insert name cls v) c
    | some clinit =>
      simp only
      cases clinit.method.code with
      | none => exact hraised (.panic "<clinit> no code")
      | some code =>
        have hrun := h.run (w.insert name cls v) (.start c clinit.method code)
          (.new code.maxStack code.maxLocals) (.clinit c caller)
        apply (Automaton.Follows.mapError clinitFailed hrun).bind
        rintro ⟨w', context, result⟩
        apply withStore_follows
        · intro e s he
          exact congrArg caller.reports (dropping_clinitFailed p result context _ s e he)
        · exact fun w => hvalue w c

theorem load_follows (h : Followed p path fuel) (w : World) (name : String)
    (caller : LoadCaller) :
    (Machine.reporting p path).Follows (fuel + 1) (.ok (w.doing (.load name caller)))
      (afterLoad caller) caller.reports (w.loadClassByName p path name (fuel + 1)) := by
  have hraised (e : Stop) : (Machine.reporting p path).Follows fuel (.error (caller.reports e))
      (afterLoad caller) caller.reports (throw e) := .raised e
  have hvalue (w : World) (c : ClassRef) : (Machine.reporting p path).Follows fuel
      (afterLoad caller (w, c)) (afterLoad caller) caller.reports (pure (w, c)) := .value (w, c)
  apply Automaton.Follows.step (unfinished w fun _ h => by cases h)
  change Automaton.Follows _ _ (((w.doing _).load p path name caller).mapError _) _ _ _
  rw [Machine.load, loadClassByName]
  simp only [doing]
  cases w.table.lookup name with
  | some c => exact hvalue w c
  | none =>
    cases path name with
    | none => exact hraised (.error (.noSuchClass name))
    | some file =>
      cases file with
      | error e => exact hraised e.corrupted
      | ok cls =>
        by_cases hroot : cls.superName = ""
        · simp only [if_pos hroot]
          exact create_follows h w _ name cls none caller
        · simp only [if_neg hroot]
          have hload := h.load w cls.superName (.superClass name cls caller)
          apply Automaton.Follows.bind hload
          rintro ⟨w', superClass⟩
          apply Automaton.Follows.less
          apply Automaton.Follows.step (unfinished w' fun _ h => by cases h)
          change Automaton.Follows _ _ (((w'.doing _).loaded p superClass
            (.superClass name cls caller)).mapError _) _ _ _
          rw [Machine.loaded]
          simp only [doing]
          cases w'.table.lookup name with
          | some c => exact hvalue w' c
          | none => exact create_follows h w' _ name cls (some superClass) caller

theorem instruction_follows (h : Followed p path fuel) (w : World) (act : Activation) (op : OpCode)
    (context : ThreadContext) (caller : CodeCaller) :
    (Machine.reporting p path).Follows (fuel + 1) (.ok (w.doing (.perform act op context caller)))
      (afterInstruction p act caller) caller.reports
      (w.instruction p path act op context (fuel + 1)) := by
  have hraised (e : Stop) : (Machine.reporting p path).Follows fuel (.error (caller.reports e))
      (afterInstruction p act caller) caller.reports (throw e) := .raised e
  apply Automaton.Follows.step (unfinished w fun _ h => by cases h)
  change Automaton.Follows _ _ (((w.doing _).perform p act op context caller).mapError _) _ _ _
  rw [Machine.perform, instruction]
  simp only [doing]
  cases execute p act.cls act.lastPc op ⟨w.table, w.store, context⟩ with
  | ok outcome r =>
    let w' : World := { w with table := r.table, store := r.store }
    have hproceed := proceed_doing p w' (.perform act op context caller) act r.context outcome
      caller
    change Automaton.Follows _ _ (((w'.doing (.perform act op context caller)).proceed p act
      r.context caller outcome).mapError caller.reports) _ _ (pure (w', r.context, outcome))
    rw [hproceed]
    exact .value (w', r.context, outcome)
  | error e r =>
    cases e with
    | load name =>
      have hload := h.load w name (.perform act op context caller)
      apply Automaton.Follows.bind hload
      rintro ⟨w', c⟩
      apply Automaton.Follows.less
      apply Automaton.Follows.step (unfinished w' fun _ h => by cases h)
      exact h.instruction w' act op context caller
    | error x => exact hraised (.error x)
    | panic msg => exact hraised (.panic msg)
    | abort => exact hraised .abort
    | deadlock => exact hraised .deadlock
    | undefined => exact hraised .undefined
    | outOfFuel => exact hraised .outOfFuel

/-- One round of the loop, and the calls from it on. -/
theorem run_follows (h : Followed p path fuel) (w : World) (act : Activation)
    (context : ThreadContext) (caller : CodeCaller) :
    (Machine.reporting p path).Follows (fuel + 1) (.ok (w.doing (.run act context caller)))
      (afterRun p caller) caller.reports (w.runCode p path act context (fuel + 1)) := by
  apply Automaton.Follows.step (unfinished w fun _ h => by cases h)
  change Automaton.Follows _ _ (((w.doing _).fetch p act context caller).mapError _) _ _ _
  rw [Machine.fetch, runCode]
  cases act.instr.nextOp p with
  | error e => exact .raised e.stop
  | ok next =>
    obtain ⟨op, instr⟩ := next
    cases op with
    | none =>
      have hreturns := returns_doing p w (.run act context caller) context none caller
      change Automaton.Follows _ _ (((w.doing (.run act context caller)).returns p context none
        caller).mapError caller.reports) _ _ (pure (w, context, none))
      rw [hreturns]
      exact .value (w, context, none)
    | some op =>
      apply withStore_follows fun _ _ _ => rfl
      intro w'
      have hinstruction := h.instruction w' { act with instr } op context caller
      apply Automaton.Follows.bind hinstruction
      rintro ⟨w', context, outcome⟩
      cases outcome with
      | next => exact h.run w' _ context caller
      | jump pc => exact h.run w' _ context caller
      | call cls method code =>
        have hcall := h.run w' (.start cls method code) context (.invoke { act with instr } caller)
        apply Automaton.Follows.bind hcall
        rintro ⟨w', context, result⟩
        simp only [afterRun, Machine.returns, withContext, doing]
        cases leaveFrame p result ⟨w'.table, w'.store, context⟩ with
        | ok _ r =>
          exact h.run { w' with table := r.table, store := r.store } _ r.context caller
        | error e r => exact .raised e
      | «return» result =>
        change Automaton.Follows _ _ (afterRun p caller (w', context, result)) _ _
          (pure (w', context, result))
        exact .value (w', context, result)

/-- Induction on the fuel. -/
theorem followed (p : Profile) (path : ClassPath) (fuel : Nat) : Followed p path fuel := by
  induction fuel with
  | zero =>
    constructor
    · exact fun w _ _ _ => .exhausted (unfinished w fun _ h => by cases h)
    · exact fun w _ _ _ _ => .exhausted (unfinished w fun _ h => by cases h)
    · exact fun w _ _ => .exhausted (unfinished w fun _ h => by cases h)
  | succ fuel ih => exact ⟨run_follows ih, instruction_follows ih, load_follows ih⟩

def finish : World × Option JVMValue → Machine
  | (w, result) => w.doing (.finished result)

theorem runMain_follows (p : Profile) (path : ClassPath) (addresses : Nat → Addr)
    (mainClass : String) (fuel : Nat) :
    (Machine.reporting p path).Follows fuel (.ok (Machine.open addresses mainClass))
      (fun a => .ok (finish a)) id (runMain p path addresses mainClass fuel) := by
  have hraised (e : Stop) : (Machine.reporting p path).Follows fuel (.error (id e))
      (fun a => .ok (finish a)) id (throw e) := .raised e
  have hload := (followed p path fuel).load
    ⟨.fromClassPath, [.javaLangObject], .initial addresses⟩ mainClass .open
  apply Automaton.Follows.bind hload
  rintro ⟨w, c⟩
  apply Automaton.Follows.less
  apply Automaton.Follows.step (unfinished w fun _ h => by cases h)
  change Automaton.Follows _ _ (((w.doing _).runMain c).mapError id) _ _ _
  rw [Machine.runMain]
  simp only [doing]
  cases (w.table.get c).methodByName "main" none with
  | none => exact hraised (.error (.noSuchMethodInClass "main"))
  | some meth =>
    simp only
    by_cases hstatic : meth.method.isStatic = true
    · simp only [if_pos hstatic]
      cases meth.method.code with
      | none => exact hraised (.error (.invalidMain "no code"))
      | some code =>
        have hrun := (followed p path fuel).run w (.start c meth.method code)
          (.new code.maxStack code.maxLocals) .main
        apply Automaton.Follows.bind hrun
        rintro ⟨w', context, result⟩
        apply withStore_follows fun _ _ _ => rfl
        exact fun w => .value (k := fun a => .ok (finish a)) (w, result)
    · simp only [if_neg hstatic]
      exact hraised (.error (.invalidMain "not static"))

end

end World

namespace Machine

theorem mapError_ok {f : Stop → Stop} {x : Except Stop Machine} :
    x.mapError f = .ok m ↔ x = .ok m := by
  cases x with
  | ok m' => exact Iff.rfl
  | error e => exact ⟨nofun, nofun⟩

section
variable [FloatArith] {p : Profile} {path : ClassPath}

theorem reporting_after_ok (m m' : Machine) (n : Nat) :
    (reporting p path).after m n = .ok m' ↔ m.after p path n = .ok m' := by
  induction n generalizing m' with
  | zero => exact Iff.rfl
  | succ n ih =>
    constructor
    · intro h
      obtain ⟨m₁, h₁, hnext⟩ := exceptBind_ok h
      change (m.after p path n >>= fun m => m.next p path) = _
      rw [(ih m₁).mp h₁]
      exact mapError_ok.mp hnext
    · intro h
      obtain ⟨m₁, h₁, hnext⟩ := exceptBind_ok h
      change ((reporting p path).after m n >>= (reporting p path).next) = _
      rw [(ih m₁).mpr h₁]
      exact mapError_ok.mpr hnext

/-- What comes out of all calls when the machine stops. -/
theorem reporting_after_error (m : Machine) (e : Stop) :
    (∃ n, (reporting p path).after m n = .error e) ↔ ∃ n m' e', m.after p path n = .ok m' ∧
      m'.next p path = .error e' ∧ m'.control.reports e' = e := by
  constructor
  · rintro ⟨n, h⟩
    induction n with
    | zero => cases h
    | succ n ih =>
      rcases exceptBind_error h with h | ⟨m', hm, hnext⟩
      · exact ih h
      · change (m'.next p path).mapError m'.control.reports = _ at hnext
        cases he : m'.next p path with
        | ok m'' =>
          rw [he] at hnext
          cases hnext
        | error e' =>
          rw [he] at hnext
          exact ⟨n, m', e', (reporting_after_ok m m' n).mp hm, he, Except.error.inj hnext⟩
  · rintro ⟨n, m', e', hm, he, rfl⟩
    refine ⟨n + 1, ?_⟩
    change ((reporting p path).after m n >>= (reporting p path).next) = _
    rw [(reporting_after_ok m m' n).mpr hm]
    change (m'.next p path).mapError m'.control.reports = _
    rw [he]
    rfl

end

/-- `run_code` and `load_class_by_name` as the functions that call themselves and each other come to
the same end as the machine with its stack of calls: they return the same result, or fail with the
same error as it comes out of all calls, or neither comes to an end. -/
theorem runs_recursively [FloatArith] (p : Profile) (path : ClassPath) (addresses : Nat → Addr)
    (mainClass : String) :
    (∀ w result, (∃ fuel, World.runMain p path addresses mainClass fuel = pure (w, result)) ↔
      ∃ n, (Machine.open addresses mainClass).after p path n =
        .ok ⟨w.table, w.files, w.store, .finished result⟩) ∧
    (∀ e, (∃ fuel, World.runMain p path addresses mainClass fuel = throw e) ↔
      ∃ n m e', (Machine.open addresses mainClass).after p path n = .ok m ∧
        m.next p path = .error e' ∧ m.control.reports e' = e) ∧
    ((∀ fuel, World.runMain p path addresses mainClass fuel = outOfFuel) ↔
      ∀ n, ∃ m, (Machine.open addresses mainClass).after p path n = .ok m ∧ ¬ m.Finished) := by
  have hfollows := World.runMain_follows p path addresses mainClass
  have hfin (a : World × Option JVMValue) : (reporting p path).Final (World.finish a) := ⟨a.2, rfl⟩
  have hinj (a b : World × Option JVMValue) (h : World.finish a = World.finish b) : a = b := by
    obtain ⟨⟨table, files, store⟩, result⟩ := a
    obtain ⟨⟨table', files', store'⟩, result'⟩ := b
    cases h
    rfl
  have hresult := Automaton.evaluates_iff hfollows hfin hinj
  refine ⟨?_, ?_, ?_⟩
  · intro w result
    apply (hresult (.ok (w, result))).trans
    exact exists_congr fun n => reporting_after_ok _ _ n
  · intro e
    exact (hresult (.error e)).trans (reporting_after_error _ e)
  · apply (Automaton.diverges_iff hfollows hfin).trans
    apply forall_congr'
    intro n
    exact exists_congr fun m => and_congr_left fun _ => reporting_after_ok _ m n

end Machine

end Janadinite
