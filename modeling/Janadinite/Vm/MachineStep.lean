import Janadinite.Vm.Machine

namespace Janadinite
open Hoare
set_option autoImplicit true

namespace Machine

/-- A call of `run_code` returns in the state `r`: its code ends there, or it has just carried out a
return. -/
inductive Returning [FloatArith] (p : Profile) (m : Machine) (result : Option JVMValue)
    (r : Runtime)
    (caller : CodeCaller) : Prop
  | codeEnds (hm : m.control = .run act r.context caller)
      (hop : act.instr.nextOp p = .ok (none, instr)) (ht : r.table = m.table)
      (hs : r.store = m.store) (hr : result = none)
  | instruction (hm : m.control = .perform act op context caller)
      (hx : execute p act.cls act.lastPc op ⟨m.table, m.store, context⟩ = .ok (.return result) r)

inductive Making (path : ClassPath) (m : Machine) :
    String → Class → Option ClassRef → LoadCaller → Prop
  | root (hm : m.control = .load name caller) (hl : m.table.lookup name = none)
      (hp : path name = some (.ok cls)) (hs : cls.superName = "") :
      Making path m name cls none caller
  | derived (hm : m.control = .loaded s (.superClass name cls caller))
      (hl : m.table.lookup name = none) : Making path m name cls (some s) caller

def withClass (m : Machine) (name : String) (cls : Class) (v : VMClass) (control : Control) :
    Machine :=
  { m with table := ⟨m.table.classes ++ [v], (name, m.table.classes.length) :: m.table.loaded⟩
           files := m.files ++ [cls]
           control }

/-- What a step of the thread that runs `main` does when it does not stop. -/
inductive Advances [FloatArith] (p : Profile) (path : ClassPath) (m : Machine) : Machine → Prop
  | fetch (hm : m.control = .run act context caller)
      (hop : act.instr.nextOp p = .ok (some op, instr))
      (hs : (if op.isInvoke then safepoint p else pure ⟨⟩) m.store = .ok ⟨⟩ s) :
      Advances p path m
        { m with store := s, control := .perform { act with instr } op context caller }
  | next (hm : m.control = .perform act op context caller)
      (hx : execute p act.cls act.lastPc op ⟨m.table, m.store, context⟩ = .ok .next r) :
      Advances p path m {
        m with table := r.table, store := r.store
               control := .run { act with lastPc := act.instr.pc } r.context caller }
  | jump (hm : m.control = .perform act op context caller)
      (hx : execute p act.cls act.lastPc op ⟨m.table, m.store, context⟩ = .ok (.jump pc) r) :
      Advances p path m {
        m with table := r.table, store := r.store
               control := .run { act with instr := act.instr.setPc pc, lastPc := pc } r.context
                 caller }
  | call (hm : m.control = .perform act op context caller)
      (hx : execute p act.cls act.lastPc op ⟨m.table, m.store, context⟩ =
        .ok (.call cls method code) r) :
      Advances p path m {
        m with table := r.table, store := r.store
               control := .run (.start cls method code) r.context (.invoke act caller) }
  | needs (hm : m.control = .perform act op context caller)
      (hx : execute p act.cls act.lastPc op ⟨m.table, m.store, context⟩ = .error (.load name) r) :
      Advances p path m { m with control := .load name (.perform act op context caller) }
  | finish (hr : Returning p m result r .main)
      (hd : dropContext p r.context r.store = .ok ⟨⟩ s) :
      Advances p path m { m with table := r.table, store := s, control := .finished result }
  | leave (hr : Returning p m result r (.invoke act caller))
      (hl : leaveFrame p result r = .ok ⟨⟩ r') :
      Advances p path m {
        m with table := r'.table, store := r'.store
               control := .run { act with lastPc := act.instr.pc } r'.context caller }
  | endClinit (hr : Returning p m result r (.clinit cls caller))
      (hd : (do dropSlots p (resultSlots result); dropContext p r.context) r.store =
        .ok ⟨⟩ s) :
      Advances p path m { m with table := r.table, store := s, control := .loaded cls caller }
  | found (hm : m.control = .load name caller) (hl : m.table.lookup name = some c) :
      Advances p path m { m with control := .loaded c caller }
  | superclass (hm : m.control = .load name caller) (hl : m.table.lookup name = none)
      (hp : path name = some (.ok cls)) (hs : cls.superName ≠ "") :
      Advances p path m { m with control := .load cls.superName (.superClass name cls caller) }
  | create {superClass : Option ClassRef} (hmk : Making path m name cls superClass caller)
      (hv : VMClass.create p cls (superClass.map fun c => (c, m.table.get c)) = .ok v)
      (hc : v.methodByName "<clinit>" (some "()V") = none) :
      Advances p path m (m.withClass name cls v (.loaded m.table.classes.length caller))
  | startClinit {superClass : Option ClassRef} (hmk : Making path m name cls superClass caller)
      (hv : VMClass.create p cls (superClass.map fun c => (c, m.table.get c)) = .ok v)
      (hc : v.methodByName "<clinit>" (some "()V") = some clinit)
      (hcode : clinit.method.code = some code) :
      Advances p path m (m.withClass name cls v (.run
        (.start m.table.classes.length clinit.method code)
        (ThreadContext.new code.maxStack code.maxLocals)
        (.clinit m.table.classes.length caller)))
  | startMain (hm : m.control = .loaded c .open)
      (hmain : (m.table.get c).methodByName "main" none = some meth)
      (hs : meth.method.isStatic = true) (hcode : meth.method.code = some code) :
      Advances p path m { m with
        control := .run (.start c meth.method code)
          (ThreadContext.new code.maxStack code.maxLocals) .main }
  | resume (hm : m.control = .loaded c (.perform act op context caller)) :
      Advances p path m { m with control := .perform act op context caller }
  | superFound (hm : m.control = .loaded s (.superClass name cls caller))
      (hl : m.table.lookup name = some c) :
      Advances p path m { m with control := .loaded c caller }
  | idle (hm : m.control = .finished result) : Advances p path m m

theorem withStore_ok {m : Machine} {next : Control} (h : m.withStore next x = .ok m') :
    ∃ s, x m.store = .ok ⟨⟩ s ∧ m' = { m with store := s, control := next } := by
  unfold withStore at h
  cases hx : x m.store with
  | ok _ s =>
    rw [hx] at h
    cases h
    exact ⟨s, rfl, rfl⟩
  | error e s =>
    rw [hx] at h
    cases h

section
variable [FloatArith] {p : Profile} {path : ClassPath} {m m' : Machine}

theorem next_run (hm : m.control = .run act context caller) :
    m.next p path = m.fetch p act context caller := by
  rw [next, hm]

theorem next_perform (hm : m.control = .perform act op context caller) :
    m.next p path = m.perform p act op context caller := by
  rw [next, hm]

theorem next_load (hm : m.control = .load name caller) :
    m.next p path = m.load p path name caller := by
  rw [next, hm]

theorem next_loaded (hm : m.control = .loaded c caller) : m.next p path = m.loaded p c caller := by
  rw [next, hm]

theorem returns_advances {r : Runtime} (hr : Returning p m result r caller)
    (h : { m with table := r.table, store := r.store }.returns p r.context result caller =
      .ok m') : Advances p path m m' := by
  cases caller with
  | main =>
    obtain ⟨_, hd, rfl⟩ := withStore_ok h
    exact .finish hr hd
  | invoke act caller =>
    rw [returns] at h
    cases hl : leaveFrame p result r with
    | error e r' =>
      rw [hl] at h
      cases h
    | ok _ r' =>
      rw [hl] at h
      cases h
      exact .leave hr hl
  | clinit cls caller =>
    obtain ⟨_, hd, rfl⟩ := withStore_ok h
    exact .endClinit hr hd

theorem fetch_advances (hm : m.control = .run act context caller)
    (h : m.fetch p act context caller = .ok m') : Advances p path m m' := by
  unfold fetch at h
  cases hop : act.instr.nextOp p with
  | error e =>
    rw [hop] at h
    cases h
  | ok res =>
    obtain ⟨op, instr⟩ := res
    rw [hop] at h
    cases op with
    | none =>
      have hr : Returning p m none ⟨m.table, m.store, context⟩ caller :=
        .codeEnds hm hop rfl rfl rfl
      exact returns_advances hr h
    | some op =>
      obtain ⟨_, hs, rfl⟩ := withStore_ok h
      exact .fetch hm hop hs

theorem perform_advances (hm : m.control = .perform act op context caller)
    (h : m.perform p act op context caller = .ok m') : Advances p path m m' := by
  unfold perform at h
  cases hx : execute p act.cls act.lastPc op ⟨m.table, m.store, context⟩ with
  | error e r =>
    rw [hx] at h
    cases e with
    | load name =>
      cases h
      exact .needs hm hx
    | _ => cases h
  | ok outcome r =>
    rw [hx] at h
    cases outcome with
    | next =>
      cases h
      exact .next hm hx
    | jump pc =>
      cases h
      exact .jump hm hx
    | call cls method code =>
      cases h
      exact .call hm hx
    | «return» result => exact returns_advances (.instruction hm hx) h

theorem create_advances {superClass : Option ClassRef}
    (hmk : Making path m name cls superClass caller)
    (h : m.create p name cls superClass caller = .ok m') : Advances p path m m' := by
  unfold create at h
  cases hv : VMClass.create p cls (superClass.map fun c => (c, m.table.get c)) with
  | error e =>
    rw [hv] at h
    cases h
  | ok v =>
    rw [hv] at h
    dsimp only at h
    split at h
    · rename_i hc
      cases h
      exact .create hmk hv hc
    · rename_i clinit hc
      split at h
      · cases h
      · rename_i code hcode
        cases h
        exact .startClinit hmk hv hc hcode

theorem load_advances (hm : m.control = .load name caller)
    (h : m.load p path name caller = .ok m') : Advances p path m m' := by
  unfold load at h
  split at h
  · rename_i c hl
    cases h
    exact .found hm hl
  · rename_i hl
    split at h
    · cases h
    · cases h
    · rename_i cls hp
      split at h
      · rename_i hs
        exact create_advances (.root hm hl hp hs) h
      · rename_i hs
        cases h
        exact .superclass hm hl hp hs

theorem loaded_advances (hm : m.control = .loaded c caller)
    (h : m.loaded p c caller = .ok m') : Advances p path m m' := by
  cases caller with
  | «open» =>
    rw [loaded, runMain] at h
    split at h
    · cases h
    · rename_i meth hmain
      split at h
      · rename_i hs
        split at h
        · cases h
        · rename_i code hcode
          cases h
          exact .startMain hm hmain hs hcode
      · cases h
  | perform act op context caller =>
    cases h
    exact .resume hm
  | superClass name cls caller =>
    rw [loaded] at h
    split at h
    · rename_i c hl
      cases h
      exact .superFound hm hl
    · rename_i hl
      exact create_advances (.derived hm hl) h

/-- The step that was taken, with what it depends on. -/
theorem next_advances (h : m.next p path = .ok m') : Advances p path m m' := by
  cases hm : m.control with
  | run act context caller => exact fetch_advances hm (next_run hm ▸ h)
  | perform act op context caller => exact perform_advances hm (next_perform hm ▸ h)
  | load name caller => exact load_advances hm (next_load hm ▸ h)
  | loaded c caller => exact loaded_advances hm (next_loaded hm ▸ h)
  | finished result =>
    rw [next, hm] at h
    cases h
    exact .idle hm

end

end Machine

end Janadinite
