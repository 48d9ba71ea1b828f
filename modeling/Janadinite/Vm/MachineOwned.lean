import Janadinite.Vm.Built
import Janadinite.Vm.Calls
import Janadinite.Vm.MachineStep

namespace Janadinite
open Runs Hoare ThreadContext
set_option autoImplicit true

mutual

/-- The contexts that the callers of a call use, the innermost first. -/
def CodeCaller.contexts : CodeCaller → List ThreadContext
  | .main => []
  | .invoke _ caller => caller.contexts
  | .clinit _ caller => caller.contexts

def LoadCaller.contexts : LoadCaller → List ThreadContext
  | .open => []
  | .perform _ _ context caller => context :: caller.contexts
  | .superClass _ _ caller => caller.contexts

end

def Control.contexts : Control → List ThreadContext
  | .run _ context caller => context :: caller.contexts
  | .perform _ _ context caller => context :: caller.contexts
  | .load _ caller => caller.contexts
  | .loaded _ caller => caller.contexts
  | .finished _ => []

/-- The slots in all contexts, and those of the result of a finished run. -/
def Control.slots : Control → List JVMSlot
  | .finished result => resultSlots result
  | control => control.contexts.flatMap ThreadContext.slots

namespace Machine

/-- All slots but those of objects. -/
def live (m : Machine) : List JVMSlot := m.control.slots ++ m.table.statics

def dataSlots (m : Machine) : List JVMSlot :=
  m.store.heap.objects.flatMap fun a => ((m.store.memory a).map Object.data).getD []

def slots (m : Machine) : List JVMSlot := m.live ++ m.dataSlots

def Owned (m : Machine) : Prop := m.store.Owned (refs m.live)

/-- A step either leads to a state with `I` or ends regularly. -/
def Lands (I : Machine → Prop) : Except Stop Machine → Prop
  | .ok m => I m
  | .error e => Regular e ()

end Machine

theorem Regular.machine {e : Stop} {s : σ} (h : Regular e s) : Regular e () := by
  cases e <;> exact h

/-- The context that is left when a frame is popped. -/
def ThreadContext.left (c : ThreadContext) : ThreadContext where
  stack := c.stack.take c.currentFrame.stackStart
  locals := c.locals.take c.currentFrame.localsStart
  prevFrames := c.prevFrames.tail
  currentFrame := c.prevFrames.headD .default

theorem refs_left (c : ThreadContext) :
    (refs (c.locals.drop c.currentFrame.localsStart) ++
      (refs (c.stack.drop c.currentFrame.stackStart) ++ refs c.left.slots)).Perm
      (refs c.slots) := by
  apply List.perm_iff_count.mpr
  intro a
  have hs := refs_take_drop c.stack c.currentFrame.stackStart a
  have hl := refs_take_drop c.locals c.currentFrame.localsStart a
  simp only [slots, left, refs_append, List.count_append]
  omega

theorem popFrame_left (p : Profile) {r : Runtime} {others : List Addr}
    (h : r.store.Owned (refs r.context.slots ++ others)) :
    Ends (fun _ r' => r'.table = r.table ∧ r'.context = r.context.left ∧
      r'.store.Owned (refs r.context.left.slots ++ others)) Regular (popFrame p r) := by
  have h₁ : r.store.Owned (refs (r.context.locals.drop r.context.currentFrame.localsStart) ++
      (refs (r.context.stack.drop r.context.currentFrame.stackStart) ++
        (refs r.context.left.slots ++ others))) := by
    apply h.perm
    have hp := (refs_left r.context).append_right others
    simpa only [List.append_assoc] using hp
  apply Ends.bind (onStore_ends (dropSlots_owned p _ _) (r := { r with context := { r.context with
    currentFrame := r.context.prevFrames.headD .default, prevFrames := r.context.prevFrames.tail,
    locals := r.context.locals.take r.context.currentFrame.localsStart } }) h₁)
  intro _ r₁ _ ⟨ht, hc, ho⟩
  apply (onStore_ends (dropSlots_owned p _ _) (r := { r₁ with context := { r₁.context with
    stack := r₁.context.stack.take r.context.currentFrame.stackStart } }) ho).mono
  · intro _ r₂ ⟨ht₂, hc₂, ho₂⟩
    refine ⟨ht₂.trans ht, ?_, ho₂⟩
    rw [hc₂, hc]
    rfl
  · exact fun _ _ he => he

theorem pushSlots_eq (values : List JVMSlot) (r : Runtime) :
    pushSlots values r = .ok ⟨⟩ { r with
      context := { r.context with stack := r.context.stack ++ values } } := by
  induction values generalizing r with
  | nil =>
    rw [List.append_nil]
    rfl
  | cons slot values ih =>
    change pushSlots values { r with
      context := { r.context with stack := r.context.stack ++ [slot] } } = _
    rw [ih, List.append_assoc]
    rfl

theorem popFrame_ok {r r' : Runtime} (h : popFrame p r = .ok a r') :
    r'.table = r.table ∧ r'.context = r.context.left := by
  change (onStore (dropSlots p _) >>= fun _ => _ : VM Runtime PUnit) _ = _ at h
  obtain ⟨_, r₁, h₁, h⟩ := bind_ok h
  obtain ⟨_, _, rfl⟩ := onStore_ok h₁
  change onStore (dropSlots p _) _ = _ at h
  obtain ⟨_, _, rfl⟩ := onStore_ok h
  exact ⟨rfl, rfl⟩

theorem leaveFrame_ok {r r' : Runtime} (h : leaveFrame p result r = .ok a r') :
    r'.table = r.table ∧
      r'.context = { r.context.left with stack := r.context.left.stack ++ resultSlots result } := by
  obtain ⟨_, r₁, hpop, h⟩ := bind_ok h
  rw [pushSlots_eq] at h
  cases h
  obtain ⟨ht, hc⟩ := popFrame_ok hpop
  rw [← hc]
  exact ⟨ht, rfl⟩

theorem leaveFrame_left (p : Profile) (result : Option JVMValue) {r : Runtime}
    {others : List Addr}
    (h : r.store.Owned (refs (resultSlots result) ++ (refs r.context.slots ++ others))) :
    Ends (fun _ r' => r'.table = r.table ∧
      r'.context = { r.context.left with stack := r.context.left.stack ++ resultSlots result } ∧
      r'.store.Owned (refs r'.context.slots ++ others)) Regular (leaveFrame p result r) := by
  have h₁ := h.perm (List.perm_append_comm_assoc _ _ _)
  apply Ends.bind (popFrame_left p h₁)
  intro _ r₁ _ ⟨ht, hc, ho⟩
  change Ends _ _ (pushSlots (resultSlots result) r₁)
  rw [pushSlots_eq]
  refine ⟨ht, ?_, ?_⟩
  · dsimp only
    rw [hc]
  · apply ho.perm
    dsimp only
    rw [hc]
    apply List.perm_iff_count.mpr
    intro a
    simp only [slots, refs_append, List.count_append]
    omega

theorem dropContext_owned (p : Profile) (c : ThreadContext) (roots : List Addr) :
    Triple (fun s => s.Owned (refs c.slots ++ roots)) (dropContext p c)
      (fun _ s => s.Owned roots) Regular := by
  rw [slots, refs_append, List.append_assoc]
  apply Triple.bind (dropSlots_owned p c.stack _)
  exact fun _ => dropSlots_owned p c.locals roots

namespace Machine

theorem withStore_owned {m : Machine} {x : VM Store PUnit} (control : Control)
    (h : m.store.Owned used)
    (hx : Triple (fun s => s.Owned used) x
      (fun _ s => s.Owned (refs (control.slots ++ m.table.statics))) Regular) :
    Lands Owned (m.withStore control x) := by
  have hm := hx m.store h
  unfold withStore
  cases he : x m.store with
  | ok _ store =>
    rw [he] at hm
    exact hm
  | error e store =>
    rw [he] at hm
    exact Regular.machine hm

/-- Returning passes the references of the result on and drops those in the frame. -/
theorem returns_owned (p : Profile) {m : Machine} (context : ThreadContext)
    (result : Option JVMValue) (caller : CodeCaller)
    (h : m.store.Owned (refs (resultSlots result) ++ (refs context.slots ++
      (refs m.table.statics ++ refs (caller.contexts.flatMap ThreadContext.slots))))) :
    Lands Owned (m.returns p context result caller) := by
  cases caller with
  | main =>
    have h₁ := h.perm (List.perm_append_comm_assoc _ _ _)
    apply withStore_owned (.finished result) h₁
    apply (dropContext_owned p context _).mono
    · exact fun _ hs => hs
    · intro _ s hs
      have hs' : s.Owned (refs (resultSlots result) ++ (refs m.table.statics ++ [])) := hs
      rw [List.append_nil, ← refs_append] at hs'
      exact hs'
    · exact fun _ _ he => he
  | invoke act caller =>
    have hl := leaveFrame_left p result (r := ⟨m.table, m.store, context⟩) h
    rw [returns]
    cases he : leaveFrame p result ⟨m.table, m.store, context⟩ with
    | error e r =>
      rw [he] at hl
      exact Regular.machine hl
    | ok _ r =>
      rw [he] at hl
      obtain ⟨ht, _, ho⟩ := hl
      apply ho.perm
      change (refs (Control.slots (.run _ r.context caller) ++ r.table.statics)).Perm _
      rw [ht]
      apply List.perm_iff_count.mpr
      intro a
      simp only [Control.slots, Control.contexts, CodeCaller.contexts, List.flatMap_cons,
        refs_append, List.count_append]
      omega
  | clinit cls caller =>
    apply withStore_owned (.loaded cls caller) h
    apply Triple.bind (dropSlots_owned p (resultSlots result) _)
    intro _
    apply (dropContext_owned p context _).mono
    · exact fun _ hs => hs
    · intro _ s hs
      rw [refs_append]
      exact hs.perm List.perm_append_comm
    · exact fun _ _ he => he

theorem live_perm (context : ThreadContext) (contexts : List ThreadContext) (t : ClassTable) :
    (refs (context.slots ++ t.statics) ++ refs (contexts.flatMap ThreadContext.slots)).Perm
      (refs ((context :: contexts).flatMap ThreadContext.slots ++ t.statics)) := by
  apply List.perm_iff_count.mpr
  intro a
  simp only [List.flatMap_cons, refs_append, List.count_append]
  omega

theorem fetch_owned (p : Profile) {m : Machine} (act : Activation) (context : ThreadContext)
    (caller : CodeCaller)
    (h : m.store.Owned (refs ((context :: caller.contexts).flatMap ThreadContext.slots ++
      m.table.statics))) : Lands Owned (m.fetch p act context caller) := by
  unfold fetch
  cases act.instr.nextOp p with
  | error e => cases e <;> trivial
  | ok res =>
    obtain ⟨op, instr⟩ := res
    cases op with
    | none =>
      apply returns_owned
      have h₁ := h.perm (live_perm context caller.contexts m.table)
      rwa [refs_append, List.append_assoc] at h₁
    | some op =>
      apply withStore_owned _ h
      cases op.isInvoke with
      | true => exact safepoint_owned _ p
      | false => exact Triple.pure fun _ h => h

theorem proceed_owned (p : Profile) {m : Machine} (act : Activation) (r : Runtime)
    (caller : CodeCaller) (outcome : Outcome)
    (h : r.store.Owned (refs (match outcome with
        | .return result => resultSlots result
        | _ => []) ++
      (refs r.slots ++ refs (caller.contexts.flatMap ThreadContext.slots)))) :
    Lands Owned ({ m with table := r.table, store := r.store }.proceed p act r.context caller
      outcome) := by
  cases outcome with
  | «return» result =>
    apply returns_owned
    rwa [Runtime.slots, refs_append, List.append_assoc] at h
  | _ => exact h.perm (live_perm r.context caller.contexts r.table).symm

theorem framed_begin {m : Machine} {context : ThreadContext} {caller : CodeCaller}
    (h : m.store.Owned (refs ((context :: caller.contexts).flatMap ThreadContext.slots ++
      m.table.statics))) :
    Framed ⟨m.table, context, refs (caller.contexts.flatMap ThreadContext.slots)⟩ []
      ⟨m.table, m.store, context⟩ :=
  ⟨h.perm (live_perm context caller.contexts m.table), .refl _, .refl _⟩

theorem execute_keeps [FloatArith] {m : Machine} (ho : m.Owned)
    (hm : m.control = .perform act op context caller)
    (hx : execute p act.cls act.lastPc op ⟨m.table, m.store, context⟩ = .ok outcome r)
    (hc : ∀ cls method code, outcome ≠ .call cls method code) :
    context.Keeps r.context ∧ m.table.Keeps r.table := by
  rw [Owned, live, hm] at ho
  cases hop : op.isInvoke with
  | true =>
    have he := execute_calls p (framed_begin ho) act.cls act.lastPc hop
    rw [hx] at he
    obtain ⟨cls, method, code, _, _, _, rfl, _⟩ := he
    exact absurd rfl (hc cls method code)
  | false =>
    have he := execute_framed p act.cls act.lastPc hop _ (framed_begin ho)
    rw [hx] at he
    cases outcome with
    | call cls method code => exact he.elim
    | _ => exact ⟨he.context, he.table⟩

theorem framed_calls [FloatArith] {r r' : Runtime} (h : Framed b [] r)
    (hx : execute p cls lastPc op r = .ok (.call target method code) r') :
    Calls b p cls op r (.call target method code) r' := by
  cases hop : op.isInvoke with
  | true =>
    have he := execute_calls p h cls lastPc hop
    rwa [hx] at he
  | false =>
    have he := execute_framed p cls lastPc hop _ h
    rw [hx] at he
    exact he.elim

theorem execute_called [FloatArith] {m : Machine} (ho : m.Owned)
    (hm : m.control = .perform act op context caller)
    (hx : execute p act.cls act.lastPc op ⟨m.table, m.store, context⟩ =
      .ok (.call cls method code) r) :
    Calls ⟨m.table, context, refs (caller.contexts.flatMap ThreadContext.slots)⟩ p act.cls op
      ⟨m.table, m.store, context⟩ (.call cls method code) r := by
  rw [Owned, live, hm] at ho
  exact framed_calls (framed_begin ho) hx

theorem perform_owned [FloatArith] (p : Profile) {m : Machine} (act : Activation) (op : OpCode)
    (context : ThreadContext) (caller : CodeCaller)
    (h : m.store.Owned (refs ((context :: caller.contexts).flatMap ThreadContext.slots ++
      m.table.statics))) : Lands Owned (m.perform p act op context caller) := by
  have hf := framed_begin h
  unfold perform
  cases hop : op.isInvoke with
  | true =>
    have he := execute_calls p hf act.cls act.lastPc hop
    cases hx : execute p act.cls act.lastPc op ⟨m.table, m.store, context⟩ with
    | error e r =>
      rw [hx] at he
      cases e with
      | load name => exact h
      | _ => exact he
    | ok outcome r =>
      rw [hx] at he
      obtain ⟨_, _, _, _, _, _, rfl, _, _, hc⟩ := he
      exact proceed_owned p act r caller _ hc.owned
  | false =>
    have he := execute_framed p act.cls act.lastPc hop _ hf
    cases hx : execute p act.cls act.lastPc op ⟨m.table, m.store, context⟩ with
    | error e r =>
      rw [hx] at he
      cases e with
      | load name => exact h
      | _ => exact he
    | ok outcome r =>
      rw [hx] at he
      apply proceed_owned
      cases outcome with
      | next => exact he.owned
      | jump pc => exact he.owned
      | «return» result => exact he.owned
      | call cls method code => exact he.elim

end Machine

theorem inheritFields_statics (h : VMClass.inheritFields p off supe = .ok (off', fields)) :
    fields.flatMap VMField.statics = [] := by
  induction supe generalizing off off' fields with
  | nil =>
    cases h
    rfl
  | cons f supe ih =>
    rw [VMClass.inheritFields] at h
    cases hd : f.data with
    | static slots =>
      rw [hd] at h
      exact ih h
    | normal o =>
      rw [hd] at h
      obtain ⟨currOff, _, h⟩ := exceptBind_ok h
      obtain ⟨⟨off'', rest⟩, hrest, h⟩ := exceptBind_ok h
      cases h
      rw [List.flatMap_cons, ih hrest]
      rfl

theorem ownFields_statics (h : VMClass.ownFields p idx off decls = .ok fields) :
    refs (fields.flatMap VMField.statics) = [] := by
  induction decls generalizing idx off fields with
  | nil =>
    cases h
    rfl
  | cons f decls ih =>
    rw [VMClass.ownFields] at h
    split at h
    · obtain ⟨rest, hrest, h⟩ := exceptBind_ok h
      cases h
      rw [List.flatMap_cons, refs_append, ih hrest]
      rfl
    · obtain ⟨nextOff, _, h⟩ := exceptBind_ok h
      obtain ⟨rest, hrest, h⟩ := exceptBind_ok h
      cases h
      rw [List.flatMap_cons, refs_append, ih hrest]
      rfl

theorem create_statics (h : VMClass.create p cls superClass = .ok v) : refs v.statics = [] := by
  obtain ⟨currOff, inherited, own, hv⟩ := create_parts h
  rw [VMClass.statics, hv.fields, List.flatMap_append, inheritFields_statics hv.inherit]
  exact ownFields_statics hv.declare

theorem refs_newContext (maxStack maxLocals : UInt16) :
    refs (ThreadContext.new maxStack maxLocals).slots = [] :=
  refs_replicate_null maxLocals.toNat

namespace Machine

theorem create_owned (p : Profile) {m : Machine} (name : String) (cls : Class)
    (superClass : Option ClassRef) (caller : LoadCaller)
    (h : m.store.Owned (refs (caller.contexts.flatMap ThreadContext.slots ++ m.table.statics))) :
    Lands Owned (m.create p name cls superClass caller) := by
  unfold create
  cases hv : VMClass.create p cls (superClass.map fun c => (c, m.table.get c)) with
  | error e => cases e <;> trivial
  | ok v =>
    have hs : ∀ loaded, refs (ClassTable.statics ⟨m.table.classes ++ [v], loaded⟩) =
        refs m.table.statics := by
      intro loaded
      rw [ClassTable.statics, List.flatMap_append, List.flatMap_singleton, refs_append,
        create_statics hv, List.append_nil]
      rfl
    dsimp only
    cases v.methodByName "<clinit>" (some "()V") with
    | none =>
      change Store.Owned _ (refs (_ ++ _))
      rw [refs_append, hs, ← refs_append]
      exact h
    | some clinit =>
      dsimp only
      cases clinit.method.code with
      | none => trivial
      | some code =>
        change Store.Owned _ (refs (((ThreadContext.new _ _).slots ++ _) ++ _))
        rw [refs_append, refs_append, refs_newContext, hs, List.nil_append, ← refs_append]
        exact h

theorem load_owned (p : Profile) (path : ClassPath) {m : Machine} (name : String)
    (caller : LoadCaller)
    (h : m.store.Owned (refs (caller.contexts.flatMap ThreadContext.slots ++ m.table.statics))) :
    Lands Owned (m.load p path name caller) := by
  unfold load
  cases m.table.lookup name with
  | some c => exact h
  | none =>
    dsimp only
    cases path name with
    | none => trivial
    | some res =>
      cases res with
      | error e => cases e <;> trivial
      | ok cls =>
        dsimp only
        split
        · exact create_owned p name cls none caller h
        · exact h

theorem runMain_owned {m : Machine} (c : ClassRef) (h : m.store.Owned (refs m.table.statics)) :
    Lands Owned (m.runMain c) := by
  unfold runMain
  cases (m.table.get c).methodByName "main" none with
  | none => trivial
  | some meth =>
    dsimp only
    split
    · cases meth.method.code with
      | none => trivial
      | some code =>
        change Store.Owned _ (refs (((ThreadContext.new _ _).slots ++ []) ++ _))
        rw [refs_append, refs_append, refs_newContext]
        exact h
    · trivial

theorem loaded_owned (p : Profile) {m : Machine} (c : ClassRef) (caller : LoadCaller)
    (h : m.store.Owned (refs (caller.contexts.flatMap ThreadContext.slots ++ m.table.statics))) :
    Lands Owned (m.loaded p c caller) := by
  cases caller with
  | «open» => exact runMain_owned c h
  | perform act op context caller => exact h
  | superClass name cls caller =>
    rw [loaded]
    cases m.table.lookup name with
    | some c => exact h
    | none => exact create_owned p name cls (some c) caller h

theorem next_owned [FloatArith] (p : Profile) (path : ClassPath) {m : Machine} (h : m.Owned) :
    Lands Owned (m.next p path) := by
  obtain ⟨table, files, store, control⟩ := m
  cases control with
  | run act context caller => exact fetch_owned p act context caller h
  | perform act op context caller => exact perform_owned p act op context caller h
  | load name caller => exact load_owned p path name caller h
  | loaded c caller => exact loaded_owned p c caller h
  | finished result => exact h

theorem tryGc_error (p : Profile) {s : Store} (h : s.Owned roots)
    (he : Heap.tryGc p s = .error e s') : s' = s := by
  by_cases hthreads : s.heap.heapThreads = s.heap.parkedThreads
  · obtain ⟨_, ho, _⟩ := Heap.tryGc_succeeds p h hthreads
    cases ho.symm.trans he
  · cases (Heap.tryGc_panics p hthreads).symm.trans he
    rfl

/-- The GC thread either collects or finds the threads not stopped, and then changes nothing. -/
theorem wakeGc_owned (p : Profile) {m : Machine} (h : m.Owned) (hw : m.wakeGc p = some m') :
    m'.Owned := by
  unfold wakeGc at hw
  split at hw
  · cases ht : Heap.tryGc p m.store with
    | ok _ store =>
      rw [ht] at hw
      cases hw
      have ho := (Heap.tryGc_owned p (refs m.live)).ok h ht
      exact ho.congr rfl rfl rfl
    | error e store =>
      rw [ht] at hw
      cases hw
      cases tryGc_error p h ht
      exact Store.Owned.congr h rfl rfl rfl
  · cases hw

theorem wakeGc_keeps {m m' : Machine} (h : m.wakeGc p = some m') :
    m'.control = m.control ∧ m'.files = m.files ∧ m'.table = m.table := by
  unfold wakeGc at h
  split at h
  · split at h
    · cases h
      exact ⟨rfl, rfl, rfl⟩
    · cases h
      exact ⟨rfl, rfl, rfl⟩
  · cases h

theorem opened_owned (h : Opened m) : m.Owned := by
  cases h with
  | mk addresses mainClass =>
    refine ⟨⟨List.nodup_nil, ?_, ?_, ?_⟩, ?_, rfl⟩
    all_goals exact fun _ ha => absurd ha List.not_mem_nil

theorem step_owned [FloatArith] {p : Profile} {path : ClassPath} (h : m.Owned)
    (hs : Step p path m e m') : m'.Owned := by
  cases e with
  | main =>
    have hn := next_owned p path h
    have hs' : m.next p path = .ok m' := hs
    rwa [hs'] at hn
  | gcThread => exact wakeGc_owned p h hs

theorem reaches_owned [FloatArith] {p : Profile} {path : ClassPath}
    (h : Reaches (Step p path) Ok Opened m) : m.Owned :=
  h.invariant (fun _ => opened_owned) fun _ _ _ hi _ hs => step_owned hi hs

theorem refs_dataSlots (m : Machine) :
    refs m.dataSlots = m.store.graph.held m.store.heap.objects := by
  rw [dataSlots, refs, List.filterMap_flatMap]
  apply List.flatMap_congr
  intro a _
  simp only [Store.graph]
  cases m.store.memory a <;> rfl

/-- Each negative slot refers to an object in the heap, which counts these slots and the heap's own
reference; and no instruction follows a reference to an object that is gone. -/
theorem references_counted [FloatArith] {p : Profile} {path : ClassPath}
    (h : Reaches (Step p path) (fun _ _ => True) Opened m) :
    (∀ slot ∈ m.slots, slot.raw < 0 →
      ∃ a ∈ m.store.heap.objects, a.Fits ∧ slot = .fromObject a) ∧
    (∀ a ∈ m.store.heap.objects, ∃ o, m.store.memory a = some o ∧
      o.strong = 1 + m.slots.count (.fromObject a)) ∧
    ∀ e, m.next p path = .error e → e ≠ .undefined ∧ e ≠ .outOfFuel := by
  have ho : m.Owned := reaches_owned h
  refine ⟨?_, ?_, ?_⟩
  · intro slot hslot hneg
    obtain ⟨a, ha⟩ : ∃ a, slot.object? = some a := ⟨_, if_pos (decide_eq_true hneg)⟩
    have hmem : a ∈ m.store.heap.objects := by
      have hr : a ∈ refs m.slots := List.mem_filterMap.mpr ⟨slot, hslot, ha⟩
      rw [slots, refs_append, refs_dataSlots] at hr
      rcases List.mem_append.mp hr with hr | hr
      · exact ho.counted.root_mem a hr
      · exact ho.counted.held_mem a hr
    exact ⟨a, hmem, (ho.allocated a hmem).1, JVMSlot.eq_fromObject ha⟩
  · intro a ha
    obtain ⟨hf, o, hm, _⟩ := ho.allocated a ha
    have hs := ho.strong ha hm
    rw [← refs_dataSlots, ← List.count_append, ← refs_append, refs_count hf] at hs
    exact ⟨o, hm, hs⟩
  · intro e he
    have hn := next_owned p path ho
    rw [he] at hn
    cases e <;> first | exact hn.elim | exact ⟨nofun, nofun⟩

end Machine

def newDup : Class :=
  staticMethods "Main" [.unusable, .utf8 "Main", .class 1]
    [("main", "()V", ⟨0, 2, [0xbb, 0, 2, 0x59, 0xb1], [], []⟩)]

theorem newDup_counted : ∃ m, mainRun [newDup] 8 = .ok m ∧
    m.slots = [.fromObject 8, .fromObject 8] ∧ m.store.heap.objects = [8] ∧
    ∃ o, m.store.memory 8 = some o ∧ o.strong = 1 + m.slots.count (.fromObject 8) := by
  refine ⟨_, rfl, rfl, rfl, ?_⟩
  have hreach : Reaches (MainStep [newDup]) (fun _ _ => True) _ _ :=
    mainRun_reaches (rfl : mainRun [newDup] 8 = _) fun _ _ _ _ => trivial
  have hcounted := @Machine.references_counted _ noFloats _ _ hreach
  exact hcounted.2.1 8 (List.mem_singleton_self 8)

end Janadinite
