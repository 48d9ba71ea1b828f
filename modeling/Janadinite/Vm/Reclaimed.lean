import Janadinite.Parse.CodeAttribute
import Janadinite.Parse.CodeWalk
import Janadinite.Vm.ExecuteListed
import Janadinite.Vm.MachineOwned

namespace Janadinite
open Runs Hoare ThreadContext
set_option autoImplicit true

/-- The computation panics, if at all, where an addition does. -/
def Summing (p : Profile) (r : Except Fault α) : Prop :=
  ∀ msg, r = .error (.panic msg) → ∃ w a b, p.add w a b = .error msg

namespace Summing
variable {p : Profile}

theorem ok (a : α) : Summing p (.ok a : Except Fault α) := fun _ h => by cases h

theorem error (e : Error) : Summing p (.error (.error e) : Except Fault α) := fun _ h => by cases h

theorem bind {m : Except Fault α} {f : α → Except Fault β} (hm : Summing p m)
    (hf : ∀ a, Summing p (f a)) : Summing p (m >>= f) := by
  intro msg h
  rcases exceptBind_error h with h | ⟨a, _, h⟩
  · exact hm msg h
  · exact hf a msg h

theorem getConst (variant : String) (pick : ConstantPoolEntry → Option α)
    (pool : List ConstantPoolEntry) (idx : UInt16) (targetName : String) :
    Summing p (getConst variant pick pool idx targetName) := by
  intro msg h
  obtain ⟨e, he⟩ := JVMAttribute.getConst_error h
  cases he

theorem addU32 (a : UInt32) (b : Nat) : Summing p (VMClass.addU32 p a b) := by
  intro msg h
  rw [VMClass.addU32] at h
  cases ha : p.add 32 a.toNat (UInt32.ofNat b).toNat with
  | ok n =>
    rw [ha] at h
    cases h
  | error text =>
    rw [ha] at h
    cases h
    exact ⟨_, _, _, ha⟩

theorem inheritFields (off : UInt32) (supe : List VMField) :
    Summing p (VMClass.inheritFields p off supe) := by
  induction supe generalizing off with
  | nil => exact .ok _
  | cons f supe ih =>
    rw [VMClass.inheritFields]
    cases f.data with
    | static slots => exact ih off
    | normal o => exact (addU32 o _).bind fun off => (ih off).bind fun _ => .ok _

theorem ownFields (idx : Nat) (off : UInt32) (decls : List JVMField) :
    Summing p (VMClass.ownFields p idx off decls) := by
  induction decls generalizing idx off with
  | nil => exact .ok _
  | cons f decls ih =>
    rw [VMClass.ownFields]
    split
    · exact (ih (idx + 1) off).bind fun _ => .ok _
    · exact (addU32 off _).bind fun off => (ih (idx + 1) off).bind fun _ => .ok _

theorem memberRef (entries : List ConstantPoolEntry) (classIndex nameAndTypeIndex : UInt16) :
    Summing p (memberRef entries classIndex nameAndTypeIndex) := by
  apply (getConst _ _ entries classIndex _).bind
  intro classNameIndex
  apply (getConst _ _ entries nameAndTypeIndex _).bind
  intro (nameIndex, descriptorIndex)
  apply (getConst _ _ entries classNameIndex _).bind
  intro className
  apply (getConst _ _ entries nameIndex _).bind
  intro name
  exact (getConst _ _ entries descriptorIndex _).bind fun _ => .ok _

theorem resolveEntry (entries : List ConstantPoolEntry) (thisName : String)
    (methods : List VMMethod) (fields : List VMField) (entry : ConstantPoolEntry) :
    Summing p (resolveEntry entries thisName methods fields entry) := by
  cases entry with
  | nameAndType nameIndex descriptorIndex =>
    apply (getConst _ _ entries nameIndex _).bind
    exact fun _ => (getConst _ _ entries descriptorIndex _).bind fun _ => .ok _
  | «class» nameIndex =>
    apply (getConst _ _ entries nameIndex _).bind
    intro name
    split
    · split
      · exact .ok _
      · exact .error _
    · exact .ok _
  | methodref classIndex nameAndTypeIndex =>
    apply (memberRef entries classIndex nameAndTypeIndex).bind
    intro ref
    cases eagerMethod thisName methods ref with
    | some meth => exact .ok _
    | none => exact .ok _
  | fieldref classIndex nameAndTypeIndex =>
    apply (memberRef entries classIndex nameAndTypeIndex).bind
    intro ref
    cases eagerField thisName fields ref with
    | some field => exact .ok _
    | none => exact .ok _
  | _ => exact .ok _

theorem fromUnresolved (entries : List ConstantPoolEntry) (thisName : String)
    (methods : List VMMethod) (fields : List VMField) :
    Summing p (VMConstantPool.fromUnresolved entries thisName methods fields) := by
  intro msg h
  obtain ⟨entry, _, he⟩ := mapM_error h
  exact resolveEntry entries thisName methods fields entry msg he

theorem create (cls : Class) (superClass : Option (ClassRef × VMClass)) :
    Summing p (VMClass.create p cls superClass) := by
  apply (inheritFields 0 _).bind
  intro (off, inherited)
  apply (ownFields 0 off cls.fields).bind
  exact fun own => (fromUnresolved cls.constantPool cls.thisName _ _).bind fun _ => .ok _

end Summing

theorem Clear.listed {P : σ → Prop} {s : σ} (h : Clear P e s) : e ≠ .panic unlistedMsg := by
  rintro rfl
  exact h rfl

section
variable (p : Profile)

theorem dropContext_safely (c : ThreadContext) : Safely Store.Listed (dropContext p c) :=
  (dropSlots_safely p c.stack).bind fun _ => dropSlots_safely p c.locals

theorem leaveFrame_safely (result : Option JVMValue) :
    Safely Runtime.Listed (leaveFrame p result) := by
  have hc := safely_composes
  have hdrop (slots : List JVMSlot) : Safely Runtime.Listed (onStore (dropSlots p slots)) :=
    hc.onStore (dropSlots_safely p slots)
  apply Safely.bind _ fun _ => hc.pushSlots _
  apply hc.readContext.bind
  intro c
  apply (hc.context _).bind
  intro _
  apply (hc.context _).bind
  exact fun _ => (hdrop _).bind fun _ => (hc.context _).bind fun _ => hdrop _

end

namespace Machine

/-- A step either leaves the objects listed or ends otherwise than because one is not listed, unless
that is what reading a class file ends with. -/
def KeepsListed (path : ClassPath) : Except Stop Machine → Prop
  | .ok m => m.store.Listed
  | .error e => e = .panic unlistedMsg → ∃ name, path name = some (.error (.panic unlistedMsg))

section
variable {path : ClassPath} {m : Machine}

theorem keepsListed_error (h : e ≠ .panic unlistedMsg) : KeepsListed path (.error e) :=
  fun he => absurd he h

theorem withStore_listed {P : Store → Prop} {x : VM Store PUnit} (control : Control)
    (h : P m.store) (hx : Triple P x (fun _ => Store.Listed) (Clear Store.Listed)) :
    KeepsListed path (m.withStore control x) := by
  have hm := hx m.store h
  unfold withStore
  cases he : x m.store with
  | ok _ store =>
    rw [he] at hm
    exact hm
  | error e store =>
    rw [he] at hm
    exact keepsListed_error hm.listed

theorem returns_listed (p : Profile) (context : ThreadContext) (result : Option JVMValue)
    (caller : CodeCaller) (h : m.store.Listed) :
    KeepsListed path (m.returns p context result caller) := by
  cases caller with
  | main => exact withStore_listed _ h (dropContext_safely p context)
  | invoke act caller =>
    have hl := leaveFrame_safely p result ⟨m.table, m.store, context⟩ h
    rw [returns]
    cases he : leaveFrame p result ⟨m.table, m.store, context⟩ with
    | ok _ r =>
      rw [he] at hl
      exact hl
    | error e r =>
      rw [he] at hl
      exact keepsListed_error hl.listed
  | clinit cls caller =>
    apply withStore_listed _ h
    exact (dropSlots_safely p (resultSlots result)).bind fun _ => dropContext_safely p context

theorem fetch_listed (p : Profile) (act : Activation) (context : ThreadContext)
    (caller : CodeCaller) (ho : m.Owned) (h : m.store.Listed) :
    KeepsListed path (m.fetch p act context caller) := by
  unfold fetch
  cases hop : act.instr.nextOp p with
  | error fault =>
    obtain ⟨a, b, msg, hadd, rfl⟩ := Instructions.nextOp_adds hop
    apply keepsListed_error
    intro he
    exact mild_add p 16 a b msg hadd (Stop.panic.inj he)
  | ok res =>
    obtain ⟨op, instr⟩ := res
    cases op with
    | none => exact returns_listed p context none caller h
    | some op =>
      have hsound : Store.Sound (refs m.live) m.store := ⟨ho, h⟩
      apply withStore_listed _ hsound
      cases op.isInvoke with
      | true => exact safepoint_listed p _
      | false => exact Triple.pure fun _ hs => hs.2

theorem perform_listed [FloatArith] (p : Profile) (act : Activation) (op : OpCode)
    (context : ThreadContext) (caller : CodeCaller)
    (hm : m.control = .perform act op context caller)
    (ho : m.Owned) (h : m.store.Listed) :
    KeepsListed path (m.perform p act op context caller) := by
  rw [Owned, live, hm] at ho
  have hx := execute_listed p act.cls act.lastPc op _ ⟨framed_begin ho, h⟩
  unfold perform
  cases he : execute p act.cls act.lastPc op ⟨m.table, m.store, context⟩ with
  | ok outcome r =>
    rw [he] at hx
    cases outcome with
    | «return» result => exact returns_listed p r.context result caller hx
    | _ => exact hx
  | error e r =>
    rw [he] at hx
    have hne : e ≠ .panic unlistedMsg := Clear.listed (P := Runtime.Listed) hx
    cases e with
    | load name => exact h
    | _ => exact keepsListed_error hne

theorem create_listed (p : Profile) (name : String) (cls : Class) (superClass : Option ClassRef)
    (caller : LoadCaller) (h : m.store.Listed) :
    KeepsListed path (m.create p name cls superClass caller) := by
  unfold create
  cases hv : VMClass.create p cls (superClass.map fun c => (c, m.table.get c)) with
  | error fault =>
    apply keepsListed_error
    cases fault with
    | error e =>
      intro he
      cases he
    | panic msg =>
      obtain ⟨w, a, b, hadd⟩ := Summing.create cls _ msg hv
      intro he
      exact mild_add p w a b msg hadd (Stop.panic.inj he)
  | ok v =>
    dsimp only
    split
    · exact h
    · split
      · apply keepsListed_error
        decide
      · exact h

theorem load_listed (p : Profile) (name : String) (caller : LoadCaller) (h : m.store.Listed) :
    KeepsListed path (m.load p path name caller) := by
  unfold load
  split
  · exact h
  · split
    · apply keepsListed_error
      intro he
      cases he
    · rename_i fault hpath
      intro he
      cases fault with
      | error e => cases he
      | panic msg =>
        cases he
        exact ⟨name, hpath⟩
    · split
      · exact create_listed p name _ none caller h
      · exact h

theorem runMain_listed (c : ClassRef) (h : m.store.Listed) : KeepsListed path (m.runMain c) := by
  have herror (e : VMError) : KeepsListed path (.error (.error e)) := fun he => by cases he
  unfold runMain
  split
  · exact herror _
  · split
    · split
      · exact herror _
      · exact h
    · exact herror _

theorem loaded_listed (p : Profile) (c : ClassRef) (caller : LoadCaller) (h : m.store.Listed) :
    KeepsListed path (m.loaded p c caller) := by
  cases caller with
  | «open» => exact runMain_listed c h
  | perform act op context caller => exact h
  | superClass name cls caller =>
    rw [loaded]
    split
    · exact h
    · exact create_listed p name cls (some c) caller h

theorem next_listed [FloatArith] (p : Profile) (path : ClassPath) (ho : m.Owned)
    (h : m.store.Listed) : KeepsListed path (m.next p path) := by
  cases hm : m.control with
  | run act context caller =>
    rw [next_run hm]
    exact fetch_listed p act context caller ho h
  | perform act op context caller =>
    rw [next_perform hm]
    exact perform_listed p act op context caller hm ho h
  | load name caller =>
    rw [next_load hm]
    exact load_listed p name caller h
  | loaded c caller =>
    rw [next_loaded hm]
    exact loaded_listed p c caller h
  | finished result =>
    rw [next, hm]
    exact h

theorem wakeGc_listed (p : Profile) (ho : m.Owned) (h : m.store.Listed)
    (hw : m.wakeGc p = some m') : m'.store.Listed := by
  have hgc := tryGc_listed p (refs m.live) m.store ⟨ho, h⟩
  unfold wakeGc at hw
  split at hw
  · cases ht : Heap.tryGc p m.store with
    | ok _ store =>
      rw [ht] at hw hgc
      cases hw
      exact hgc
    | error e store =>
      rw [ht] at hw
      cases hw
      cases tryGc_error p ho ht
      exact h
  · cases hw

theorem reaches_listed [FloatArith] {p : Profile} (h : Reaches (Step p path) Ok Opened m) :
    m.Owned ∧ m.store.Listed := by
  apply h.invariant
  · intro m hm
    cases hm
    refine ⟨opened_owned (.mk _ _), ?_⟩
    intro a o ho
    cases ho
  · intro m e m' hi _ hs
    refine ⟨step_owned hi.1 hs, ?_⟩
    cases e with
    | main =>
      have hn := next_listed p path hi.1 hi.2
      have hs' : m.next p path = .ok m' := hs
      rwa [hs'] at hn
    | gcThread => exact wakeGc_listed p hi.1 hi.2 hs

/-- What is in memory is referred to from outside the heap or by another object in it. -/
theorem referred (ho : m.Owned) (hl : m.store.Listed) (ha : a ∈ m.store.heap.objects) :
    a ∈ refs m.live ∨ ∃ b ∈ m.store.heap.objects, a ∈ m.store.graph.refs b := by
  obtain ⟨o, hobj⟩ := ho.allocated.get ha
  have hs := ho.strong ha hobj
  have h2 := (hl a o hobj).2
  by_cases hroot : a ∈ refs m.live
  · exact .inl hroot
  · rw [List.count_eq_zero.mpr hroot] at hs
    have hheld : a ∈ m.store.graph.held m.store.heap.objects := List.count_pos_iff.mp (by omega)
    obtain ⟨b, hb, href⟩ := List.mem_flatMap.mp hheld
    exact .inr ⟨b, hb, href⟩

theorem mem_slots (m : Machine) : a ∈ refs m.slots ↔
    a ∈ refs m.live ∨ ∃ b ∈ m.store.heap.objects, a ∈ m.store.graph.refs b := by
  rw [slots, refs_append, refs_dataSlots, List.mem_append]
  apply or_congr_right
  exact List.mem_flatMap

/-- The memory that a run leaves behind: between two steps, or when an instruction is an error. -/
inductive Left [FloatArith] (p : Profile) (m : Machine) : Store → Prop
  | between : Left p m m.store
  | failed (hm : m.control = .perform act op context caller)
      (hx : execute p act.cls act.lastPc op ⟨m.table, m.store, context⟩ = .error (.error e) r) :
      Left p m r.store

theorem Left.listed [FloatArith] {p : Profile} (h : m.Left p s) (ho : m.Owned)
    (hl : m.store.Listed) : s.Listed := by
  cases h with
  | between => exact hl
  | @failed act op context caller e r hm hx =>
    rw [Owned, live, hm] at ho
    have he := execute_listed p act.cls act.lastPc op _ ⟨framed_begin ho, hl⟩
    rw [hx] at he
    exact he

/-- Between two steps an object is in memory only while a slot refers to it besides the heap; all
that is in memory is kept by slots outside the heap or by a cycle. No step, no collection and no
drop of references finds an object that the heap does not list. -/
theorem garbage_reclaimed [FloatArith] {p : Profile}
    (h : Reaches (Step p path) (fun _ _ => True) Opened m) :
    (∀ a ∈ m.store.heap.objects, ∃ o, m.store.memory a = some o ∧ 2 ≤ o.strong ∧
      a ∈ refs m.slots) ∧
    (∀ a, a ∉ refs m.slots → m.store.memory a = none) ∧
    (∀ a o, m.store.memory a = some o → m.store.graph.Reachable (refs m.live) a ∨
      ∃ c, m.store.graph.Cyclic c ∧ m.store.graph.Reachable [c] a) ∧
    (m.next p path = .error (.panic unlistedMsg) →
      ∃ name, path name = some (.error (.panic unlistedMsg))) ∧
    (∀ s, Heap.tryGc p m.store ≠ .error (.panic unlistedMsg) s) ∧
    ∀ s, m.Left p s → ∀ slots s', dropSlots p slots s ≠ .error (.panic unlistedMsg) s' := by
  obtain ⟨ho, hl⟩ := reaches_listed h
  have hmem : ∀ a o, m.store.memory a = some o → a ∈ m.store.heap.objects := fun a o ha =>
    (hl a o ha).1
  refine ⟨?_, ?_, ?_, ?_, ?_, ?_⟩
  · intro a ha
    obtain ⟨o, hobj⟩ := ho.allocated.get ha
    exact ⟨o, hobj, (hl a o hobj).2, m.mem_slots.mpr (referred ho hl ha)⟩
  · intro a hno
    cases ha : m.store.memory a with
    | none => rfl
    | some o => exact absurd (m.mem_slots.mpr (referred ho hl (hmem a o ha))) hno
  · intro a o ha
    exact RefCount.Graph.reachable_or_cycle (fun b hb => referred ho hl hb) (hmem a o ha)
  · intro hn
    have hk := next_listed p path ho hl
    rw [hn] at hk
    exact hk rfl
  · intro s hgc
    have hk := tryGc_listed p (refs m.live) m.store ⟨ho, hl⟩
    rw [hgc] at hk
    exact hk rfl
  · intro s hs slots s' hd
    have hk := dropSlots_safely p slots s (hs.listed ho hl)
    rw [hd] at hk
    exact hk rfl

end

end Machine

/-- When `main` has returned, the object that it made is gone. -/
theorem newDup_reclaimed :
    (∃ m, mainRun [newDup] 8 = .ok m ∧ (m.store.memory 8).isSome = true) ∧
    ∃ m, mainRun [newDup] 10 = .ok m ∧ m.store.memory 8 = none := by
  refine ⟨mainRun_any (by decide +kernel), ?_⟩
  obtain ⟨m, hm, hslots⟩ : ∃ m, mainRun [newDup] 10 = .ok m ∧
      decide (8 ∉ refs m.slots) = true := mainRun_any (by decide +kernel)
  have hreach : Reaches (MainStep [newDup]) (fun _ _ => True) Machine.Opened m :=
    mainRun_reaches hm fun _ _ _ _ => trivial
  have hreclaimed := @Machine.garbage_reclaimed _ _ noFloats _ hreach
  exact ⟨m, hm, hreclaimed.2.1 8 (of_decide_eq_true hslots)⟩

end Janadinite
