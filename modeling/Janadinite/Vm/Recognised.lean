import Janadinite.Vm.Boundaries

namespace Janadinite
open Runs Hoare
set_option autoImplicit true

/-- The bytes at pc decode to an instruction that is not implemented, or to one that is cut off. -/
def Activation.fetchesInvalid (p : Profile) (act : Activation) : Bool :=
  match act.instr.nextOp p with
  | .ok (some (.invalid _), _) => true
  | _ => false

/-- The state before a step fetches no invalid instruction. -/
def Machine.Recognised (p : Profile) (m : Machine) (e : Machine.Event) : Prop :=
  e = .main → ∀ act context caller, m.control = .run act context caller →
    act.fetchesInvalid p = false

/-- An invalid instruction, when it is reached, ends the run with a `VMError`. -/
def Machine.InvalidStops [FloatArith] (p : Profile) (path : ClassPath) (m : Machine) : Prop :=
  ∀ act op context caller, m.control = .perform act (.invalid op) context caller →
    ∃ e, m.next p path = .error (.error e)

def Machine.runCode (table : ClassTable) (files : List Class) (store : Store) (cls : ClassRef)
    (method : JVMMethod) (code : JVMCode) (context : ThreadContext) : Machine :=
  ⟨table, files, store, .run (.start cls method code) context .main⟩

theorem recognised_rule (p : Profile) :
    LoopRule (fun _ => True) (fun _ op => ∀ i, op ≠ .invalid i)
      (fun act => act.fetchesInvalid p = false) p where
  start := fun _ _ _ => trivial
  fetch := by
    rintro act op instr - hf hop i rfl
    rw [Activation.fetchesInvalid, hop] at hf
    cases hf
  next := fun _ => trivial
  jump := fun _ _ => trivial

/-- The run goes on after an invalid instruction as after any other. -/
theorem invalid_continues [FloatArith] {p : Profile} {path : ClassPath} {m : Machine}
    (hm : m.control = .perform act (.invalid op) context caller) :
    m.next p path = .ok { m with
      control := .run { act with lastPc := act.instr.pc } context caller } := by
  rw [Machine.next_perform hm]
  rfl

theorem fetch_invalid [FloatArith] {p : Profile} {path : ClassPath} {m : Machine}
    (hm : m.control = .run act context caller) (hf : act.fetchesInvalid p = true) :
    ∃ op instr, m.next p path = .ok { m with
      control := .perform { act with instr } (.invalid op) context caller } := by
  unfold Activation.fetchesInvalid at hf
  split at hf
  · rename_i op instr hop
    refine ⟨op, instr, ?_⟩
    rw [Machine.next_run hm, Machine.fetch, hop]
    rfl
  · cases hf

/-- An invalid instruction ends a call of `run_code` wherever the run reaches one, exactly when it
reaches none. -/
theorem invalid_stops_iff [FloatArith] (p : Profile) (path : ClassPath) (table : ClassTable)
    (files : List Class) (store : Store) (cls : ClassRef) (method : JVMMethod) (code : JVMCode)
    (context : ThreadContext) :
    let start := Machine.runCode table files store cls method code context
    (∀ m, Reaches (Machine.Step p path) (fun _ _ => True) (· = start) m → m.InvalidStops p path) ↔
      ∀ m, Reaches (Machine.Step p path) (fun _ _ => True) (· = start) m →
        m.Recognised p .main := by
  intro start
  constructor
  · intro h m hm _ act context caller hctl
    by_contra hf
    have hinvalid : act.fetchesInvalid p = true := Bool.not_eq_false _ ▸ hf
    obtain ⟨op, instr, hnext⟩ := fetch_invalid hctl hinvalid
    have hstep : Machine.Step p path m .main _ := hnext
    obtain ⟨e, he⟩ := h _ (hm.next trivial hstep) _ op context caller rfl
    cases he.symm.trans (invalid_continues rfl)
  · intro h m hm act op context caller hctl
    have hrun : Reaches (Machine.Step p path) (Machine.Recognised p) (· = start) m := by
      clear hctl
      induction hm with
      | start hs => exact .start hs
      | next hm ok hstep ih =>
        apply ih.next _ hstep
        exact fun _ => h _ hm rfl
    have hinv := (recognised_rule p).reaches hrun (fun m hm => hm rfl) fun m hm => by
      cases hm
      exact ⟨trivial, trivial⟩
    rw [hctl] at hinv
    exact absurd rfl (hinv.1 op)

theorem Encodes.recognised (h : Encodes x bs) (op : UInt8) : x ≠ .invalid op := by
  rintro rfl
  cases h with
  | plain h => cases h
  | short h hn => cases h

/-- In a code array that is a sequence of encodings, with branches to instructions only, no invalid
instruction is ever fetched. -/
theorem listing_recognised [FloatArith] {p : Profile} {path : ClassPath} (l : Listing)
    (h : Reaches (Machine.Step p path) (fun _ _ => True) l.Begins m)
    (hm : m.control = .run act context caller) (hb : act.instr.bytes = l.bytes) :
    act.fetchesInvalid p = false := by
  have hinv := (l.rule p).reaches h (fun _ _ _ _ _ _ => trivial) fun m hm => Listing.begins_along hm
  rw [hm] at hinv
  obtain ⟨-, k, -, hpc⟩ := hinv.1 hb
  cases hf : act.fetchesInvalid p with
  | false => rfl
  | true =>
    unfold Activation.fetchesInvalid at hf
    split at hf
    · rename_i op instr hop
      have hperf := (l.rule p).fetch hinv.1 trivial hop ((nextOp_bytes hop).trans hb)
      obtain ⟨j, bs, hj, -⟩ := hperf
      exact absurd rfl ((l.encodes _ (List.mem_of_getElem? hj)).recognised op)
    · cases hf

def Control.result : Control → Option (Option JVMValue)
  | .finished result => some result
  | _ => none

theorem result_some {control : Control} (h : control.result = some result) :
    control = .finished result := by
  cases control with
  | finished _ =>
    cases h
    rfl
  | _ => cases h

/-- `iconst_1; ifge +5; iconst_0; ireturn; iconst_2; ireturn`, where `ifge` is not implemented. -/
def ifGe : List Class :=
  [staticMethods "Main" [] [("main", "()I",
    ⟨0, 2, [0x04, 0x9c, 0x00, 0x05, 0x03, 0xac, 0x05, 0xac], [], []⟩)]]

/-- The run goes on with the operand bytes as opcodes, and returns 0. -/
theorem ifGe_returns :
    (∃ m, mainRun ifGe 7 = .ok m ∧
      ¬ @Machine.InvalidStops noFloats ⟨true⟩ (.ofClasses ifGe) m) ∧
    ∃ m, mainRun ifGe 16 = .ok m ∧ m.control = .finished (some (.int 0)) := by
  constructor
  · obtain ⟨m, hm, hc⟩ : ∃ m, mainRun ifGe 7 = .ok m ∧ (m.control.performing.any fun
        (_, op) => decide (op = .invalid 0x9c)) = true := mainRun_any (by decide +kernel)
    refine ⟨m, hm, fun h => ?_⟩
    cases hp : m.control.performing with
    | none =>
      rw [hp] at hc
      cases hc
    | some pair =>
      obtain ⟨act, op⟩ := pair
      rw [hp] at hc
      obtain rfl := of_decide_eq_true hc
      obtain ⟨context, caller, hctl⟩ := performing_some hp
      obtain ⟨e, he⟩ := h act _ context caller hctl
      cases he.symm.trans (@invalid_continues _ _ _ _ noFloats _ _ _ hctl)
  · obtain ⟨m, hm, hc⟩ : ∃ m, mainRun ifGe 16 = .ok m ∧
        decide (m.control.result = some (some (.int 0))) = true := mainRun_any (by decide +kernel)
    exact ⟨m, hm, result_some (of_decide_eq_true hc)⟩

end Janadinite
