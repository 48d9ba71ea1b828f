import Janadinite.Parse.Instructions
import Janadinite.Vm.Activations
import Janadinite.Vm.Declared

namespace Janadinite
open Runs Hoare
set_option autoImplicit true

/-- Where an instruction begins, or after the last one where the code ends. -/
def address (instrs : List (OpCode × List UInt8)) (k : Nat) : Nat :=
  (encodings (instrs.take k)).length

/-- A code array that is a sequence of encodings, in which every branch leads to one of them. -/
structure Listing where
  instrs : List (OpCode × List UInt8)
  encodes : ∀ x ∈ instrs, Encodes x.1 x.2
  fits : (encodings instrs).length ≤ 65535
  targets : ∀ (k : Nat) x off, instrs[k]? = some x → x.1.branch = some off →
    ∃ j < instrs.length, (address instrs k : Int) + off.toInt = address instrs j

theorem encodings_split {instrs : List (OpCode × List UInt8)} (h : instrs[k]? = some x) :
    encodings instrs = encodings (instrs.take k) ++ (x.2 ++ encodings (instrs.drop (k + 1))) := by
  obtain ⟨hlt, rfl⟩ := List.getElem?_eq_some_iff.mp h
  have hdrop : instrs.drop k = instrs[k] :: instrs.drop (k + 1) := List.drop_eq_getElem_cons hlt
  have hrest : encodings (instrs.drop k) = instrs[k].2 ++ encodings (instrs.drop (k + 1)) := by
    rw [hdrop]
    rfl
  rw [← hrest, encodings, encodings, encodings, ← List.flatMap_append, List.take_append_drop]

theorem address_succ {instrs : List (OpCode × List UInt8)} (h : instrs[k]? = some x) :
    address instrs (k + 1) = address instrs k + x.2.length := by
  obtain ⟨hlt, rfl⟩ := List.getElem?_eq_some_iff.mp h
  have htake : instrs.take (k + 1) = instrs.take k ++ [instrs[k]] :=
    List.take_succ_eq_append_getElem hlt
  rw [address, htake, encodings, List.flatMap_append, List.length_append]
  simp [address, encodings]

theorem address_le (instrs : List (OpCode × List UInt8)) (k : Nat) :
    address instrs k ≤ (encodings instrs).length := by
  have hsplit : encodings instrs = encodings (instrs.take k) ++ encodings (instrs.drop k) := by
    rw [encodings, encodings, encodings, ← List.flatMap_append, List.take_append_drop]
  rw [hsplit, List.length_append]
  exact Nat.le_add_right _ _

namespace Listing
variable (l : Listing)

def bytes : List UInt8 := encodings l.instrs

def address (k : Nat) : Nat := Janadinite.address l.instrs k

/-- The next instruction is read where one begins, or at the end of the code, and `last_pc` is that
address. -/
def Fetches (act : Activation) : Prop :=
  act.instr.bytes = l.bytes →
    act.lastPc = act.instr.pc ∧ ∃ k ≤ l.instrs.length, act.instr.pc.toNat = l.address k

/-- The instruction in `last_pc` is carried out, with pc after it. -/
def Performs (act : Activation) (op : OpCode) : Prop :=
  act.instr.bytes = l.bytes →
    ∃ k bs, l.instrs[k]? = some (op, bs) ∧ act.lastPc.toNat = l.address k ∧
      act.instr.pc.toNat = l.address (k + 1)

variable {l}

theorem nextOp_at {ins : Instructions} (hb : ins.bytes = l.bytes) (hpc : ins.pc.toNat = l.address k)
    (hk : l.instrs[k]? = some x) :
    ins.nextOp p = .ok (some x.1, ins.setPc (.ofNat (l.address (k + 1)))) := by
  have hsucc := address_succ hk
  have hfits := Nat.le_trans (address_le l.instrs (k + 1)) l.fits
  have hpc' : ins.pc.toNat = (encodings (l.instrs.take k)).length := hpc
  have hdrop : ins.bytes.drop ins.pc.toNat = x.2 ++ encodings (l.instrs.drop (k + 1)) := by
    rw [hb, bytes, encodings_split hk, hpc', List.drop_left]
  have hlen : ins.pc.toNat + x.2.length = l.address (k + 1) := by
    rw [hpc]
    exact hsucc.symm
  have hop := (l.encodes x (List.mem_of_getElem? hk)).nextOp (p := p) hdrop
    (by rw [hlen]; exact Nat.lt_succ_of_le hfits)
  rwa [hlen] at hop

theorem jump_at {act : Activation} (hk : l.instrs[k]? = some (op, bs))
    (hlast : act.lastPc.toNat = l.address k) (hoff : op.branch = some off) :
    (∃ j < l.instrs.length, (saturatingAddSigned act.lastPc off).toNat = l.address j) ∧
      ((saturatingAddSigned act.lastPc off).toNat : Int) = act.lastPc.toNat + off.toInt := by
  obtain ⟨j, hj, haddr⟩ := l.targets k _ off hk hoff
  have hfits := Nat.le_trans (address_le l.instrs j) l.fits
  have hint : (act.lastPc.toNat : Int) + off.toInt = Janadinite.address l.instrs j := by
    rw [hlast]
    exact haddr
  have hto : (saturatingAddSigned act.lastPc off).toNat = Janadinite.address l.instrs j := by
    rw [saturatingAddSigned, hint, Int.toNat_natCast, Nat.min_eq_right (by omega)]
    exact UInt16.toNat_ofNat_of_lt' (Nat.lt_succ_of_le hfits)
  refine ⟨⟨j, hj, hto⟩, ?_⟩
  rw [hto, hint]

theorem rule (l : Listing) (p : Profile) : LoopRule l.Fetches l.Performs (fun _ => True) p where
  start cls method code _ := ⟨rfl, 0, Nat.zero_le _, rfl⟩
  fetch := by
    intro act op instr h _ hop hb
    have hbytes : act.instr.bytes = l.bytes := (nextOp_bytes hop).symm.trans hb
    obtain ⟨hlast, k, hk, hpc⟩ := h hbytes
    cases hx : l.instrs[k]? with
    | none =>
      have hend : l.instrs.take k = l.instrs :=
        List.take_of_length_le (List.getElem?_eq_none_iff.mp hx)
      have hlen : act.instr.bytes.length ≤ act.instr.pc.toNat := by
        rw [hbytes, hpc, address, Janadinite.address, hend]
        exact Nat.le_refl _
      rw [Instructions.nextOp_end hlen] at hop
      cases hop
    | some x =>
      have hfits := Nat.le_trans (address_le l.instrs (k + 1)) l.fits
      rw [nextOp_at hbytes hpc hx] at hop
      cases hop
      refine ⟨k, x.2, hx, hlast ▸ hpc, ?_⟩
      exact UInt16.toNat_ofNat_of_lt' (Nat.lt_succ_of_le hfits)
  next := by
    intro act op h hb
    obtain ⟨k, bs, hk, -, hpc⟩ := h hb
    have hlt : k < l.instrs.length := (List.getElem?_eq_some_iff.mp hk).1
    exact ⟨rfl, k + 1, hlt, hpc⟩
  jump := by
    intro act op off h hoff pc hb
    obtain ⟨k, bs, hk, hlast, -⟩ := h hb
    obtain ⟨⟨j, hj, hto⟩, -⟩ := jump_at hk hlast hoff
    exact ⟨rfl, j, Nat.le_of_lt hj, hto⟩

variable (l) in
/-- The program begins, or a call of `run_code` for the code, with any context and anything in the
memory and the table. -/
inductive Begins : Machine → Prop
  | opened (h : Machine.Opened m) : Begins m
  | runCode (hcode : code.code = l.bytes) :
      Begins ⟨table, files, store, .run (.start cls method code) context .main⟩

theorem begins_along (h : l.Begins m) : m.control.Along l.Fetches l.Performs := by
  cases h with
  | opened h =>
    cases h
    trivial
  | runCode hcode => exact ⟨(l.rule ⟨true⟩).start _ _ _, trivial⟩

/-- Throughout a run every instruction of the code is fetched where one begins, is carried out with
its address in `last_pc`, and jumps, if it is a branch that is taken, to that address plus its
offset. -/
theorem boundaries_kept [FloatArith] {p : Profile} {path : ClassPath} (l : Listing)
    (h : Reaches (Machine.Step p path) (fun _ _ => True) l.Begins m) :
    (∀ act context caller, m.control = .run act context caller → act.instr.bytes = l.bytes →
      act.lastPc = act.instr.pc ∧ ∃ k ≤ l.instrs.length, act.instr.pc.toNat = l.address k) ∧
    ∀ act op context caller, m.control = .perform act op context caller →
      act.instr.bytes = l.bytes →
      (∃ k bs, l.instrs[k]? = some (op, bs) ∧ act.lastPc.toNat = l.address k) ∧
      ∀ pc r, execute p act.cls act.lastPc op ⟨m.table, m.store, context⟩ = .ok (.jump pc) r →
        (∃ off, op.branch = some off ∧ (pc.toNat : Int) = act.lastPc.toNat + off.toInt) ∧
        ∃ m' act', m.next p path = .ok m' ∧ m'.control = .run act' r.context caller ∧
          act'.instr = act.instr.setPc pc := by
  have hinv := (l.rule p).reaches h (fun _ _ _ _ _ _ => trivial) fun m hm => begins_along hm
  constructor
  · intro act context caller hm hb
    rw [hm] at hinv
    exact hinv.1 hb
  · intro act op context caller hm hb
    rw [hm] at hinv
    obtain ⟨k, bs, hk, hlast, -⟩ := hinv.1 hb
    refine ⟨⟨k, bs, hk, hlast⟩, ?_⟩
    intro pc r hx
    obtain ⟨off, hoff, rfl⟩ := execute_jumps p act.cls act.lastPc op _ _ _ hx
    obtain ⟨-, hto⟩ := jump_at hk hlast hoff
    have hnext : m.next p path = .ok { m with
        table := r.table, store := r.store
        control := .run { act with
          instr := act.instr.setPc (saturatingAddSigned act.lastPc off)
          lastPc := saturatingAddSigned act.lastPc off } r.context caller } := by
      rw [Machine.next_perform hm, Machine.perform, hx]
      rfl
    exact ⟨⟨off, hoff, hto⟩, _, _, hnext, rfl, rfl⟩

end Listing

def countUp : Listing where
  instrs := [(.bipush 0, [0x3]), (.iStore 1, [0x3c]), (.iinc 1 1, [0x84, 1, 1]), (.iload 1, [0x1b]),
    (.bipush 3, [0x6]), (.ifIcmpLt (-5), [0xa1, 0xff, 0xfb]), (.«return», [0xb1])]
  encodes := by
    intro x hx
    simp only [List.mem_cons, List.not_mem_nil, or_false] at hx
    rcases hx with rfl | rfl | rfl | rfl | rfl | rfl | rfl
    · exact .iconst 0 (by decide) (by decide)
    · exact .short (x := .iStore 1) rfl (by decide)
    · exact .plain rfl
    · exact .short (x := .iload 1) rfl (by decide)
    · exact .iconst 3 (by decide) (by decide)
    · exact .plain rfl
    · exact .plain rfl
  fits := by decide
  targets := by
    intro k x off hk hoff
    rcases k with _ | _ | _ | _ | _ | _ | _ | k <;> cases hk <;> cases hoff
    exact ⟨2, by decide, by decide⟩

def countUpMain : List Class :=
  [staticMethods "Main" [] [("main", "()V", ⟨2, 2, countUp.bytes, [], []⟩)]]

def Control.performing : Control → Option (Activation × OpCode)
  | .perform act op _ _ => some (act, op)
  | _ => none

theorem performing_some {control : Control} (h : control.performing = some (act, op)) :
    ∃ context caller, control = .perform act op context caller := by
  cases control with
  | perform act op context caller =>
    cases h
    exact ⟨context, caller, rfl⟩
  | _ => cases h

/-- The branch is carried out, each time round, with its own address in `last_pc`. -/
theorem countUp_branch : ∃ m act context caller, mainRun countUpMain 23 = .ok m ∧
    m.control = .perform act (.ifIcmpLt (-5)) context caller ∧
    ∃ k bs, countUp.instrs[k]? = some (.ifIcmpLt (-5), bs) ∧
      act.lastPc.toNat = countUp.address k := by
  obtain ⟨m, hm, hc⟩ : ∃ m, mainRun countUpMain 23 = .ok m ∧ (m.control.performing.any fun
      (act, op) => decide (op = .ifIcmpLt (-5) ∧ act.instr.bytes = countUp.bytes)) = true :=
    mainRun_any (by decide +kernel)
  cases hp : m.control.performing with
  | none =>
    rw [hp] at hc
    cases hc
  | some pair =>
    obtain ⟨act, op⟩ := pair
    rw [hp] at hc
    obtain ⟨rfl, hb⟩ := of_decide_eq_true hc
    obtain ⟨context, caller, hctl⟩ := performing_some hp
    have hrun : Reaches (MainStep countUpMain) (fun _ _ => True) countUp.Begins m := by
      let _ := noFloats
      exact Machine.reaches_after (.opened (.mk _ "Main")) hm fun _ _ _ _ => trivial
    have hkept :=
      (@Listing.boundaries_kept _ noFloats _ _ countUp hrun).2 act _ context caller hctl hb
    exact ⟨m, act, context, caller, hm, hctl, hkept.1⟩

end Janadinite
