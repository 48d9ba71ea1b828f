import Janadinite.Parse.Class
import Janadinite.Parse.Instructions
import Janadinite.Parse.RawRoundTrip

namespace Janadinite
open Bytes Codec
set_option autoImplicit true

def Cursor.stop (c : Cursor) : Nat := c.pc.toNat + c.reader.length

/-- A property of decoding that reads operands and then yields an instruction. -/
structure OfOperands (p : Profile) (C : Decode → Prop) : Prop where
  pure (op : OpCode) : C (pure (some op))
  opndU8 (op : UInt8) (k : UInt8 → Decode) : (∀ a, C (k a)) → C (opndU8 p op k)
  opndU16 (op : UInt8) (k : UInt16 → Decode) : (∀ a, C (k a)) → C (opndU16 p op k)

namespace OfOperands
variable {p : Profile} {C : Decode → Prop} (h : OfOperands p C)
include h

theorem decode (op : UInt8) (o : Operands) : C (o.decode p op) := by
  cases o with
  | unit ctor => exact h.pure _
  | u8 ctor => exact h.opndU8 op _ fun a => h.pure _
  | u16 ctor => exact h.opndU16 op _ fun a => h.pure _
  | i16 ctor => exact h.opndU16 op _ fun a => h.pure _
  | u8I8 ctor => exact h.opndU8 op _ fun a => h.opndU8 op _ fun b => h.pure _
  | u16U8 ctor => exact h.opndU16 op _ fun a => h.opndU8 op _ fun b => h.pure _
  | u16I16 ctor => exact h.opndU16 op _ fun a => h.opndU16 op _ fun b => h.pure _

theorem shortBody (base : UInt8) (o : Operands) (op : UInt8) :
    C (Variant.shortBody base o p op) := by
  cases o with
  | u8 ctor => exact h.pure _
  | unit ctor => exact h.decode op (.unit ctor)
  | u16 ctor => exact h.decode op (.u16 ctor)
  | i16 ctor => exact h.decode op (.i16 ctor)
  | u8I8 ctor => exact h.decode op (.u8I8 ctor)
  | u16U8 ctor => exact h.decode op (.u16U8 ctor)
  | u16I16 ctor => exact h.decode op (.u16I16 ctor)

theorem arms {v : Variant} {a : Arm} (ha : a ∈ v.outerArms ∨ a ∈ v.wideArms) (op : UInt8) :
    C (a.body p op) := by
  obtain ⟨discr, operands, attr⟩ := v
  cases attr with
  | none =>
    rcases ha with ha | ha
    · cases List.mem_singleton.1 ha
      exact h.decode op operands
    · cases ha
  | short base count =>
    rcases ha with ha | ha
    · rcases List.mem_cons.1 ha with rfl | ha
      · exact h.decode op operands
      · cases List.mem_singleton.1 ha
        exact h.shortBody base operands op
    · cases ha
  | wide =>
    rcases ha with ha | ha
    · cases ha
    · cases List.mem_singleton.1 ha
      exact h.decode op operands

theorem wideArm (variants : List Variant) (op : UInt8) : C ((wideArm variants).body p op) := by
  apply h.opndU8 op
  intro widenedOp
  cases hf : (variants.flatMap Variant.wideArms).find? (·.covers widenedOp) with
  | none => exact h.pure _
  | some arm =>
    obtain ⟨v, _, harm⟩ := List.mem_flatMap.1 (List.mem_of_find?_eq_some hf)
    exact h.arms (.inr harm) op

/-- Whatever the variants, the match decodes as its arms do or as the fallback does. -/
theorem expand (variants : List Variant) (fallback : Profile → UInt8 → Decode) (op : UInt8) :
    C (expand variants fallback p op) ∨
      Janadinite.expand variants fallback p op = fallback p op := by
  rw [Janadinite.expand]
  cases ha : (variants.flatMap Variant.outerArms ++ [Janadinite.wideArm variants]).find?
      (·.covers op) with
  | none => exact .inr rfl
  | some arm =>
    left
    rcases List.mem_append.1 (List.mem_of_find?_eq_some ha) with harm | harm
    · obtain ⟨v, _, harm⟩ := List.mem_flatMap.1 harm
      exact h.arms (.inl harm) op
    · cases List.mem_singleton.1 harm
      exact h.wideArm variants op

end OfOperands

/-- Decoding moves the pc on by what it reads, and yields nothing only where `E` says so, without
having moved. -/
structure Advances (E : Cursor → Prop) (m : Decode) : Prop where
  ok : ∀ c, c.stop < 65536 → ∃ op c', m c = .ok (op, c') ∧ c'.stop = c.stop ∧ c.pc ≤ c'.pc
  none : ∀ c c', m c = .ok (none, c') → E c ∧ c' = c

/-- Decoding that always yields an instruction. -/
abbrev YieldsOp (m : Decode) : Prop := Advances (fun _ => False) m

theorem YieldsOp.pure (op : OpCode) : YieldsOp (pure (some op)) where
  ok c _ := ⟨some op, c, rfl, rfl, UInt16.le_refl _⟩
  none c c' h := by cases h

theorem Profile.advance_fits (p : Profile) {c : Cursor} (hc : c.stop < 65536)
    (hn : n ≤ c.reader.length) :
    ∃ pc, p.advance c.pc n = .ok pc ∧ pc.toNat = c.pc.toNat + n ∧
      Cursor.stop ⟨c.reader.drop n, pc⟩ = c.stop := by
  have hfit : c.pc.toNat + n < 65536 := by
    rw [Cursor.stop] at hc
    omega
  have hpc : (UInt16.ofNat (c.pc.toNat + n)).toNat = c.pc.toNat + n :=
    UInt16.toNat_ofNat_of_lt' hfit
  refine ⟨_, p.advance_eq hfit, hpc, ?_⟩
  rw [Cursor.stop, Cursor.stop, hpc, List.length_drop]
  omega

theorem le_of_advanced {pc pc' pc'' : UInt16} (h : pc'.toNat = pc.toNat + n) (hle : pc' ≤ pc'') :
    pc ≤ pc'' := by
  rw [UInt16.le_iff_toNat_le] at hle ⊢
  omega

def Takes (read : Io ClassByteReader α) (n : Nat) : Prop :=
  ∀ bytes a rest, read bytes = .ok (a, rest) → rest = bytes.drop n ∧ n ≤ bytes.length

theorem readU8_takes : Takes readU8 1 := fun _ _ _ => readNextExact_map_ok 1

theorem readU16_takes : Takes readU16 2 := fun _ _ _ => readNextExact_map_ok 2

/-- An operand that cannot be read makes the instruction an invalid one. -/
theorem YieldsOp.opnd (p : Profile) (op : UInt8) {read : Io ClassByteReader α} {k : α → Decode}
    (hr : Takes read n) (hk : ∀ a, YieldsOp (k a)) : YieldsOp (opnd p op read n k) where
  ok c hc := by
    rw [Janadinite.opnd]
    cases he : read c.reader with
    | error fault => exact ⟨_, c, rfl, rfl, UInt16.le_refl _⟩
    | ok r =>
      obtain ⟨a, rest⟩ := r
      obtain ⟨hrest, hlen⟩ := hr _ _ _ he
      obtain ⟨pc, hadv, hpc, hstop⟩ := p.advance_fits hc hlen
      rw [← hrest] at hstop
      obtain ⟨res, c', hd, hstop', hle⟩ := (hk a).ok ⟨rest, pc⟩ (hstop ▸ hc)
      refine ⟨res, c', ?_, hstop'.trans hstop, le_of_advanced hpc hle⟩
      simp only [hadv]
      exact hd
  none c c' h := by
    rw [Janadinite.opnd] at h
    cases he : read c.reader with
    | error fault =>
      rw [he] at h
      cases h
    | ok r =>
      simp only [he] at h
      cases hadv : p.advance c.pc n with
      | error fault =>
        rw [hadv] at h
        cases h
      | ok pc =>
        rw [hadv] at h
        exact ((hk r.1).none _ c' h).1.elim

theorem yieldsOp_operands (p : Profile) : OfOperands p YieldsOp where
  pure := YieldsOp.pure
  opndU8 op _ h := .opnd p op readU8_takes h
  opndU16 op _ h := .opnd p op readU16_takes h

theorem YieldsOp.advances (h : YieldsOp m) (E : Cursor → Prop) : Advances E m where
  ok := h.ok
  none c c' he := (h.none c c' he).1.elim

/-- The only instruction that is given up is a `bipush` at the end of the code. -/
theorem OpCode.customDecode_advances (p : Profile) (op : UInt8) :
    Advances (fun c => c.reader = []) (OpCode.customDecode p op) where
  ok c hc := by
    rw [OpCode.customDecode]
    split
    · cases he : readU8 c.reader with
      | error fault => exact ⟨_, c, rfl, rfl, UInt16.le_refl _⟩
      | ok r =>
        obtain ⟨byte, rest⟩ := r
        obtain ⟨hrest, hlen⟩ := readU8_takes _ _ _ he
        obtain ⟨pc, hadv, hpc, hstop⟩ := p.advance_fits hc hlen
        rw [← hrest] at hstop
        simp only [hadv]
        exact ⟨_, ⟨rest, pc⟩, rfl, hstop, le_of_advanced hpc (UInt16.le_refl _)⟩
    · split
      · exact ⟨_, c, rfl, rfl, UInt16.le_refl _⟩
      · split
        · exact ⟨_, c, rfl, rfl, UInt16.le_refl _⟩
        · exact ⟨_, c, rfl, rfl, UInt16.le_refl _⟩
  none c c' h := by
    rw [OpCode.customDecode] at h
    split at h
    · cases he : readU8 c.reader with
      | error fault =>
        rw [he] at h
        cases h
        refine ⟨?_, rfl⟩
        cases hr : c.reader with
        | nil => rfl
        | cons b rest =>
          rw [hr] at he
          have hb := readU8_reads b rest
          rw [toBE_one] at hb
          have hne := he.symm.trans hb
          cases hne
      | ok r =>
        simp only [he] at h
        cases hadv : p.advance c.pc 1 with
        | error fault =>
          rw [hadv] at h
          cases h
        | ok pc =>
          rw [hadv] at h
          cases h
    · split at h
      · cases h
      · split at h <;> cases h

theorem OpCode.decode_advances (p : Profile) (op : UInt8) :
    Advances (fun c => c.reader = []) (OpCode.decode p op) := by
  rcases (yieldsOp_operands p).expand variants OpCode.customDecode op with h | h
  · exact h.advances _
  · rw [OpCode.decode, h]
    exact OpCode.customDecode_advances p op

/-- The fault is the panic of an addition to the pc. -/
def AddsPc (p : Profile) (fault : Fault) : Prop :=
  ∃ a b msg, p.add 16 a b = .error msg ∧ fault = .panic msg

theorem Profile.advance_adds {p : Profile} (h : p.advance pc n = .error fault) :
    AddsPc p fault := by
  rw [advance] at h
  cases ha : p.add 16 pc.toNat n with
  | ok m =>
    rw [ha] at h
    cases h
  | error msg =>
    rw [ha] at h
    cases h
    exact ⟨_, _, msg, ha, rfl⟩

/-- Decoding that fails only where it cannot move the pc on. -/
def OnlyAdds (p : Profile) (m : Decode) : Prop := ∀ c fault, m c = .error fault → AddsPc p fault

theorem OnlyAdds.opnd {p : Profile} (op : UInt8) (read : Io ClassByteReader α) (n : Nat)
    {k : α → Decode} (hk : ∀ a, OnlyAdds p (k a)) : OnlyAdds p (opnd p op read n k) := by
  intro c fault h
  rw [Janadinite.opnd] at h
  cases he : read c.reader with
  | error e =>
    rw [he] at h
    cases h
  | ok r =>
    simp only [he] at h
    cases hadv : p.advance c.pc n with
    | error e =>
      rw [hadv] at h
      cases h
      exact p.advance_adds hadv
    | ok pc =>
      rw [hadv] at h
      exact hk r.1 _ _ h

theorem onlyAdds_operands (p : Profile) : OfOperands p (OnlyAdds p) where
  pure op c fault h := by cases h
  opndU8 op _ h := .opnd op readU8 1 h
  opndU16 op _ h := .opnd op readU16 2 h

theorem OpCode.customDecode_adds (p : Profile) (op : UInt8) :
    OnlyAdds p (OpCode.customDecode p op) := by
  intro c fault h
  rw [OpCode.customDecode] at h
  split at h
  · cases he : readU8 c.reader with
    | error e =>
      rw [he] at h
      cases h
    | ok r =>
      simp only [he] at h
      cases hadv : p.advance c.pc 1 with
      | error e =>
        rw [hadv] at h
        cases h
        exact p.advance_adds hadv
      | ok pc =>
        rw [hadv] at h
        cases h
  · split at h
    · cases h
    · split at h <;> cases h

theorem OpCode.decode_adds (p : Profile) (op : UInt8) : OnlyAdds p (OpCode.decode p op) := by
  rcases (onlyAdds_operands p).expand variants OpCode.customDecode op with h | h
  · exact h
  · rw [OpCode.decode, h]
    exact OpCode.customDecode_adds p op

namespace Instructions

theorem nextOp_inside (p : Profile) {ins : Instructions} (h : ins.pc.toNat < ins.bytes.length) :
    ∃ op, ins.nextOp p = (p.advance ins.pc 1 >>= fun pc =>
      (OpCode.decode p op ⟨ins.bytes.drop (ins.pc.toNat + 1), pc⟩).map fun r =>
        (r.1, ins.setPc r.2.pc)) := by
  have hread := readU8_reads ins.bytes[ins.pc.toNat] (ins.bytes.drop (ins.pc.toNat + 1))
  rw [toBE_one, List.singleton_append, ← List.drop_eq_getElem_cons h] at hread
  refine ⟨ins.bytes[ins.pc.toNat], ?_⟩
  rw [nextOp, if_neg (Nat.not_le_of_lt h)]
  simp only [hread]
  cases p.advance ins.pc 1 with
  | error fault => rfl
  | ok pc =>
    simp only [bind, Except.bind]
    cases OpCode.decode p ins.bytes[ins.pc.toNat] ⟨ins.bytes.drop (ins.pc.toNat + 1), pc⟩ <;> rfl

theorem nextOp_adds {ins : Instructions} (h : ins.nextOp p = .error fault) : AddsPc p fault := by
  by_cases hlt : ins.pc.toNat < ins.bytes.length
  · obtain ⟨op, hop⟩ := nextOp_inside p hlt
    rw [hop] at h
    cases hadv : p.advance ins.pc 1 with
    | error e =>
      rw [hadv] at h
      cases h
      exact p.advance_adds hadv
    | ok pc =>
      rw [hadv] at h
      change (OpCode.decode p op _).map _ = _ at h
      cases hd : OpCode.decode p op ⟨ins.bytes.drop (ins.pc.toNat + 1), pc⟩ with
      | ok r =>
        rw [hd] at h
        cases h
      | error e =>
        rw [hd] at h
        cases h
        exact OpCode.decode_adds p op _ _ hd
  · rw [nextOp_end (Nat.le_of_not_lt hlt)] at h
    cases h

theorem nextOp_advances (p : Profile) {ins : Instructions} (hlen : ins.bytes.length ≤ 65535)
    (h : ins.pc.toNat < ins.bytes.length) :
    ∃ op ins', ins.nextOp p = .ok (op, ins') ∧ ins'.bytes = ins.bytes ∧ ins.pc < ins'.pc ∧
      ins'.pc.toNat ≤ ins.bytes.length := by
  obtain ⟨op, hop⟩ := nextOp_inside p h
  have hfit : ins.pc.toNat + 1 < 65536 := by omega
  have hpc : (UInt16.ofNat (ins.pc.toNat + 1)).toNat = ins.pc.toNat + 1 :=
    UInt16.toNat_ofNat_of_lt' hfit
  have hstop : Cursor.stop ⟨ins.bytes.drop (ins.pc.toNat + 1), .ofNat (ins.pc.toNat + 1)⟩ =
      ins.bytes.length := by
    rw [Cursor.stop, hpc, List.length_drop]
    omega
  obtain ⟨res, c', hd, hstop', hle⟩ := (OpCode.decode_advances p op).ok _ (by rw [hstop]; omega)
  rw [p.advance_eq hfit] at hop
  refine ⟨res, ins.setPc c'.pc, hop.trans ?_, rfl, ?_, ?_⟩
  · change (OpCode.decode p op _).map _ = _
    rw [hd]
    rfl
  · rw [UInt16.le_iff_toNat_le, hpc] at hle
    rw [UInt16.lt_iff_toNat_lt]
    exact hle
  · rw [hstop, Cursor.stop] at hstop'
    change c'.pc.toNat ≤ _
    omega

/-- After so many calls of `next_op` from pc 0. -/
def Reached (p : Profile) (code : JVMCode) (n : Nat) (ins : Instructions) : Prop :=
  ∃ ops, code.instructions.nextOps p n = .ok (ops, ins)

theorem Reached.start (p : Profile) (code : JVMCode) : Reached p code 0 code.instructions :=
  ⟨[], rfl⟩

theorem Reached.next (h : Reached p code n ins) (hop : ins.nextOp p = .ok (op, ins')) :
    Reached p code (n + 1) ins' := by
  obtain ⟨ops, hops⟩ := h
  have hone : ins.nextOps p 1 = .ok ([op], ins') := by
    simp only [nextOps, hop, bind, Except.bind]
    rfl
  exact ⟨_, nextOps_add hops hone⟩

theorem nextOps_bytes {ins ins' : Instructions} (h : ins.nextOps p n = .ok (ops, ins')) :
    ins'.bytes = ins.bytes := by
  induction n generalizing ins ops with
  | zero =>
    cases h
    rfl
  | succ n ih =>
    simp only [nextOps, bind, Except.bind] at h
    cases hop : ins.nextOp p with
    | error fault =>
      rw [hop] at h
      cases h
    | ok r =>
      simp only [hop] at h
      cases hrest : r.2.nextOps p n with
      | error fault =>
        rw [hrest] at h
        cases h
      | ok s =>
        simp only [hrest] at h
        cases h
        exact (ih hrest).trans (nextOp_bytes hop)

theorem Reached.bytes (h : Reached p code n ins) : ins.bytes = code.code := by
  obtain ⟨ops, h⟩ := h
  exact nextOps_bytes h

end Instructions

/-- Iterating the instructions of a code from pc 0: no call panics or takes the pc beyond the code,
the pc never goes back and moves on with each instruction, and some call yields nothing. -/
structure Walks (p : Profile) (code : JVMCode) : Prop where
  runs : ∀ n, ∃ ins, Instructions.Reached p code n ins ∧ ins.pc.toNat ≤ code.code.length
  steps : ∀ n ins op ins', Instructions.Reached p code n ins → ins.nextOp p = .ok (op, ins') →
    ins.pc ≤ ins'.pc ∧ (op ≠ none → ins.pc < ins'.pc)
  ends : ∃ n ins ins', Instructions.Reached p code n ins ∧ ins.nextOp p = .ok (none, ins')

open Instructions in
theorem reached_within (p : Profile) {code : JVMCode} (hlen : code.code.length ≤ 65535) (n : Nat) :
    ∃ ins, Reached p code n ins ∧ ins.pc.toNat ≤ code.code.length ∧
      min n code.code.length ≤ ins.pc.toNat := by
  induction n with
  | zero => exact ⟨_, .start p code, Nat.zero_le _, by rw [Nat.zero_min]; exact Nat.zero_le _⟩
  | succ n ih =>
    obtain ⟨ins, hr, hle, hmin⟩ := ih
    rw [← hr.bytes] at hlen hle hmin ⊢
    by_cases hlt : ins.pc.toNat < ins.bytes.length
    · obtain ⟨op, ins', hop, _, hpc, hle'⟩ := nextOp_advances p hlen hlt
      rw [UInt16.lt_iff_toNat_lt] at hpc
      exact ⟨ins', hr.next hop, hle', by omega⟩
    · exact ⟨ins, hr.next (nextOp_end (Nat.le_of_not_lt hlt)), hle, by omega⟩

open Instructions in
theorem walks_of_length (p : Profile) {code : JVMCode} (hlen : code.code.length ≤ 65535) :
    Walks p code where
  runs n := by
    obtain ⟨ins, hr, hle, _⟩ := reached_within p hlen n
    exact ⟨ins, hr, hle⟩
  steps n ins op ins' hr hop := by
    by_cases hlt : ins.pc.toNat < ins.bytes.length
    · obtain ⟨op', ins'', hop', _, hpc, _⟩ := nextOp_advances p (hr.bytes ▸ hlen) hlt
      rw [hop'] at hop
      cases hop
      exact ⟨UInt16.le_of_lt hpc, fun _ => hpc⟩
    · rw [nextOp_end (Nat.le_of_not_lt hlt)] at hop
      cases hop
      exact ⟨UInt16.le_refl _, fun h => (h rfl).elim⟩
  ends := by
    obtain ⟨ins, hr, _, hmin⟩ := reached_within p hlen code.code.length
    rw [Nat.min_self, ← hr.bytes] at hmin
    exact ⟨_, ins, ins, hr, nextOp_end hmin⟩

/-- In code longer than the pc can count, a call that yields nothing has wrapped the pc around. -/
theorem nextOp_none_long (p : Profile) {ins ins' : Instructions} (hlen : 65535 < ins.bytes.length)
    (h : ins.nextOp p = .ok (none, ins')) : ins'.pc < ins.pc := by
  have hpc := ins.pc.toNat_lt
  have hin : ins.pc.toNat < ins.bytes.length := by omega
  obtain ⟨op, hop⟩ := Instructions.nextOp_inside p hin
  rw [hop] at h
  cases hadv : p.advance ins.pc 1 with
  | error fault =>
    rw [hadv] at h
    cases h
  | ok pc =>
    rw [hadv] at h
    change (OpCode.decode p op _).map _ = _ at h
    cases hd : OpCode.decode p op ⟨ins.bytes.drop (ins.pc.toNat + 1), pc⟩ with
    | error fault =>
      rw [hd] at h
      cases h
    | ok r =>
      obtain ⟨res, c⟩ := r
      rw [hd] at h
      cases h
      obtain ⟨hnil, rfl⟩ := (OpCode.decode_advances p op).none _ _ hd
      -- Nothing is left behind the opcode, so it is the last byte that the pc can point at.
      have hlast : ins.pc.toNat = 65535 := by
        have hle := List.drop_eq_nil_iff.1 hnil
        omega
      rw [Profile.advance, hlast] at hadv
      change pc < ins.pc
      rw [UInt16.lt_iff_toNat_lt, hlast]
      obtain ⟨checks⟩ := p
      cases checks with
      | true => cases hadv
      | false =>
        cases hadv
        decide

theorem Walks.length_le (h : Walks p code) : code.code.length ≤ 65535 := by
  obtain ⟨n, ins, ins', hr, hop⟩ := h.ends
  have hback := (h.steps n ins none ins' hr hop).1
  apply Nat.le_of_not_lt
  intro hlen
  have hlt := nextOp_none_long p (hr.bytes ▸ hlen) hop
  exact UInt16.lt_irrefl _ (UInt16.lt_of_lt_of_le hlt hback)

def codeInfo (maxStack maxLocals : UInt16) (code : List UInt8) : List UInt8 :=
  toBE 2 maxStack.toNat ++ (toBE 2 maxLocals.toNat ++
    (toBE 4 (UInt32.ofNat code.length).toNat ++ (code ++ (toBE 2 0 ++ toBE 2 0))))

theorem parse_codeInfo (hname : getUtf8 pool nameIndex "Attribute name" = .ok "Code")
    (maxStack maxLocals : UInt16) (hlen : code.length < 2 ^ 32) :
    JVMAttribute.parse ⟨nameIndex, codeInfo maxStack maxLocals code⟩ pool =
      .ok (.code ⟨maxLocals, maxStack, code, [], []⟩) := by
  have hcode := decodeN_bytes_reads code
  rw [← UInt32.toNat_ofNat_of_lt' hlen] at hcode
  have hitems : Reads (JVMAttribute.parseNested.parseItems (codeInfo maxStack maxLocals code).length
      pool (UInt16.toNat 0)) [] [] := by
    rw [UInt16.toNat_zero, JVMAttribute.parseNested.parseItems]
    exact .pure []
  have hrun : ∀ reader : Io ClassByteReader JVMAttribute,
      Reads reader (codeInfo maxStack maxLocals code) (.code ⟨maxLocals, maxStack, code, [], []⟩) →
        (reader (codeInfo maxStack maxLocals code) >>= fun p => Except.ok p.1) =
          .ok (.code ⟨maxLocals, maxStack, code, [], []⟩) := by
    intro reader hr
    rw [hr.run]
    rfl
  rw [JVMAttribute.parse, JVMAttribute.parseNested, hname]
  change (Except.ok _ >>= fun r => _) = _
  apply hrun
  apply (readU16_reads maxStack).bind
  apply (readU16_reads maxLocals).bind
  apply (readU32_reads _).bind
  apply hcode.bind
  change Reads _ (toBE 2 0 ++ ([] ++ (toBE 2 0 ++ []))) _
  apply (readU16_reads 0).bind
  apply (Reads.pure []).bind
  exact (readU16_reads 0).bind (hitems.map _)

/-- Iterating the instructions ends in the way it should exactly when the pc can count the bytes of
the code. -/
theorem walks_iff (p : Profile) (code : JVMCode) : Walks p code ↔ code.code.length ≤ 65535 :=
  ⟨Walks.length_le, walks_of_length p⟩

def longCode : List UInt8 := List.replicate 65536 0

theorem length_longCode : longCode.length = 65536 := List.length_replicate

/-- The code is accepted, and never comes to an end. -/
theorem longCode_not_walked :
    JVMAttribute.parse ⟨1, codeInfo 0 0 longCode⟩ [.unusable, .utf8 "Code"] =
        .ok (.code ⟨0, 0, longCode, [], []⟩) ∧
      ¬ Walks ⟨true⟩ ⟨0, 0, longCode, [], []⟩ := by
  have hname : getUtf8 [.unusable, .utf8 "Code"] 1 "Attribute name" = .ok "Code" := rfl
  have hlen : longCode.length < 2 ^ 32 := by
    rw [length_longCode]
    decide
  refine ⟨parse_codeInfo hname 0 0 hlen, fun h => ?_⟩
  have hle := h.length_le
  rw [length_longCode] at hle
  omega

end Janadinite
