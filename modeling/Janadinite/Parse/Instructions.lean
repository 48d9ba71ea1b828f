import Janadinite.Parse.OpCode

namespace Janadinite
open Codec Bytes
set_option autoImplicit true

/-- The bytes of an instruction in its plain form, or in its wide form for a wide instruction. -/
def OpCode.encode : OpCode → Option (List UInt8)
  | .lconst0 => some [0x9]
  | .lconst1 => some [0xa]
  | .fconst0 => some [0xb]
  | .fconst1 => some [0xc]
  | .fconst2 => some [0xd]
  | .dconst0 => some [0xe]
  | .dconst1 => some [0xf]
  | .ldc idx => some [0x12, idx]
  | .ldcW idx => some (0x13 :: toBE 2 idx.toNat)
  | .ldc2W refIdx => some (0x14 :: toBE 2 refIdx.toNat)
  | .iload idx => some [0x15, idx]
  | .lload idx => some [0x16, idx]
  | .fload idx => some [0x17, idx]
  | .dload idx => some [0x18, idx]
  | .aload idx => some [0x19, idx]
  | .iStore idx => some [0x36, idx]
  | .lStore idx => some [0x37, idx]
  | .fStore idx => some [0x38, idx]
  | .dStore idx => some [0x39, idx]
  | .aStore idx => some [0x3a, idx]
  | .iaLoad => some [0x2e]
  | .laLoad => some [0x2f]
  | .laStore => some [0x50]
  | .iaStore => some [0x4f]
  | .faLoad => some [0x30]
  | .faStore => some [0x51]
  | .baLoad => some [0x33]
  | .baStore => some [0x54]
  | .caLoad => some [0x34]
  | .caStore => some [0x55]
  | .daLoad => some [0x31]
  | .daStore => some [0x52]
  | .saLoad => some [0x35]
  | .saStore => some [0x56]
  | .aaLoad => some [0x32]
  | .aaStore => some [0x53]
  | .bipush byte => some [0x10, byte.toUInt8]
  | .dup => some [0x59]
  | .dupX1 => some [0x5a]
  | .dupX2 => some [0x5b]
  | .dup2 => some [0x5c]
  | .dup2X1 => some [0x5d]
  | .dup2X2 => some [0x5e]
  | .iinc idx imm => some [0x84, idx, imm.toUInt8]
  | .imul => some [0x68]
  | .lmul => some [0x69]
  | .fmul => some [0x6a]
  | .dmul => some [0x6b]
  | .idiv => some [0x6c]
  | .ldiv => some [0x6d]
  | .fdiv => some [0x6e]
  | .ddiv => some [0x6f]
  | .isub => some [0x64]
  | .lsub => some [0x65]
  | .fsub => some [0x66]
  | .dsub => some [0x67]
  | .iadd => some [0x60]
  | .ladd => some [0x61]
  | .fadd => some [0x62]
  | .dadd => some [0x63]
  | .irem => some [0x70]
  | .lrem => some [0x71]
  | .frem => some [0x72]
  | .drem => some [0x73]
  | .ineg => some [0x74]
  | .lneg => some [0x75]
  | .fneg => some [0x76]
  | .dneg => some [0x77]
  | .ishl => some [0x78]
  | .lshl => some [0x79]
  | .ishr => some [0x7a]
  | .lshr => some [0x7b]
  | .iushr => some [0x7c]
  | .lushr => some [0x7d]
  | .iand => some [0x7e]
  | .land => some [0x7f]
  | .ior => some [0x80]
  | .lor => some [0x81]
  | .ixor => some [0x82]
  | .lxor => some [0x83]
  | .i2l => some [0x85]
  | .i2f => some [0x86]
  | .i2d => some [0x87]
  | .goto off => some (0xa7 :: toBE 2 off.toUInt16.toNat)
  | .fcmpg => some [0x96]
  | .fcmpl => some [0x95]
  | .dcmpg => some [0x98]
  | .dcmpl => some [0x97]
  | .ifIcmpEq off => some (0x9f :: toBE 2 off.toUInt16.toNat)
  | .ifIcmpNe off => some (0xa0 :: toBE 2 off.toUInt16.toNat)
  | .ifIcmpLt off => some (0xa1 :: toBE 2 off.toUInt16.toNat)
  | .ifIcmpGe off => some (0xa2 :: toBE 2 off.toUInt16.toNat)
  | .ifIcmpGt off => some (0xa3 :: toBE 2 off.toUInt16.toNat)
  | .ifIcmpLe off => some (0xa4 :: toBE 2 off.toUInt16.toNat)
  | .lcmp => some [0x94]
  | .ifNe off => some (0x9a :: toBE 2 off.toUInt16.toNat)
  | .ifEq off => some (0x99 :: toBE 2 off.toUInt16.toNat)
  | .iReturn => some [0xac]
  | .lReturn => some [0xad]
  | .fReturn => some [0xae]
  | .dReturn => some [0xaf]
  | .aReturn => some [0xb0]
  | .invokeVirtual refIdx => some (0xb6 :: toBE 2 refIdx.toNat)
  | .invokeSpecial refIdx => some (0xb7 :: toBE 2 refIdx.toNat)
  | .invokeStatic refIdx => some (0xb8 :: toBE 2 refIdx.toNat)
  | .«return» => some [0xb1]
  | .getstatic refIdx => some (0xb2 :: toBE 2 refIdx.toNat)
  | .putstatic refIdx => some (0xb3 :: toBE 2 refIdx.toNat)
  | .getField refIdx => some (0xb4 :: toBE 2 refIdx.toNat)
  | .putField refIdx => some (0xb5 :: toBE 2 refIdx.toNat)
  | .new classRef => some (0xbb :: toBE 2 classRef.toNat)
  | .newArray atype => some [0xbc, atype]
  | .aNewArray refIdx => some (0xbd :: toBE 2 refIdx.toNat)
  | .arrayLength => some [0xbe]
  | .multiANewArray refIdx dim => some (0xc5 :: (toBE 2 refIdx.toNat ++ [dim]))
  | .wideIload idx => some (0xc4 :: 0x15 :: toBE 2 idx.toNat)
  | .wideLload idx => some (0xc4 :: 0x16 :: toBE 2 idx.toNat)
  | .wideFload idx => some (0xc4 :: 0x17 :: toBE 2 idx.toNat)
  | .wideDload idx => some (0xc4 :: 0x18 :: toBE 2 idx.toNat)
  | .wideAload idx => some (0xc4 :: 0x19 :: toBE 2 idx.toNat)
  | .wideIStore idx => some (0xc4 :: 0x36 :: toBE 2 idx.toNat)
  | .wideLStore idx => some (0xc4 :: 0x37 :: toBE 2 idx.toNat)
  | .wideFStore idx => some (0xc4 :: 0x38 :: toBE 2 idx.toNat)
  | .wideDStore idx => some (0xc4 :: 0x39 :: toBE 2 idx.toNat)
  | .wideAStore idx => some (0xc4 :: 0x3a :: toBE 2 idx.toNat)
  | .wideIinc idx imm => some (0xc4 :: 0x84 :: (toBE 2 idx.toNat ++ toBE 2 imm.toUInt16.toNat))
  | .invalid _ => none

/-- Every instruction but the invalid one has an encoding. -/
theorem OpCode.encode_eq_none_iff {x : OpCode} : x.encode = none ↔ ∃ op, x = .invalid op := by
  constructor
  · intro h
    cases x
    case invalid op => exact ⟨op, rfl⟩
    all_goals exact nomatch h
  · rintro ⟨op, rfl⟩
    rfl

/-- The first opcode of the short forms of an instruction, and which of them it takes. -/
def OpCode.shortForm : OpCode → Option (UInt8 × UInt8)
  | .iload n => some (0x1a, n)
  | .lload n => some (0x1e, n)
  | .fload n => some (0x22, n)
  | .dload n => some (0x26, n)
  | .aload n => some (0x2a, n)
  | .iStore n => some (0x3b, n)
  | .lStore n => some (0x3f, n)
  | .fStore n => some (0x43, n)
  | .dStore n => some (0x47, n)
  | .aStore n => some (0x4b, n)
  | _ => none

/-- The encodings of an instruction: plain or wide, short, or `iconst_<n>`. -/
inductive Encodes : OpCode → List UInt8 → Prop
  | plain (h : x.encode = some bs) : Encodes x bs
  | short (h : x.shortForm = some (base, n)) (hn : n < 4) : Encodes x [base + n]
  | iconst (n : Int8) (h : -1 ≤ n) (h' : n ≤ 5) : Encodes (.bipush n) [0x3 + n.toUInt8]

/-- The operand bytes of an instruction of the given shape. -/
inductive Operands.Spells : Operands → OpCode → List UInt8 → Prop
  | unit : Spells (.unit ctor) ctor []
  | u8 : Spells (.u8 ctor) (ctor a) [a]
  | u16 : Spells (.u16 ctor) (ctor a) (toBE 2 a.toNat)
  | i16 : Spells (.i16 ctor) (ctor a) (toBE 2 a.toUInt16.toNat)
  | u8I8 : Spells (.u8I8 ctor) (ctor a b) [a, b.toUInt8]
  | u16U8 : Spells (.u16U8 ctor) (ctor a b) (toBE 2 a.toNat ++ [b])
  | u16I16 : Spells (.u16I16 ctor) (ctor a b) (toBE 2 a.toNat ++ toBE 2 b.toUInt16.toNat)

inductive Variant.Spells : Variant → OpCode → List UInt8 → Prop
  | plain (h : o.Spells x bs) : Spells ⟨d, o, .none⟩ x (d :: bs)
  | short (h : o.Spells x bs) : Spells ⟨d, o, .short base count⟩ x (d :: bs)
  | wide (h : o.Spells x bs) : Spells ⟨d, o, .wide⟩ x (widePrefix :: d :: bs)

/-- The place of an instruction in `variants`, which leaves out `bipush`. -/
def OpCode.position (x : OpCode) : Nat :=
  if x.ctorIdx < 36 then x.ctorIdx else x.ctorIdx - 1

theorem Variant.Spells.exists (h : Variant.Spells v x bs) (hv : variants[x.position]? = some v) :
    ∃ v ∈ variants, v.Spells x bs :=
  ⟨v, List.mem_of_getElem? hv, h⟩

theorem OpCode.encode_spells {x : OpCode} (h : x.encode = some bs) :
    (∃ byte, x = .bipush byte) ∨ ∃ v ∈ variants, v.Spells x bs := by
  cases x
  case bipush byte => exact .inl ⟨byte, rfl⟩
  case invalid op => exact nomatch h
  all_goals
    cases h
    right
    first
    | exact Variant.Spells.exists (.plain .unit) rfl
    | exact Variant.Spells.exists (.plain .u16) rfl
    | exact Variant.Spells.exists (.plain .i16) rfl
    | exact Variant.Spells.exists (.short .u8) rfl
    | exact Variant.Spells.exists (.wide .u16) rfl
    | exact Variant.Spells.exists (.plain .u8) rfl
    | exact Variant.Spells.exists (.plain .u8I8) rfl
    | exact Variant.Spells.exists (.plain .u16U8) rfl
    | exact Variant.Spells.exists (.wide .u16I16) rfl

theorem OpCode.shortForm_variant {x : OpCode} (h : x.shortForm = some (base, n)) :
    base ≤ 0x4b ∧ ∃ d ctor, x = ctor n ∧ ⟨d, .u8 ctor, .short base 4⟩ ∈ variants := by
  suffices h : base ≤ 0x4b ∧ ∃ d ctor, x = ctor n ∧
      variants[x.position]? = some ⟨d, .u8 ctor, .short base 4⟩ by
    obtain ⟨hb, d, ctor, hx, hv⟩ := h
    exact ⟨hb, d, ctor, hx, List.mem_of_getElem? hv⟩
  cases x
  case iload | lload | fload | dload | aload | iStore | lStore | fStore | dStore | aStore =>
    cases h
    exact ⟨by decide, _, _, rfl, rfl⟩
  all_goals exact nomatch h

/-- Two arms of the generated match never cover one opcode. -/
def Disjoint (arms : List Arm) : Prop :=
  arms.Pairwise fun a b => a.last < b.first ∨ b.last < a.first

instance (arms : List Arm) : Decidable (Disjoint arms) :=
  inferInstanceAs (Decidable (arms.Pairwise _))

theorem Disjoint.find? (hd : Disjoint arms) (ha : arm ∈ arms) (hc : arm.covers op) :
    arms.find? (·.covers op) = some arm := by
  induction hd with
  | nil => exact nomatch ha
  | @cons b arms hb _ ih =>
    cases ha with
    | head => exact List.find?_cons_of_pos hc
    | tail _ ha =>
      have hn : ¬ b.covers op := by
        intro hbc
        simp only [Arm.covers, Bool.and_eq_true, decide_eq_true_eq, UInt8.le_iff_toNat_le] at hc hbc
        rcases hb arm ha with h | h <;> rw [UInt8.lt_iff_toNat_lt] at h <;> omega
      exact (List.find?_cons_of_neg (p := fun arm : Arm => arm.covers op) hn).trans (ih ha)

theorem outerArms_disjoint :
    Disjoint (variants.flatMap Variant.outerArms ++ [wideArm variants]) := by
  decide +kernel

theorem wideArms_disjoint : Disjoint (variants.flatMap Variant.wideArms) := by
  decide +kernel

/-- The opcodes of `customDecode` are left to it by every arm. -/
theorem outerArms_gap (h : op ∈ [0x10, 0x2, 0x3, 0x4, 0x5, 0x6, 0x7, 0x8]) :
    (variants.flatMap Variant.outerArms ++ [wideArm variants]).find? (·.covers op) = none := by
  rw [← Option.isNone_iff_eq_none]
  revert op
  decide +kernel

/-- On any continuation of `bs` the instruction is decoded, and pc advances by what was read. -/
def Decodes (m : Decode) (bs : List UInt8) (x : OpCode) : Prop :=
  ∀ rest pc, pc.toNat + bs.length < 65536 →
    m ⟨bs ++ rest, pc⟩ = .ok (some x, ⟨rest, .ofNat (pc.toNat + bs.length)⟩)

theorem Profile.advance_eq (p : Profile) {pc : UInt16} (h : pc.toNat + size < 65536) :
    p.advance pc size = .ok (.ofNat (pc.toNat + size)) := by
  rw [Profile.advance, p.add_eq (w := 16) h]

theorem Decodes.pure (x : OpCode) : Decodes (pure (some x)) [] x := by
  intro rest pc _
  simp only [List.length_nil, Nat.add_zero, UInt16.ofNat_toNat]
  rfl

theorem Decodes.opnd {k : α → Decode} (hr : Reads m bs a) (hs : bs.length = size)
    (hk : Decodes (k a) cs x) : Decodes (opnd p op m size k) (bs ++ cs) x := by
  subst hs
  intro rest pc hpc
  rw [List.length_append] at hpc ⊢
  have hpc' : pc.toNat + bs.length < 65536 := by omega
  have hn : (UInt16.ofNat (pc.toNat + bs.length)).toNat = pc.toNat + bs.length :=
    UInt16.toNat_ofNat_of_lt' hpc'
  simp only [Janadinite.opnd, List.append_assoc, hr (cs ++ rest), p.advance_eq hpc']
  rw [hk _ _ (by omega), hn, Nat.add_assoc]

theorem Decodes.opndU8 {k : UInt8 → Decode} (hk : Decodes (k a) cs x) :
    Decodes (opndU8 p op k) (a :: cs) x := by
  have hr := readU8_reads a
  rw [toBE_one] at hr
  exact .opnd hr rfl hk

theorem Decodes.opndU16 {k : UInt16 → Decode} (hk : Decodes (k a) cs x) :
    Decodes (opndU16 p op k) (toBE 2 a.toNat ++ cs) x := by
  exact .opnd (readU16_reads a) (toBE_length 2 _) hk

theorem Operands.Spells.decodes (h : Operands.Spells o x bs) : Decodes (o.decode p op) bs x := by
  cases h with
  | unit => exact .pure _
  | u8 => exact .opndU8 (.pure _)
  | u16 => exact .opndU16 (.pure _)
  | i16 => exact .opndU16 (.pure _)
  | u8I8 => exact .opndU8 (.opndU8 (.pure _))
  | u16U8 => exact .opndU16 (.opndU8 (.pure _))
  | u16I16 => exact .opndU16 (.opndU16 (.pure _))

theorem decode_covered (hv : arm ∈ variants.flatMap Variant.outerArms ++ [wideArm variants])
    (hc : arm.covers op) : OpCode.decode p op = arm.body p op := by
  rw [OpCode.decode, expand, outerArms_disjoint.find? hv hc]

theorem decode_gap (h : op ∈ [0x10, 0x2, 0x3, 0x4, 0x5, 0x6, 0x7, 0x8]) :
    OpCode.decode p op = OpCode.customDecode p op := by
  rw [OpCode.decode, expand, outerArms_gap h]

theorem Arm.covers_self : (⟨d, d, f⟩ : Arm).covers d := by
  simp only [Arm.covers, Bool.and_self, decide_eq_true_eq]
  exact UInt8.le_refl d

theorem decode_outer {v : Variant} (hv : v ∈ variants) (ha : arm ∈ v.outerArms)
    (hc : arm.covers op) : OpCode.decode p op = arm.body p op :=
  decode_covered (List.mem_append_left _ (List.mem_flatMap_of_mem hv ha)) hc

theorem decode_wide (hv : ⟨d, o, .wide⟩ ∈ variants) (h : o.Spells x bs) :
    Decodes (OpCode.decode p widePrefix) (d :: bs) x := by
  have ha : Variant.arm ⟨d, o, .wide⟩ ∈ variants.flatMap Variant.wideArms :=
    List.mem_flatMap_of_mem hv (List.mem_singleton_self _)
  rw [decode_covered (List.mem_append_right _ (List.mem_singleton_self _)) Arm.covers_self]
  refine .opndU8 ?_
  rw [wideArms_disjoint.find? ha Arm.covers_self]
  exact h.decodes

theorem Variant.Spells.decodes (h : Variant.Spells v x bs) (hv : v ∈ variants) :
    ∃ op cs, bs = op :: cs ∧ ∀ p, Decodes (OpCode.decode p op) cs x := by
  cases h with
  | plain h =>
    refine ⟨_, _, rfl, fun p => ?_⟩
    rw [decode_outer hv (List.mem_singleton_self _) Arm.covers_self]
    exact h.decodes
  | short h =>
    refine ⟨_, _, rfl, fun p => ?_⟩
    rw [decode_outer hv List.mem_cons_self Arm.covers_self]
    exact h.decodes
  | wide h => exact ⟨_, _, rfl, fun p => decode_wide hv h⟩

theorem short_covers (hb : base ≤ 0x4b) (hn : n < 4) :
    (⟨base, base + 4 - 1, f⟩ : Arm).covers (base + n) := by
  rw [UInt8.le_iff_toNat_le] at hb
  rw [UInt8.lt_iff_toNat_lt] at hn
  simp only [Arm.covers, Bool.and_eq_true, decide_eq_true_eq, UInt8.le_iff_toNat_le,
    UInt8.toNat_sub, UInt8.toNat_add]
  simp only [UInt8.reduceToNat] at *
  omega

theorem shortForm_decodes {x : OpCode} (h : x.shortForm = some (base, n)) (hn : n < 4) :
    Decodes (OpCode.decode p (base + n)) [] x := by
  obtain ⟨hb, d, ctor, rfl, hv⟩ := OpCode.shortForm_variant h
  rw [decode_outer hv (List.mem_cons_of_mem _ (List.mem_singleton_self _)) (short_covers hb hn)]
  change Decodes (Pure.pure (some (ctor (base + n - base)))) [] (ctor n)
  rw [UInt8.add_comm, UInt8.add_sub_cancel]
  exact .pure _

theorem bipush_decodes (byte : Int8) :
    Decodes (OpCode.decode p 0x10) [byte.toUInt8] (.bipush byte) := by
  intro rest pc hpc
  have hpc' : pc.toNat + 1 < 65536 := hpc
  have hr := readU8_reads byte.toUInt8 rest
  rw [toBE_one] at hr
  rw [decode_gap (by decide), OpCode.customDecode, if_pos rfl]
  simp only [hr, p.advance_eq hpc']
  rfl

theorem iconst_cases {n : Int8} (h : -1 ≤ n) (h' : n ≤ 5) :
    n = -1 ∨ n = 0 ∨ n = 1 ∨ n = 2 ∨ n = 3 ∨ n = 4 ∨ n = 5 := by
  simp only [Int8.le_iff_toInt_le, ← Int8.toInt_inj] at *
  simp only [Int8.reduceToInt] at *
  omega

theorem iconst_decodes {n : Int8} (h : -1 ≤ n) (h' : n ≤ 5) :
    Decodes (OpCode.decode p (0x3 + n.toUInt8)) [] (.bipush n) := by
  intro rest pc hpc
  rcases iconst_cases h h' with rfl | rfl | rfl | rfl | rfl | rfl | rfl <;>
    rw [decode_gap (by decide), List.length_nil, Nat.add_zero, UInt16.ofNat_toNat] <;> rfl

/-- Every encoding starts with an opcode, from which the rest decodes to the instruction. -/
theorem Encodes.decodes (h : Encodes x bs) :
    ∃ op cs, bs = op :: cs ∧ ∀ p, Decodes (OpCode.decode p op) cs x := by
  cases h with
  | plain h =>
    rcases OpCode.encode_spells h with ⟨byte, rfl⟩ | ⟨v, hv, hs⟩
    · cases h
      exact ⟨_, _, rfl, fun p => bipush_decodes byte⟩
    · exact hs.decodes hv
  | short h hn => exact ⟨_, _, rfl, fun p => shortForm_decodes h hn⟩
  | iconst n h h' => exact ⟨_, _, rfl, fun p => iconst_decodes h h'⟩

theorem Encodes.nextOp (h : Encodes x bs) {ins : Instructions}
    (hd : ins.bytes.drop ins.pc.toNat = bs ++ rest) (hlen : ins.pc.toNat + bs.length < 65536) :
    ins.nextOp p = .ok (some x, ins.setPc (.ofNat (ins.pc.toNat + bs.length))) := by
  obtain ⟨op, cs, rfl, hdec⟩ := h.decodes
  have hr : readU8 (R := ClassByteReader) (op :: cs ++ rest) = .ok (op, cs ++ rest) := by
    have hr := readU8_reads op (cs ++ rest)
    rwa [toBE_one] at hr
  have hlt : ¬ ins.pc.toNat ≥ ins.bytes.length := by
    intro hge
    rw [List.drop_eq_nil_of_le hge] at hd
    cases hd
  rw [List.length_cons] at hlen ⊢
  have hpc : ins.pc.toNat + 1 < 65536 := by omega
  have hn : (UInt16.ofNat (ins.pc.toNat + 1)).toNat = ins.pc.toNat + 1 :=
    UInt16.toNat_ofNat_of_lt' hpc
  have hop := hdec p rest (.ofNat (ins.pc.toNat + 1)) (by omega)
  rw [hn, Nat.add_assoc, Nat.add_comm 1] at hop
  rw [Instructions.nextOp, if_neg hlt, hd]
  simp only [hr, p.advance_eq hpc, hop]

theorem Instructions.nextOp_end {ins : Instructions} (h : ins.bytes.length ≤ ins.pc.toNat) :
    ins.nextOp p = .ok (none, ins) :=
  if_pos h

def Instructions.nextOps (p : Profile) :
    Nat → Instructions → Except Fault (List (Option OpCode) × Instructions)
  | 0, ins => .ok ([], ins)
  | n + 1, ins => do
    let (op, ins) ← ins.nextOp p
    let (ops, ins) ← nextOps p n ins
    pure (op :: ops, ins)

theorem Instructions.nextOps_add {ins ins' ins'' : Instructions}
    (h : ins.nextOps p m = .ok (xs, ins')) (h' : ins'.nextOps p n = .ok (ys, ins'')) :
    ins.nextOps p (m + n) = .ok (xs ++ ys, ins'') := by
  induction m generalizing ins xs with
  | zero =>
    cases h
    rw [Nat.zero_add, List.nil_append, h']
  | succ m ih =>
    rw [Nat.add_right_comm]
    simp only [nextOps, bind, Except.bind] at h ⊢
    cases hop : ins.nextOp p with
    | error e =>
      rw [hop] at h
      cases h
    | ok r =>
      simp only [hop] at h ⊢
      cases hrest : r.2.nextOps p m with
      | error e =>
        rw [hrest] at h
        cases h
      | ok s =>
        simp only [hrest] at h
        cases h
        simp only [ih hrest, pure, Except.pure, List.cons_append]

theorem Instructions.nextOps_end {ins : Instructions} (h : ins.bytes.length ≤ ins.pc.toNat)
    (n : Nat) : ins.nextOps p n = .ok (List.replicate n none, ins) := by
  induction n with
  | zero => rfl
  | succ n ih =>
    simp only [nextOps, nextOp_end h, bind, Except.bind, ih]
    rfl

def encodings (xs : List (OpCode × List UInt8)) : List UInt8 :=
  xs.flatMap (·.2)

theorem nextOps_front (xs : List (OpCode × List UInt8)) (henc : ∀ x ∈ xs, Encodes x.1 x.2)
    {ins : Instructions} (hd : ins.bytes.drop ins.pc.toNat = encodings xs ++ rest)
    (hlen : ins.pc.toNat + (encodings xs).length < 65536) :
    ins.nextOps p xs.length = .ok (xs.map fun x => some x.1,
      ins.setPc (.ofNat (ins.pc.toNat + (encodings xs).length))) := by
  induction xs generalizing ins with
  | nil =>
    simp only [encodings, List.flatMap_nil, List.length_nil, Nat.add_zero, UInt16.ofNat_toNat]
    rfl
  | cons x xs ih =>
    have hcons : encodings (x :: xs) = x.2 ++ encodings xs := rfl
    rw [hcons, List.length_append] at hlen ⊢
    rw [hcons, List.append_assoc] at hd
    have hx : ins.pc.toNat + x.2.length < 65536 := by omega
    have hpc : (UInt16.ofNat (ins.pc.toNat + x.2.length)).toNat = ins.pc.toNat + x.2.length :=
      UInt16.toNat_ofNat_of_lt' hx
    have hop : ins.nextOp p = .ok (some x.1, _) :=
      (henc x List.mem_cons_self).nextOp hd (by omega)
    have hrest := @ih (fun y hy => henc y (List.mem_cons_of_mem _ hy))
      (ins.setPc (.ofNat (ins.pc.toNat + x.2.length))) (by
        simp only [Instructions.setPc, hpc, ← List.drop_drop, hd, List.drop_left]) (by
        simp only [Instructions.setPc, hpc]
        omega)
    simp only [Instructions.setPc, hpc, Nat.add_assoc] at hrest hop
    simp only [List.length_cons, Instructions.nextOps, hop, bind, Except.bind, hrest]
    rfl

/-- Decoding a stream of instructions from pc 0 yields each of them in order with pc after its
encoding, and then nothing more. -/
theorem nextOps_encodings (p : Profile) (xs : List (OpCode × List UInt8))
    (henc : ∀ x ∈ xs, Encodes x.1 x.2) (hlen : (encodings xs).length ≤ 65535) :
    (∀ k ≤ xs.length, ∃ ins, Instructions.nextOps p k ⟨encodings xs, 0⟩ =
        .ok ((xs.take k).map fun x => some x.1, ins) ∧
      ins.bytes = encodings xs ∧ ins.pc.toNat = (encodings (xs.take k)).length) ∧
    ∀ m, ∃ ins, Instructions.nextOps p (xs.length + m) ⟨encodings xs, 0⟩ =
        .ok ((xs.map fun x => some x.1) ++ List.replicate m none, ins) ∧
      ins.bytes = encodings xs ∧ ins.pc.toNat = (encodings xs).length := by
  have hfront : ∀ k, ∃ ins, Instructions.nextOps p (xs.take k).length ⟨encodings xs, 0⟩ =
        .ok ((xs.take k).map fun x => some x.1, ins) ∧
      ins.bytes = encodings xs ∧ ins.pc.toNat = (encodings (xs.take k)).length := by
    intro k
    have hsplit : encodings xs = encodings (xs.take k) ++ encodings (xs.drop k) := by
      rw [encodings, encodings, encodings, ← List.flatMap_append, List.take_append_drop]
    have hk : (encodings (xs.take k)).length < 65536 := by
      rw [hsplit, List.length_append] at hlen
      omega
    have hrun := @nextOps_front (encodings (xs.drop k)) p (xs.take k)
      (fun x hx => henc x (List.mem_of_mem_take hx)) ⟨encodings xs, 0⟩ hsplit (by
        rwa [UInt16.toNat_zero, Nat.zero_add])
    refine ⟨_, hrun, rfl, ?_⟩
    simp only [Instructions.setPc, UInt16.toNat_zero, Nat.zero_add]
    exact UInt16.toNat_ofNat_of_lt' hk
  constructor
  · intro k hk
    have h := hfront k
    rwa [List.length_take_of_le hk] at h
  · intro m
    obtain ⟨ins, hrun, hbytes, hpc⟩ := hfront xs.length
    rw [List.take_length] at hrun hpc
    have hend : ins.bytes.length ≤ ins.pc.toNat := Nat.le_of_eq (by rw [hbytes, hpc])
    exact ⟨ins, Instructions.nextOps_add hrun (Instructions.nextOps_end hend m), hbytes, hpc⟩

def mixedStream : List (OpCode × List UInt8) :=
  [(.bipush (-1), [0x2]), (.iload 3, [0x1d]), (.wideIinc 300 (-5), [0xc4, 0x84, 1, 44, 0xff, 0xfb]),
    (.goto (-3), [0xa7, 0xff, 0xfd]), (.«return», [0xb1])]

theorem mixedStream_encodes : ∀ x ∈ mixedStream, Encodes x.1 x.2 := by
  intro x hx
  simp only [mixedStream, List.mem_cons, List.not_mem_nil, or_false] at hx
  rcases hx with rfl | rfl | rfl | rfl | rfl
  · exact .iconst (-1) (by decide) (by decide)
  · exact .short (x := .iload 3) rfl (by decide)
  · exact .plain rfl
  · exact .plain rfl
  · exact .plain rfl

theorem mixedStream_decoded : ∃ ins,
    Instructions.nextOps ⟨true⟩ 6 ⟨encodings mixedStream, 0⟩ =
      .ok ([some (.bipush (-1)), some (.iload 3), some (.wideIinc 300 (-5)), some (.goto (-3)),
        some .«return», none], ins) ∧ ins.pc = 12 := by
  obtain ⟨ins, h, _, hpc⟩ :=
    (nextOps_encodings ⟨true⟩ mixedStream mixedStream_encodes (by decide)).2 1
  exact ⟨ins, h, UInt16.toNat_inj.1 hpc⟩

end Janadinite
