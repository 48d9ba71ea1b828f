import Janadinite.Vm.Operands

namespace Janadinite
open Hoare ThreadContext
set_option autoImplicit true

inductive IntOp where
  | add
  | sub
  | mul
  | div
  | rem
  deriving DecidableEq, Repr

namespace IntOp

def intCode : IntOp → OpCode
  | add => .iadd
  | sub => .isub
  | mul => .imul
  | div => .idiv
  | rem => .irem

def longCode : IntOp → OpCode
  | add => .ladd
  | sub => .lsub
  | mul => .lmul
  | div => .ldiv
  | rem => .lrem

/-- The exact result, of which there is none for a zero divisor. -/
def exact : IntOp → Int → Int → Option Int
  | add, a, b => some (a + b)
  | sub, a, b => some (a - b)
  | mul, a, b => some (a * b)
  | div, a, b => if b = 0 then none else some (a.tdiv b)
  | rem, a, b => if b = 0 then none else some (a.tmod b)

def divides (op : IntOp) : Prop := op = div ∨ op = rem

end IntOp

/-- The instructions of integer arithmetic with the values that they work on. -/
inductive IntInstr where
  | int (op : IntOp) (v1 v2 : Int32)
  | long (op : IntOp) (v1 v2 : Int64)
  | ineg (v1 : Int32)
  | lneg (v1 : Int64)
  | iinc (idx : UInt8) (imm : Int8) (v : Int32)
  | wideIinc (idx : UInt16) (imm : Int16) (v : Int32)

namespace IntInstr

def opcode : IntInstr → OpCode
  | int op _ _ => op.intCode
  | long op _ _ => op.longCode
  | ineg _ => .ineg
  | lneg _ => .lneg
  | iinc idx imm _ => .iinc idx imm
  | wideIinc idx imm _ => .wideIinc idx imm

def operands : IntInstr → List JVMSlot
  | int _ v1 v2 => [.fromI32 v1, .fromI32 v2]
  | long _ v1 v2 => JVMSlot.fromI64 v1 ++ JVMSlot.fromI64 v2
  | ineg v1 => [.fromI32 v1]
  | lneg v1 => JVMSlot.fromI64 v1
  | iinc .. => []
  | wideIinc .. => []

def local? : IntInstr → Option (UInt16 × Int32)
  | iinc idx _ v => some (idx.toUInt16, v)
  | wideIinc idx _ v => some (idx, v)
  | _ => none

end IntInstr

/-- The code goes on with the next instruction in this state, or without one ends with an error. -/
def Yields (m : VM Runtime Outcome) (r : Runtime) : Option Runtime → Prop
  | some r' => m r = .ok .next r'
  | none => ∃ e r', m r = .error (.error e) r'

def Runtime.withLocal (r : Runtime) (index : UInt16) (slot : JVMSlot) : Runtime :=
  { r with context := { r.context with
    locals := r.context.locals.set (index.toNat + r.context.currentFrame.localsStart) slot } }

namespace IntInstr

def result (r : Runtime) (rest : List JVMSlot) : IntInstr → Option Runtime
  | int op v1 v2 => (op.exact v1.toInt v2.toInt).map fun n =>
      r.onStack (rest ++ [.fromI32 (.ofInt n)])
  | long op v1 v2 => (op.exact v1.toInt v2.toInt).map fun n =>
      r.onStack (rest ++ JVMSlot.fromI64 (.ofInt n))
  | ineg v1 => some (r.onStack (rest ++ [.fromI32 (.ofInt (-v1.toInt))]))
  | lneg v1 => some (r.onStack (rest ++ JVMSlot.fromI64 (.ofInt (-v1.toInt))))
  | iinc idx imm v => some ((r.onStack rest).withLocal idx.toUInt16
      (.fromI32 (.ofInt (v.toInt + imm.toInt))))
  | wideIinc idx imm v => some ((r.onStack rest).withLocal idx
      (.fromI32 (.ofInt (v.toInt + imm.toInt))))

/-- The operands are above `rest` on the stack, and the local holds its value. -/
structure Ready (instr : IntInstr) (r : Runtime) (rest : List JVMSlot) : Prop where
  stack : r.context.Spans rest
  locals : ∀ index v, instr.local? = some (index, v) →
    r.context.local? index = some (.fromI32 v)

/-- The instruction replaces its operands by the result, and without a result yields an error. -/
def Computes [FloatArith] (p : Profile) (cls : ClassRef) (lastPc : UInt16) (instr : IntInstr)
    (r : Runtime) (rest : List JVMSlot) : Prop :=
  Yields (execute p cls lastPc instr.opcode) (r.onStack (rest ++ instr.operands))
    (instr.result r rest)

/-- Divisors are not zero, and an increment does not overflow where that is checked. -/
def Safe (p : Profile) : IntInstr → Prop
  | int op _ v2 => op.divides → v2 ≠ 0
  | long op _ v2 => op.divides → v2 ≠ 0
  | ineg _ => True
  | lneg _ => True
  | iinc _ imm v => p.overflowChecks = true →
      -2 ^ 31 ≤ v.toInt + imm.toInt ∧ v.toInt + imm.toInt < 2 ^ 31
  | wideIinc _ imm v => p.overflowChecks = true →
      -2 ^ 31 ≤ v.toInt + imm.toInt ∧ v.toInt + imm.toInt < 2 ^ 31

end IntInstr

def IntOp.apply [DecidableEq α] [OfNat α 0] [Add α] [Sub α] [Mul α] [Div α] [Mod α] :
    IntOp → α → α → Except String α
  | add, a, b => .ok (a + b)
  | sub, a, b => .ok (a - b)
  | mul, a, b => .ok (a * b)
  | div, a, b => nonZero divideByZero (· / ·) a b
  | rem, a, b => nonZero remainderOfZero (· % ·) a b

section
variable [FloatArith]

theorem execute_intCode (p : Profile) (cls : ClassRef) (lastPc : UInt16) (op : IntOp) :
    execute p cls lastPc op.intCode = op2_1 (ipop p) ipush op.apply := by
  cases op <;> rfl

theorem execute_longCode (p : Profile) (cls : ClassRef) (lastPc : UInt16) (op : IntOp) :
    execute p cls lastPc op.longCode = op2_1 (lpop p) lpush op.apply := by
  cases op <;> rfl

end

theorem IntOp.exact_none (op : IntOp) (a b : Int) :
    op.exact a b = none ↔ op.divides ∧ b = 0 := by
  cases op <;> simp [exact, divides]

theorem nonZero_zero [DecidableEq α] [OfNat α 0] (msg : String) (op : α → α → α) (a : α) :
    nonZero msg op a 0 = .error msg :=
  if_pos rfl

theorem nonZero_ne [DecidableEq α] [OfNat α 0] {b : α} (hb : b ≠ 0) (msg : String)
    (op : α → α → α) (a : α) : nonZero msg op a b = .ok (op a b) :=
  if_neg hb

section
variable [DecidableEq α] [OfNat α 0] [Add α] [Sub α] [Mul α] [Div α] [Mod α] [Neg α]
  {toInt : α → Int} {ofInt : Int → α}

theorem IntOp.apply_some (hw : Wraps toInt ofInt) (op : IntOp) (a b : α)
    (h : op.exact (toInt a) (toInt b) = some n) : op.apply a b = .ok (ofInt n) := by
  have hb (hdiv : op.divides) : b ≠ 0 := by
    intro hb
    rw [(op.exact_none _ _).mpr ⟨hdiv, (hw.zero b).mpr hb⟩] at h
    cases h
  cases op with
  | add =>
    cases h
    rw [hw.add, apply]
  | sub =>
    cases h
    rw [hw.sub, apply]
  | mul =>
    cases h
    rw [hw.mul, apply]
  | div =>
    have hb := hb (.inl rfl)
    rw [exact, if_neg fun h0 => hb ((hw.zero b).mp h0)] at h
    cases h
    rw [hw.div, apply, nonZero_ne hb]
  | rem =>
    have hb := hb (.inr rfl)
    rw [exact, if_neg fun h0 => hb ((hw.zero b).mp h0)] at h
    cases h
    rw [hw.mod, apply, nonZero_ne hb]

theorem IntOp.apply_none (hw : Wraps toInt ofInt) (op : IntOp) (a b : α)
    (h : op.exact (toInt a) (toInt b) = none) : ∃ msg, op.apply a b = .error msg := by
  obtain ⟨hdiv, hb⟩ := (op.exact_none _ _).mp h
  rw [(hw.zero b).mp hb]
  rcases hdiv with rfl | rfl
  · exact ⟨_, nonZero_zero ..⟩
  · exact ⟨_, nonZero_zero ..⟩

end

theorem ipush_pushes (v : Int32) : Pushes (ipush v) [.fromI32 v] := pushSlot_pushes _

theorem lpush_pushes (v : Int64) : Pushes (lpush v) (JVMSlot.fromI64 v) := pushSlots_pushes _

theorem Yields.some_iff {m : VM Runtime Outcome} {r r' : Runtime} :
    Yields m r (some r') ↔ m r = .ok .next r' := Iff.rfl

/-- What the instructions with two operands yield, whose division panics for a zero divisor. -/
theorem binary_yields [DecidableEq α] [OfNat α 0] [Add α] [Sub α] [Mul α] [Div α] [Mod α] [Neg α]
    {toInt : α → Int} {ofInt : Int → α} (hw : Wraps toInt ofInt) {pop : VM Runtime α}
    {push : α → VM Runtime PUnit} {slots : α → List JVMSlot} (hpop : ∀ v, Pops pop (slots v) v)
    (hpush : ∀ v, Pushes (push v) (slots v)) (op : IntOp) (v1 v2 : α) {r : Runtime}
    (hs : r.context.Spans rest) :
    Yields (op2_1 pop push op.apply) (r.onStack (rest ++ (slots v1 ++ slots v2)))
      ((op.exact (toInt v1) (toInt v2)).map fun n => r.onStack (rest ++ slots (ofInt n))) ↔
      (op.divides → v2 ≠ 0) := by
  cases hn : op.exact (toInt v1) (toInt v2) with
  | some n =>
    constructor
    · intro _ hd hz
      rw [(op.exact_none _ _).mpr ⟨hd, (hw.zero v2).mpr hz⟩] at hn
      cases hn
    · exact fun _ => op2_1_eq (hpop v1) (hpop v2) (op.apply_some hw v1 v2 hn) (hpush _) hs
  | none =>
    obtain ⟨hd, hz⟩ := (op.exact_none _ _).mp hn
    obtain ⟨msg, hop⟩ := op.apply_none hw v1 v2 hn
    constructor
    · rintro ⟨e, r', h⟩
      rw [op2_1_panics (hpop v1) (hpop v2) hop hs] at h
      cases h
    · exact fun h => absurd ((hw.zero v2).mp hz) (h hd)

theorem addI32_ok (p : Profile) (a b : Int32)
    (h : p.overflowChecks = true → -2 ^ 31 ≤ a.toInt + b.toInt ∧ a.toInt + b.toInt < 2 ^ 31) :
    p.addI32 a b = .ok (.ofInt (a.toInt + b.toInt)) := by
  rw [Profile.addI32, Profile.i32, wraps_int32.add]
  split
  · rfl
  · rename_i hr
    rw [if_neg fun hp => hr (h hp)]

theorem addI32_panics (p : Profile) (a b : Int32) (hp : p.overflowChecks = true)
    (h : ¬ (-2 ^ 31 ≤ a.toInt + b.toInt ∧ a.toInt + b.toInt < 2 ^ 31)) :
    p.addI32 a b = .error "attempt to add with overflow" := by
  rw [Profile.addI32, Profile.i32, if_neg h, if_pos hp]

theorem iinc_yields (p : Profile) (index : UInt16) (imm v : Int32) {r : Runtime}
    (h : r.context.local? index = some (.fromI32 v)) :
    Yields (iinc p index imm) r (some (r.withLocal index (.fromI32 (.ofInt (v.toInt + imm.toInt)))))
      ↔ (p.overflowChecks = true →
        -2 ^ 31 ≤ v.toInt + imm.toInt ∧ v.toInt + imm.toInt < 2 ^ 31) := by
  have hrun : iinc p index imm r = (do
      let v ← checked (p.addI32 v imm)
      assignLocal p (index.toNat + r.context.currentFrame.localsStart) (.fromI32 v)
      pure .next : VM Runtime Outcome) r := by
    rw [iinc, bind_eq _ (readContext_eq r), h]
    change (checked (p.addI32 (JVMSlot.fromI32 v).asI32 imm) >>= _) r = _
    rw [asI32_fromI32]
  constructor
  · intro hy hp
    apply Classical.byContradiction
    intro hr
    rw [Yields.some_iff, hrun, addI32_panics p v imm hp hr] at hy
    cases hy
  · intro hs
    rw [Yields.some_iff, hrun, addI32_ok p v imm hs]
    exact bind_eq _ (assignLocal_plain p h (JVMSlot.object?_fromI32 v) _)

/-- The integer instructions compute two's-complement results, and yield errors where there are
none, exactly when no divisor is zero and no checked increment overflows. -/
theorem computes_iff [FloatArith] {instr : IntInstr} (h : instr.Ready r rest) :
    instr.Computes p cls lastPc r rest ↔ instr.Safe p := by
  obtain ⟨hs, hl⟩ := h
  cases instr with
  | int op v1 v2 =>
    rw [IntInstr.Computes, IntInstr.opcode, execute_intCode]
    exact binary_yields wraps_int32 (ipop_pops p) ipush_pushes op v1 v2 hs
  | long op v1 v2 =>
    rw [IntInstr.Computes, IntInstr.opcode, execute_longCode]
    exact binary_yields wraps_int64 (lpop_pops p) lpush_pushes op v1 v2 hs
  | ineg v1 =>
    refine iff_of_true ?_ trivial
    rw [IntInstr.Computes, IntInstr.result, wraps_int32.neg]
    exact op1_1_eq (ipop_pops p v1) (ipush_pushes _) hs
  | lneg v1 =>
    refine iff_of_true ?_ trivial
    rw [IntInstr.Computes, IntInstr.result, wraps_int64.neg]
    exact op1_1_eq (lpop_pops p v1) (lpush_pushes _) hs
  | iinc idx imm v =>
    have hiff := iinc_yields p idx.toUInt16 imm.toInt32 v (r := r.onStack rest) (hl _ v rfl)
    rw [Int8.toInt_toInt32] at hiff
    rw [IntInstr.Computes, IntInstr.operands, List.append_nil]
    exact hiff
  | wideIinc idx imm v =>
    have hiff := iinc_yields p idx imm.toInt32 v (r := r.onStack rest) (hl _ v rfl)
    rw [Int16.toInt_toInt32] at hiff
    rw [IntInstr.Computes, IntInstr.operands, List.append_nil]
    exact hiff

/-- A division by zero panics. -/
theorem idiv_zero_panics :
    ¬ @IntInstr.Computes noFloats ⟨false⟩ 0 0 (.int .div 6 0) (withCounts []) [] := by
  rintro ⟨e, r', h⟩
  have hrun : @execute noFloats ⟨false⟩ 0 0 .idiv
      ((withCounts []).onStack ([] ++ [.fromI32 6, .fromI32 0])) =
        .error (.panic divideByZero) ((withCounts []).onStack []) := rfl
  cases hrun.symm.trans h

theorem ldiv_computes :
    @IntInstr.Computes noFloats ⟨true⟩ 0 0 (.long .div (-9) 2) (withCounts []) [] :=
  (@computes_iff (withCounts []) [] ⟨true⟩ 0 0 noFloats (.long .div (-9) 2)
    ⟨Nat.le_refl 0, fun _ _ h => by cases h⟩).mpr fun _ => by decide

inductive LongShift where
  | left
  | right
  | logical
  deriving DecidableEq, Repr

namespace LongShift

def opcode : LongShift → OpCode
  | left => .lshl
  | right => .lshr
  | logical => .lushr

/-- The shift by the low six bits of the `int`. -/
def result (v1 : Int64) (v2 : Int32) : LongShift → Int64
  | left => .ofInt (v1.toInt * 2 ^ (v2.toUInt32.toNat % 64))
  | right => .ofInt (v1.toInt / 2 ^ (v2.toUInt32.toNat % 64))
  | logical => (UInt64.ofNat (v1.toUInt64.toNat / 2 ^ (v2.toUInt32.toNat % 64))).toInt64

/-- The three slots of the operands are replaced by the two of the result. -/
def Shifts [FloatArith] (p : Profile) (cls : ClassRef) (lastPc : UInt16) (shift : LongShift)
    (v1 : Int64) (v2 : Int32) (stack : List JVMSlot) (r : Runtime) : Prop :=
  ∃ r', execute p cls lastPc shift.opcode
      (r.onStack (stack ++ (JVMSlot.fromI64 v1 ++ [.fromI32 v2]))) = .ok .next r' ∧
    r'.context.stack = stack ++ JVMSlot.fromI64 (shift.result v1 v2)

end LongShift

/-- The stack with so many slots less than this. -/
def Lowered (height n : Nat) (r : Runtime) : Prop := r.context.stack.length + n = height

theorem popSlotOr_lowers : Triple (Lowered height n) popSlotOr
    (fun _ => Lowered height (n + 1)) (fun _ _ => True) := by
  intro r h
  rw [popSlotOr, popSlot]
  by_cases hlow : r.context.stack.length ≤ r.context.currentFrame.stackStart
  · have hpop : (do
        let c ← readContext
        if c.stack.length ≤ c.currentFrame.stackStart then pure none else stackPop :
          VM Runtime (Option JVMSlot)) r = .ok none r := by
      rw [bind_eq _ (readContext_eq r), if_pos hlow]
      rfl
    rw [bind_eq _ hpop]
    trivial
  · rcases List.eq_nil_or_concat r.context.stack with hs | ⟨rest, slot, hs⟩
    · rw [hs] at hlow
      exact absurd (Nat.zero_le _) hlow
    · rw [List.concat_eq_append] at hs
      have hpop : (do
          let c ← readContext
          if c.stack.length ≤ c.currentFrame.stackStart then pure none else stackPop :
            VM Runtime (Option JVMSlot)) r = .ok (some slot) (r.onStack rest) := by
        rw [bind_eq _ (readContext_eq r), if_neg hlow]
        exact stackPop_concat hs
      rw [bind_eq _ hpop]
      rw [Lowered, hs, List.length_append, List.length_singleton] at h
      change rest.length + (n + 1) = height
      omega

theorem onStore_lowers (m : VM Store α) : Triple (Lowered height n) (onStore m)
    (fun _ => Lowered height n) (fun _ _ => True) := by
  intro r h
  have hm : Ends (fun _ _ => True) (fun _ _ => True) (m r.store) := by
    cases m r.store <;> trivial
  refine (onStore_lift hm).mono (fun _ r' hr => ?_) fun _ _ _ => trivial
  rw [Lowered, hr.2.1]
  exact h

theorem ipop_lowers (p : Profile) : Triple (Lowered height n) (ipop p)
    (fun _ => Lowered height (n + 1)) (fun _ _ => True) := by
  apply Triple.bind popSlotOr_lowers
  intro slot
  apply Triple.bind (onStore_lowers _)
  exact fun _ => Triple.pure fun _ h => h

theorem lpop_lowers (p : Profile) : Triple (Lowered height n) (lpop p)
    (fun _ => Lowered height (n + 2)) (fun _ _ => True) := by
  apply Triple.bind (ipop_lowers p)
  intro high
  apply Triple.bind (ipop_lowers p)
  exact fun _ => Triple.pure fun _ h => h

theorem pure2_1_lowers (p : Profile) (op : Int64 → Int64 → Int64) :
    Triple (Lowered height 0) (pure2_1 (lpop p) lpush op) (fun _ => Lowered height 2)
      (fun _ _ => True) := by
  apply Triple.bind (lpop_lowers p)
  intro v2
  apply Triple.bind (lpop_lowers p)
  intro v1 r h
  have hpush : lpush (op v1 v2) r = .ok ⟨⟩ (r.onStack (r.context.stack ++
      JVMSlot.fromI64 (op v1 v2))) := lpush_pushes _ r r.context.stack
  change Ends _ _ ((lpush (op v1 v2) >>= fun _ => (pure .next : VM Runtime Outcome)) r)
  rw [bind_eq _ hpush]
  change (r.context.stack ++ JVMSlot.fromI64 (op v1 v2)).length + 2 = height
  rw [List.length_append]
  exact h

/-- The shifts of a `long` take two slots for their second operand, and never do what they are
for. -/
theorem not_shifts [FloatArith] (p : Profile) (cls : ClassRef) (lastPc : UInt16)
    (shift : LongShift) (v1 : Int64) (v2 : Int32) (stack : List JVMSlot) (r : Runtime) :
    ¬ shift.Shifts p cls lastPc v1 v2 stack r := by
  rintro ⟨r', hrun, hstack⟩
  obtain ⟨op, hop⟩ : ∃ op, execute p cls lastPc shift.opcode = pure2_1 (lpop p) lpush op := by
    cases shift <;> exact ⟨_, rfl⟩
  rw [hop] at hrun
  have hbefore : Lowered (stack.length + 3) 0
      (r.onStack (stack ++ (JVMSlot.fromI64 v1 ++ [.fromI32 v2]))) := List.length_append
  have hafter := (pure2_1_lowers p op).ok hbefore hrun
  rw [Lowered, hstack, List.length_append] at hafter
  change stack.length + 2 + 2 = stack.length + 3 at hafter
  omega

/-- `1L << 1` above an `int` 7 takes that for the low half of the `long`, and shifts by none. -/
theorem lshl_takes_slot_below :
    (∃ r', @execute noFloats ⟨true⟩ 0 0 .lshl ((withCounts []).onStack
        [.fromI32 7, .fromI32 1, .fromI32 0, .fromI32 1]) = .ok .next r' ∧
      r'.context.stack = [.fromI32 7, .fromI32 1]) ∧
    ¬ @LongShift.Shifts noFloats ⟨true⟩ 0 0 .left 1 1 [.fromI32 7] (withCounts []) := by
  have hrun : ∃ r', @execute noFloats ⟨true⟩ 0 0 .lshl ((withCounts []).onStack
        [.fromI32 7, .fromI32 1, .fromI32 0, .fromI32 1]) = .ok .next r' ∧
      r'.context.stack = [.fromI32 7, .fromI32 1] := ⟨_, rfl, by decide⟩
  refine ⟨hrun, ?_⟩
  obtain ⟨r', hr, hs⟩ := hrun
  rintro ⟨r'', hr', hs'⟩
  cases hr.symm.trans hr'
  rw [hs] at hs'
  exact absurd hs' (by decide)

end Janadinite
