import Janadinite.Vm.Allocation
import Janadinite.Vm.MachineOwned
import Janadinite.Vm.Multiarray

namespace Janadinite
open Hoare ThreadContext
set_option autoImplicit true

/-- The state with this operand stack, all frames' parts together. -/
def Runtime.onStack (r : Runtime) (stack : List JVMSlot) : Runtime :=
  { r with context := { r.context with stack } }

/-- A stack that ends in the current frame's part of it. -/
def ThreadContext.Spans (c : ThreadContext) (rest : List JVMSlot) : Prop :=
  c.currentFrame.stackStart ≤ rest.length

/-- The values are popped, and nothing else happens. -/
def Pops (pop : VM Runtime α) (values : List JVMSlot) (v : α) : Prop :=
  ∀ (r : Runtime) (rest : List JVMSlot), r.context.Spans rest →
    pop (r.onStack (rest ++ values)) = .ok v (r.onStack rest)

/-- The values are pushed, and nothing else happens. -/
def Pushes (push : VM Runtime PUnit) (values : List JVMSlot) : Prop :=
  ∀ (r : Runtime) (rest : List JVMSlot),
    push (r.onStack rest) = .ok ⟨⟩ (r.onStack (rest ++ values))

theorem ThreadContext.Spans.append {c : ThreadContext} (h : c.Spans rest)
    (values : List JVMSlot) : c.Spans (rest ++ values) := by
  rw [Spans, List.length_append]
  exact Nat.le_add_right_of_le h

theorem Pops.bind {pop : VM Runtime α} (h : Pops pop values v) (f : α → VM Runtime β)
    {r : Runtime} (hs : r.context.Spans rest) :
    (pop >>= f) (r.onStack (rest ++ values)) = f v (r.onStack rest) :=
  bind_eq f (h r rest hs)

theorem Pops.map {pop : VM Runtime α} (h : Pops pop values v) (f : α → β) :
    Pops (do let v ← pop; pure (f v)) values (f v) :=
  fun _ _ hs => h.bind _ hs

theorem popSlotOr_pops (slot : JVMSlot) : Pops popSlotOr [slot] slot := by
  intro r rest hs
  rw [popSlotOr, bind_eq _ (popSlot_concat (r := r.onStack (rest ++ [slot])) rfl hs)]
  rfl

theorem ipop_pops (p : Profile) (i : Int32) : Pops (ipop p) [.fromI32 i] i := by
  intro r rest hs
  rw [ipop, (popSlotOr_pops _).bind _ hs, dropSlot_plain p (JVMSlot.object?_fromI32 i),
    asI32_fromI32]
  rfl

theorem halves (i : UInt64) :
    i.toUInt32.toUInt64 ||| (i >>> 32).toUInt32.toUInt64 <<< 32 = i := by
  have hlt := i.toNat_lt
  have h32 : UInt64.toNat 32 % 64 = 32 := rfl
  have hlow : i.toUInt32.toUInt64.toNat = i.toNat % 2 ^ 32 := by
    rw [UInt32.toNat_toUInt64, UInt64.toNat_toUInt32]
  have hhigh : (i >>> 32).toUInt32.toUInt64.toNat = i.toNat / 2 ^ 32 := by
    rw [UInt32.toNat_toUInt64, UInt64.toNat_toUInt32, UInt64.toNat_shiftRight,
      Nat.shiftRight_eq_div_pow, h32]
    omega
  have hshift : ((i >>> 32).toUInt32.toUInt64 <<< 32).toNat = (i.toNat / 2 ^ 32) <<< 32 := by
    rw [UInt64.toNat_shiftLeft, hhigh, h32, Nat.shiftLeft_eq]
    omega
  apply UInt64.toNat_inj.mp
  rw [UInt64.toNat_or, hshift, hlow, Nat.or_comm,
    ← Nat.shiftLeft_add_eq_or_of_lt (Nat.mod_lt _ (by decide)), Nat.shiftLeft_eq]
  omega

theorem lpop_pops (p : Profile) (i : Int64) : Pops (lpop p) (JVMSlot.fromI64 i) i := by
  intro r rest hs
  have hsplit : rest ++ JVMSlot.fromI64 i =
      (rest ++ [.fromI32 i.toUInt64.toUInt32.toInt32]) ++
        [.fromI32 (i.toUInt64 >>> 32).toUInt32.toInt32] := by
    rw [List.append_assoc]
    rfl
  rw [hsplit, lpop, (ipop_pops p _).bind _ (hs.append _), (ipop_pops p _).bind _ hs,
    UInt32.toUInt32_toInt32, UInt32.toUInt32_toInt32, halves, Int64.toInt64_toUInt64]
  rfl

theorem apop_pops {a : Addr} (h : a.Fits) : Pops apop [.fromObject a] a := by
  intro r rest hs
  rw [apop, (popSlotOr_pops _).bind _ hs, JVMSlot.object?_fromObject h]
  rfl

/-- A slot that holds no reference is popped before the error. -/
theorem apop_plain {r : Runtime} (h : slot.object? = none) (hs : r.context.Spans rest) :
    apop (r.onStack (rest ++ [slot])) = .error (.error .notAnObject) (r.onStack rest) := by
  rw [apop, (popSlotOr_pops _).bind _ hs, h]
  rfl

theorem pushSlot_pushes (slot : JVMSlot) : Pushes (pushSlot slot) [slot] := fun _ _ => rfl

theorem pushSlots_pushes (values : List JVMSlot) : Pushes (pushSlots values) values :=
  fun r rest => pushSlots_eq values (r.onStack rest)

theorem op2_1_eq {pop : VM Runtime α} {push : β → VM Runtime PUnit} {op : α → α → Except String β}
    (h₁ : Pops pop values₁ v₁) (h₂ : Pops pop values₂ v₂) (hop : op v₁ v₂ = .ok v)
    (hp : Pushes (push v) values) {r : Runtime} (hs : r.context.Spans rest) :
    op2_1 pop push op (r.onStack (rest ++ (values₁ ++ values₂))) =
      .ok .next (r.onStack (rest ++ values)) := by
  rw [op2_1, ← List.append_assoc, h₂.bind _ (hs.append _), h₁.bind _ hs, hop]
  exact bind_eq _ (hp r rest)

theorem op2_1_panics {pop : VM Runtime α} {push : β → VM Runtime PUnit}
    {op : α → α → Except String β} (h₁ : Pops pop values₁ v₁) (h₂ : Pops pop values₂ v₂)
    (hop : op v₁ v₂ = .error msg) {r : Runtime} (hs : r.context.Spans rest) :
    op2_1 pop push op (r.onStack (rest ++ (values₁ ++ values₂))) =
      .error (.panic msg) (r.onStack rest) := by
  rw [op2_1, ← List.append_assoc, h₂.bind _ (hs.append _), h₁.bind _ hs, hop]
  rfl

theorem op1_1_eq {pop : VM Runtime α} {push : β → VM Runtime PUnit} {op : α → β}
    (h : Pops pop values v) (hp : Pushes (push (op v)) values') {r : Runtime}
    (hs : r.context.Spans rest) :
    op1_1 pop push op (r.onStack (rest ++ values)) = .ok .next (r.onStack (rest ++ values')) := by
  rw [op1_1, h.bind _ hs]
  exact bind_eq _ (hp r rest)

end Janadinite
