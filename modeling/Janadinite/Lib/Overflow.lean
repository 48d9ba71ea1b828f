import Mathlib.Algebra.Ring.Int.Defs
import Mathlib.Algebra.Ring.Nat

namespace Janadinite
set_option autoImplicit true

/-- Whether arithmetic that overflows panics, as in a debug build, or wraps around. -/
structure Profile where
  overflowChecks : Bool
  deriving DecidableEq, Repr

namespace Profile

def add (p : Profile) (w a b : Nat) : Except String Nat :=
  if a + b < 2 ^ w then .ok (a + b)
  else if p.overflowChecks then .error "attempt to add with overflow"
  else .ok ((a + b) % 2 ^ w)

def sub (p : Profile) (w a b : Nat) : Except String Nat :=
  if b ≤ a then .ok (a - b)
  else if p.overflowChecks then .error "attempt to subtract with overflow"
  else .ok (2 ^ w + a - b)

def mul (p : Profile) (w a b : Nat) : Except String Nat :=
  if a * b < 2 ^ w then .ok (a * b)
  else if p.overflowChecks then .error "attempt to multiply with overflow"
  else .ok (a * b % 2 ^ w)

def i32 (p : Profile) (exact : Int) (wrapped : Int32) (msg : String) : Except String Int32 :=
  if -2 ^ 31 ≤ exact ∧ exact < 2 ^ 31 then .ok wrapped
  else if p.overflowChecks then .error msg
  else .ok wrapped

def addI32 (p : Profile) (a b : Int32) : Except String Int32 :=
  p.i32 (a.toInt + b.toInt) (a + b) "attempt to add with overflow"

def mulI32 (p : Profile) (a b : Int32) : Except String Int32 :=
  p.i32 (a.toInt * b.toInt) (a * b) "attempt to multiply with overflow"

theorem add_eq (p : Profile) (h : a + b < 2 ^ w) : p.add w a b = .ok (a + b) :=
  if_pos h

theorem sub_eq (p : Profile) (h : b ≤ a) : p.sub w a b = .ok (a - b) :=
  if_pos h

end Profile

/-- Integers of a fixed width, whose operations give the exact results modulo a power of two. -/
structure Wraps [Add α] [Sub α] [Mul α] [Div α] [Mod α] [Neg α] [OfNat α 0] (toInt : α → Int)
    (ofInt : Int → α) : Prop where
  add : ∀ a b, ofInt (toInt a + toInt b) = a + b
  sub : ∀ a b, ofInt (toInt a - toInt b) = a - b
  mul : ∀ a b, ofInt (toInt a * toInt b) = a * b
  div : ∀ a b, ofInt ((toInt a).tdiv (toInt b)) = a / b
  mod : ∀ a b, ofInt ((toInt a).tmod (toInt b)) = a % b
  neg : ∀ a, ofInt (-toInt a) = -a
  zero : ∀ a, toInt a = 0 ↔ a = 0

theorem wraps_int32 : Wraps Int32.toInt Int32.ofInt where
  add _ _ := by rw [Int32.ofInt_add, Int32.ofInt_toInt, Int32.ofInt_toInt]
  sub _ _ := by rw [Int32.ofInt_sub, Int32.ofInt_toInt, Int32.ofInt_toInt]
  mul _ _ := by rw [Int32.ofInt_mul, Int32.ofInt_toInt, Int32.ofInt_toInt]
  div a b := by
    apply Int32.toInt_inj.mp
    rw [Int32.toInt_ofInt, Int32.toInt_div]
  mod _ _ := by rw [← Int32.toInt_mod, Int32.ofInt_toInt]
  neg _ := by rw [Int32.ofInt_neg, Int32.ofInt_toInt]
  zero _ := by rw [← Int32.toInt_inj, Int32.toInt_zero]

theorem wraps_int64 : Wraps Int64.toInt Int64.ofInt where
  add _ _ := by rw [Int64.ofInt_add, Int64.ofInt_toInt, Int64.ofInt_toInt]
  sub _ _ := by rw [Int64.ofInt_sub, Int64.ofInt_toInt, Int64.ofInt_toInt]
  mul _ _ := by rw [Int64.ofInt_mul, Int64.ofInt_toInt, Int64.ofInt_toInt]
  div a b := by
    apply Int64.toInt_inj.mp
    rw [Int64.toInt_ofInt, Int64.toInt_div]
  mod _ _ := by rw [← Int64.toInt_mod, Int64.ofInt_toInt]
  neg _ := by rw [Int64.ofInt_neg, Int64.ofInt_toInt]
  zero _ := by rw [← Int64.toInt_inj, Int64.toInt_zero]

end Janadinite
