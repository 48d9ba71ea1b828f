import Mathlib.Algebra.Ring.Nat

namespace Janadinite.Bytes
set_option autoImplicit true

/-- The `w` low bytes of a number, high byte first. -/
def toBE : Nat → Nat → List UInt8
  | 0, _ => []
  | w + 1, n => UInt8.ofNat (n / 256 ^ w) :: toBE w n

/-- The number a byte string denotes, high byte first. -/
def ofBE (bs : List UInt8) : Nat := bs.foldl (fun n b => n * 256 + b.toNat) 0

@[simp] theorem toBE_length (w n : Nat) : (toBE w n).length = w := by
  induction w with
  | zero => rfl
  | succ w ih => simp only [toBE, List.length_cons, ih]

theorem toBE_one (x : UInt8) : toBE 1 x.toNat = [x] := by
  simp only [toBE, Nat.pow_zero, Nat.div_one, UInt8.ofNat_toNat]

theorem foldl_toBE (w n acc : Nat) :
    (toBE w n).foldl (fun n b => n * 256 + b.toNat) acc = acc * 256 ^ w + n % 256 ^ w := by
  induction w generalizing acc with
  | zero => simp only [toBE, List.foldl_nil, Nat.pow_zero, Nat.mul_one, Nat.mod_one, Nat.add_zero]
  | succ w ih =>
    have hmod : n % 256 ^ (w + 1) = n / 256 ^ w % 256 * 256 ^ w + n % 256 ^ w := by
      rw [Nat.pow_succ, Nat.mod_mul, Nat.mul_comm (256 ^ w), Nat.add_comm]
    have hacc : acc * 256 ^ (w + 1) = acc * 256 * 256 ^ w := by
      rw [Nat.pow_succ, Nat.mul_comm (256 ^ w), Nat.mul_assoc]
    have hb : (UInt8.ofNat (n / 256 ^ w)).toNat = n / 256 ^ w % 256 := rfl
    rw [toBE, List.foldl_cons, ih, hmod, hacc, hb, Nat.add_mul, Nat.add_assoc]

theorem ofBE_toBE (h : n < 256 ^ w) : ofBE (toBE w n) = n := by
  rw [ofBE, foldl_toBE, Nat.zero_mul, Nat.zero_add, Nat.mod_eq_of_lt h]

theorem toBE_cancel (h : m < 256 ^ w) (h' : n < 256 ^ w) : toBE w m = toBE w n ↔ m = n := by
  constructor
  · intro heq
    rw [← ofBE_toBE h, heq, ofBE_toBE h']
  · exact congrArg _

theorem foldl_ofBE (bs : List UInt8) (acc : Nat) :
    bs.foldl (fun n b => n * 256 + b.toNat) acc = acc * 256 ^ bs.length + ofBE bs := by
  induction bs generalizing acc with
  | nil => exact (Nat.mul_one acc).symm
  | cons b bs ih =>
    have hb : ofBE (b :: bs) = b.toNat * 256 ^ bs.length + ofBE bs := by
      rw [ofBE, List.foldl_cons, ih, Nat.zero_mul, Nat.zero_add]
    rw [List.foldl_cons, ih, hb, List.length_cons, Nat.pow_succ, Nat.mul_comm (256 ^ _) 256,
      ← Nat.mul_assoc, Nat.add_mul, Nat.add_assoc]

theorem ofBE_cons (b : UInt8) (bs : List UInt8) :
    ofBE (b :: bs) = b.toNat * 256 ^ bs.length + ofBE bs := by
  rw [ofBE, List.foldl_cons, foldl_ofBE, Nat.zero_mul, Nat.zero_add]

theorem ofBE_lt (bs : List UInt8) : ofBE bs < 256 ^ bs.length := by
  induction bs with
  | nil => exact Nat.one_pos
  | cons b bs ih =>
    have hb := b.toNat_lt
    have hle : (b.toNat + 1) * 256 ^ bs.length ≤ 256 * 256 ^ bs.length :=
      Nat.mul_le_mul_right _ hb
    rw [ofBE_cons, List.length_cons, Nat.pow_succ, Nat.mul_comm _ 256]
    rw [Nat.add_mul, Nat.one_mul] at hle
    omega

/-- Only the low bytes count. -/
theorem toBE_add_mul (w k n : Nat) : toBE w (k * 256 ^ w + n) = toBE w n := by
  induction w generalizing k with
  | zero => rfl
  | succ w ih =>
    have hk : k * 256 ^ (w + 1) + n = k * 256 * 256 ^ w + n := by
      rw [Nat.pow_succ, Nat.mul_comm (256 ^ w), Nat.mul_assoc]
    have hdiv : (k * 256 * 256 ^ w + n) / 256 ^ w = k * 256 + n / 256 ^ w := by
      rw [Nat.add_comm, Nat.add_mul_div_right _ _ (Nat.pow_pos (by decide)), Nat.add_comm]
    have hbyte : UInt8.ofNat (k * 256 + n / 256 ^ w) = UInt8.ofNat (n / 256 ^ w) := by
      apply UInt8.toNat_inj.mp
      rw [UInt8.toNat_ofNat', UInt8.toNat_ofNat', Nat.mul_comm k 256]
      exact Nat.mul_add_mod 256 k _
    rw [toBE, hk, hdiv, hbyte, ih, toBE]

theorem toBE_ofBE (bs : List UInt8) : toBE bs.length (ofBE bs) = bs := by
  induction bs with
  | nil => rfl
  | cons b bs ih =>
    have hlt := ofBE_lt bs
    have hdiv : (b.toNat * 256 ^ bs.length + ofBE bs) / 256 ^ bs.length = b.toNat := by
      rw [Nat.add_comm, Nat.add_mul_div_right _ _ (Nat.pow_pos (by decide)),
        Nat.div_eq_of_lt hlt, Nat.zero_add]
    rw [ofBE_cons, List.length_cons, toBE, hdiv, UInt8.ofNat_toNat, toBE_add_mul, ih]

end Janadinite.Bytes
