import Janadinite.Parse.Io

namespace Janadinite
set_option autoImplicit true

abbrev Addr := UInt64

/-- A single JVM slot: an `isize`, which is negative when the slot holds a reference. -/
structure JVMSlot where
  raw : Int64
  deriving DecidableEq, Repr

namespace JVMSlot

def null : JVMSlot := ⟨0⟩

def fromObject (obj : Addr) : JVMSlot := ⟨-obj.toInt64⟩

def isObject (slot : JVMSlot) : Bool := slot.raw < 0

/-- The reference in a slot, which `into_object` takes and `with_object` borrows. -/
def object? (slot : JVMSlot) : Option Addr :=
  if slot.isObject then some (-slot.raw).toUInt64 else none

def asI32 (slot : JVMSlot) : Int32 := slot.raw.toUInt64.toUInt32.toInt32

def fromI32 (i : Int32) : JVMSlot := ⟨i.toUInt32.toUInt64.toInt64⟩

def fromI64 (i : Int64) : List JVMSlot :=
  let i := i.toUInt64
  let low := i.toUInt32
  let high := (i >>> 32).toUInt32
  [fromI32 low.toInt32, fromI32 high.toInt32]

end JVMSlot

inductive JVMValue where
  | object (obj : Addr)
  | byte (value : Int8)
  | short (value : Int16)
  | int (value : Int32)
  | float (value : F32)
  | long (value : Int64)
  | double (value : F64)
  deriving DecidableEq, Repr

namespace JVMValue

def slotCount : JVMValue → Nat
  | .long _ => 2
  | .double _ => 2
  | _ => 1

def toSlots : JVMValue → List JVMSlot
  | .object obj => [.fromObject obj]
  | .byte b => [.fromI32 b.toInt32]
  | .short s => [.fromI32 s.toInt32]
  | .int i => [.fromI32 i]
  | .float f => [.fromI32 f.bits.toInt32]
  | .long l => JVMSlot.fromI64 l
  | .double d => JVMSlot.fromI64 d.bits.toInt64

end JVMValue

/-- The addresses for which a slot can hold a reference: (0, 2^63). -/
def Addr.Fits (a : Addr) : Prop := 0 < a.toNat ∧ a.toNat < 2 ^ 63

instance (a : Addr) : Decidable a.Fits := inferInstanceAs (Decidable (_ ∧ _))

namespace JVMSlot

theorem toInt_fromI32 (i : Int32) : (fromI32 i).raw.toInt = i.toUInt32.toNat := by
  have h : i.toUInt32.toUInt64.toNat = i.toUInt32.toNat := UInt32.toNat_toUInt64 _
  have hlt : i.toUInt32.toNat < 2 ^ 32 := i.toUInt32.toNat_lt
  change i.toUInt32.toUInt64.toBitVec.toInt = _
  rw [BitVec.toInt_eq_toNat_of_lt, UInt64.toNat_toBitVec, h]
  rw [UInt64.toNat_toBitVec, h]
  omega

theorem object?_fromI32 (i : Int32) : (fromI32 i).object? = none := by
  have h := toInt_fromI32 i
  rw [object?, isObject, if_neg]
  rw [decide_eq_true_eq, Int64.lt_iff_toInt_lt, h]
  simp only [Int64.toInt_zero]
  omega

theorem object?_null : null.object? = none := by decide

theorem toInt_toInt64 {a : Addr} (h : a.toNat < 2 ^ 63) : a.toInt64.toInt = a.toNat := by
  change a.toBitVec.toInt = _
  rw [BitVec.toInt_eq_toNat_of_lt, UInt64.toNat_toBitVec]
  rw [UInt64.toNat_toBitVec]
  omega

theorem object?_fromObject {a : Addr} (h : a.Fits) : (fromObject a).object? = some a := by
  have hi := toInt_toInt64 h.2
  obtain ⟨hpos, hlt⟩ := h
  have hneg : (-a.toInt64).toInt = -a.toNat := by
    rw [Int64.toInt_neg, hi, Int.bmod_eq_of_le] <;> omega
  rw [object?, isObject, if_pos]
  · simp only [fromObject, Int64.neg_neg, UInt64.toUInt64_toInt64]
  · rw [decide_eq_true_eq, Int64.lt_iff_toInt_lt]
    simp only [fromObject, hneg, Int64.toInt_zero]
    omega

theorem eq_fromObject {slot : JVMSlot} (h : slot.object? = some a) : slot = fromObject a := by
  rw [object?] at h
  split at h
  · cases h
    simp only [fromObject, Int64.toInt64_toUInt64, Int64.neg_neg]
  · cases h

end JVMSlot

end Janadinite
