import Janadinite.Lib.Bytes
import Janadinite.Lib.Codec

namespace Janadinite
open Bytes Codec
set_option autoImplicit true

inductive ErrorKind where
  | unexpectedEof
  | invalidData
  | other
  deriving DecidableEq, Repr

def ErrorKind.explain : ErrorKind → String
  | .other => "Unknown Error"
  | .unexpectedEof => "Unexpected End Of File"
  | .invalidData => "Corrupted"

inductive Error where
  | static (kind : ErrorKind) (msg : String)
  | allocated (kind : ErrorKind) (msg : String)
  deriving DecidableEq, Repr

def Error.newStatic (kind : ErrorKind) (msg : String) : Error := .static kind msg

def Error.new (kind : ErrorKind) (msg : String) : Error := .allocated kind msg

def Error.ofKind (kind : ErrorKind) : Error := .newStatic kind kind.explain

def Error.message : Error → String
  | .allocated _ m => m
  | .static _ m => m

def Error.kind : Error → ErrorKind
  | .allocated k _ => k
  | .static k _ => k

/-- A call that does not return `Ok` returns `Err` or panics. -/
inductive Fault where
  | error (e : Error)
  | panic (msg : String)
  deriving DecidableEq, Repr

abbrev Io (σ : Type) := StateT σ (Except Fault)

def invalidData (msg : String) : Fault := .error (.newStatic .invalidData msg)

def unexpectedEof : Fault := .error (.ofKind .unexpectedEof)

/-- `readNext n` returns the bytes it put at the front of a buffer of `n` bytes. -/
class ClassReader (R : Type) where
  readNext : Nat → Io R (List UInt8)
  readNextExact : Nat → Io R (List UInt8) := fun n => do
    let buf ← readNext n
    if buf.length < n then throw unexpectedEof
    pure buf

class ClassWriter (W : Type) where
  writeNext : List UInt8 → Io W Nat
  writeNextExact : List UInt8 → Io W PUnit := fun buf => do
    let am ← writeNext buf
    if am < buf.length then throw unexpectedEof

section Reader
variable {R : Type} [ClassReader R]
open ClassReader

def readU8 : Io R UInt8 := do
  let buf ← readNextExact 1
  pure (UInt8.ofNat (ofBE buf))

def readU16 : Io R UInt16 := do
  let buf ← readNextExact 2
  pure (UInt16.ofNat (ofBE buf))

def readU32 : Io R UInt32 := do
  let buf ← readNextExact 4
  pure (UInt32.ofNat (ofBE buf))

def readU64 : Io R UInt64 := do
  let buf ← readNextExact 8
  pure (UInt64.ofNat (ofBE buf))

end Reader

class ClassDecode (α : Type) where
  decodeFrom {R : Type} [ClassReader R] : Io R α

class ClassEncode (α : Type) where
  encodeInto {W : Type} [ClassWriter W] : α → Io W PUnit

open ClassDecode ClassEncode

def decodeN (α : Type) [ClassDecode α] {R : Type} [ClassReader R] : Nat → Io R (List α)
  | 0 => pure []
  | n + 1 => do
    let x ← decodeFrom
    let xs ← decodeN α n
    pure (x :: xs)

section Writer
variable {W : Type} [ClassWriter W]
open ClassWriter

def writeU8 (value : UInt8) : Io W PUnit := writeNextExact (toBE 1 value.toNat)

def writeU16 (value : UInt16) : Io W PUnit := writeNextExact (toBE 2 value.toNat)

def writeU32 (value : UInt32) : Io W PUnit := writeNextExact (toBE 4 value.toNat)

def writeU64 (value : UInt64) : Io W PUnit := writeNextExact (toBE 8 value.toNat)

def encodeItems {α : Type} [ClassEncode α] : List α → Io W PUnit
  | [] => pure ⟨⟩
  | item :: items => do
    encodeInto item
    encodeItems items

end Writer

instance : ClassDecode UInt8 := ⟨readU8⟩
instance : ClassEncode UInt8 := ⟨writeU8⟩
instance : ClassDecode UInt16 := ⟨readU16⟩
instance : ClassEncode UInt16 := ⟨writeU16⟩

structure F32 where
  bits : UInt32
  deriving DecidableEq, Repr

structure F64 where
  bits : UInt64
  deriving DecidableEq, Repr

def F32.isNan (f : F32) : Bool := f.bits &&& 0x7fffffff > 0x7f800000

def F64.isNan (d : F64) : Bool := d.bits &&& 0x7fffffffffffffff > 0x7ff0000000000000

instance : ClassDecode F32 where
  decodeFrom := do
    let bits ← readU32
    pure ⟨bits⟩

instance : ClassEncode F32 where
  encodeInto f := writeU32 (if f.isNan then 0xffffffff else f.bits)

instance : ClassDecode F64 where
  decodeFrom := do
    let bits ← readU64
    pure ⟨bits⟩

instance : ClassEncode F64 where
  encodeInto d := writeU64 (if d.isNan then 0xffffffffffffffff else d.bits)

/-- A byte slice, by the bytes not read yet. -/
abbrev ClassByteReader := List UInt8

instance : ClassReader ClassByteReader where
  readNext n := fun bytes =>
    let amount := min n bytes.length
    .ok (bytes.take amount, bytes.drop amount)

/-- `Vec<u8>` through the blanket implementation for `std::io::Write`. -/
instance : ClassWriter (List UInt8) where
  writeNext buf := fun out => .ok (buf.length, out ++ buf)

theorem readNextExact_reads (bs : List UInt8) :
    Reads (ClassReader.readNextExact (R := ClassByteReader) bs.length) bs bs := by
  intro rest
  simp only [ClassReader.readNextExact, bind, StateT.bind, Except.bind,
    List.length_append, Nat.min_eq_left (Nat.le_add_right ..), List.take_left', List.drop_left',
    Nat.lt_irrefl, ↓reduceIte]
  rfl

theorem readNextExact_ok (n : Nat) {bytes : ClassByteReader}
    (h : ClassReader.readNextExact n bytes = .ok (buf, rest)) :
    rest = bytes.drop n ∧ n ≤ bytes.length := by
  by_cases hn : n ≤ bytes.length
  · simp only [ClassReader.readNextExact, bind, StateT.bind, Except.bind, Nat.min_eq_left hn,
      List.length_take, Nat.lt_irrefl, ↓reduceIte] at h
    cases h
    exact ⟨rfl, hn⟩
  · have hlt : bytes.length < n := Nat.lt_of_not_le hn
    have hmin : min n bytes.length = bytes.length := Nat.min_eq_right (Nat.le_of_lt hlt)
    simp only [ClassReader.readNextExact, bind, StateT.bind, Except.bind, hmin, List.take_length,
      hlt, ↓reduceIte] at h
    cases h

theorem readNextExact_map_ok (n : Nat) {f : List UInt8 → α} {bytes : ClassByteReader}
    (h : (ClassReader.readNextExact n >>= fun buf => pure (f buf)) bytes = .ok (a, rest)) :
    rest = bytes.drop n ∧ n ≤ bytes.length := by
  change (ClassReader.readNextExact n bytes >>= fun p => Except.ok (f p.1, p.2)) = _ at h
  cases he : ClassReader.readNextExact n bytes with
  | error fault =>
    rw [he] at h
    cases h
  | ok p =>
    rw [he] at h
    cases h
    exact readNextExact_ok n he

theorem writeNextExact_writes (bs : List UInt8) :
    Writes (ClassWriter.writeNextExact (W := List UInt8) bs) bs := by
  intro out
  simp only [ClassWriter.writeNextExact, bind, StateT.bind, Except.bind, Nat.lt_irrefl, ↓reduceIte]
  rfl

theorem reads_toBE (h : n < 256 ^ w) (f : Nat → α) :
    Reads (ClassReader.readNextExact (R := ClassByteReader) w >>= fun buf => pure (f (ofBE buf)))
      (toBE w n) (f n) := by
  have hr := readNextExact_reads (toBE w n)
  rw [toBE_length] at hr
  have hm := hr.map (fun buf => f (ofBE buf))
  rwa [ofBE_toBE h] at hm

theorem readU8_reads (x : UInt8) : Reads (readU8 (R := ClassByteReader)) (toBE 1 x.toNat) x := by
  have h := reads_toBE (n := x.toNat) (w := 1) x.toNat_lt UInt8.ofNat
  rwa [UInt8.ofNat_toNat] at h

theorem readU16_reads (x : UInt16) :
    Reads (readU16 (R := ClassByteReader)) (toBE 2 x.toNat) x := by
  have h := reads_toBE (n := x.toNat) (w := 2) x.toNat_lt UInt16.ofNat
  rwa [UInt16.ofNat_toNat] at h

theorem readU32_reads (x : UInt32) :
    Reads (readU32 (R := ClassByteReader)) (toBE 4 x.toNat) x := by
  have h := reads_toBE (n := x.toNat) (w := 4) x.toNat_lt UInt32.ofNat
  rwa [UInt32.ofNat_toNat] at h

theorem readU64_reads (x : UInt64) :
    Reads (readU64 (R := ClassByteReader)) (toBE 8 x.toNat) x := by
  have h := reads_toBE (n := x.toNat) (w := 8) x.toNat_lt UInt64.ofNat
  rwa [UInt64.ofNat_toNat] at h

end Janadinite
