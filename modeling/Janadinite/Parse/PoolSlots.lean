import Janadinite.Lib.Overflow
import Janadinite.Parse.RawRoundTrip

namespace Janadinite
open Bytes Codec ClassDecode
set_option autoImplicit true

def Fault.IsError (fault : Fault) : Prop := ∃ e, fault = .error e

/-- The reader has not gone back. -/
def Onward (bytes rest : ClassByteReader) : Prop := rest.length ≤ bytes.length

/-- Reads on from where it stands, and returns an error if it fails. -/
def Orderly (m : Io ClassByteReader α) : Prop := Outcomes Onward Fault.IsError m

theorem Onward.trans (h : Onward bytes mid) (h' : Onward mid rest) : Onward bytes rest :=
  Nat.le_trans h' h

theorem Orderly.pure (a : α) : Orderly (pure a) :=
  Outcomes.pure (fun bytes => Nat.le_refl bytes.length) a

theorem Orderly.bind {m : Io ClassByteReader α} {f : α → Io ClassByteReader β} (hm : Orderly m)
    (hf : ∀ a, Orderly (f a)) : Orderly (m >>= f) :=
  Outcomes.bind (fun _ _ _ => Onward.trans) hm hf

theorem Orderly.map {m : Io ClassByteReader α} (hm : Orderly m) (f : α → β) :
    Orderly (m >>= fun a => Pure.pure (f a)) :=
  hm.bind fun a => .pure (f a)

theorem Orderly.throw (e : Error) : Orderly (throw (.error e) : Io ClassByteReader α) :=
  Outcomes.throw ⟨e, rfl⟩

theorem readNextExact_orderly (n : Nat) :
    Orderly (ClassReader.readNextExact (R := ClassByteReader) n) where
  ok bytes buf rest h := by
    rw [Onward, (readNextExact_ok n h).1, List.length_drop]
    exact Nat.sub_le _ _
  error bytes fault h := by
    simp only [ClassReader.readNextExact, bind, StateT.bind, Except.bind] at h
    split at h
    · cases h
      exact ⟨_, rfl⟩
    · cases h

theorem readU8_orderly : Orderly readU8 := (readNextExact_orderly 1).map _
theorem readU16_orderly : Orderly readU16 := (readNextExact_orderly 2).map _
theorem readU32_orderly : Orderly readU32 := (readNextExact_orderly 4).map _
theorem readU64_orderly : Orderly readU64 := (readNextExact_orderly 8).map _

theorem readU8_shorter {bytes rest : ClassByteReader} (h : readU8 bytes = .ok (tag, rest)) :
    rest.length < bytes.length := by
  obtain ⟨hrest, hlen⟩ := readNextExact_map_ok 1 h
  rw [hrest, List.length_drop]
  omega

theorem decodeN_orderly [ClassDecode α] (h : Orderly (decodeFrom (α := α))) (n : Nat) :
    Orderly (decodeN α n) := by
  induction n with
  | zero => exact .pure _
  | succ n ih => exact h.bind fun x => ih.map (x :: ·)

theorem AttributeInfo.orderly : Orderly (decodeFrom (α := AttributeInfo)) :=
  readU16_orderly.bind fun _ => readU32_orderly.bind fun _ =>
    (decodeN_orderly readU8_orderly _).map _

theorem memberInfo_orderly (k : UInt16 → UInt16 → UInt16 → List AttributeInfo → α) :
    Orderly (do
      let accessFlags ← readU16
      let nameIndex ← readU16
      let descriptorIndex ← readU16
      let attributesCount ← readU16
      let attributes ← decodeN AttributeInfo attributesCount.toNat
      Pure.pure (k accessFlags nameIndex descriptorIndex attributes)) :=
  readU16_orderly.bind fun _ => readU16_orderly.bind fun _ => readU16_orderly.bind fun _ =>
    readU16_orderly.bind fun _ => (decodeN_orderly AttributeInfo.orderly _).map _

theorem FieldInfo.orderly : Orderly (decodeFrom (α := FieldInfo)) :=
  memberInfo_orderly FieldInfo.mk

theorem MethodInfo.orderly : Orderly (decodeFrom (α := MethodInfo)) :=
  memberInfo_orderly MethodInfo.mk

theorem decodeMembers_orderly (magic : UInt32) (minor major : UInt16)
    (pool : List ConstantPoolEntry) :
    Orderly (RawClassFile.decodeMembers magic minor major pool) :=
  readU16_orderly.bind fun _ => readU16_orderly.bind fun _ => readU16_orderly.bind fun _ =>
    readU16_orderly.bind fun _ => (decodeN_orderly readU16_orderly _).bind fun _ =>
      readU16_orderly.bind fun _ => (decodeN_orderly FieldInfo.orderly _).bind fun _ =>
        readU16_orderly.bind fun _ => (decodeN_orderly MethodInfo.orderly _).bind fun _ =>
          readU16_orderly.bind fun _ => (decodeN_orderly AttributeInfo.orderly _).map _

theorem readIndexPair_orderly (entry : UInt16 → UInt16 → ConstantPoolEntry) :
    Orderly (readIndexPair entry) :=
  readU16_orderly.bind fun _ => readU16_orderly.map _

/-- The logical indices that constants take up, two for one of eight bytes. -/
def indicesTaken (es : List ConstantPoolEntry) : Nat :=
  (es.map fun entry => if entry.isWide then 2 else 1).sum

/-- The logical index of the constant that follows others. -/
def logicalIndex (es : List ConstantPoolEntry) : Nat := 1 + indicesTaken es

/-- The pool holds each of the constants at its logical index and has `count` entries. -/
structure LaidOut (count : Nat) (es pool : List ConstantPoolEntry) : Prop where
  length : pool.length = count
  first : pool[0]? = some .unusable
  entry : ∀ k entry, es[k]? = some entry → pool[logicalIndex (es.take k)]? = some entry
  second : ∀ k entry, es[k]? = some entry → entry.isWide = true →
    pool[logicalIndex (es.take k) + 1]? = some .unusable

@[simp] theorem indicesTaken_nil : indicesTaken [] = 0 := rfl

theorem indicesTaken_cons (entry : ConstantPoolEntry) (es : List ConstantPoolEntry) :
    indicesTaken (entry :: es) = entry.width.toNat + indicesTaken es := by
  rw [indicesTaken, List.map_cons, List.sum_cons, ConstantPoolEntry.width]
  cases entry.isWide <;> rfl

theorem length_slots (es : List ConstantPoolEntry) :
    (es.flatMap ConstantPoolEntry.slots).length = indicesTaken es := by
  induction es with
  | nil => rfl
  | cons entry es ih =>
    rw [List.flatMap_cons, List.length_append, ih, indicesTaken_cons, ConstantPoolEntry.slots,
      ConstantPoolEntry.width]
    cases entry.isWide <;> rfl

theorem getElem?_slots {es : List ConstantPoolEntry} (h : es[k]? = some entry) (i : Nat) :
    (ConstantPoolEntry.unusable ::
      es.flatMap ConstantPoolEntry.slots)[logicalIndex (es.take k) + i]? =
      (entry.slots ++ (es.drop (k + 1)).flatMap ConstantPoolEntry.slots)[i]? := by
  obtain ⟨hk, he⟩ := List.getElem?_eq_some_iff.1 h
  have hsplit : es.flatMap ConstantPoolEntry.slots = (es.take k).flatMap ConstantPoolEntry.slots ++
      (entry.slots ++ (es.drop (k + 1)).flatMap ConstantPoolEntry.slots) := by
    rw [← List.flatMap_cons, ← he, ← List.drop_eq_getElem_cons hk, ← List.flatMap_append,
      List.take_append_drop]
  have hi : logicalIndex (es.take k) + i = indicesTaken (es.take k) + i + 1 := by
    rw [logicalIndex]
    omega
  rw [hi, List.getElem?_cons_succ, hsplit, List.getElem?_append_right (by rw [length_slots]; omega),
    length_slots, Nat.add_sub_cancel_left]

theorem laidOut_slots (h : logicalIndex es = count) :
    LaidOut count es (.unusable :: es.flatMap ConstantPoolEntry.slots) where
  length := by
    rw [List.length_cons, length_slots, ← h, logicalIndex, Nat.add_comm]
  first := rfl
  entry k entry hk := by
    rw [← Nat.add_zero (logicalIndex _), getElem?_slots hk, ConstantPoolEntry.slots]
    cases entry.isWide <;> rfl
  second k entry hk hw := by
    rw [getElem?_slots hk, ConstantPoolEntry.slots, if_pos hw]
    rfl

theorem toNat_index {index : UInt16} {entry : ConstantPoolEntry}
    (h : index.toNat + entry.width.toNat < 65536) :
    (index + entry.width).toNat = index.toNat + entry.width.toNat := by
  rw [UInt16.toNat_add]
  exact Nat.mod_eq_of_lt h

theorem one_le_count {count : UInt16} (h : count ≠ 0) : 1 ≤ count := by
  rw [UInt16.le_iff_toNat_le]
  have hne : count.toNat ≠ 0 := fun he => h (UInt16.toNat_inj.1 he)
  change 1 ≤ count.toNat
  omega

structure PoolHeader where
  magic : UInt32
  minorVersion : UInt16
  majorVersion : UInt16
  constantPoolCount : UInt16
  deriving DecidableEq, Repr

def PoolHeader.decodeFrom : Io ClassByteReader PoolHeader := do
  let magic ← readU32
  if magic ≠ 0xCAFEBABE then
    throw (.error (.new .invalidData s!"Invalid magic number ({hexUpper magic})"))
  let minorVersion ← readU16
  let majorVersion ← readU16
  let constantPoolCount ← readU16
  pure { magic, minorVersion, majorVersion, constantPoolCount }

theorem header_orderly : Orderly PoolHeader.decodeFrom := by
  apply readU32_orderly.bind
  intro magic
  split
  · exact (Orderly.throw _).bind fun _ => readU16_orderly.bind fun _ =>
      readU16_orderly.bind fun _ => readU16_orderly.map _
  · exact readU16_orderly.bind fun _ => readU16_orderly.bind fun _ => readU16_orderly.map _

/-- The rest of a class file stands at the front of the stream. -/
def MembersFollow (tail : ClassByteReader) : Prop :=
  ∃ r, RawClassFile.decodeMembers 0 0 0 [] tail = .ok r

theorem decodeMembers_map (magic : UInt32) (minor major : UInt16) (pool : List ConstantPoolEntry) :
    RawClassFile.decodeMembers (R := ClassByteReader) magic minor major pool =
      RawClassFile.decodeMembers 0 0 0 [] >>= fun raw => pure {
        raw with magic, minorVersion := minor, majorVersion := major, constantPool := pool } := by
  simp only [RawClassFile.decodeMembers, bind_assoc, pure_bind]

theorem decodeMembers_follow (magic : UInt32) (minor major : UInt16)
    (pool : List ConstantPoolEntry) (tail : ClassByteReader) :
    (∃ r, RawClassFile.decodeMembers magic minor major pool tail = .ok r) ↔
      MembersFollow tail := by
  rw [decodeMembers_map]
  change (∃ r, (RawClassFile.decodeMembers 0 0 0 [] tail >>= fun p => Except.ok (_, p.2)) =
    .ok r) ↔ _
  rw [MembersFollow]
  cases RawClassFile.decodeMembers 0 0 0 [] tail with
  | error fault => exact ⟨fun ⟨r, h⟩ => (by cases h), fun ⟨r, h⟩ => (by cases h)⟩
  | ok r => exact ⟨fun _ => ⟨r, rfl⟩, fun _ => ⟨_, rfl⟩⟩

section
variable [Mutf8]

theorem decodeTagged_orderly (tag : UInt8) :
    Orderly (ConstantPoolEntry.decodeTagged (R := ClassByteReader) tag) := by
  unfold ConstantPoolEntry.decodeTagged
  split
  · apply readU16_orderly.bind
    intro _
    apply (decodeN_orderly readU8_orderly _).bind
    intro bytes
    split
    · exact .pure _
    · exact .throw _
  · exact readU32_orderly.map _
  · exact (readU32_orderly.map F32.mk).map _
  · exact readU64_orderly.map _
  · exact (readU64_orderly.map F64.mk).map _
  · exact readU16_orderly.map _
  · exact readU16_orderly.map _
  · exact readIndexPair_orderly _
  · exact readIndexPair_orderly _
  · exact readIndexPair_orderly _
  · exact readIndexPair_orderly _
  · exact readU8_orderly.bind fun _ => readU16_orderly.map _
  · exact readU16_orderly.map _
  · exact readIndexPair_orderly _
  · exact .throw _

theorem decodeEntry_orderly :
    Orderly (ConstantPoolEntry.decodeFrom (R := ClassByteReader)) :=
  readU8_orderly.bind decodeTagged_orderly

/-- A constant takes at least the byte of its tag. -/
theorem decodeEntry_shorter {bytes rest : ClassByteReader}
    (h : ConstantPoolEntry.decodeFrom bytes = .ok (entry, rest)) : rest.length < bytes.length := by
  change (readU8 bytes >>= fun p => ConstantPoolEntry.decodeTagged p.1 p.2) = _ at h
  cases he : readU8 bytes with
  | error fault =>
    rw [he] at h
    cases h
  | ok p =>
    rw [he] at h
    exact Nat.lt_of_le_of_lt ((decodeTagged_orderly p.1).ok _ _ _ h) (readU8_shorter he)

theorem decodePass_stop (h : ¬ index < count)
    (pool : List ConstantPoolEntry) (bytes : ClassByteReader) :
    decodePass count index pool bytes = .ok (.done pool, bytes) := by
  rw [decodePass, if_neg h]
  rfl

theorem decodePass_error {bytes : ClassByteReader} (h : index < count)
    (pool : List ConstantPoolEntry) (he : ConstantPoolEntry.decodeFrom bytes = .error fault) :
    decodePass count index pool bytes = .error fault := by
  rw [decodePass, if_pos h]
  change (ConstantPoolEntry.decodeFrom bytes >>= fun p => _) = _
  rw [he]
  rfl

theorem decodePass_next {bytes : ClassByteReader} (h : index < count)
    (pool : List ConstantPoolEntry) (he : ConstantPoolEntry.decodeFrom bytes = .ok (entry, rest)) :
    decodePass count index pool bytes =
      if index.toNat + entry.width.toNat < 65536 then
        decodePass count (index + entry.width) (pool ++ entry.slots) rest
      else .ok (.wrapped (index + entry.width) (pool ++ entry.slots), rest) := by
  rw [decodePass, if_pos h]
  change (ConstantPoolEntry.decodeFrom bytes >>= fun p => _) = _
  rw [he]
  change (ite _ _ _ : Io ClassByteReader PoolPass) rest = _
  split <;> rfl

/-- A pass that wraps around has read a constant. -/
theorem decodePass_shorter {bytes rest : ClassByteReader}
    (h : decodePass count index pool bytes = .ok (.wrapped index' pool', rest)) :
    rest.length < bytes.length := by
  induction hn : bytes.length using Nat.strongRecOn generalizing index pool bytes with
  | ind n ih =>
    by_cases hi : index < count
    · cases he : ConstantPoolEntry.decodeFrom bytes with
      | error fault =>
        rw [decodePass_error hi pool he] at h
        cases h
      | ok r =>
        obtain ⟨entry, mid⟩ := r
        have hmid : mid.length < n := hn ▸ decodeEntry_shorter he
        rw [decodePass_next hi pool he] at h
        split at h
        · exact Nat.lt_trans (ih mid.length hmid h rfl) hmid
        · cases h
          exact hmid
    · rw [decodePass_stop hi] at h
      cases h

/-- The loop over the pool in a given build: an index that overflows panics or wraps around, and
the loop goes on. -/
def decodePoolIn (p : Profile) (constantPoolCount index : UInt16)
    (constantPool : List ConstantPoolEntry) (bytes : ClassByteReader) :
    Except Fault (List ConstantPoolEntry × ClassByteReader) :=
  match _hpass : decodePass constantPoolCount index constantPool bytes with
  | .error fault => .error fault
  | .ok (.done constantPool, rest) => .ok (constantPool, rest)
  | .ok (.wrapped index constantPool, rest) =>
    if p.overflowChecks then .error (.panic "attempt to add with overflow")
    else decodePoolIn p constantPoolCount index constantPool rest
termination_by bytes.length
decreasing_by exact decodePass_shorter _hpass

def RawClassFile.decodeFromIn (p : Profile) : Io ClassByteReader RawClassFile := do
  let header ← PoolHeader.decodeFrom
  let constantPool ← decodePoolIn p header.constantPoolCount 1 [.unusable]
  decodeMembers header.magic header.minorVersion header.majorVersion constantPool

/-- The loop is a pass and, where the index wraps around, the loop again. -/
theorem decodePoolIn_eq (p : Profile) (count index : UInt16) (pool : List ConstantPoolEntry)
    (bytes : ClassByteReader) :
    decodePoolIn p count index pool bytes =
      (decodePass count index pool bytes >>= fun
        | (.done pool, rest) => .ok (pool, rest)
        | (.wrapped index pool, rest) =>
          if p.overflowChecks then .error (.panic "attempt to add with overflow")
          else decodePoolIn p count index pool rest) := by
  rw [decodePoolIn]
  cases decodePass count index pool bytes with
  | error fault => rfl
  | ok r =>
    obtain ⟨pass, rest⟩ := r
    cases pass <;> rfl

theorem decodePoolIn_stop (p : Profile) (h : ¬ index < count) (pool : List ConstantPoolEntry)
    (bytes : ClassByteReader) : decodePoolIn p count index pool bytes = .ok (pool, bytes) := by
  rw [decodePoolIn_eq, decodePass_stop h]
  rfl

theorem decodePoolIn_error (p : Profile) (h : index < count) (pool : List ConstantPoolEntry)
    (he : ConstantPoolEntry.decodeFrom bytes = .error fault) :
    decodePoolIn p count index pool bytes = .error fault := by
  rw [decodePoolIn_eq, decodePass_error h pool he]
  rfl

theorem decodePoolIn_next (p : Profile) (h : index < count) (pool : List ConstantPoolEntry)
    (he : ConstantPoolEntry.decodeFrom bytes = .ok (entry, rest))
    (hfit : index.toNat + entry.width.toNat < 65536) :
    decodePoolIn p count index pool bytes =
      decodePoolIn p count (index + entry.width) (pool ++ entry.slots) rest := by
  rw [decodePoolIn_eq, decodePass_next h pool he, if_pos hfit, ← decodePoolIn_eq]

theorem decodePoolIn_checked (count index : UInt16) (pool : List ConstantPoolEntry)
    (bytes : ClassByteReader) :
    decodePoolIn ⟨true⟩ count index pool bytes = decodePool count index pool bytes := by
  change _ = (decodePass count index pool bytes >>= fun r => PoolPass.checked r.1 r.2)
  rw [decodePoolIn_eq]
  cases decodePass count index pool bytes with
  | error fault => rfl
  | ok r =>
    obtain ⟨pass, rest⟩ := r
    cases pass <;> rfl

theorem decodePoolIn_overflow (h : index < count) (pool : List ConstantPoolEntry)
    (he : ConstantPoolEntry.decodeFrom bytes = .ok (entry, rest))
    (hover : ¬ index.toNat + entry.width.toNat < 65536) :
    decodePoolIn ⟨true⟩ count index pool bytes =
      .error (.panic "attempt to add with overflow") := by
  rw [decodePoolIn_eq, decodePass_next h pool he, if_neg hover]
  rfl

theorem decodeFromIn_checked (bytes : ClassByteReader) :
    RawClassFile.decodeFromIn ⟨true⟩ bytes = RawClassFile.decodeFrom bytes := by
  have hpool : decodePoolIn ⟨true⟩ = decodePool (R := ClassByteReader) := by
    funext count index pool bytes
    exact decodePoolIn_checked count index pool bytes
  have h : RawClassFile.decodeFromIn ⟨true⟩ = RawClassFile.decodeFrom (R := ClassByteReader) := by
    unfold RawClassFile.decodeFromIn RawClassFile.decodeFrom PoolHeader.decodeFrom
    rw [hpool, bind_assoc]
    refine congrArg (readU32 >>= ·) (funext fun magic => ?_)
    split
    · rfl
    · simp only [pure_bind, bind_assoc]
  rw [h]

/-- An eight-byte constant that stands at the last index, counted from `index`, and what follows
it. -/
def StraddlesFrom (index count : Nat) (body tail : ClassByteReader) : Prop :=
  ∃ es entry, ReadsAll ConstantPoolEntry.decodeFrom body (es ++ [entry]) tail ∧
    entry.isWide = true ∧ index + indicesTaken es + 1 = count

/-- What the loop can come to in a pool in which no constant straddles the end. -/
inductive Filled (count index : Nat) (pool : List ConstantPoolEntry) (body : ClassByteReader) :
    Except Fault (List ConstantPoolEntry × ClassByteReader) → Prop
  | full (hes : ReadsAll ConstantPoolEntry.decodeFrom body es tail)
      (hc : index + indicesTaken es = count) :
      Filled count index pool body (.ok (pool ++ es.flatMap ConstantPoolEntry.slots, tail))
  | failed (e : Error) : Filled count index pool body (.error (.error e))

theorem Filled.step (he : ConstantPoolEntry.decodeFrom bytes = .ok (entry, rest))
    (h : Filled count (index + entry.width.toNat) (pool ++ entry.slots) rest result) :
    Filled count index pool bytes result := by
  cases h with
  | @full es _ hes hc =>
    rw [List.append_assoc, ← List.flatMap_cons]
    refine .full (.cons he hes) ?_
    rw [indicesTaken_cons, ← Nat.add_assoc]
    exact hc
  | failed e => exact .failed e

theorem StraddlesFrom.cons (he : ConstantPoolEntry.decodeFrom bytes = .ok (entry, rest))
    (h : StraddlesFrom (index + entry.width.toNat) count rest tail) :
    StraddlesFrom index count bytes tail := by
  obtain ⟨es, last, hes, hw, hc⟩ := h
  refine ⟨entry :: es, last, .cons he hes, hw, ?_⟩
  rw [indicesTaken_cons, ← Nat.add_assoc]
  exact hc

/-- While no constant straddles the end, the index never runs past the count. -/
theorem index_fits {count index : UInt16} (hi : index < count)
    (he : ConstantPoolEntry.decodeFrom bytes = .ok (entry, rest))
    (hs : ∀ tail, ¬ StraddlesFrom index.toNat count.toNat bytes tail) :
    index.toNat + entry.width.toNat ≤ count.toNat := by
  rw [UInt16.lt_iff_toNat_lt] at hi
  cases hw : entry.isWide with
  | false =>
    have hwidth : entry.width = 1 := if_neg (by rw [hw]; exact Bool.false_ne_true)
    rw [hwidth]
    exact hi
  | true =>
    have hwidth : entry.width = 2 := if_pos hw
    have hne : index.toNat + 1 ≠ count.toNat := by
      intro hc
      exact hs rest ⟨[], entry, .cons he .nil, hw, hc⟩
    rw [hwidth]
    change index.toNat + 2 ≤ count.toNat
    omega

theorem decodePoolIn_filled (p : Profile) {count index : UInt16} (hi : index ≤ count)
    (pool : List ConstantPoolEntry) (bytes : ClassByteReader)
    (hs : ∀ tail, ¬ StraddlesFrom index.toNat count.toNat bytes tail) :
    Filled count.toNat index.toNat pool bytes (decodePoolIn p count index pool bytes) := by
  induction hn : bytes.length using Nat.strongRecOn generalizing index pool bytes with
  | ind n ih =>
    rw [UInt16.le_iff_toNat_le] at hi
    by_cases hlt : index < count
    · cases he : ConstantPoolEntry.decodeFrom bytes with
      | error fault =>
        rw [decodePoolIn_error p hlt pool he]
        obtain ⟨e, rfl⟩ := decodeEntry_orderly.error _ _ he
        exact .failed e
      | ok r =>
        obtain ⟨entry, rest⟩ := r
        have hle := index_fits hlt he hs
        have hfit : index.toNat + entry.width.toNat < 65536 := Nat.lt_of_le_of_lt hle count.toNat_lt
        rw [decodePoolIn_next p hlt pool he hfit]
        apply Filled.step he
        rw [← toNat_index hfit]
        refine ih rest.length (hn ▸ decodeEntry_shorter he) ?_ _ rest (fun tail ht => ?_) rfl
        · rw [UInt16.le_iff_toNat_le, toNat_index hfit]
          exact hle
        · rw [toNat_index hfit] at ht
          exact hs tail (ht.cons he)
    · rw [decodePoolIn_stop p hlt]
      rw [UInt16.lt_iff_toNat_lt] at hlt
      have hc : index.toNat + indicesTaken [] = count.toNat := by
        rw [indicesTaken_nil]
        omega
      have h : Filled count.toNat index.toNat pool bytes _ := .full .nil hc
      rwa [List.flatMap_nil, List.append_nil] at h

/-- The loop goes through constants that stay below the count. -/
theorem decodePoolIn_through (p : Profile) {count index : UInt16} (pool : List ConstantPoolEntry)
    (hes : ReadsAll ConstantPoolEntry.decodeFrom body es mid)
    (hlt : index.toNat + indicesTaken es < count.toNat) :
    decodePoolIn p count index pool body =
      decodePoolIn p count (.ofNat (index.toNat + indicesTaken es))
        (pool ++ es.flatMap ConstantPoolEntry.slots) mid := by
  induction hes generalizing index pool with
  | nil =>
    rw [indicesTaken_nil, Nat.add_zero, UInt16.ofNat_toNat, List.flatMap_nil, List.append_nil]
  | @cons bytes entry rest es tail he hes ih =>
    rw [indicesTaken_cons, ← Nat.add_assoc] at hlt ⊢
    have hcount := count.toNat_lt
    have hfit : index.toNat + entry.width.toNat < 65536 := by omega
    have hi : index < count := by
      rw [UInt16.lt_iff_toNat_lt]
      omega
    rw [← toNat_index hfit] at hlt ⊢
    rw [decodePoolIn_next p hi pool he hfit, ih _ hlt, List.append_assoc, List.flatMap_cons]

/-- A constant that straddles the end is the last one the loop reads. -/
theorem StraddlesFrom.decodePoolIn {count index : UInt16} (pool : List ConstantPoolEntry)
    (h : StraddlesFrom index.toNat count.toNat body tail) :
    (count ≠ 65535 → ∀ p, ∃ pool', decodePoolIn p count index pool body = .ok (pool', tail)) ∧
      (count = 65535 → decodePoolIn ⟨true⟩ count index pool body =
        .error (.panic "attempt to add with overflow")) := by
  obtain ⟨es, entry, hes, hw, hc⟩ := h
  obtain ⟨mid, hes, hlast⟩ := hes.split
  cases hlast with
  | cons he hnil =>
  cases hnil
  have hcount := count.toNat_lt
  have hend : (UInt16.ofNat (index.toNat + indicesTaken es)).toNat =
      index.toNat + indicesTaken es :=
    UInt16.toNat_ofNat_of_lt' (show index.toNat + indicesTaken es < 65536 by omega)
  have hlt : UInt16.ofNat (index.toNat + indicesTaken es) < count := by
    rw [UInt16.lt_iff_toNat_lt, hend]
    omega
  have hwidth : entry.width = 2 := if_pos hw
  have hnext : (UInt16.ofNat (index.toNat + indicesTaken es)).toNat + entry.width.toNat =
      count.toNat + 1 := by
    rw [hend, hwidth]
    change index.toNat + indicesTaken es + 2 = _
    omega
  constructor
  · intro hne p
    have hfit : (UInt16.ofNat (index.toNat + indicesTaken es)).toNat + entry.width.toNat <
        65536 := by
      have hne' : count.toNat ≠ 65535 := fun h => hne (UInt16.toNat_inj.1 h)
      omega
    rw [decodePoolIn_through p pool hes (by omega), decodePoolIn_next p hlt _ he hfit]
    refine ⟨_, decodePoolIn_stop p ?_ _ tail⟩
    rw [UInt16.lt_iff_toNat_lt, toNat_index hfit]
    omega
  · intro heq
    rw [decodePoolIn_through _ pool hes (by omega), decodePoolIn_overflow hlt _ he]
    rw [hnext, heq]
    decide

/-- A Long or Double whose second slot falls at the count. -/
def Straddles (count : UInt16) (body tail : ClassByteReader) : Prop :=
  ∃ es entry, ReadsAll ConstantPoolEntry.decodeFrom body (es ++ [entry]) tail ∧
    entry.isWide = true ∧ logicalIndex es + 1 = count.toNat

/-- What decoding a stream is to give: a pool laid out by its constants when the stream is accepted,
an error for a constant that straddles the end, and no index that overflows. -/
structure PoolSound (p : Profile) (bytes : ClassByteReader) : Prop where
  laidOut : ∀ header body raw rest, PoolHeader.decodeFrom bytes = .ok (header, body) →
    RawClassFile.decodeFromIn p bytes = .ok (raw, rest) →
    ∃ es tail, ReadsAll ConstantPoolEntry.decodeFrom body es tail ∧
      LaidOut header.constantPoolCount.toNat es raw.constantPool
  rejected : ∀ header body tail, PoolHeader.decodeFrom bytes = .ok (header, body) →
    Straddles header.constantPoolCount body tail →
    ∃ e, RawClassFile.decodeFromIn p bytes = .error (.error e)
  indexed : ∀ msg, RawClassFile.decodeFromIn ⟨true⟩ bytes ≠ .error (.panic msg)

/-- The count is not zero and no constant straddles the end, or else the stream does not hold the
rest of a class file and the index has not overflowed before that is found. -/
def PoolAligned (bytes : ClassByteReader) : Prop :=
  ∀ header body, PoolHeader.decodeFrom bytes = .ok (header, body) →
    (header.constantPoolCount = 0 → ¬ MembersFollow body) ∧
    ∀ tail, Straddles header.constantPoolCount body tail →
      header.constantPoolCount ≠ 65535 ∧ ¬ MembersFollow tail

theorem decodeFromIn_pool (p : Profile)
    (hh : PoolHeader.decodeFrom bytes = .ok (header, body)) :
    RawClassFile.decodeFromIn p bytes =
      (decodePoolIn p header.constantPoolCount 1 [.unusable] body >>= fun r =>
        RawClassFile.decodeMembers header.magic header.minorVersion header.majorVersion r.1
          r.2) := by
  change (PoolHeader.decodeFrom bytes >>= fun r => _) = _
  rw [hh]
  rfl

theorem decodeFromIn_members (p : Profile)
    (hh : PoolHeader.decodeFrom bytes = .ok (header, body))
    (hp : decodePoolIn p header.constantPoolCount 1 [.unusable] body = .ok (pool, tail)) :
    RawClassFile.decodeFromIn p bytes =
      RawClassFile.decodeMembers header.magic header.minorVersion header.majorVersion pool
        tail := by
  rw [decodeFromIn_pool p hh, hp]
  rfl

theorem decodeFromIn_follow (p : Profile)
    (hh : PoolHeader.decodeFrom bytes = .ok (header, body))
    (hp : decodePoolIn p header.constantPoolCount 1 [.unusable] body = .ok (pool, tail)) :
    (∃ r, RawClassFile.decodeFromIn p bytes = .ok r) ↔ MembersFollow tail := by
  rw [decodeFromIn_members p hh hp]
  exact decodeMembers_follow _ _ _ pool tail

theorem Straddles.from_one (h : Straddles count body tail) :
    StraddlesFrom (UInt16.toNat 1) count.toNat body tail := h

theorem PoolSound.aligned (h : PoolSound p bytes) : PoolAligned bytes := by
  intro header body hh
  constructor
  · intro hzero hm
    have hstop : decodePoolIn p header.constantPoolCount 1 [.unusable] body =
        .ok ([.unusable], body) := decodePoolIn_stop p (by rw [hzero]; decide) _ body
    obtain ⟨⟨raw, rest⟩, hr⟩ := (decodeFromIn_follow p hh hstop).2 hm
    obtain ⟨es, tail, _, hlaid⟩ := h.laidOut header body raw rest hh hr
    have hfirst := hlaid.first
    have hlen := hlaid.length
    rw [hzero, UInt16.toNat_zero, List.length_eq_zero_iff] at hlen
    rw [hlen] at hfirst
    cases hfirst
  · intro tail hs
    obtain ⟨hfits, hover⟩ := hs.from_one.decodePoolIn [.unusable]
    have hne : header.constantPoolCount ≠ 65535 := by
      intro heq
      apply h.indexed "attempt to add with overflow"
      rw [decodeFromIn_pool _ hh, hover heq]
      rfl
    refine ⟨hne, fun hm => ?_⟩
    obtain ⟨pool, hp⟩ := hfits hne p
    obtain ⟨r, hr⟩ := (decodeFromIn_follow p hh hp).2 hm
    obtain ⟨e, he⟩ := h.rejected header body tail hh hs
    rw [he] at hr
    cases hr

theorem PoolAligned.laidOut (h : PoolAligned bytes)
    (hh : PoolHeader.decodeFrom bytes = .ok (header, body))
    (hr : RawClassFile.decodeFromIn p bytes = .ok (raw, rest)) :
    ∃ es tail, ReadsAll ConstantPoolEntry.decodeFrom body es tail ∧
      LaidOut header.constantPoolCount.toNat es raw.constantPool := by
  obtain ⟨hzero, hstraddle⟩ := h header body hh
  have hne : header.constantPoolCount ≠ 0 := by
    intro heq
    have hstop : decodePoolIn p header.constantPoolCount 1 [.unusable] body =
        .ok ([.unusable], body) := decodePoolIn_stop p (by rw [heq]; decide) _ body
    exact hzero heq ((decodeFromIn_follow p hh hstop).1 ⟨_, hr⟩)
  have hnone : ∀ tail,
    ¬ StraddlesFrom (UInt16.toNat 1) header.constantPoolCount.toNat body tail := by
    intro tail hs
    obtain ⟨hmax, hm⟩ := hstraddle tail hs
    obtain ⟨pool, hp⟩ := (StraddlesFrom.decodePoolIn [.unusable] hs).1 hmax p
    exact hm ((decodeFromIn_follow p hh hp).1 ⟨_, hr⟩)
  have hfilled := decodePoolIn_filled p (one_le_count hne) [.unusable] body hnone
  generalize hp : decodePoolIn p header.constantPoolCount 1 [.unusable] body = result at hfilled
  cases hfilled with
  | @full es tail hes hc =>
    refine ⟨es, tail, hes, ?_⟩
    rw [decodeFromIn_members p hh hp] at hr
    rw [decodeMembers_pool _ _ _ _ _ _ _ hr]
    exact laidOut_slots hc
  | failed e =>
    rw [decodeFromIn_pool p hh, hp] at hr
    cases hr

theorem PoolAligned.rejected (h : PoolAligned bytes)
    (hh : PoolHeader.decodeFrom bytes = .ok (header, body))
    (hs : Straddles header.constantPoolCount body tail) (p : Profile) :
    ∃ e, RawClassFile.decodeFromIn p bytes = .error (.error e) := by
  obtain ⟨hmax, hm⟩ := (h header body hh).2 tail hs
  obtain ⟨pool, hp⟩ := (hs.from_one.decodePoolIn [.unusable]).1 hmax p
  rw [decodeFromIn_members p hh hp]
  cases hr : RawClassFile.decodeMembers header.magic header.minorVersion header.majorVersion pool
      tail with
  | ok r => exact (hm ((decodeMembers_follow _ _ _ _ _).1 ⟨r, hr⟩)).elim
  | error fault =>
    obtain ⟨e, rfl⟩ := (decodeMembers_orderly _ _ _ _).error _ _ hr
    exact ⟨e, rfl⟩

theorem PoolAligned.indexed (h : PoolAligned bytes) (msg : String) :
    RawClassFile.decodeFromIn ⟨true⟩ bytes ≠ .error (.panic msg) := by
  intro hpanic
  cases hh : PoolHeader.decodeFrom bytes with
  | error fault =>
    obtain ⟨e, rfl⟩ := header_orderly.error _ _ hh
    change (PoolHeader.decodeFrom bytes >>= fun r => _) = _ at hpanic
    rw [hh] at hpanic
    cases hpanic
  | ok r =>
    obtain ⟨header, body⟩ := r
    by_cases hs : ∃ tail, Straddles header.constantPoolCount body tail
    · obtain ⟨tail, hs⟩ := hs
      obtain ⟨e, he⟩ := h.rejected hh hs ⟨true⟩
      rw [he] at hpanic
      cases hpanic
    · have hpool : Filled header.constantPoolCount.toNat (UInt16.toNat 1) [.unusable] body
            (decodePoolIn ⟨true⟩ header.constantPoolCount 1 [.unusable] body) ∨
          decodePoolIn ⟨true⟩ header.constantPoolCount 1 [.unusable] body =
            .ok ([.unusable], body) := by
        by_cases hzero : header.constantPoolCount = 0
        · exact .inr (decodePoolIn_stop _ (by rw [hzero]; decide) _ body)
        · exact .inl (decodePoolIn_filled _ (one_le_count hzero) _ body fun tail ht =>
            hs ⟨tail, ht⟩)
      have hmembers : ∀ pool (tail : ClassByteReader), RawClassFile.decodeMembers header.magic
          header.minorVersion header.majorVersion pool tail ≠ .error (.panic msg) := by
        intro pool tail hp
        obtain ⟨e, he⟩ := (decodeMembers_orderly _ _ _ _).error _ _ hp
        cases he
      rw [decodeFromIn_pool _ hh] at hpanic
      rcases hpool with hfilled | hstop
      · generalize decodePoolIn ⟨true⟩ header.constantPoolCount 1 [.unusable] body = result
          at hfilled hpanic
        cases hfilled with
        | full => exact hmembers _ _ hpanic
        | failed e => cases hpanic
      · rw [hstop] at hpanic
        exact hmembers _ _ hpanic

/-- Decoding fills the pool as the format says exactly when the count is not zero and no Long or
Double straddles the end, unless the stream is rejected for what follows the pool. -/
theorem poolSound_iff (p : Profile) (bytes : ClassByteReader) :
    PoolSound p bytes ↔ PoolAligned bytes where
  mp h := h.aligned
  mpr h := {
    laidOut := fun _ _ _ _ hh hr => h.laidOut hh hr
    rejected := fun _ _ _ hh hs => h.rejected hh hs p
    indexed := h.indexed }

end

/-- A class file with the count 2 and a Long at index 1. -/
def longAtEnd : ClassByteReader :=
  [0xCA, 0xFE, 0xBA, 0xBE, 0, 0, 0, 65, 0, 2] ++ [5, 0, 0, 0, 0, 0, 0, 0, 7] ++ List.replicate 14 0

/-- The Long is accepted, and the pool gets a third entry. -/
theorem longAtEnd_not_sound : ¬ @PoolSound utf8 ⟨true⟩ longAtEnd := by
  intro h
  have haligned : @PoolAligned utf8 longAtEnd := @PoolSound.aligned utf8 _ _ h
  have hstraddle := (haligned ⟨0xCAFEBABE, 0, 65, 2⟩ (longAtEnd.drop 10) rfl).2
    (List.replicate 14 0) ⟨[], .long 7, .cons rfl .nil, rfl, rfl⟩
  exact hstraddle.2 ⟨_, rfl⟩

end Janadinite
