import Janadinite.Lib.Reading
import Janadinite.Parse.Class

namespace Janadinite
open Bytes Reading ClassDecode ClassReader
set_option autoImplicit true

/-- The code reads with `read_next_exact` only, in the same way with every reader, and what it fails
with itself is no `UnexpectedEof`. -/
def Uniform (m : ∀ (R : Type) [ClassReader R], Io R α) : Prop :=
  ∃ script : Script UInt8 unexpectedEof α,
    ∀ (R : Type) [ClassReader R], m R = script.run readNextExact

namespace Uniform
variable {m : ∀ (R : Type) [ClassReader R], Io R α}

theorem congr {m' : ∀ (R : Type) [ClassReader R], Io R α} (h : Uniform m')
    (hm : ∀ (R : Type) [ClassReader R], m R = m' R) : Uniform m := by
  obtain ⟨script, hs⟩ := h
  exact ⟨script, fun R _ => (hm R).trans (hs R)⟩

theorem pure (a : α) : Uniform fun R _ => (Pure.pure a : Io R α) := ⟨.done a, fun _ _ => rfl⟩

theorem throw {e : Fault} (h : e ≠ unexpectedEof) :
    Uniform fun R _ => (MonadExcept.throw e : Io R α) :=
  ⟨.fail e h, fun _ _ => rfl⟩

theorem exact (n : Nat) : Uniform fun R _ => (readNextExact n : Io R (List UInt8)) :=
  ⟨.read n .done, fun _ _ => (bind_pure _).symm⟩

theorem bind {f : ∀ (R : Type) [ClassReader R], α → Io R β} (hm : Uniform m)
    (hf : ∀ a, Uniform fun R _ => f R a) : Uniform fun R _ => m R >>= f R := by
  obtain ⟨script, hs⟩ := hm
  choose next hnext using hf
  refine ⟨script.bind next, fun R _ => ?_⟩
  rw [Script.run_bind, ← hs]
  exact congrArg (m R >>= ·) (funext fun a => hnext a R)

theorem map (hm : Uniform m) (f : α → β) : Uniform fun R _ => (do let a ← m R; Pure.pure (f a)) :=
  hm.bind fun a => .pure (f a)

theorem ite {m' : ∀ (R : Type) [ClassReader R], Io R α} (c : Prop) [Decidable c]
    (h : c → Uniform m) (h' : ¬ c → Uniform m') :
    Uniform fun R _ => if c then m R else m' R := by
  by_cases hc : c
  · exact (h hc).congr fun R _ => if_pos hc
  · exact (h' hc).congr fun R _ => if_neg hc

end Uniform

theorem readU8_uniform : Uniform fun R _ => (readU8 : Io R UInt8) := (Uniform.exact 1).map _

theorem readU16_uniform : Uniform fun R _ => (readU16 : Io R UInt16) := (Uniform.exact 2).map _

theorem readU32_uniform : Uniform fun R _ => (readU32 : Io R UInt32) := (Uniform.exact 4).map _

theorem readU64_uniform : Uniform fun R _ => (readU64 : Io R UInt64) := (Uniform.exact 8).map _

theorem decodeN_uniform [ClassDecode α] (h : Uniform fun R _ => (decodeFrom : Io R α)) (n : Nat) :
    Uniform fun R _ => decodeN α (R := R) n := by
  induction n with
  | zero => exact .pure []
  | succ n ih => exact h.bind fun a => ih.map (a :: ·)

theorem readIndexPair_uniform (entry : UInt16 → UInt16 → ConstantPoolEntry) :
    Uniform fun R _ => readIndexPair (R := R) entry :=
  readU16_uniform.bind fun first => readU16_uniform.map (entry first)

theorem f32_uniform : Uniform fun R _ => (decodeFrom : Io R F32) := readU32_uniform.map F32.mk

theorem f64_uniform : Uniform fun R _ => (decodeFrom : Io R F64) := readU64_uniform.map F64.mk

section
variable [Mutf8]

theorem decodeTagged_uniform (tag : UInt8) :
    Uniform fun R _ => ConstantPoolEntry.decodeTagged (R := R) tag := by
  unfold ConstantPoolEntry.decodeTagged
  split
  · apply readU16_uniform.bind
    intro len
    apply (decodeN_uniform readU8_uniform len.toNat).bind
    intro bytes
    cases Mutf8.decodeStrict bytes with
    | some str => exact .pure _
    | none => exact .throw (by decide)
  · exact readU32_uniform.map ConstantPoolEntry.integer
  · exact f32_uniform.map ConstantPoolEntry.float
  · exact readU64_uniform.map ConstantPoolEntry.long
  · exact f64_uniform.map ConstantPoolEntry.double
  · exact readU16_uniform.map ConstantPoolEntry.class
  · exact readU16_uniform.map ConstantPoolEntry.string
  · exact readIndexPair_uniform .fieldref
  · exact readIndexPair_uniform .methodref
  · exact readIndexPair_uniform .interfaceMethodref
  · exact readIndexPair_uniform .nameAndType
  · exact readU8_uniform.bind fun kind => readU16_uniform.map (ConstantPoolEntry.methodHandle kind)
  · exact readU16_uniform.map ConstantPoolEntry.methodType
  · exact readIndexPair_uniform .invokeDynamic
  · exact .throw fun h => by cases h

theorem constantPoolEntry_uniform :
    Uniform fun R _ => ConstantPoolEntry.decodeFrom (R := R) :=
  readU8_uniform.bind decodeTagged_uniform

omit [Mutf8] in
theorem attributeInfo_uniform : Uniform fun R _ => (decodeFrom : Io R AttributeInfo) := by
  apply readU16_uniform.bind
  intro nameIndex
  apply readU32_uniform.bind
  intro attributeLength
  exact (decodeN_uniform readU8_uniform attributeLength.toNat).map (AttributeInfo.mk nameIndex)

omit [Mutf8] in
theorem member_uniform (member : UInt16 → UInt16 → UInt16 → List AttributeInfo → α) :
    Uniform fun R _ => (do
      let accessFlags ← readU16
      let nameIndex ← readU16
      let descriptorIndex ← readU16
      let attributesCount ← readU16
      let attributes ← decodeN AttributeInfo attributesCount.toNat
      pure (member accessFlags nameIndex descriptorIndex attributes) : Io R α) := by
  apply readU16_uniform.bind
  intro accessFlags
  apply readU16_uniform.bind
  intro nameIndex
  apply readU16_uniform.bind
  intro descriptorIndex
  apply readU16_uniform.bind
  intro attributesCount
  exact (decodeN_uniform attributeInfo_uniform attributesCount.toNat).map (member _ _ _)

omit [Mutf8] in
theorem fieldInfo_uniform : Uniform fun R _ => (decodeFrom : Io R FieldInfo) :=
  member_uniform FieldInfo.mk

omit [Mutf8] in
theorem methodInfo_uniform : Uniform fun R _ => (decodeFrom : Io R MethodInfo) :=
  member_uniform MethodInfo.mk

/-- Each round of the loop reads an entry with the index further on. -/
theorem decodePool_uniform (count index : UInt16) (pool : List ConstantPoolEntry) :
    Uniform fun R _ => decodePool (R := R) count index pool := by
  induction hn : count.toNat - index.toNat using Nat.strongRecOn generalizing index pool with
  | ind n ih =>
    have hround : Uniform fun R _ => (if index < count then do
          let entry ← ConstantPoolEntry.decodeFrom
          if index.toNat + entry.width.toNat < 65536 then
            decodePool count (index + entry.width) (pool ++ entry.slots)
          else throw (.panic "attempt to add with overflow")
        else pure pool : Io R (List ConstantPoolEntry)) := by
      apply Uniform.ite
      · intro hlt
        apply constantPoolEntry_uniform.bind
        intro entry
        apply Uniform.ite
        · intro hfits
          apply ih _ _ _ _ rfl
          have hw := entry.one_le_width
          rw [UInt16.lt_iff_toNat_lt] at hlt
          rw [UInt16.toNat_add]
          omega
        · exact fun _ => .throw fun h => by cases h
      · exact fun _ => .pure pool
    apply hround.congr
    intro R _
    rw [decodePool_eq]

omit [Mutf8] in
theorem decodeMembers_uniform (magic : UInt32) (minorVersion majorVersion : UInt16)
    (pool : List ConstantPoolEntry) : Uniform fun R _ =>
      RawClassFile.decodeMembers (R := R) magic minorVersion majorVersion pool := by
  apply readU16_uniform.bind
  intro accessFlags
  apply readU16_uniform.bind
  intro thisClass
  apply readU16_uniform.bind
  intro superClass
  apply readU16_uniform.bind
  intro interfacesCount
  apply (decodeN_uniform readU16_uniform interfacesCount.toNat).bind
  intro interfaces
  apply readU16_uniform.bind
  intro fieldsCount
  apply (decodeN_uniform fieldInfo_uniform fieldsCount.toNat).bind
  intro fields
  apply readU16_uniform.bind
  intro methodsCount
  apply (decodeN_uniform methodInfo_uniform methodsCount.toNat).bind
  intro methods
  apply readU16_uniform.bind
  intro attributesCount
  exact (decodeN_uniform attributeInfo_uniform attributesCount.toNat).map
    (RawClassFile.mk _ _ _ _ _ _ _ _ _ _)

theorem rawClassFile_uniform : Uniform fun R _ => RawClassFile.decodeFrom (R := R) := by
  apply readU32_uniform.bind
  intro magic
  have hrest : Uniform fun R _ => (do
      let minorVersion ← readU16
      let majorVersion ← readU16
      let constantPoolCount ← readU16
      let constantPool ← decodePool constantPoolCount 1 [.unusable]
      RawClassFile.decodeMembers magic minorVersion majorVersion constantPool :
        Io R RawClassFile) := by
    apply readU16_uniform.bind
    intro minorVersion
    apply readU16_uniform.bind
    intro majorVersion
    apply readU16_uniform.bind
    intro count
    apply (decodePool_uniform count 1 [.unusable]).bind
    exact decodeMembers_uniform magic minorVersion majorVersion
  by_cases hmagic : magic ≠ 0xCAFEBABE
  · have hthrow : Fault.error (.new .invalidData s!"Invalid magic number ({hexUpper magic})") ≠
        unexpectedEof := fun h => by cases h
    apply (Uniform.throw hthrow).congr
    intro R _
    rw [if_pos hmagic]
    rfl
  · apply hrest.congr
    intro R _
    rw [if_neg hmagic]

omit [Mutf8] in
theorem exceptionTableEntry_uniform :
    Uniform fun R _ => (decodeFrom : Io R ExceptionTableEntry) := by
  apply readU16_uniform.bind
  intro startPc
  apply readU16_uniform.bind
  intro endPc
  apply readU16_uniform.bind
  intro handlerPc
  exact readU16_uniform.map (ExceptionTableEntry.mk startPc endPc handlerPc)

end

/-- `read_next_exact`, the reads made of it, and `decode` for the types that have it. -/
inductive Decoder : Type → Type where
  | exact (n : Nat) : Decoder (List UInt8)
  | u8 : Decoder UInt8
  | u16 : Decoder UInt16
  | u32 : Decoder UInt32
  | u64 : Decoder UInt64
  | f32 : Decoder F32
  | f64 : Decoder F64
  | constantPoolEntry : Decoder ConstantPoolEntry
  | attributeInfo : Decoder AttributeInfo
  | fieldInfo : Decoder FieldInfo
  | methodInfo : Decoder MethodInfo
  | rawClassFile : Decoder RawClassFile
  | exceptionTableEntry : Decoder ExceptionTableEntry

def Decoder.decode [Mutf8] (R : Type) [ClassReader R] : Decoder α → Io R α
  | exact n => readNextExact n
  | u8 => readU8
  | u16 => readU16
  | u32 => readU32
  | u64 => readU64
  | f32 => decodeFrom
  | f64 => decodeFrom
  | constantPoolEntry => decodeFrom
  | attributeInfo => decodeFrom
  | fieldInfo => decodeFrom
  | methodInfo => decodeFrom
  | rawClassFile => decodeFrom
  | exceptionTableEntry => decodeFrom

theorem Decoder.uniform [Mutf8] (d : Decoder α) : Uniform fun R _ => d.decode R := by
  cases d with
  | exact n => exact .exact n
  | u8 => exact readU8_uniform
  | u16 => exact readU16_uniform
  | u32 => exact readU32_uniform
  | u64 => exact readU64_uniform
  | f32 => exact f32_uniform
  | f64 => exact f64_uniform
  | constantPoolEntry => exact constantPoolEntry_uniform
  | attributeInfo => exact attributeInfo_uniform
  | fieldInfo => exact fieldInfo_uniform
  | methodInfo => exact methodInfo_uniform
  | rawClassFile => exact rawClassFile_uniform
  | exceptionTableEntry => exact exceptionTableEntry_uniform

/-- A reader with the default `read_next_exact`, whose `read_next` delivers a stream in pieces of
any positive size up to the length of the buffer. -/
structure Chunked (R : Type) [ClassReader R] where
  left : R → List UInt8
  default : ∀ n, (readNextExact n : Io R (List UInt8)) = once readNext unexpectedEof n
  delivers : Delivers (readNext : Nat → Io R (List UInt8)) left

/-- A writer with the default `write_next_exact`, whose `write_next` takes any positive part of the
buffer. -/
structure ChunkedWriter (W : Type) [ClassWriter W] where
  written : W → List UInt8
  default : ∀ buf, (ClassWriter.writeNextExact buf : Io W PUnit) = do
    let am ← ClassWriter.writeNext buf
    if am < buf.length then throw unexpectedEof
  accepts : ∀ buf w, ∃ am w', ClassWriter.writeNext buf w = .ok (am, w') ∧ am ≤ buf.length ∧
    (buf ≠ [] → 0 < am) ∧ written w' = written w ++ buf.take am

theorem byteReader_whole (n : Nat) :
    (readNextExact n : Io ClassByteReader (List UInt8)) = once whole unexpectedEof n := by
  have hnext : (readNext n : Io ClassByteReader (List UInt8)) = whole n := by
    funext bytes
    change Except.ok (bytes.take (min n bytes.length), bytes.drop (min n bytes.length)) = _
    rw [← List.take_eq_take_min, ← List.drop_eq_drop_min]
    rfl
  change once readNext unexpectedEof n = _
  rw [once, once, hnext]

theorem Chunked.same_iff {R : Type} [ClassReader R] (reader : Chunked R)
    (script : Script UInt8 unexpectedEof α) (s : R) :
    (Same reader.left (script.run readNextExact s)
        (script.run (readNextExact : Nat → Io ClassByteReader (List UInt8)) (reader.left s)) ∧
      (script.run readNextExact s = .error unexpectedEof → script.Cut (reader.left s))) ↔
    script.Filled readNext s ∨ script.Cut (reader.left s) := by
  rw [funext reader.default, funext byteReader_whole]
  exact Reading.same_iff reader.delivers script s

/-- A single byte is read from the pieces as it should be: what goes wrong takes two. -/
theorem Chunked.readU8_same {R : Type} [ClassReader R] (reader : Chunked R) (s : R) :
    Same reader.left (readU8 s) (readU8 (R := ClassByteReader) (reader.left s)) := by
  obtain ⟨script, hscript⟩ : ∃ script : Script UInt8 unexpectedEof UInt8,
      script = .read 1 fun buf => .done (UInt8.ofNat (ofBE buf)) := ⟨_, rfl⟩
  have hcall : script.Filled readNext s ∨ script.Cut (reader.left s) := by
    rw [hscript]
    by_cases hleft : reader.left s = []
    · rw [hleft]
      exact .inr (.inl Nat.one_pos)
    · left
      intro buf s' h
      obtain ⟨buf', _, h', -, hle, hne⟩ := reader.delivers.call 1 s
      cases h'.symm.trans h
      have hpos := List.length_pos_iff.mpr (hne Nat.one_pos hleft)
      exact ⟨Nat.le_antisymm hle hpos, trivial⟩
  have hsame := ((reader.same_iff script s).mpr hcall).1
  rw [hscript] at hsame
  exact hsame

/-- `Class::decode` reads no more than the raw class file: what is the same there is the same for
it. -/
theorem Chunked.decodeClass_same [Mutf8] {R : Type} [ClassReader R] (reader : Chunked R) (s : R)
    (h : Same reader.left (RawClassFile.decodeFrom s)
      (RawClassFile.decodeFrom (R := ClassByteReader) (reader.left s))) :
    Same reader.left (Class.decode s) (Class.decode (R := ClassByteReader) (reader.left s)) := by
  have hdecode : ∀ (R : Type) [ClassReader R] (s : R), Class.decode s =
      RawClassFile.decodeFrom s >>= fun p => Class.parse p.1 >>= fun c => .ok (c, p.2) :=
    fun R _ s => rfl
  rw [hdecode, hdecode]
  exact h.andThen Class.parse

theorem ChunkedWriter.writes_iff {W : Type} [ClassWriter W] (writer : ChunkedWriter W)
    (buf : List UInt8) (w : W) :
    (∃ w', ClassWriter.writeNextExact buf w = .ok (⟨⟩, w') ∧
      writer.written w' = writer.written w ++ buf) ↔
    ∃ w', ClassWriter.writeNext buf w = .ok (buf.length, w') := by
  obtain ⟨am, w', hnext, hle, -, hwritten⟩ := writer.accepts buf w
  have hexact : ClassWriter.writeNextExact buf w =
      if am < buf.length then .error unexpectedEof else .ok (⟨⟩, w') := by
    rw [writer.default]
    simp only [bind, StateT.bind, Except.bind, hnext]
    split <;> rfl
  rw [hexact, hnext]
  constructor
  · rintro ⟨w₁, h, -⟩
    split at h
    · cases h
    · rename_i hlt
      exact ⟨w', congrArg (fun n => Except.ok (n, w')) (Nat.le_antisymm hle (Nat.le_of_not_lt hlt))⟩
  · rintro ⟨w₁, h⟩
    cases h
    rw [if_neg (Nat.lt_irrefl _)]
    rw [List.take_length] at hwritten
    exact ⟨w', rfl, hwritten⟩

/-- With the default `read_next_exact` a value is decoded from a stream that comes in pieces as it
is from one that is there at once, and `UnexpectedEof` is returned only where the stream ends,
exactly when each call of `read_next` fills its buffer or the stream ends before the value does.
With the default `write_next_exact` a buffer is written exactly when one call of `write_next` takes
all of it. -/
theorem chunks_iff [Mutf8] :
    (∀ {α : Type} (d : Decoder α), ∃ script : Script UInt8 unexpectedEof α,
      (∀ (R : Type) [ClassReader R], d.decode R = script.run readNextExact) ∧
      ∀ (R : Type) [ClassReader R] (reader : Chunked R) (s : R),
        (Same reader.left (d.decode R s) (d.decode ClassByteReader (reader.left s)) ∧
          (d.decode R s = .error unexpectedEof → script.Cut (reader.left s))) ↔
        script.Filled readNext s ∨ script.Cut (reader.left s)) ∧
    ∀ (W : Type) [ClassWriter W] (writer : ChunkedWriter W) (buf : List UInt8) (w : W),
      (∃ w', ClassWriter.writeNextExact buf w = .ok (⟨⟩, w') ∧
        writer.written w' = writer.written w ++ buf) ↔
      ∃ w', ClassWriter.writeNext buf w = .ok (buf.length, w') := by
  refine ⟨fun {α} d => ?_, fun W _ writer buf w => writer.writes_iff buf w⟩
  obtain ⟨script, hs⟩ : ∃ script : Script UInt8 unexpectedEof α,
      ∀ (R : Type) [ClassReader R], d.decode R = script.run readNextExact := d.uniform
  refine ⟨script, hs, fun R _ reader s => ?_⟩
  rw [hs R, hs ClassByteReader]
  exact reader.same_iff script s

structure SingleBytes where
  bytes : List UInt8

instance : ClassReader SingleBytes where
  readNext n := fun s => .ok (s.bytes.take (min n 1), ⟨s.bytes.drop (min n 1)⟩)

structure SingleByteWriter where
  bytes : List UInt8

instance : ClassWriter SingleByteWriter where
  writeNext buf := fun w => .ok (min buf.length 1, ⟨w.bytes ++ buf.take 1⟩)

theorem SingleBytes.delivers :
    Delivers (readNext : Nat → Io SingleBytes (List UInt8)) SingleBytes.bytes := by
  constructor
  intro n s
  refine ⟨_, _, rfl, (List.take_append_drop _ _).symm, ?_, ?_⟩
  · rw [List.length_take]
    omega
  · intro hn hs
    rw [Nat.min_eq_right hn]
    exact fun h => hs ((List.take_eq_nil_iff.mp h).resolve_left Nat.one_ne_zero)

def SingleBytes.chunked : Chunked SingleBytes := ⟨bytes, fun _ => rfl, delivers⟩

def SingleByteWriter.chunked : ChunkedWriter SingleByteWriter where
  written := bytes
  default _ := rfl
  accepts buf w := by
    refine ⟨_, _, rfl, Nat.min_le_left _ _, ?_, ?_⟩
    · intro hbuf
      exact Nat.lt_min.mpr ⟨List.length_pos_iff.mpr hbuf, Nat.one_pos⟩
    · rw [Nat.min_comm, ← List.take_eq_take_min]

/-- A `u16` is there, and not read, when its bytes come one by one, and two bytes are not
written. -/
theorem single_bytes_fail :
    (¬ Same SingleBytes.chunked.left (readU16 (SingleBytes.mk [1, 2]))
        (readU16 (R := ClassByteReader) (SingleBytes.chunked.left ⟨[1, 2]⟩)) ∧
      readU16 (SingleBytes.mk [1, 2]) = .error unexpectedEof ∧
      readU16 (R := ClassByteReader) [1, 2] = .ok (258, [])) ∧
    ¬ ∃ w', ClassWriter.writeNextExact [1, 2] (SingleByteWriter.mk []) = .ok (⟨⟩, w') ∧
      SingleByteWriter.chunked.written w' = [1, 2] := by
  have hsingle : readU16 (SingleBytes.mk [1, 2]) = .error unexpectedEof := rfl
  have hwhole : readU16 (R := ClassByteReader) (SingleBytes.chunked.left ⟨[1, 2]⟩) =
      .ok (258, []) := rfl
  refine ⟨⟨?_, hsingle, hwhole⟩, ?_⟩
  · intro h
    rw [hsingle, hwhole] at h
    cases h
  · rintro ⟨w', h, -⟩
    cases h

end Janadinite
