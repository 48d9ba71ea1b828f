import Janadinite.Parse.LengthFields

namespace Janadinite
open Bytes Codec ClassDecode ClassEncode
set_option autoImplicit true

theorem readU64_parses :
    Parses (readU64 (R := ClassByteReader)) (fun x bs => bs = toBE 8 x.toNat) :=
  parses_toBE 8 (fun _ h => UInt64.toNat_ofNat_of_lt' h) (fun _ => UInt64.ofNat_toNat)
    UInt64.toNat_lt

/-- A table of items behind their number. -/
def tableBytes (f : α → List UInt8) (xs : List α) : List UInt8 :=
  toBE 2 xs.length ++ xs.flatMap f

theorem concat_iff {G : α → List UInt8 → Prop} {P : α → Prop} {f : α → List UInt8}
    (hG : ∀ a bs, G a bs ↔ P a ∧ bs = f a) (xs : List α) (bs : List UInt8) :
    Concat G xs bs ↔ (∀ x ∈ xs, P x) ∧ bs = xs.flatMap f := by
  constructor
  · intro h
    constructor
    · intro x hx
      obtain ⟨cs, hcs⟩ := h.get hx
      exact ((hG x cs).mp hcs).1
    · exact h.functional fun a cs ha => ((hG a cs).mp ha).2
  · rintro ⟨hP, rfl⟩
    induction xs with
    | nil => exact .nil
    | cons x xs ih =>
      have hx := (hG x (f x)).mpr ⟨hP x List.mem_cons_self, rfl⟩
      exact .cons hx (ih fun y hy => hP y (List.mem_cons_of_mem _ hy))

theorem table_parses [ClassDecode α] {P : α → Prop} {f : α → List UInt8}
    (h : Parses (decodeFrom (R := ClassByteReader)) (fun a bs => P a ∧ bs = f a)) :
    Parses (do
      let count ← readU16 (R := ClassByteReader)
      decodeN α count.toNat) (fun xs bs => (xs.length < 65536 ∧ ∀ x ∈ xs, P x) ∧
        bs = tableBytes f xs) := by
  apply (readU16_parses.bind fun count => decodeN_parses h count.toNat).congr
  intro xs bs
  constructor
  · rintro ⟨count, cs, ds, rfl, ⟨hlen, hc⟩, rfl⟩
    obtain ⟨hP, rfl⟩ := (concat_iff (fun _ _ => Iff.rfl) xs ds).mp hc
    rw [tableBytes, hlen]
    exact ⟨⟨count.toNat_lt, hP⟩, rfl⟩
  · rintro ⟨⟨hlen, hP⟩, rfl⟩
    have hcount : (UInt16.ofNat xs.length).toNat = xs.length := UInt16.toNat_ofNat_of_lt' hlen
    refine ⟨.ofNat xs.length, _, xs.flatMap f, rfl, ⟨hcount.symm, ?_⟩, ?_⟩
    · exact (concat_iff (fun _ _ => Iff.rfl) xs _).mpr ⟨hP, rfl⟩
    · rw [tableBytes, hcount]

def memberBytes (accessFlags nameIndex descriptorIndex : UInt16)
    (attributes : List AttributeInfo) : List UInt8 :=
  toBE 2 accessFlags.toNat ++ (toBE 2 nameIndex.toNat ++ (toBE 2 descriptorIndex.toNat ++
    tableBytes AttributeInfo.bytes attributes))

def FieldInfo.bytes (field : FieldInfo) : List UInt8 :=
  memberBytes field.accessFlags field.nameIndex field.descriptorIndex field.attributes

def MethodInfo.bytes (meth : MethodInfo) : List UInt8 :=
  memberBytes meth.accessFlags meth.nameIndex meth.descriptorIndex meth.attributes

theorem tableThen_parses [ClassDecode α] {P : α → Prop} {f : α → List UInt8}
    {k : List α → Io ClassByteReader β} {H : List α → β → List UInt8 → Prop}
    (h : Parses (decodeFrom (R := ClassByteReader)) (fun a bs => P a ∧ bs = f a))
    (hk : ∀ xs, Parses (k xs) (H xs)) :
    Parses (do
      let count ← readU16 (R := ClassByteReader)
      let xs ← decodeN α count.toNat
      k xs) (fun b bs => ∃ xs ds, (xs.length < 65536 ∧ ∀ x ∈ xs, P x) ∧ H xs b ds ∧
        bs = tableBytes f xs ++ ds) := by
  have hb := (table_parses h).bind hk
  rw [bind_assoc] at hb
  apply hb.congr
  intro b bs
  constructor
  · rintro ⟨xs, _, ds, ⟨hP, rfl⟩, hH, rfl⟩
    exact ⟨xs, ds, hP, hH, rfl⟩
  · rintro ⟨xs, ds, hP, hH, rfl⟩
    exact ⟨xs, _, ds, ⟨hP, rfl⟩, hH, rfl⟩

theorem member_parses (member : UInt16 → UInt16 → UInt16 → List AttributeInfo → α) :
    Parses (do
      let accessFlags ← readU16 (R := ClassByteReader)
      let nameIndex ← readU16
      let descriptorIndex ← readU16
      let attributesCount ← readU16
      let attributes ← decodeN AttributeInfo attributesCount.toNat
      pure (member accessFlags nameIndex descriptorIndex attributes))
      (fun x bs => ∃ i j k attributes, AttributesFit attributes ∧ x = member i j k attributes ∧
        bs = memberBytes i j k attributes) := by
  apply (readU16_parses.bind fun i => readU16_parses.bind fun j => readU16_parses.bind fun k =>
    tableThen_parses AttributeInfo.parses fun xs => .pure (member i j k xs)).congr
  intro x bs
  constructor
  · rintro ⟨i, _, _, rfl, ⟨j, _, _, rfl, ⟨k, _, _, rfl, ⟨xs, _, hfit, ⟨rfl, rfl⟩, rfl⟩, rfl⟩,
      rfl⟩, rfl⟩
    refine ⟨i, j, k, xs, hfit, rfl, ?_⟩
    rw [List.append_nil, memberBytes]
  · rintro ⟨i, j, k, xs, hfit, rfl, rfl⟩
    refine ⟨i, _, _, rfl, ⟨j, _, _, rfl, ⟨k, _, _, rfl, ⟨xs, [], hfit, ⟨rfl, rfl⟩, rfl⟩, rfl⟩,
      rfl⟩, ?_⟩
    rw [List.append_nil, memberBytes]

theorem FieldInfo.parses : Parses (decodeFrom (α := FieldInfo) (R := ClassByteReader))
    (fun field bs => AttributesFit field.attributes ∧ bs = field.bytes) := by
  apply (member_parses FieldInfo.mk).congr
  intro field bs
  constructor
  · rintro ⟨i, j, k, attributes, hfit, rfl, rfl⟩
    exact ⟨hfit, rfl⟩
  · rintro ⟨hfit, rfl⟩
    exact ⟨_, _, _, _, hfit, rfl, rfl⟩

theorem MethodInfo.parses : Parses (decodeFrom (α := MethodInfo) (R := ClassByteReader))
    (fun meth bs => AttributesFit meth.attributes ∧ bs = meth.bytes) := by
  apply (member_parses MethodInfo.mk).congr
  intro meth bs
  constructor
  · rintro ⟨i, j, k, attributes, hfit, rfl, rfl⟩
    exact ⟨hfit, rfl⟩
  · rintro ⟨hfit, rfl⟩
    exact ⟨_, _, _, _, hfit, rfl, rfl⟩

def RawClassFile.memberBytes (raw : RawClassFile) : List UInt8 :=
  toBE 2 raw.accessFlags.toNat ++ (toBE 2 raw.thisClass.toNat ++ (toBE 2 raw.superClass.toNat ++
    (tableBytes (fun i => toBE 2 i.toNat) raw.interfaces ++
      (tableBytes FieldInfo.bytes raw.fields ++ (tableBytes MethodInfo.bytes raw.methods ++
        tableBytes AttributeInfo.bytes raw.attributes)))))

theorem members_parse (magic : UInt32) (minor major : UInt16) (pool : List ConstantPoolEntry) :
    Parses (RawClassFile.decodeMembers (R := ClassByteReader) magic minor major pool)
      (fun raw bs => raw.Fits ∧ (raw.magic = magic ∧ raw.minorVersion = minor ∧
        raw.majorVersion = major ∧ raw.constantPool = pool) ∧ bs = raw.memberBytes) := by
  have hinterface : Parses (decodeFrom (α := UInt16) (R := ClassByteReader))
      (fun i bs => True ∧ bs = toBE 2 i.toNat) := by
    apply Parses.congr (m := readU16) readU16_parses
    exact fun _ _ => ⟨fun h => ⟨trivial, h⟩, And.right⟩
  apply (readU16_parses.bind fun i => readU16_parses.bind fun j => readU16_parses.bind fun k =>
    tableThen_parses hinterface fun is => tableThen_parses FieldInfo.parses fun fs =>
      tableThen_parses MethodInfo.parses fun ms => tableThen_parses AttributeInfo.parses fun as =>
        .pure (RawClassFile.mk magic minor major pool i j k is fs ms as)).congr
  intro raw bs
  constructor
  · rintro ⟨i, _, _, rfl, ⟨j, _, _, rfl, ⟨k, _, _, rfl, ⟨is, _, ⟨hi, _⟩, ⟨fs, _, hf, ⟨ms, _, hm,
      ⟨as, _, ha, ⟨rfl, rfl⟩, rfl⟩, rfl⟩, rfl⟩, rfl⟩, rfl⟩, rfl⟩, rfl⟩
    refine ⟨⟨hi, hf, hm, ha⟩, ⟨rfl, rfl, rfl, rfl⟩, ?_⟩
    rw [List.append_nil, RawClassFile.memberBytes]
  · rintro ⟨⟨hi, hf, hm, ha⟩, ⟨rfl, rfl, rfl, rfl⟩, rfl⟩
    refine ⟨raw.accessFlags, _, _, rfl, ⟨raw.thisClass, _, _, rfl, ⟨raw.superClass, _, _, rfl,
      ⟨raw.interfaces, _, ⟨hi, fun _ _ => trivial⟩, ⟨raw.fields, _, hf, ⟨raw.methods, _, hm,
        ⟨raw.attributes, [], ha, ⟨rfl, rfl⟩, rfl⟩, rfl⟩, rfl⟩, rfl⟩, rfl⟩, rfl⟩, ?_⟩
    rw [List.append_nil, RawClassFile.memberBytes]

theorem never_parses (e : Fault) :
    Parses (throw e : Io ClassByteReader α) (fun _ _ => False) := by
  intro input a rest
  constructor
  · intro h
    cases h
  · rintro ⟨_, h, _⟩
    exact h.elim

theorem guard_parses {m : Io ClassByteReader α} {G : α → List UInt8 → Prop} (c : Prop) [Decidable c]
    (e : Fault) (h : Parses m G) : Parses (do
      if c then throw e
      m) (fun a bs => ¬ c ∧ G a bs) := by
  by_cases hc : c
  · simp only [if_pos hc]
    exact (never_parses e).congr fun _ _ => ⟨False.elim, fun h => h.1 hc⟩
  · simp only [if_neg hc]
    exact h.congr fun _ _ => ⟨fun h => ⟨hc, h⟩, And.right⟩

theorem indexPair_parses (entry : UInt16 → UInt16 → ConstantPoolEntry) :
    Parses (readIndexPair (R := ClassByteReader) entry) (fun a bs => ∃ p : UInt16 × UInt16,
      a = entry p.1 p.2 ∧ bs = toBE 2 p.1.toNat ++ toBE 2 p.2.toNat) := by
  apply (readU16_parses.bind fun i => readU16_parses.map (entry i)).congr
  intro a bs
  constructor
  · rintro ⟨i, _, _, rfl, ⟨j, rfl, rfl⟩, rfl⟩
    exact ⟨(i, j), rfl, rfl⟩
  · rintro ⟨⟨i, j⟩, rfl, rfl⟩
    exact ⟨i, _, _, rfl, ⟨j, rfl, rfl⟩, rfl⟩

theorem float_parses : Parses (decodeFrom (α := F32) (R := ClassByteReader))
    (fun f bs => bs = toBE 4 f.bits.toNat) := by
  apply (readU32_parses.map F32.mk).congr
  intro f bs
  constructor
  · rintro ⟨n, rfl, rfl⟩
    rfl
  · exact fun h => ⟨f.bits, rfl, h⟩

theorem double_parses : Parses (decodeFrom (α := F64) (R := ClassByteReader))
    (fun d bs => bs = toBE 8 d.bits.toNat) := by
  apply (readU64_parses.map F64.mk).congr
  intro d bs
  constructor
  · rintro ⟨n, rfl, rfl⟩
    rfl
  · exact fun h => ⟨d.bits, rfl, h⟩

theorem methodHandle_parses : Parses (do
      let referenceKind ← readU8 (R := ClassByteReader)
      let referenceIndex ← readU16
      pure (.methodHandle referenceKind referenceIndex))
    (fun a bs => ∃ p : UInt8 × UInt16, a = ConstantPoolEntry.methodHandle p.1 p.2 ∧
      bs = toBE 1 p.1.toNat ++ toBE 2 p.2.toNat) := by
  apply (readU8_parses.bind fun kind =>
    readU16_parses.map (ConstantPoolEntry.methodHandle kind)).congr
  intro a bs
  constructor
  · rintro ⟨kind, _, _, rfl, ⟨i, rfl, rfl⟩, rfl⟩
    exact ⟨(kind, i), rfl, rfl⟩
  · rintro ⟨⟨kind, i⟩, rfl, rfl⟩
    exact ⟨kind, _, _, rfl, ⟨i, rfl, rfl⟩, rfl⟩

section
variable [Mutf8]

/-- What stands behind the tag of an entry: any bytes that decode to its string, and a float as it
is. -/
inductive ConstantPoolEntry.Body : ConstantPoolEntry → Nat → List UInt8 → Prop
  | utf8 (hlen : cs.length < 65536) (h : Mutf8.decodeStrict cs = some str) :
      Body (.utf8 str) 1 (toBE 2 cs.length ++ cs)
  | integer (n : UInt32) : Body (.integer n) 3 (toBE 4 n.toNat)
  | float (f : F32) : Body (.float f) 4 (toBE 4 f.bits.toNat)
  | long (n : UInt64) : Body (.long n) 5 (toBE 8 n.toNat)
  | double (d : F64) : Body (.double d) 6 (toBE 8 d.bits.toNat)
  | class (i : UInt16) : Body (.class i) 7 (toBE 2 i.toNat)
  | string (i : UInt16) : Body (.string i) 8 (toBE 2 i.toNat)
  | fieldref (i j : UInt16) : Body (.fieldref i j) 9 (toBE 2 i.toNat ++ toBE 2 j.toNat)
  | methodref (i j : UInt16) : Body (.methodref i j) 10 (toBE 2 i.toNat ++ toBE 2 j.toNat)
  | interfaceMethodref (i j : UInt16) :
      Body (.interfaceMethodref i j) 11 (toBE 2 i.toNat ++ toBE 2 j.toNat)
  | nameAndType (i j : UInt16) : Body (.nameAndType i j) 12 (toBE 2 i.toNat ++ toBE 2 j.toNat)
  | methodHandle (kind : UInt8) (i : UInt16) :
      Body (.methodHandle kind i) 15 (toBE 1 kind.toNat ++ toBE 2 i.toNat)
  | methodType (i : UInt16) : Body (.methodType i) 16 (toBE 2 i.toNat)
  | invokeDynamic (i j : UInt16) :
      Body (.invokeDynamic i j) 18 (toBE 2 i.toNat ++ toBE 2 j.toNat)

/-- The bytes that an entry is read from. -/
def ConstantPoolEntry.ReadFrom (entry : ConstantPoolEntry) (bs : List UInt8) : Prop :=
  ∃ tag body, entry.Body tag body ∧ bs = toBE 1 tag ++ body

theorem utf8_parses : Parses (do
      let len ← readU16 (R := ClassByteReader)
      let bytes ← decodeN UInt8 len.toNat
      match Mutf8.decodeStrict bytes with
      | some str => pure (.utf8 str)
      | none => throw (invalidData "Invalid MUTF8"))
    (fun a bs => ∃ str cs, a = ConstantPoolEntry.utf8 str ∧ cs.length < 65536 ∧
      Mutf8.decodeStrict cs = some str ∧ bs = toBE 2 cs.length ++ cs) := by
  have hstr (cs : List UInt8) : Parses (match Mutf8.decodeStrict cs with
      | some str => pure (.utf8 str)
      | none => throw (invalidData "Invalid MUTF8") : Io ClassByteReader ConstantPoolEntry)
      (fun a bs => ∃ str, Mutf8.decodeStrict cs = some str ∧ a = .utf8 str ∧ bs = []) := by
    cases Mutf8.decodeStrict cs with
    | none =>
      apply (never_parses _).congr
      intro a bs
      constructor
      · exact fun h => h.elim
      · rintro ⟨_, h, _⟩
        cases h
    | some str =>
      apply (Parses.pure _).congr
      intro a bs
      constructor
      · rintro ⟨rfl, rfl⟩
        exact ⟨str, rfl, rfl, rfl⟩
      · rintro ⟨_, h, rfl, rfl⟩
        cases h
        exact ⟨rfl, rfl⟩
  apply (readU16_parses.bind fun len => (decodeBytes_parses len.toNat).bind hstr).congr
  intro a bs
  constructor
  · rintro ⟨len, _, _, rfl, ⟨cs, ds, _, ⟨hlen, hds⟩, ⟨str, hs, rfl, rfl⟩, rfl⟩, rfl⟩
    subst hds
    refine ⟨str, ds, rfl, ?_, hs, ?_⟩
    · rw [hlen]
      exact len.toNat_lt
    · rw [List.append_nil, hlen]
  · rintro ⟨str, cs, rfl, hlt, hs, rfl⟩
    have hlen : (UInt16.ofNat cs.length).toNat = cs.length := UInt16.toNat_ofNat_of_lt' hlt
    refine ⟨.ofNat cs.length, _, _, rfl,
      ⟨cs, _, [], ⟨hlen.symm, rfl⟩, ⟨str, hs, rfl, rfl⟩, rfl⟩, ?_⟩
    rw [List.append_nil, hlen]

theorem body_parses {m : Io ClassByteReader ConstantPoolEntry} {f : ι → ConstantPoolEntry}
    {g : ι → List UInt8} (hm : Parses m (fun a bs => ∃ x, a = f x ∧ bs = g x))
    (hf : ∀ x, (f x).Body tag (g x))
    (h : ∀ a bs, a.Body tag bs → ∃ x, a = f x ∧ bs = g x) :
    Parses m (fun entry body => entry.Body tag body) := by
  apply hm.congr
  intro a bs
  constructor
  · rintro ⟨x, rfl, rfl⟩
    exact hf x
  · exact h a bs

theorem decodeTagged_parses (tag : UInt8) :
    Parses (ConstantPoolEntry.decodeTagged (R := ClassByteReader) tag)
      (fun entry body => entry.Body tag.toNat body) := by
  unfold ConstantPoolEntry.decodeTagged
  split
  all_goals rename_i heq; try rw [heq]
  · apply utf8_parses.congr
    intro entry body
    constructor
    · rintro ⟨str, cs, rfl, hlen, hs, rfl⟩
      exact .utf8 hlen hs
    · intro h
      cases h with
      | utf8 hlen hs => exact ⟨_, _, rfl, hlen, hs, rfl⟩
  · apply body_parses (readU32_parses.map ConstantPoolEntry.integer) .integer
    intro entry body h
    cases h
    exact ⟨_, rfl, rfl⟩
  · apply body_parses (float_parses.map ConstantPoolEntry.float) .float
    intro entry body h
    cases h
    exact ⟨_, rfl, rfl⟩
  · apply body_parses (readU64_parses.map ConstantPoolEntry.long) .long
    intro entry body h
    cases h
    exact ⟨_, rfl, rfl⟩
  · apply body_parses (double_parses.map ConstantPoolEntry.double) .double
    intro entry body h
    cases h
    exact ⟨_, rfl, rfl⟩
  · apply body_parses (readU16_parses.map ConstantPoolEntry.class) .class
    intro entry body h
    cases h
    exact ⟨_, rfl, rfl⟩
  · apply body_parses (readU16_parses.map ConstantPoolEntry.string) .string
    intro entry body h
    cases h
    exact ⟨_, rfl, rfl⟩
  · apply body_parses (indexPair_parses ConstantPoolEntry.fieldref) (fun p => .fieldref p.1 p.2)
    intro entry body h
    cases h
    exact ⟨(_, _), rfl, rfl⟩
  · apply body_parses (indexPair_parses ConstantPoolEntry.methodref) (fun p => .methodref p.1 p.2)
    intro entry body h
    cases h
    exact ⟨(_, _), rfl, rfl⟩
  · apply body_parses (indexPair_parses ConstantPoolEntry.interfaceMethodref)
      (fun p => .interfaceMethodref p.1 p.2)
    intro entry body h
    cases h
    exact ⟨(_, _), rfl, rfl⟩
  · apply body_parses (indexPair_parses ConstantPoolEntry.nameAndType)
      (fun p => .nameAndType p.1 p.2)
    intro entry body h
    cases h
    exact ⟨(_, _), rfl, rfl⟩
  · apply body_parses methodHandle_parses (fun p => .methodHandle p.1 p.2)
    intro entry body h
    cases h
    exact ⟨(_, _), rfl, rfl⟩
  · apply body_parses (readU16_parses.map ConstantPoolEntry.methodType) .methodType
    intro entry body h
    cases h
    exact ⟨_, rfl, rfl⟩
  · apply body_parses (indexPair_parses ConstantPoolEntry.invokeDynamic)
      (fun p => .invokeDynamic p.1 p.2)
    intro entry body h
    cases h
    exact ⟨(_, _), rfl, rfl⟩
  · apply (never_parses _).congr
    intro entry body
    constructor
    · exact fun h => h.elim
    · intro h
      generalize ht : tag.toNat = t at h
      cases h <;> contradiction

theorem entry_parses : Parses (ConstantPoolEntry.decodeFrom (R := ClassByteReader))
    ConstantPoolEntry.ReadFrom := by
  apply (readU8_parses.bind decodeTagged_parses).congr
  intro entry bs
  constructor
  · rintro ⟨tag, _, body, rfl, h, rfl⟩
    exact ⟨tag.toNat, body, h, rfl⟩
  · rintro ⟨tag, body, h, rfl⟩
    have htag : (UInt8.ofNat tag).toNat = tag := by
      cases h <;> rfl
    refine ⟨.ofNat tag, _, body, rfl, ?_, ?_⟩
    · rwa [htag]
    · rw [htag]

end

/-- The loop reads these constants from `index` on: the last of them is the first to reach `count`,
and `index` does not overflow. -/
structure Covers (index count : Nat) (es : List ConstantPoolEntry) : Prop where
  fits : index + indicesTaken es < 65536
  reached : count ≤ index + indicesTaken es
  before : es ≠ [] → index + indicesTaken es.dropLast < count

theorem covers_nil (h : index < 65536) : Covers index count [] ↔ count ≤ index :=
  ⟨Covers.reached, fun hle => ⟨h, hle, fun hne => (hne rfl).elim⟩⟩

theorem covers_cons {index count : Nat} {entry : ConstantPoolEntry} {es : List ConstantPoolEntry} :
    Covers index count (entry :: es) ↔ index < count ∧
      index + entry.width.toNat < 65536 ∧ Covers (index + entry.width.toNat) count es := by
  have hw := entry.one_le_width
  have hall := indicesTaken_cons entry es
  constructor
  · rintro ⟨hfits, hreached, hbefore⟩
    have hb := hbefore (List.cons_ne_nil _ _)
    refine ⟨by omega, by omega, by omega, by omega, ?_⟩
    intro hne
    rw [List.dropLast_cons_of_ne_nil hne, indicesTaken_cons] at hb
    omega
  · rintro ⟨hi, hw', hfits, hreached, hbefore⟩
    refine ⟨by omega, by omega, ?_⟩
    intro _
    cases es with
    | nil => exact hi
    | cons e es =>
      have hb := hbefore (List.cons_ne_nil _ _)
      rw [List.dropLast_cons_of_ne_nil (List.cons_ne_nil _ _), indicesTaken_cons]
      omega

/-- A constant that is written as it was read: a NaN is written with all its bits set. -/
def ConstantPoolEntry.Kept : ConstantPoolEntry → Prop
  | .float value => value.isNan = true → value.bits = 0xffffffff
  | .double value => value.isNan = true → value.bits = 0xffffffffffffffff
  | _ => True

theorem indicesTaken_concat_le (es : List ConstantPoolEntry) (entry : ConstantPoolEntry) :
    indicesTaken (es ++ [entry]) ≤ indicesTaken es + 2 := by
  have hentry : indicesTaken [entry] ≤ 2 := by
    rw [indicesTaken_cons, ConstantPoolEntry.width]
    split <;> decide
  rw [indicesTaken, List.map_append, List.sum_append]
  exact Nat.add_le_add_left hentry _

theorem Covers.length (h : Covers 1 count es) :
    count ≤ 1 + indicesTaken es ∧ 1 + indicesTaken es ≤ count + 1 := by
  refine ⟨h.reached, ?_⟩
  by_cases hne : es = []
  · rw [hne]
    exact Nat.le_add_left _ _
  · have hb := h.before hne
    have hle := indicesTaken_concat_le es.dropLast (es.getLast hne)
    rw [List.dropLast_concat_getLast] at hle
    omega

theorem nan_kept_iff (isNan : Bool) (bits ones : α) :
    (if isNan then ones else bits) = bits ↔ (isNan = true → bits = ones) := by
  cases isNan with
  | false => exact ⟨fun _ h => (nomatch h), fun _ => rfl⟩
  | true => exact ⟨fun h _ => h.symm, fun h => (h rfl).symm⟩

section
variable [Mutf8]

/-- Induction on what is left of the count. -/
theorem pool_parses (count index : UInt16) (pool : List ConstantPoolEntry) :
    Parses (decodePool (R := ClassByteReader) count index pool) (fun pool' bs => ∃ es,
      Concat ConstantPoolEntry.ReadFrom es bs ∧ pool' = pool ++ es.flatMap ConstantPoolEntry.slots ∧
        Covers index.toNat count.toNat es) := by
  induction hn : count.toNat - index.toNat using Nat.strongRecOn generalizing index pool with
  | ind n ih =>
    rw [decodePool_eq]
    by_cases hi : index < count
    · rw [if_pos hi]
      have hlt : index.toNat < count.toNat := UInt16.lt_iff_toNat_lt.mp hi
      have hstep (entry : ConstantPoolEntry) : Parses
          (if index.toNat + entry.width.toNat < 65536 then
            decodePool count (index + entry.width) (pool ++ entry.slots)
          else throw (.panic "attempt to add with overflow") :
            Io ClassByteReader (List ConstantPoolEntry))
          (fun pool' bs => index.toNat + entry.width.toNat < 65536 ∧ ∃ es,
            Concat ConstantPoolEntry.ReadFrom es bs ∧
              pool' = pool ++ entry.slots ++ es.flatMap ConstantPoolEntry.slots ∧
                Covers (index.toNat + entry.width.toNat) count.toNat es) := by
        by_cases hw : index.toNat + entry.width.toNat < 65536
        · rw [if_pos hw]
          have hto := toNat_index hw
          have hone := entry.one_le_width
          rw [← hto]
          apply (ih _ (by omega) (index + entry.width) (pool ++ entry.slots) rfl).congr
          exact fun _ _ => ⟨fun h => ⟨by omega, h⟩, And.right⟩
        · rw [if_neg hw]
          exact (never_parses _).congr fun _ _ => ⟨False.elim, fun h => hw h.1⟩
      apply (entry_parses.bind hstep).congr
      intro pool' bs
      constructor
      · rintro ⟨entry, cs, ds, hentry, ⟨hw, es, hes, rfl, hcovers⟩, rfl⟩
        refine ⟨entry :: es, .cons hentry hes, ?_, covers_cons.mpr ⟨hlt, hw, hcovers⟩⟩
        rw [List.flatMap_cons, List.append_assoc]
      · rintro ⟨es, hes, rfl, hcovers⟩
        cases hes with
        | nil =>
          exact (Nat.not_le_of_lt hlt ((covers_nil index.toNat_lt).mp hcovers)).elim
        | @cons entry cs es ds hentry hes =>
          obtain ⟨-, hw, hcovers⟩ := covers_cons.mp hcovers
          refine ⟨entry, cs, ds, hentry, ⟨hw, es, hes, ?_, hcovers⟩, rfl⟩
          rw [List.flatMap_cons, List.append_assoc]
    · rw [if_neg hi]
      have hle : count.toNat ≤ index.toNat := by
        rw [UInt16.lt_iff_toNat_lt] at hi
        omega
      apply (Parses.pure pool).congr
      intro pool' bs
      constructor
      · rintro ⟨rfl, rfl⟩
        exact ⟨[], .nil, (List.append_nil _).symm, (covers_nil index.toNat_lt).mpr hle⟩
      · rintro ⟨es, hes, rfl, hcovers⟩
        cases hes with
        | nil => exact ⟨List.append_nil _, rfl⟩
        | cons => exact absurd (covers_cons.mp hcovers).1 (by omega)

def RawClassFile.headerBytes (raw : RawClassFile) (constantPoolCount : UInt16) : List UInt8 :=
  toBE 4 raw.magic.toNat ++ (toBE 2 raw.minorVersion.toNat ++ (toBE 2 raw.majorVersion.toNat ++
    toBE 2 constantPoolCount.toNat))

/-- The constants that a class file is read from, under the count that stands before them. -/
structure RawClassFile.Holds (raw : RawClassFile) (constantPoolCount : UInt16)
    (es : List ConstantPoolEntry) (ps : List UInt8) : Prop where
  magic : raw.magic = 0xCAFEBABE
  fits : raw.Fits
  slots : raw.constantPool = .unusable :: es.flatMap ConstantPoolEntry.slots
  covers : Covers 1 constantPoolCount.toNat es
  constants : Concat ConstantPoolEntry.ReadFrom es ps

/-- The bytes that a class file is read from. -/
def RawClassFile.ReadFrom (raw : RawClassFile) (bs : List UInt8) : Prop :=
  ∃ count es ps, raw.Holds count es ps ∧ bs = raw.headerBytes count ++ (ps ++ raw.memberBytes)

theorem versions_parse (magic : UInt32) :
    Parses (do
      let minorVersion ← readU16 (R := ClassByteReader)
      let majorVersion ← readU16
      let constantPoolCount ← readU16
      let constantPool ← decodePool constantPoolCount 1 [.unusable]
      RawClassFile.decodeMembers magic minorVersion majorVersion constantPool)
      (fun raw bs => ∃ count es ps, raw.magic = magic ∧ raw.Fits ∧
        raw.constantPool = .unusable :: es.flatMap ConstantPoolEntry.slots ∧
          Covers 1 count.toNat es ∧ Concat ConstantPoolEntry.ReadFrom es ps ∧
            bs = toBE 2 raw.minorVersion.toNat ++ (toBE 2 raw.majorVersion.toNat ++
              (toBE 2 (UInt16.toNat count) ++ (ps ++ raw.memberBytes)))) := by
  apply (readU16_parses.bind fun minor => readU16_parses.bind fun major =>
    readU16_parses.bind fun count => (pool_parses count 1 [.unusable]).bind fun pool =>
      members_parse magic minor major pool).congr
  intro raw bs
  constructor
  · rintro ⟨_, _, _, rfl, ⟨_, _, _, rfl, ⟨count, _, _, rfl, ⟨_, ps, _, ⟨es, hes, rfl, hcovers⟩,
      ⟨hfits, ⟨hmagic, rfl, rfl, hpool⟩, rfl⟩, rfl⟩, rfl⟩, rfl⟩, rfl⟩
    exact ⟨count, es, ps, hmagic, hfits, hpool, hcovers, hes, rfl⟩
  · rintro ⟨count, es, ps, hmagic, hfits, hpool, hcovers, hes, rfl⟩
    exact ⟨_, _, _, rfl, ⟨_, _, _, rfl, ⟨count, _, _, rfl, ⟨_, ps, _, ⟨es, hes, rfl, hcovers⟩,
      ⟨hfits, ⟨hmagic, rfl, rfl, hpool⟩, rfl⟩, rfl⟩, rfl⟩, rfl⟩, rfl⟩

theorem RawClassFile.decodeFrom_parses :
    Parses (RawClassFile.decodeFrom (R := ClassByteReader)) RawClassFile.ReadFrom := by
  apply (readU32_parses.bind fun magic => guard_parses (magic ≠ 0xCAFEBABE) _
    (versions_parse magic)).congr
  intro raw bs
  constructor
  · rintro ⟨_, _, _, rfl, ⟨hmagic, count, es, ps, rfl, hfits, hpool, hcovers, hes, rfl⟩, rfl⟩
    refine ⟨count, es, ps, ⟨Decidable.not_not.mp hmagic, hfits, hpool, hcovers, hes⟩, ?_⟩
    rw [headerBytes, List.append_assoc, List.append_assoc, List.append_assoc]
  · rintro ⟨count, es, ps, ⟨hmagic, hfits, hpool, hcovers, hes⟩, rfl⟩
    refine ⟨raw.magic, _, _, rfl,
      ⟨Decidable.not_not.mpr hmagic, count, es, ps, rfl, hfits, hpool, hcovers, hes, rfl⟩, ?_⟩
    rw [headerBytes, List.append_assoc, List.append_assoc, List.append_assoc]

/-- `decode_from` reads the class files of this grammar and nothing else, and leaves what follows
them. No class file begins another. -/
theorem decodeFrom_grammar :
    (∀ (input : ClassByteReader) raw rest, RawClassFile.decodeFrom input = .ok (raw, rest) ↔
      ∃ bs, raw.ReadFrom bs ∧ input = bs ++ rest) ∧
    ∀ (raw raw' : RawClassFile) bs bs' rest rest', raw.ReadFrom bs → raw'.ReadFrom bs' →
      bs ++ rest = bs' ++ rest' → raw = raw' ∧ bs = bs' := by
  refine ⟨RawClassFile.decodeFrom_parses, ?_⟩
  intro raw raw' bs bs' rest rest' h h' heq
  obtain ⟨hraw, hbs, -⟩ := RawClassFile.decodeFrom_parses.unique h h' heq
  exact ⟨hraw, hbs⟩

theorem ConstantPoolEntry.Laid.unique {entry : ConstantPoolEntry} (h : entry.Laid bs)
    (h' : entry.Laid cs) : bs = cs := by
  cases entry with
  | utf8 str => exact h.2.trans h'.2.symm
  | _ => exact Eq.trans h (Eq.symm h')

/-- `decode_strict` takes no bytes but those that `encode` writes. -/
def StrictMutf8 : Prop := ∀ bs str, Mutf8.decodeStrict bs = some str → Mutf8.encode str = bs

/-- A constant is written in as many bytes as it was read from. -/
theorem ReadFrom.laid (hm : StrictMutf8) {entry : ConstantPoolEntry} (h : entry.ReadFrom cs) :
    ∃ ds, entry.Laid ds ∧ ds.length = cs.length ∧ (ds = cs ↔ entry.Kept) := by
  obtain ⟨tag, body, hbody, rfl⟩ := h
  cases hbody with
  | utf8 hlen hs =>
    have he := hm _ _ hs
    refine ⟨_, ⟨by rwa [he], rfl⟩, ?_⟩
    rw [he]
    exact ⟨rfl, ⟨fun _ => trivial, fun _ => rfl⟩⟩
  | float f =>
    refine ⟨_, rfl, by simp only [List.length_append, toBE_length], ?_⟩
    rw [List.append_cancel_left_eq, toBE_cancel (UInt32.toNat_lt _) (UInt32.toNat_lt _),
      UInt32.toNat_inj, nan_kept_iff, ConstantPoolEntry.Kept]
  | double d =>
    refine ⟨_, rfl, by simp only [List.length_append, toBE_length], ?_⟩
    rw [List.append_cancel_left_eq, toBE_cancel (UInt64.toNat_lt _) (UInt64.toNat_lt _),
      UInt64.toNat_inj, nan_kept_iff, ConstantPoolEntry.Kept]
  | _ => exact ⟨_, rfl, rfl, fun _ => trivial, fun _ => rfl⟩

end

end Janadinite
