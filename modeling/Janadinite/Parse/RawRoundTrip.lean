import Janadinite.Parse.Raw

namespace Janadinite
open Bytes Codec ClassDecode ClassEncode
set_option autoImplicit true

/-- Reading back what the encoder writes for `a` gives `a`. -/
def RoundTrips [ClassEncode α] [ClassDecode α] (a : α) : Prop :=
  ∃ bs, Writes (encodeInto (W := List UInt8) a) bs ∧
    Reads (decodeFrom (R := ClassByteReader)) bs a

theorem writeU8_writes (x : UInt8) : Writes (writeU8 (W := List UInt8) x) (toBE 1 x.toNat) :=
  writeNextExact_writes _

theorem writeU16_writes (x : UInt16) : Writes (writeU16 (W := List UInt8) x) (toBE 2 x.toNat) :=
  writeNextExact_writes _

theorem writeU32_writes (x : UInt32) : Writes (writeU32 (W := List UInt8) x) (toBE 4 x.toNat) :=
  writeNextExact_writes _

theorem writeU64_writes (x : UInt64) : Writes (writeU64 (W := List UInt8) x) (toBE 8 x.toNat) :=
  writeNextExact_writes _

theorem UInt16.roundTrips (x : UInt16) : RoundTrips x :=
  ⟨_, writeU16_writes x, readU16_reads x⟩

theorem F32.roundTrips {f : F32} (h : f.isNan = false) : RoundTrips f := by
  refine ⟨_, ?_, (readU32_reads f.bits).map F32.mk⟩
  simp only [encodeInto, h, Bool.false_eq_true, ↓reduceIte]
  exact writeU32_writes f.bits

theorem F64.roundTrips {d : F64} (h : d.isNan = false) : RoundTrips d := by
  refine ⟨_, ?_, (readU64_reads d.bits).map F64.mk⟩
  simp only [encodeInto, h, Bool.false_eq_true, ↓reduceIte]
  exact writeU64_writes d.bits

theorem encodeItems_append [ClassEncode α] (xs ys : List α) :
    encodeItems (W := List UInt8) (xs ++ ys) =
      encodeItems xs >>= fun _ => encodeItems ys := by
  induction xs with
  | nil => simp only [List.nil_append, encodeItems, pure_bind]
  | cons x xs ih => simp only [List.cons_append, encodeItems, ih, bind_assoc]

theorem items_roundTrip [ClassEncode α] [ClassDecode α] {xs : List α}
    (h : ∀ x ∈ xs, RoundTrips x) :
    ∃ bs, Writes (encodeItems (W := List UInt8) xs) bs ∧
      Reads (decodeN α (R := ClassByteReader) xs.length) bs xs := by
  induction xs with
  | nil => exact ⟨[], .pure, .pure _⟩
  | cons x xs ih =>
    obtain ⟨bs, hw, hr⟩ := h x List.mem_cons_self
    obtain ⟨cs, hws, hrs⟩ := ih fun y hy => h y (List.mem_cons_of_mem _ hy)
    exact ⟨bs ++ cs, hw.bind hws, hr.bind (hrs.map (x :: ·))⟩

theorem decodeN_bytes_reads (bs : List UInt8) :
    Reads (decodeN UInt8 (R := ClassByteReader) bs.length) bs bs := by
  induction bs with
  | nil => exact .pure _
  | cons b bs ih =>
    have hb : toBE 1 b.toNat = [b] := by
      simp only [toBE, Nat.pow_zero, Nat.div_one, UInt8.ofNat_toNat]
    have hr := readU8_reads b
    rw [hb] at hr
    exact hr.bind (ih.map (b :: ·))

theorem AttributeInfo.roundTrips {attr : AttributeInfo} (h : attr.info.length < 2 ^ 32) :
    RoundTrips attr := by
  have hlen : (UInt32.ofNat attr.info.length).toNat = attr.info.length :=
    UInt32.toNat_ofNat_of_lt' h
  have hinfo := decodeN_bytes_reads attr.info
  rw [← hlen] at hinfo
  exact ⟨_, (writeU16_writes _).bind ((writeU32_writes _).bind (writeNextExact_writes _)),
    (readU16_reads _).bind ((readU32_reads _).bind (hinfo.map (AttributeInfo.mk _ ·)))⟩

theorem table_roundTrip [ClassEncode α] [ClassDecode α] {xs : List α}
    (hlen : xs.length < 65536) (h : ∀ x ∈ xs, RoundTrips x) :
    ∃ bs, Writes (encodeItems (W := List UInt8) xs) bs ∧
      Reads (decodeN α (R := ClassByteReader) (UInt16.ofNat xs.length).toNat) bs xs := by
  have he : (UInt16.ofNat xs.length).toNat = xs.length := UInt16.toNat_ofNat_of_lt' hlen
  rw [he]
  exact items_roundTrip h

/-- The sizes that the `u2` and `u4` length fields below an attribute table can hold. -/
def AttributesFit (attributes : List AttributeInfo) : Prop :=
  attributes.length < 65536 ∧ ∀ attr ∈ attributes, attr.info.length < 2 ^ 32

theorem FieldInfo.roundTrips {field : FieldInfo} (h : AttributesFit field.attributes) :
    RoundTrips field := by
  obtain ⟨bs, hw, hr⟩ := table_roundTrip h.1 fun attr ha => AttributeInfo.roundTrips (h.2 attr ha)
  exact ⟨_, (writeU16_writes _).bind ((writeU16_writes _).bind ((writeU16_writes _).bind
      ((writeU16_writes _).bind hw))),
    (readU16_reads _).bind ((readU16_reads _).bind ((readU16_reads _).bind
      ((readU16_reads _).bind (hr.map (FieldInfo.mk _ _ _ ·)))))⟩

theorem MethodInfo.roundTrips {meth : MethodInfo} (h : AttributesFit meth.attributes) :
    RoundTrips meth := by
  obtain ⟨bs, hw, hr⟩ := table_roundTrip h.1 fun attr ha => AttributeInfo.roundTrips (h.2 attr ha)
  exact ⟨_, (writeU16_writes _).bind ((writeU16_writes _).bind ((writeU16_writes _).bind
      ((writeU16_writes _).bind hw))),
    (readU16_reads _).bind ((readU16_reads _).bind ((readU16_reads _).bind
      ((readU16_reads _).bind (hr.map (MethodInfo.mk _ _ _ ·)))))⟩

theorem tagged_writes (tag : UInt8) (m : Io (List UInt8) PUnit) (h : Writes m bs) :
    Writes (do writeU8 tag; m) (toBE 1 tag.toNat ++ bs) :=
  (writeU8_writes tag).bind h

theorem writeIndexPair_writes (tag : UInt8) (first second : UInt16) :
    Writes (writeIndexPair (W := List UInt8) tag first second)
      (toBE 1 tag.toNat ++ (toBE 2 first.toNat ++ toBE 2 second.toNat)) :=
  (writeU8_writes _).bind ((writeU16_writes _).bind (writeU16_writes _))

theorem readIndexPair_reads (entry : UInt16 → UInt16 → ConstantPoolEntry)
    (first second : UInt16) :
    Reads (readIndexPair (R := ClassByteReader) entry)
      (toBE 2 first.toNat ++ toBE 2 second.toNat) (entry first second) :=
  (readU16_reads _).bind ((readU16_reads _).map (entry first ·))

/-- The entries from index 1 on: an unusable slot after each eight-byte constant, nowhere else. -/
inductive PoolSlots : List ConstantPoolEntry → Prop where
  | nil : PoolSlots []
  | wide {entry es} (he : entry.isWide = true) (hes : PoolSlots es) :
      PoolSlots (entry :: .unusable :: es)
  | narrow {entry es} (he : entry.isWide = false) (hu : entry ≠ .unusable) (hes : PoolSlots es) :
      PoolSlots (entry :: es)

/-- How far `index` can be when the loop has read `es`: at the count, or one past it when the
last slot belongs to an eight-byte constant. -/
def LoopReaches (index count : Nat) (es : List ConstantPoolEntry) : Prop :=
  count ≤ index + es.length ∧
    (es ≠ [] → index + es.length ≤ count + if es.getLast? = some .unusable then 1 else 0)

theorem LoopReaches.wide (h : LoopReaches index count (entry :: .unusable :: es)) :
    index < count ∧ LoopReaches (index + 2) count es := by
  obtain ⟨hle, hlast⟩ := h
  have hb := hlast (List.cons_ne_nil _ _)
  simp only [List.length_cons] at hle hb
  cases es with
  | nil =>
    have hone : (if (entry :: [ConstantPoolEntry.unusable]).getLast? = some .unusable
        then 1 else 0) = 1 := rfl
    rw [hone] at hb
    simp only [List.length_nil] at hle hb
    exact ⟨by omega, by simp only [List.length_nil]; omega, fun h => (h rfl).elim⟩
  | cons e es =>
    rw [List.getLast?_cons_cons, List.getLast?_cons_cons] at hb
    simp only [List.length_cons] at hle hb
    refine ⟨?_, by simp only [List.length_cons]; omega, fun _ => ?_⟩
    · split at hb <;> omega
    · simp only [List.length_cons]; omega

theorem LoopReaches.narrow (h : LoopReaches index count (entry :: es)) (hu : entry ≠ .unusable) :
    index < count ∧ LoopReaches (index + 1) count es := by
  obtain ⟨hle, hlast⟩ := h
  have hb := hlast (List.cons_ne_nil _ _)
  simp only [List.length_cons] at hle hb
  cases es with
  | nil =>
    rw [List.getLast?_singleton, if_neg (fun he => hu (Option.some.inj he))] at hb
    simp only [List.length_nil] at hle hb
    exact ⟨by omega, by simp only [List.length_nil]; omega, fun h => (h rfl).elim⟩
  | cons e es =>
    rw [List.getLast?_cons_cons] at hb
    simp only [List.length_cons] at hle hb
    refine ⟨?_, by simp only [List.length_cons]; omega, fun _ => ?_⟩
    · split at hb <;> omega
    · simp only [List.length_cons]; omega

theorem PoolSlots.dropLast (h : PoolSlots es) (hl : es.getLast? = some entry)
    (hu : entry ≠ .unusable) : ∃ es', es = es' ++ [entry] ∧ PoolSlots es' := by
  induction h with
  | nil => cases hl
  | @wide e es he hes ih =>
    cases es with
    | nil =>
      rw [List.getLast?_cons_cons, List.getLast?_singleton] at hl
      exact (hu (Option.some.inj hl).symm).elim
    | cons x xs =>
      rw [List.getLast?_cons_cons, List.getLast?_cons_cons] at hl
      obtain ⟨es', heq, hes'⟩ := ih hl
      exact ⟨e :: .unusable :: es', by rw [heq]; rfl, .wide he hes'⟩
  | @narrow e es he hu' hes ih =>
    cases es with
    | nil =>
      rw [List.getLast?_singleton] at hl
      cases hl
      exact ⟨[], rfl, .nil⟩
    | cons x xs =>
      rw [List.getLast?_cons_cons] at hl
      obtain ⟨es', heq, hes'⟩ := ih hl
      exact ⟨e :: es', by rw [heq]; rfl, .narrow he hu' hes'⟩

theorem decodeMembers_pool (magic : UInt32) (minor major : UInt16)
    (pool : List ConstantPoolEntry) :
    Ensures (RawClassFile.decodeMembers (R := ClassByteReader) magic minor major pool)
      (·.constantPool = pool) := by
  unfold RawClassFile.decodeMembers
  iterate 11 (apply Ensures.bind; intro _)
  exact .pure rfl

theorem poolCount_toNat {pool : List ConstantPoolEntry} (h : pool.length < 65536) :
    (UInt16.ofNat (pool.length - 1)).toNat = pool.length - 1 :=
  UInt16.toNat_ofNat_of_lt' (show pool.length - 1 < 65536 by omega)

section
variable [Mutf8]

/-- `decode_strict` undoes `encode`. -/
def LawfulMutf8 : Prop := ∀ s, Mutf8.decodeStrict (Mutf8.encode s) = some s

/-- Strings that fit their length field, and no NaN. -/
def ConstantPoolEntry.Encodable : ConstantPoolEntry → Prop
  | .utf8 str => (Mutf8.encode str).length < 65536
  | .float value => value.isNan = false
  | .double value => value.isNan = false
  | _ => True

theorem decodeFrom_reads {entry : ConstantPoolEntry} (tag : UInt8)
    (h : Reads (ConstantPoolEntry.decodeTagged (R := ClassByteReader) tag) bs entry) :
    Reads (ConstantPoolEntry.decodeFrom (R := ClassByteReader)) (toBE 1 tag.toNat ++ bs) entry :=
  (readU8_reads tag).bind h

theorem utf8_writes (h : (Mutf8.encode str).length < 65536) :
    Writes (ConstantPoolEntry.encodeInto (W := List UInt8) (.utf8 str)) (toBE 1 1 ++
      (toBE 2 (UInt16.ofNat (Mutf8.encode str).length).toNat ++ Mutf8.encode str)) := by
  apply (writeU8_writes 1).bind
  rw [if_neg (Nat.not_le_of_lt h)]
  exact (writeU16_writes _).bind (writeNextExact_writes _)

theorem utf8_roundTrips (hm : LawfulMutf8) (h : (Mutf8.encode str).length < 65536) :
    RoundTrips (ConstantPoolEntry.utf8 str) := by
  have hlen : (UInt16.ofNat (Mutf8.encode str).length).toNat = (Mutf8.encode str).length :=
    UInt16.toNat_ofNat_of_lt' h
  have hbytes := decodeN_bytes_reads (Mutf8.encode str)
  refine ⟨_, utf8_writes h, decodeFrom_reads 1 ((readU16_reads _).bind ?_)⟩
  rw [hlen]
  apply hbytes.last
  rw [hm]
  exact .pure _

theorem ConstantPoolEntry.roundTrips (hm : LawfulMutf8) {entry : ConstantPoolEntry}
    (h : entry.Encodable) (hu : entry ≠ .unusable) : RoundTrips entry := by
  cases entry with
  | utf8 str => exact utf8_roundTrips hm h
  | integer bytes =>
    exact ⟨_, tagged_writes 3 (writeU32 bytes) (writeU32_writes bytes),
      decodeFrom_reads 3 ((readU32_reads bytes).map ConstantPoolEntry.integer)⟩
  | float value =>
    obtain ⟨bs, hw, hr⟩ := F32.roundTrips h
    exact ⟨_, tagged_writes 4 (ClassEncode.encodeInto value) hw,
      decodeFrom_reads 4 (hr.map ConstantPoolEntry.float)⟩
  | long bytes =>
    exact ⟨_, tagged_writes 5 (writeU64 bytes) (writeU64_writes bytes),
      decodeFrom_reads 5 ((readU64_reads bytes).map ConstantPoolEntry.long)⟩
  | double value =>
    obtain ⟨bs, hw, hr⟩ := F64.roundTrips h
    exact ⟨_, tagged_writes 6 (ClassEncode.encodeInto value) hw,
      decodeFrom_reads 6 (hr.map ConstantPoolEntry.double)⟩
  | «class» nameIndex =>
    exact ⟨_, tagged_writes 7 (writeU16 nameIndex) (writeU16_writes nameIndex),
      decodeFrom_reads 7 ((readU16_reads nameIndex).map ConstantPoolEntry.class)⟩
  | string stringIndex =>
    exact ⟨_, tagged_writes 8 (writeU16 stringIndex) (writeU16_writes stringIndex),
      decodeFrom_reads 8 ((readU16_reads stringIndex).map ConstantPoolEntry.string)⟩
  | fieldref i j =>
    exact ⟨_, writeIndexPair_writes 9 i j, decodeFrom_reads 9 (readIndexPair_reads .fieldref i j)⟩
  | methodref i j =>
    exact ⟨_, writeIndexPair_writes 10 i j,
      decodeFrom_reads 10 (readIndexPair_reads .methodref i j)⟩
  | interfaceMethodref i j =>
    exact ⟨_, writeIndexPair_writes 11 i j,
      decodeFrom_reads 11 (readIndexPair_reads .interfaceMethodref i j)⟩
  | nameAndType i j =>
    exact ⟨_, writeIndexPair_writes 12 i j,
      decodeFrom_reads 12 (readIndexPair_reads .nameAndType i j)⟩
  | methodHandle kind i =>
    exact ⟨_, tagged_writes 15 (do writeU8 kind; writeU16 i)
      ((writeU8_writes kind).bind (writeU16_writes i)),
      decodeFrom_reads 15
        ((readU8_reads kind).bind ((readU16_reads i).map (ConstantPoolEntry.methodHandle kind)))⟩
  | methodType i =>
    exact ⟨_, tagged_writes 16 (writeU16 i) (writeU16_writes i),
      decodeFrom_reads 16 ((readU16_reads i).map ConstantPoolEntry.methodType)⟩
  | invokeDynamic i j =>
    exact ⟨_, writeIndexPair_writes 18 i j,
      decodeFrom_reads 18 (readIndexPair_reads .invokeDynamic i j)⟩
  | unusable => exact (hu rfl).elim

theorem decodePool_stop {count index : UInt16} (h : count.toNat ≤ index.toNat)
    (pool : List ConstantPoolEntry) :
    Reads (decodePool (R := ClassByteReader) count index pool) [] pool := by
  rw [decodePool_eq, if_neg (by rw [UInt16.lt_iff_toNat_lt]; omega)]
  exact .pure _

theorem decodePool_entry {count index : UInt16} {entry : ConstantPoolEntry}
    (hi : index.toNat < count.toNat) (hfit : index.toNat + entry.width.toNat < 65536)
    (he : Reads (ConstantPoolEntry.decodeFrom (R := ClassByteReader)) bs entry)
    (hrest : Reads (decodePool (R := ClassByteReader) count (index + entry.width)
      (pool ++ entry.slots)) cs pool') :
    Reads (decodePool (R := ClassByteReader) count index pool) (bs ++ cs) pool' := by
  rw [decodePool_eq, if_pos (UInt16.lt_iff_toNat_lt.2 hi)]
  apply he.bind
  rwa [if_pos hfit]

theorem pool_roundTrip (hm : LawfulMutf8) (hes : PoolSlots es)
    (henc : ∀ entry ∈ es, entry.Encodable) :
    ∃ bs, Writes (encodeItems (W := List UInt8) es) bs ∧
      ∀ (count index : UInt16) pool, index.toNat + es.length < 65536 →
        LoopReaches index.toNat count.toNat es →
        Reads (decodePool (R := ClassByteReader) count index pool) bs (pool ++ es) := by
  induction hes with
  | nil =>
    refine ⟨[], .pure, fun count index pool _ hr => ?_⟩
    rw [List.append_nil]
    exact decodePool_stop hr.1 pool
  | @wide entry es he hes ih =>
    have hu : entry ≠ .unusable := by rintro rfl; cases he
    have hw : entry.width = 2 := if_pos he
    have hs : entry.slots = [entry, .unusable] := if_pos he
    obtain ⟨bs, hwrite, hread⟩ :=
      ConstantPoolEntry.roundTrips hm (henc entry List.mem_cons_self) hu
    obtain ⟨cs, hwrites, hreads⟩ := ih fun x hx =>
      henc x (List.mem_cons_of_mem _ (List.mem_cons_of_mem _ hx))
    refine ⟨bs ++ ([] ++ cs), hwrite.bind (Writes.pure.bind hwrites), ?_⟩
    intro count index pool hfit hr
    simp only [List.length_cons] at hfit
    obtain ⟨hi, hr'⟩ := hr.wide
    have hadd : (index + 2).toNat = index.toNat + 2 := by
      rw [UInt16.toNat_add]
      exact Nat.mod_eq_of_lt (by change index.toNat + 2 < 65536; omega)
    apply decodePool_entry hi (by rw [hw]; change index.toNat + 2 < 65536; omega) hread
    rw [hw, hs]
    have hrest := hreads count (index + 2) (pool ++ [entry, .unusable])
      (by rw [hadd]; omega) (by rw [hadd]; exact hr')
    simpa only [List.append_assoc, List.cons_append, List.nil_append] using hrest
  | @narrow entry es he hu hes ih =>
    have hw : entry.width = 1 := if_neg (by rw [he]; exact Bool.false_ne_true)
    have hs : entry.slots = [entry] := if_neg (by rw [he]; exact Bool.false_ne_true)
    obtain ⟨bs, hwrite, hread⟩ :=
      ConstantPoolEntry.roundTrips hm (henc entry List.mem_cons_self) hu
    obtain ⟨cs, hwrites, hreads⟩ := ih fun x hx => henc x (List.mem_cons_of_mem _ hx)
    refine ⟨bs ++ cs, hwrite.bind hwrites, ?_⟩
    intro count index pool hfit hr
    simp only [List.length_cons] at hfit
    obtain ⟨hi, hr'⟩ := hr.narrow hu
    have hadd : (index + 1).toNat = index.toNat + 1 := by
      rw [UInt16.toNat_add]
      exact Nat.mod_eq_of_lt (by change index.toNat + 1 < 65536; omega)
    apply decodePool_entry hi (by rw [hw]; change index.toNat + 1 < 65536; omega) hread
    rw [hw, hs]
    have hrest := hreads count (index + 1) (pool ++ [entry])
      (by rw [hadd]; omega) (by rw [hadd]; exact hr')
    simpa only [List.append_assoc, List.cons_append, List.nil_append] using hrest

/-- A class file in memory with a well-formed pool and tables that fit their count fields. -/
structure RawClassFile.WellFormed (raw : RawClassFile) : Prop where
  magic : raw.magic = 0xCAFEBABE
  pool : ∃ es, raw.constantPool = .unusable :: es ∧ PoolSlots es
  entries : ∀ entry ∈ raw.constantPool, entry.Encodable
  poolFits : raw.constantPool.length < 65536
  interfaces : raw.interfaces.length < 65536
  fields : raw.fields.length < 65536 ∧ ∀ field ∈ raw.fields, AttributesFit field.attributes
  methods : raw.methods.length < 65536 ∧ ∀ meth ∈ raw.methods, AttributesFit meth.attributes
  attributes : AttributesFit raw.attributes

theorem members_roundTrip {raw : RawClassFile} (h : raw.WellFormed) :
    ∃ bs, Writes (raw.encodeMembers (W := List UInt8)) bs ∧
      Reads (RawClassFile.decodeMembers (R := ClassByteReader) raw.magic raw.minorVersion
        raw.majorVersion raw.constantPool) bs raw := by
  obtain ⟨is, hwi, hri⟩ := table_roundTrip h.interfaces fun x _ => UInt16.roundTrips x
  obtain ⟨fs, hwf, hrf⟩ := table_roundTrip h.fields.1
    fun field hf => FieldInfo.roundTrips (h.fields.2 field hf)
  obtain ⟨ms, hwm, hrm⟩ := table_roundTrip h.methods.1
    fun meth hmeth => MethodInfo.roundTrips (h.methods.2 meth hmeth)
  obtain ⟨as, hwa, hra⟩ := table_roundTrip h.attributes.1
    fun attr ha => AttributeInfo.roundTrips (h.attributes.2 attr ha)
  exact ⟨_, (writeU16_writes raw.accessFlags).bind ((writeU16_writes raw.thisClass).bind
      ((writeU16_writes raw.superClass).bind ((writeU16_writes _).bind (hwi.bind
        ((writeU16_writes _).bind (hwf.bind ((writeU16_writes _).bind (hwm.bind
          ((writeU16_writes _).bind hwa))))))))),
    (readU16_reads raw.accessFlags).bind ((readU16_reads raw.thisClass).bind
      ((readU16_reads raw.superClass).bind ((readU16_reads _).bind (hri.bind
        ((readU16_reads _).bind (hrf.bind ((readU16_reads _).bind (hrm.bind
          ((readU16_reads _).bind (hra.map _))))))))))⟩

/-- What precedes the pool: the count the encoder writes is one less than the pool's length. -/
theorem header_roundTrip {raw : RawClassFile} (h : raw.WellFormed) :
    ∃ bs, (∀ ps ms, Writes (encodeItems (W := List UInt8) raw.constantPool) ps →
        Writes (raw.encodeMembers (W := List UInt8)) ms →
        Writes (raw.encodeInto (W := List UInt8)) (bs ++ (ps ++ ms))) ∧
      ∀ ps pool, Reads (decodePool (R := ClassByteReader)
          (UInt16.ofNat (raw.constantPool.length - 1)) 1 [.unusable]) ps pool →
        Continues (RawClassFile.decodeFrom (R := ClassByteReader)) (bs ++ ps)
          (RawClassFile.decodeMembers raw.magic raw.minorVersion raw.majorVersion pool) := by
  refine ⟨toBE 4 raw.magic.toNat ++ (toBE 2 raw.minorVersion.toNat ++
    (toBE 2 raw.majorVersion.toNat ++
      toBE 2 (UInt16.ofNat (raw.constantPool.length - 1)).toNat)), ?_, ?_⟩
  · intro ps ms hps hms
    simp only [List.append_assoc]
    exact (writeU32_writes raw.magic).bind ((writeU16_writes raw.minorVersion).bind
      ((writeU16_writes raw.majorVersion).bind ((writeU16_writes _).bind (hps.bind hms))))
  · intro ps pool hps
    have hmagic : ¬ raw.magic ≠ 0xCAFEBABE := fun hne => hne h.magic
    rw [← List.append_nil ps]
    simp only [List.append_assoc]
    apply (readU32_reads raw.magic).continues
    rw [if_neg hmagic]
    exact (readU16_reads raw.minorVersion).continues ((readU16_reads raw.majorVersion).continues
      ((readU16_reads _).continues (hps.continues (.refl _))))

/-- A pool that ends in an unusable slot is read back in full: the count that is one short still
lets the last eight-byte constant be read. -/
theorem decodeFrom_encodeInto_of_last {raw : RawClassFile} (hm : LawfulMutf8)
    (h : raw.WellFormed) (hlast : raw.constantPool.getLast? = some .unusable) :
    ∃ bytes, Writes (raw.encodeInto (W := List UInt8)) bytes ∧
      Reads (RawClassFile.decodeFrom (R := ClassByteReader)) bytes raw := by
  obtain ⟨es, hpool, hes⟩ := h.pool
  have hfit := h.poolFits
  have hcount := poolCount_toNat hfit
  obtain ⟨ps, hwrite, hread⟩ := pool_roundTrip hm hes fun entry he =>
    h.entries entry (by rw [hpool]; exact List.mem_cons_of_mem _ he)
  obtain ⟨ms, hwm, hrm⟩ := members_roundTrip h
  obtain ⟨bs, hwb, hrb⟩ := header_roundTrip h
  have hlen : raw.constantPool.length = es.length + 1 := by rw [hpool, List.length_cons]
  have hwpool : Writes (encodeItems (W := List UInt8) raw.constantPool) ps := by
    rw [hpool]
    exact Writes.pure.bind hwrite
  have hreach : LoopReaches 1 (raw.constantPool.length - 1) es := by
    refine ⟨by omega, fun hne => ?_⟩
    obtain ⟨e, es', rfl⟩ := List.exists_cons_of_ne_nil hne
    rw [hpool, List.getLast?_cons_cons] at hlast
    rw [if_pos hlast]
    omega
  have hrpool := hread (UInt16.ofNat (raw.constantPool.length - 1)) 1 [.unusable]
    (by change 1 + es.length < 65536; omega) (by rw [hcount]; exact hreach)
  rw [List.singleton_append, ← hpool] at hrpool
  refine ⟨bs ++ (ps ++ ms), hwb ps ms hwpool hwm, ?_⟩
  rw [← List.append_assoc]
  exact (hrb ps _ hrpool).reads hrm

/-- Otherwise the loop stops before the last constant, whose bytes are read as what follows the
pool. -/
theorem decodeFrom_encodeInto_of_not_last {raw : RawClassFile} (hm : LawfulMutf8)
    (h : raw.WellFormed) (hlast : raw.constantPool.getLast? ≠ some .unusable) :
    ∃ bytes, Writes (raw.encodeInto (W := List UInt8)) bytes ∧
      ∀ rest raw' rest', RawClassFile.decodeFrom (R := ClassByteReader) (bytes ++ rest) =
        .ok (raw', rest') → raw'.constantPool = raw.constantPool.dropLast := by
  obtain ⟨es, hpool, hes⟩ := h.pool
  have hfit := h.poolFits
  have hcount := poolCount_toNat hfit
  rw [hpool] at hlast
  obtain ⟨e, es, rfl⟩ : ∃ e es', es = e :: es' := by
    cases es with
    | nil => exact (hlast rfl).elim
    | cons e es' => exact ⟨e, es', rfl⟩
  rw [List.getLast?_cons_cons] at hlast
  obtain ⟨entry, hentry⟩ : ∃ entry, (e :: es).getLast? = some entry :=
    ⟨_, List.getLast?_eq_some_getLast (List.cons_ne_nil e es)⟩
  have hu : entry ≠ .unusable := fun he => hlast (hentry.trans (congrArg some he))
  obtain ⟨es', heq, hes'⟩ := hes.dropLast hentry hu
  have hmem : ∀ x ∈ es' ++ [entry], x.Encodable := fun x hx =>
    h.entries x (by rw [hpool, heq]; exact List.mem_cons_of_mem _ hx)
  obtain ⟨ps, hwrite, hread⟩ := pool_roundTrip hm hes' fun x hx =>
    hmem x (List.mem_append_left _ hx)
  obtain ⟨qs, hwq, hrq⟩ := ConstantPoolEntry.roundTrips hm
    (hmem entry (List.mem_append_right _ List.mem_cons_self)) hu
  obtain ⟨ms, hwm, _⟩ := members_roundTrip h
  obtain ⟨bs, hwb, hrb⟩ := header_roundTrip h
  have hlen : raw.constantPool.length = es'.length + 2 := by
    rw [hpool, heq, List.length_cons, List.length_append, List.length_singleton]
  have hwpool : Writes (encodeItems (W := List UInt8) raw.constantPool) (ps ++ (qs ++ [])) := by
    have hw : Writes (encodeItems (W := List UInt8) (es' ++ [entry])) (ps ++ (qs ++ [])) := by
      rw [encodeItems_append]
      exact hwrite.bind (hwq.bind .pure)
    rw [hpool, heq]
    exact Writes.pure.bind hw
  have hreach : LoopReaches 1 (raw.constantPool.length - 1) es' :=
    ⟨by omega, fun _ => by omega⟩
  have hrpool := hread (UInt16.ofNat (raw.constantPool.length - 1)) 1 [.unusable]
    (by change 1 + es'.length < 65536; omega) (by rw [hcount]; exact hreach)
  have hdrop : raw.constantPool.dropLast = .unusable :: es' := by
    rw [hpool, heq, ← List.cons_append, List.dropLast_concat]
  rw [List.singleton_append, ← hdrop] at hrpool
  refine ⟨bs ++ ((ps ++ (qs ++ [])) ++ ms), hwb _ ms hwpool hwm, ?_⟩
  intro rest raw' rest' hdec
  have hc := hrb ps _ hrpool ((qs ++ []) ++ ms ++ rest)
  rw [show bs ++ (ps ++ (qs ++ []) ++ ms) ++ rest = bs ++ ps ++ ((qs ++ []) ++ ms ++ rest) by
    simp only [List.append_assoc], hc] at hdec
  exact decodeMembers_pool _ _ _ _ _ _ _ hdec

/-- What `encode_into` writes is decoded to the same class file, with nothing left over and nothing
read beyond it, exactly when the pool ends in an unusable slot. -/
theorem decodeFrom_encodeInto_iff (hm : LawfulMutf8) (raw : RawClassFile) (h : raw.WellFormed) :
    (∃ bytes, raw.encodeInto [] = .ok (⟨⟩, bytes) ∧
      ∀ rest : List UInt8, RawClassFile.decodeFrom (bytes ++ rest) = .ok (raw, rest)) ↔
    raw.constantPool.getLast? = some .unusable := by
  constructor
  · rintro ⟨bytes, hw, hr⟩
    apply Classical.byContradiction
    intro hlast
    obtain ⟨bytes', hw', hr'⟩ := decodeFrom_encodeInto_of_not_last hm h hlast
    have he := hw.symm.trans (hw' [])
    injection he with he
    have hb : bytes = bytes' := congrArg Prod.snd he
    subst hb
    have hpool := hr' [] raw [] (hr [])
    have hlen := congrArg List.length hpool
    rw [List.length_dropLast] at hlen
    obtain ⟨es, heq, _⟩ := h.pool
    rw [heq, List.length_cons] at hlen
    omega
  · intro hlast
    obtain ⟨bytes, hw, hr⟩ := decodeFrom_encodeInto_of_last hm h hlast
    exact ⟨bytes, hw [], hr⟩

/-- As many items as were encoded are decoded, whatever was written before them and whatever
follows. -/
def ItemsReturn [ClassEncode α] [ClassDecode α] (items : List α) : Prop :=
  ∃ bytes, Writes (encodeItems (W := List UInt8) items) bytes ∧
    Reads (decodeN α (R := ClassByteReader) items.length) bytes items

/-- Entries, attributes, fields and methods that fit their length fields come back in order. -/
theorem items_return (hm : LawfulMutf8) :
    (∀ entries : List ConstantPoolEntry,
      (∀ entry ∈ entries, entry ≠ .unusable ∧ entry.Encodable) → ItemsReturn entries) ∧
    (∀ attributes : List AttributeInfo,
      (∀ attr ∈ attributes, attr.info.length < 2 ^ 32) → ItemsReturn attributes) ∧
    (∀ fields : List FieldInfo,
      (∀ field ∈ fields, AttributesFit field.attributes) → ItemsReturn fields) ∧
    (∀ methods : List MethodInfo,
      (∀ meth ∈ methods, AttributesFit meth.attributes) → ItemsReturn methods) := by
  refine ⟨fun entries h => ?_, fun attributes h => ?_, fun fields h => ?_, fun methods h => ?_⟩
  · apply items_roundTrip
    intro entry he
    obtain ⟨hu, henc⟩ := h entry he
    exact entry.roundTrips hm henc hu
  · exact items_roundTrip fun attr ha => attr.roundTrips (h attr ha)
  · exact items_roundTrip fun field hf => field.roundTrips (h field hf)
  · exact items_roundTrip fun meth hmeth => meth.roundTrips (h meth hmeth)

end

section

/-- UTF-8, which modified UTF-8 is on strings without NUL and supplementary characters. -/
local instance utf8 : Mutf8 where
  encode s := s.toByteArray.data.toList
  decodeStrict bytes := String.fromUTF8? ⟨bytes.toArray⟩

theorem utf8_lawful : LawfulMutf8 := by
  intro s
  have hs : (⟨s.toByteArray.data.toList.toArray⟩ : ByteArray) = s.toByteArray := by
    rw [Array.toArray_toList]
  change String.fromUTF8? ⟨s.toByteArray.data.toList.toArray⟩ = some s
  rw [hs, String.fromUTF8?, dif_pos s.isValidUTF8]
  rfl

/-- Constants of one, four and eight bytes, and a method with two attributes. -/
theorem constants_and_method_return :
    ItemsReturn [ConstantPoolEntry.utf8 "A", .integer 3, .long 7, .double ⟨0x3ff0000000000000⟩] ∧
      ItemsReturn [MethodInfo.mk 9 1 2 [⟨3, [1, 2, 3]⟩, ⟨4, []⟩]] := by
  obtain ⟨hentries, -, -, hmethods⟩ := items_return utf8_lawful
  constructor
  · apply hentries
    intro entry he
    simp only [List.mem_cons, List.not_mem_nil, or_false] at he
    rcases he with rfl | rfl | rfl | rfl
    · have hlen : (Mutf8.encode "A").length < 65536 := by decide
      exact ⟨by decide, hlen⟩
    · exact ⟨by decide, trivial⟩
    · exact ⟨by decide, trivial⟩
    · have hnan : (F64.mk 0x3ff0000000000000).isNan = false := by decide
      exact ⟨by decide, hnan⟩
  · apply hmethods
    intro meth hmeth
    rw [List.mem_singleton.mp hmeth]
    refine ⟨by decide, ?_⟩
    intro attr hattr
    simp only [List.mem_cons, List.not_mem_nil, or_false] at hattr
    rcases hattr with rfl | rfl <;> decide

def emptyClass (constants : List ConstantPoolEntry) : RawClassFile where
  magic := 0xCAFEBABE
  minorVersion := 0
  majorVersion := 65
  constantPool := [.unusable, .utf8 "A", .class 1, .utf8 "java/lang/Object", .class 3] ++ constants
  accessFlags := 0x20
  thisClass := 2
  superClass := 4
  interfaces := []
  fields := []
  methods := []
  attributes := []

theorem emptyClass_wellFormed (hc : PoolSlots constants)
    (henc : ∀ entry ∈ constants, entry.Encodable) (hlen : constants.length < 65531) :
    (emptyClass constants).WellFormed where
  magic := rfl
  pool := ⟨_, rfl, .narrow rfl (by decide) (.narrow rfl (by decide)
    (.narrow rfl (by decide) (.narrow rfl (by decide) hc)))⟩
  entries := by
    intro entry he
    simp only [emptyClass, List.cons_append, List.nil_append, List.mem_cons] at he
    rcases he with rfl | rfl | rfl | rfl | rfl | he
    · trivial
    · change (Mutf8.encode "A").length < 65536
      decide
    · trivial
    · change (Mutf8.encode "java/lang/Object").length < 65536
      decide
    · trivial
    · exact henc entry he
  poolFits := by
    simp only [emptyClass, List.length_append, List.length_cons, List.length_nil]
    omega
  interfaces := show (0 : Nat) < 65536 by decide
  fields := ⟨show (0 : Nat) < 65536 by decide, fun _ h => by cases h⟩
  methods := ⟨show (0 : Nat) < 65536 by decide, fun _ h => by cases h⟩
  attributes := ⟨show (0 : Nat) < 65536 by decide, fun _ h => by cases h⟩

theorem emptyClass_long_roundTrips :
    ∃ bytes, (emptyClass [.long 7, .unusable]).encodeInto [] = .ok (⟨⟩, bytes) ∧
      ∀ rest : List UInt8, RawClassFile.decodeFrom (bytes ++ rest) =
        .ok (emptyClass [.long 7, .unusable], rest) := by
  have h : (emptyClass [.long 7, .unusable]).WellFormed := by
    refine emptyClass_wellFormed (.wide rfl .nil) (fun entry he => ?_) (by decide)
    simp only [List.mem_cons, List.not_mem_nil, or_false] at he
    rcases he with rfl | rfl <;> trivial
  exact (decodeFrom_encodeInto_iff utf8_lawful _ h).2 rfl

/-- Without an eight-byte constant at the end the pool loses its last entry. -/
theorem emptyClass_not_roundTrips :
    LawfulMutf8 ∧ (emptyClass []).WellFormed ∧
      ¬ ∃ bytes, (emptyClass []).encodeInto [] = .ok (⟨⟩, bytes) ∧
        ∀ rest : List UInt8, RawClassFile.decodeFrom (bytes ++ rest) =
          .ok (emptyClass [], rest) := by
  have h : (emptyClass []).WellFormed :=
    emptyClass_wellFormed .nil (fun _ he => by cases he) (by decide)
  refine ⟨utf8_lawful, h, ?_⟩
  rintro ⟨bytes, hw, hr⟩
  obtain ⟨bytes', hw', hr'⟩ := decodeFrom_encodeInto_of_not_last utf8_lawful h (by decide)
  have he := hw.symm.trans (hw' [])
  injection he with he
  have hb : bytes = bytes' := congrArg Prod.snd he
  subst hb
  exact absurd (hr' [] _ [] (hr [])) (by decide)

end

end Janadinite
