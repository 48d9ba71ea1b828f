import Janadinite.Parse.CodeAttribute

namespace Janadinite
open Bytes Codec ClassEncode
set_option autoImplicit true

/-- A writer of which it is known what was written to it, and that fails with errors. -/
structure Recorder (W : Type) [ClassWriter W] where
  written : W → List UInt8
  write : ∀ buf w, (∃ e, ClassWriter.writeNextExact buf w = .error (.error e)) ∨
    ∃ w', ClassWriter.writeNextExact buf w = .ok (⟨⟩, w') ∧ written w' = written w ++ buf

def Recorder.bytes : Recorder (List UInt8) where
  written := id
  write buf w := .inr ⟨_, writeNextExact_writes buf w, rfl⟩

/-- The call returns an error, or writes bytes of which `G` holds. -/
def Emits {W : Type} [ClassWriter W] (rec : Recorder W) (G : List UInt8 → Prop)
    (m : Io W PUnit) : Prop :=
  ∀ w, (∃ e, m w = .error (.error e)) ∨
    ∃ w' bs, m w = .ok (⟨⟩, w') ∧ G bs ∧ rec.written w' = rec.written w ++ bs

namespace Emits
variable {W : Type} [ClassWriter W] {rec : Recorder W}

theorem bytes (buf : List UInt8) : Emits rec (· = buf) (ClassWriter.writeNextExact buf) := by
  intro w
  rcases rec.write buf w with herror | ⟨w', hw, hwritten⟩
  · exact .inl herror
  · exact .inr ⟨w', buf, hw, rfl, hwritten⟩

theorem nothing : Emits rec (· = []) (pure ⟨⟩) :=
  fun w => .inr ⟨w, [], rfl, rfl, (List.append_nil _).symm⟩

theorem throw (e : Error) {G : List UInt8 → Prop} :
    Emits rec G (MonadExcept.throw (Fault.error e)) :=
  fun _ => .inl ⟨e, rfl⟩

theorem bind {m : Io W PUnit} {f : PUnit → Io W PUnit} {G H : List UInt8 → Prop}
    (hm : Emits rec G m) (hf : Emits rec H (f ⟨⟩)) :
    Emits rec (fun bs => ∃ cs ds, G cs ∧ H ds ∧ bs = cs ++ ds) (m >>= f) := by
  intro w
  change (∃ e, (m w >>= fun p => f p.1 p.2) = _) ∨ ∃ w' bs, (m w >>= fun p => f p.1 p.2) = _ ∧ _
  rcases hm w with ⟨e, he⟩ | ⟨w₁, cs, hw₁, hcs, hwritten₁⟩
  · rw [he]
    exact .inl ⟨e, rfl⟩
  · rw [hw₁]
    rcases hf w₁ with ⟨e, he⟩ | ⟨w₂, ds, hw₂, hds, hwritten₂⟩
    · exact .inl ⟨e, he⟩
    · refine .inr ⟨w₂, cs ++ ds, hw₂, ⟨cs, ds, hcs, hds, rfl⟩, ?_⟩
      rw [hwritten₂, hwritten₁, List.append_assoc]

theorem mono {m : Io W PUnit} {G G' : List UInt8 → Prop} (h : Emits rec G m)
    (hG : ∀ bs, G bs → G' bs) : Emits rec G' m := by
  intro w
  rcases h w with herror | ⟨w', bs, hw, hbs, hwritten⟩
  · exact .inl herror
  · exact .inr ⟨w', bs, hw, hG bs hbs, hwritten⟩

theorem after {m : Io W PUnit} {f : PUnit → Io W PUnit} {H : List UInt8 → Prop}
    (hm : Emits rec (· = cs) m) (hf : Emits rec H (f ⟨⟩)) :
    Emits rec (fun bs => ∃ ds, H ds ∧ bs = cs ++ ds) (m >>= f) := by
  apply (hm.bind hf).mono
  rintro _ ⟨_, ds, rfl, hds, rfl⟩
  exact ⟨ds, hds, rfl⟩

theorem items {α : Type} [ClassEncode α] {G : α → List UInt8 → Prop} {xs : List α}
    (h : ∀ x ∈ xs, Emits rec (G x) (encodeInto x)) :
    Emits rec (Concat G xs) (encodeItems xs) := by
  induction xs with
  | nil =>
    apply nothing.mono
    rintro _ rfl
    exact .nil
  | cons x xs ih =>
    apply ((h x List.mem_cons_self).bind (ih fun y hy => h y (List.mem_cons_of_mem _ hy))).mono
    rintro _ ⟨cs, ds, hcs, hds, rfl⟩
    exact .cons hcs hds

end Emits

/-- The items, behind a length field of `w` bytes that holds their number. -/
def Prefixed (w : Nat) (G : α → List UInt8 → Prop) (xs : List α) (bs : List UInt8) : Prop :=
  xs.length < 256 ^ w ∧ ∃ items, Concat G xs items ∧ bs = toBE w xs.length ++ items

namespace Emits
variable {W : Type} [ClassWriter W] {rec : Recorder W}

theorem never {m : Io W PUnit} (h : Emits rec (fun _ => False) m) (f : PUnit → Io W PUnit)
    (H : List UInt8 → Prop) : Emits rec H (m >>= f) := by
  apply Emits.mono (G := fun bs => ∃ cs ds : List UInt8, False ∧ True ∧ bs = cs ++ ds)
  · intro w
    rcases h w with ⟨e, he⟩ | ⟨_, _, _, hfalse, _⟩
    · refine .inl ⟨e, ?_⟩
      change (m w >>= fun p => f p.1 p.2) = _
      rw [he]
      rfl
    · exact hfalse.elim
  · rintro _ ⟨_, _, hfalse, _⟩
    exact hfalse.elim

/-- A table and its `u2` length, when the length fits. -/
theorem table {α : Type} [ClassEncode α] {G : α → List UInt8 → Prop} {xs : List α}
    (hlen : xs.length < 2 ^ 16) (h : ∀ x ∈ xs, Emits rec (G x) (encodeInto x)) :
    Emits rec (Prefixed 2 G xs) (do writeU16 (UInt16.ofNat xs.length); encodeItems xs) := by
  have he : (UInt16.ofNat xs.length).toNat = xs.length := UInt16.toNat_ofNat_of_lt' hlen
  apply ((Emits.bytes (toBE 2 _)).after (Emits.items h)).mono
  rintro _ ⟨items, hitems, rfl⟩
  rw [he]
  exact ⟨hlen, items, hitems, rfl⟩

theorem tableThen {α : Type} [ClassEncode α] {G : α → List UInt8 → Prop} {xs : List α}
    {m : Io W PUnit} {H : List UInt8 → Prop}
    (hlen : xs.length < 2 ^ 16) (h : ∀ x ∈ xs, Emits rec (G x) (encodeInto x))
    (hm : Emits rec H m) :
    Emits rec (fun bs => ∃ cs ds, Prefixed 2 G xs cs ∧ H ds ∧ bs = cs ++ ds)
      (do writeU16 (UInt16.ofNat xs.length); encodeItems xs; m) := by
  have hb := (table hlen h).bind (f := fun _ => m) hm
  rwa [bind_assoc] at hb

end Emits

/-- Whatever it is written to, a value is written with the length fields that it should have, or the
call returns an error. -/
def Faithful {α : Type} [ClassEncode α] (G : α → List UInt8 → Prop) (x : α) : Prop :=
  ∀ (W : Type) [ClassWriter W] (rec : Recorder W), Emits rec (G x) (encodeInto x)

def AttributeInfo.Laid (attr : AttributeInfo) (bs : List UInt8) : Prop :=
  attr.info.length < 2 ^ 32 ∧ bs = attr.bytes

def MemberLaid (accessFlags nameIndex descriptorIndex : UInt16) (attributes : List AttributeInfo)
    (bs : List UInt8) : Prop :=
  ∃ table, Prefixed 2 AttributeInfo.Laid attributes table ∧
    bs = toBE 2 accessFlags.toNat ++ (toBE 2 nameIndex.toNat ++
      (toBE 2 descriptorIndex.toNat ++ table))

def FieldInfo.Laid (field : FieldInfo) : List UInt8 → Prop :=
  MemberLaid field.accessFlags field.nameIndex field.descriptorIndex field.attributes

def MethodInfo.Laid (meth : MethodInfo) : List UInt8 → Prop :=
  MemberLaid meth.accessFlags meth.nameIndex meth.descriptorIndex meth.attributes

def ConstantPoolEntry.Laid [Mutf8] : ConstantPoolEntry → List UInt8 → Prop
  | .utf8 str, bs => (Mutf8.encode str).length < 2 ^ 16 ∧
      bs = toBE 1 1 ++ (toBE 2 (Mutf8.encode str).length ++ Mutf8.encode str)
  | .integer value, bs => bs = toBE 1 3 ++ toBE 4 value.toNat
  | .float value, bs => bs = toBE 1 4 ++
      toBE 4 (UInt32.toNat (if value.isNan then 0xffffffff else value.bits))
  | .long value, bs => bs = toBE 1 5 ++ toBE 8 value.toNat
  | .double value, bs => bs = toBE 1 6 ++
      toBE 8 (UInt64.toNat (if value.isNan then 0xffffffffffffffff else value.bits))
  | .class i, bs => bs = toBE 1 7 ++ toBE 2 i.toNat
  | .string i, bs => bs = toBE 1 8 ++ toBE 2 i.toNat
  | .fieldref i j, bs => bs = toBE 1 9 ++ (toBE 2 i.toNat ++ toBE 2 j.toNat)
  | .methodref i j, bs => bs = toBE 1 10 ++ (toBE 2 i.toNat ++ toBE 2 j.toNat)
  | .interfaceMethodref i j, bs => bs = toBE 1 11 ++ (toBE 2 i.toNat ++ toBE 2 j.toNat)
  | .nameAndType i j, bs => bs = toBE 1 12 ++ (toBE 2 i.toNat ++ toBE 2 j.toNat)
  | .methodHandle kind i, bs => bs = toBE 1 15 ++ (toBE 1 kind.toNat ++ toBE 2 i.toNat)
  | .methodType i, bs => bs = toBE 1 16 ++ toBE 2 i.toNat
  | .invokeDynamic i j, bs => bs = toBE 1 18 ++ (toBE 2 i.toNat ++ toBE 2 j.toNat)
  | .unusable, bs => bs = []

section
variable {W : Type} [ClassWriter W] {rec : Recorder W}

theorem Emits.append {m m' : Io W PUnit} (hm : Emits rec (· = cs) m) (hm' : Emits rec (· = ds) m') :
    Emits rec (· = cs ++ ds) (do m; m') := by
  apply (hm.after (f := fun _ => m') hm').mono
  rintro _ ⟨_, rfl, rfl⟩
  rfl

theorem writeU8_emits (x : UInt8) : Emits rec (· = toBE 1 x.toNat) (writeU8 x) := .bytes _
theorem writeU16_emits (x : UInt16) : Emits rec (· = toBE 2 x.toNat) (writeU16 x) := .bytes _
theorem writeU32_emits (x : UInt32) : Emits rec (· = toBE 4 x.toNat) (writeU32 x) := .bytes _
theorem writeU64_emits (x : UInt64) : Emits rec (· = toBE 8 x.toNat) (writeU64 x) := .bytes _

theorem AttributeInfo.emits {attr : AttributeInfo} (h : attr.info.length < 2 ^ 32) :
    Emits rec attr.Laid (encodeInto attr) := by
  have he : (UInt32.ofNat attr.info.length).toNat = attr.info.length :=
    UInt32.toNat_ofNat_of_lt' h
  apply ((writeU16_emits attr.attributeNameIndex).append ((writeU32_emits (.ofNat _)).append
    (.bytes attr.info))).mono
  rintro _ rfl
  rw [he]
  exact ⟨h, rfl⟩

theorem member_emits (accessFlags nameIndex descriptorIndex : UInt16)
    {attributes : List AttributeInfo} (h : AttributesFit attributes) :
    Emits rec (MemberLaid accessFlags nameIndex descriptorIndex attributes) (do
      writeU16 accessFlags
      writeU16 nameIndex
      writeU16 descriptorIndex
      writeU16 (UInt16.ofNat attributes.length)
      encodeItems attributes) := by
  apply ((writeU16_emits accessFlags).after ((writeU16_emits nameIndex).after
    ((writeU16_emits descriptorIndex).after
      (Emits.table h.1 fun attr ha => AttributeInfo.emits (h.2 attr ha))))).mono
  rintro _ ⟨_, ⟨_, ⟨table, htable, rfl⟩, rfl⟩, rfl⟩
  exact ⟨table, htable, rfl⟩

theorem writeIndexPair_emits (tag : UInt8) (i j : UInt16) :
    Emits rec (· = toBE 1 tag.toNat ++ (toBE 2 i.toNat ++ toBE 2 j.toNat))
      (writeIndexPair tag i j) :=
  (writeU8_emits tag).append ((writeU16_emits i).append (writeU16_emits j))

theorem utf8_emits [Mutf8] (str : String) :
    Emits rec (ConstantPoolEntry.Laid (.utf8 str)) (ConstantPoolEntry.encodeInto (.utf8 str)) := by
  refine ((writeU8_emits 1).after (H := fun bs => (Mutf8.encode str).length < 2 ^ 16 ∧
    bs = toBE 2 (Mutf8.encode str).length ++ Mutf8.encode str) ?_).mono ?_
  · by_cases h : (Mutf8.encode str).length < 65536
    · have he : (UInt16.ofNat (Mutf8.encode str).length).toNat = (Mutf8.encode str).length :=
        UInt16.toNat_ofNat_of_lt' h
      rw [if_neg (Nat.not_le_of_lt h)]
      apply ((writeU16_emits _).append (.bytes (Mutf8.encode str))).mono
      rintro _ rfl
      rw [he]
      exact ⟨h, rfl⟩
    · rw [if_pos (Nat.le_of_not_lt h)]
      exact Emits.never (.throw _) _ _
  · rintro _ ⟨_, ⟨h, rfl⟩, rfl⟩
    exact ⟨h, rfl⟩

theorem ConstantPoolEntry.emits [Mutf8] (entry : ConstantPoolEntry) :
    Emits rec entry.Laid (ConstantPoolEntry.encodeInto entry) := by
  cases entry with
  | utf8 str => exact utf8_emits str
  | integer value => exact (writeU8_emits 3).append (writeU32_emits value)
  | float value => exact (writeU8_emits 4).append (writeU32_emits _)
  | long value => exact (writeU8_emits 5).append (writeU64_emits value)
  | double value => exact (writeU8_emits 6).append (writeU64_emits _)
  | «class» i => exact (writeU8_emits 7).append (writeU16_emits i)
  | string i => exact (writeU8_emits 8).append (writeU16_emits i)
  | fieldref i j => exact writeIndexPair_emits 9 i j
  | methodref i j => exact writeIndexPair_emits 10 i j
  | interfaceMethodref i j => exact writeIndexPair_emits 11 i j
  | nameAndType i j => exact writeIndexPair_emits 12 i j
  | methodHandle kind i =>
    exact (writeU8_emits 15).append ((writeU8_emits kind).append (writeU16_emits i))
  | methodType i => exact (writeU8_emits 16).append (writeU16_emits i)
  | invokeDynamic i j => exact writeIndexPair_emits 18 i j
  | unusable => exact .nothing

theorem pool_emits [Mutf8] (pool : List ConstantPoolEntry) :
    Emits rec (Concat ConstantPoolEntry.Laid pool) (encodeItems pool) :=
  .items fun entry _ => entry.emits

end

section
variable [Mutf8]

/-- A class file with the lengths of its tables. The number of constants has a rule of its own. -/
def RawClassFile.Laid (raw : RawClassFile) (bs : List UInt8) : Prop :=
  ∃ (count : UInt16) (pool interfaces fields methods attributes : List UInt8),
    Concat ConstantPoolEntry.Laid raw.constantPool pool ∧
    Prefixed 2 (fun i bs => bs = toBE 2 i.toNat) raw.interfaces interfaces ∧
    Prefixed 2 FieldInfo.Laid raw.fields fields ∧
    Prefixed 2 MethodInfo.Laid raw.methods methods ∧
    Prefixed 2 AttributeInfo.Laid raw.attributes attributes ∧
    bs = toBE 4 raw.magic.toNat ++ (toBE 2 raw.minorVersion.toNat ++
      (toBE 2 raw.majorVersion.toNat ++ (toBE 2 count.toNat ++ (pool ++
        (toBE 2 raw.accessFlags.toNat ++ (toBE 2 raw.thisClass.toNat ++
          (toBE 2 raw.superClass.toNat ++ (interfaces ++ (fields ++ (methods ++ attributes))))))))))

/-- The tables of a class file and of its members fit their length fields. -/
structure RawClassFile.Fits (raw : RawClassFile) : Prop where
  interfaces : raw.interfaces.length < 65536
  fields : raw.fields.length < 65536 ∧ ∀ field ∈ raw.fields, AttributesFit field.attributes
  methods : raw.methods.length < 65536 ∧ ∀ meth ∈ raw.methods, AttributesFit meth.attributes
  attributes : AttributesFit raw.attributes

/-- A string of the pool is too long for its length field. -/
def RawClassFile.Overlong (raw : RawClassFile) : Prop :=
  ∃ str, ConstantPoolEntry.utf8 str ∈ raw.constantPool ∧ 65536 ≤ (Mutf8.encode str).length

section
variable {W : Type} [ClassWriter W] {rec : Recorder W}

theorem RawClassFile.emits_of_fits {raw : RawClassFile} (h : raw.Fits) :
    Emits rec raw.Laid (raw.encodeInto (W := W)) := by
  refine Emits.mono ((writeU32_emits raw.magic).after ((writeU16_emits raw.minorVersion).after
    ((writeU16_emits raw.majorVersion).after ((writeU16_emits (.ofNat _)).after
      ((pool_emits raw.constantPool).bind ((writeU16_emits raw.accessFlags).after
        ((writeU16_emits raw.thisClass).after ((writeU16_emits raw.superClass).after
          (Emits.tableThen h.interfaces (fun i _ => writeU16_emits i)
            (Emits.tableThen h.fields.1
              (fun field hf => member_emits _ _ _ (h.fields.2 field hf))
              (Emits.tableThen h.methods.1
                (fun meth hm => member_emits _ _ _ (h.methods.2 meth hm))
                (Emits.table h.attributes.1 fun attr ha =>
                  AttributeInfo.emits (h.attributes.2 attr ha))))))))))))) ?_
  rintro _ ⟨_, ⟨_, ⟨_, ⟨_, ⟨pool, _, hpool, ⟨_, ⟨_, ⟨_, ⟨interfaces, _, hi, ⟨fields, _, hf,
    ⟨methods, attributes, hm, ha, rfl⟩, rfl⟩, rfl⟩, rfl⟩, rfl⟩, rfl⟩, rfl⟩, rfl⟩, rfl⟩, rfl⟩, rfl⟩
  exact ⟨_, pool, interfaces, fields, methods, attributes, hpool, hi, hf, hm, ha, rfl⟩

theorem RawClassFile.emits_of_overlong {raw : RawClassFile} (h : raw.Overlong)
    (G : List UInt8 → Prop) : Emits rec G (raw.encodeInto (W := W)) := by
  obtain ⟨str, hstr, hlen⟩ := h
  have hpool : Emits rec (fun _ => False) (encodeItems (W := W) raw.constantPool) := by
    apply (pool_emits raw.constantPool).mono
    intro bs hbs
    obtain ⟨cs, hlt, -⟩ := hbs.get hstr
    exact Nat.lt_irrefl _ (Nat.lt_of_lt_of_le hlt hlen)
  refine Emits.mono ((writeU32_emits raw.magic).after ((writeU16_emits raw.minorVersion).after
    ((writeU16_emits raw.majorVersion).after ((writeU16_emits (.ofNat _)).after
      (hpool.never _ (fun _ => False)))))) ?_
  rintro _ ⟨_, ⟨_, ⟨_, ⟨_, hfalse, -⟩, -⟩, -⟩, -⟩
  exact hfalse.elim

end

end

theorem Faithful.laid {α : Type} [ClassEncode α] {G : α → List UInt8 → Prop} {x : α}
    (h : Faithful G x) (hw : Writes (encodeInto (W := List UInt8) x) bs) : ∃ bs, G x bs := by
  rcases h (List UInt8) .bytes [] with ⟨e, he⟩ | ⟨_, cs, -, hcs, -⟩
  · cases (hw []).symm.trans he
  · exact ⟨cs, hcs⟩

theorem items_write {α : Type} [ClassEncode α] {xs : List α}
    (h : ∀ x ∈ xs, ∃ bs, Writes (encodeInto (W := List UInt8) x) bs) :
    ∃ bs, Writes (encodeItems (W := List UInt8) xs) bs := by
  induction xs with
  | nil => exact ⟨[], .pure⟩
  | cons x xs ih =>
    obtain ⟨bs, hw⟩ := h x List.mem_cons_self
    obtain ⟨cs, hws⟩ := ih fun y hy => h y (List.mem_cons_of_mem _ hy)
    exact ⟨bs ++ cs, hw.bind hws⟩

theorem AttributeInfo.write (attr : AttributeInfo) :
    ∃ bs, Writes (encodeInto (W := List UInt8) attr) bs :=
  ⟨_, (writeU16_writes _).bind ((writeU32_writes _).bind (writeNextExact_writes _))⟩

theorem member_write (accessFlags nameIndex descriptorIndex : UInt16)
    (attributes : List AttributeInfo) : ∃ bs, Writes (τ := UInt8) (do
      writeU16 accessFlags
      writeU16 nameIndex
      writeU16 descriptorIndex
      writeU16 (UInt16.ofNat attributes.length)
      encodeItems attributes) bs := by
  obtain ⟨bs, hw⟩ := items_write fun attr (_ : attr ∈ attributes) => attr.write
  exact ⟨_, (writeU16_writes _).bind ((writeU16_writes _).bind ((writeU16_writes _).bind
    ((writeU16_writes _).bind hw)))⟩

theorem AttributesFit.of_prefixed (h : Prefixed 2 AttributeInfo.Laid attributes bs) :
    AttributesFit attributes := by
  obtain ⟨hlen, items, hitems, -⟩ := h
  refine ⟨hlen, ?_⟩
  intro attr ha
  obtain ⟨_, hattr, -⟩ := hitems.get ha
  exact hattr

theorem AttributeInfo.faithful_iff (attr : AttributeInfo) :
    Faithful AttributeInfo.Laid attr ↔ attr.info.length < 2 ^ 32 := by
  constructor
  · intro h
    obtain ⟨_, hw⟩ := attr.write
    obtain ⟨_, hlt, -⟩ := h.laid hw
    exact hlt
  · exact fun h W _ rec => emits h

theorem FieldInfo.faithful_iff (field : FieldInfo) :
    Faithful FieldInfo.Laid field ↔ AttributesFit field.attributes := by
  constructor
  · intro h
    obtain ⟨_, hw⟩ := member_write field.accessFlags field.nameIndex field.descriptorIndex
      field.attributes
    obtain ⟨_, _, htable, -⟩ := h.laid hw
    exact .of_prefixed htable
  · exact fun h W _ rec => member_emits _ _ _ h

theorem MethodInfo.faithful_iff (meth : MethodInfo) :
    Faithful MethodInfo.Laid meth ↔ AttributesFit meth.attributes := by
  constructor
  · intro h
    obtain ⟨_, hw⟩ := member_write meth.accessFlags meth.nameIndex meth.descriptorIndex
      meth.attributes
    obtain ⟨_, _, htable, -⟩ := h.laid hw
    exact .of_prefixed htable
  · exact fun h W _ rec => member_emits _ _ _ h

section
variable [Mutf8]

theorem ConstantPoolEntry.write (entry : ConstantPoolEntry)
    (h : ∀ str, entry = .utf8 str → (Mutf8.encode str).length < 65536) :
    ∃ bs, Writes (encodeInto (W := List UInt8) entry) bs := by
  cases entry with
  | utf8 str => exact ⟨_, utf8_writes (h str rfl)⟩
  | integer value => exact ⟨_, tagged_writes 3 _ (writeU32_writes value)⟩
  | float value => exact ⟨_, tagged_writes 4 _ (writeU32_writes _)⟩
  | long value => exact ⟨_, tagged_writes 5 _ (writeU64_writes value)⟩
  | double value => exact ⟨_, tagged_writes 6 _ (writeU64_writes _)⟩
  | «class» i => exact ⟨_, tagged_writes 7 _ (writeU16_writes i)⟩
  | string i => exact ⟨_, tagged_writes 8 _ (writeU16_writes i)⟩
  | fieldref i j => exact ⟨_, writeIndexPair_writes 9 i j⟩
  | methodref i j => exact ⟨_, writeIndexPair_writes 10 i j⟩
  | interfaceMethodref i j => exact ⟨_, writeIndexPair_writes 11 i j⟩
  | nameAndType i j => exact ⟨_, writeIndexPair_writes 12 i j⟩
  | methodHandle kind i =>
    exact ⟨_, tagged_writes 15 _ ((writeU8_writes kind).bind (writeU16_writes i))⟩
  | methodType i => exact ⟨_, tagged_writes 16 _ (writeU16_writes i)⟩
  | invokeDynamic i j => exact ⟨_, writeIndexPair_writes 18 i j⟩
  | unusable => exact ⟨_, .pure⟩

theorem RawClassFile.write (raw : RawClassFile) (h : ¬ raw.Overlong) :
    ∃ bs, Writes (encodeInto (W := List UInt8) raw) bs := by
  obtain ⟨ps, hp⟩ := items_write fun entry (he : entry ∈ raw.constantPool) =>
    entry.write fun str hs => by
      apply Nat.lt_of_not_le
      exact fun hle => h ⟨str, hs ▸ he, hle⟩
  obtain ⟨is, hi⟩ := items_write fun i (_ : i ∈ raw.interfaces) => ⟨_, writeU16_writes i⟩
  obtain ⟨fs, hf⟩ := items_write fun field (_ : field ∈ raw.fields) =>
    member_write field.accessFlags field.nameIndex field.descriptorIndex field.attributes
  obtain ⟨ms, hm⟩ := items_write fun meth (_ : meth ∈ raw.methods) =>
    member_write meth.accessFlags meth.nameIndex meth.descriptorIndex meth.attributes
  obtain ⟨as, ha⟩ := items_write fun attr (_ : attr ∈ raw.attributes) => attr.write
  exact ⟨_, (writeU32_writes raw.magic).bind ((writeU16_writes raw.minorVersion).bind
    ((writeU16_writes raw.majorVersion).bind ((writeU16_writes _).bind (hp.bind
      ((writeU16_writes raw.accessFlags).bind ((writeU16_writes raw.thisClass).bind
        ((writeU16_writes raw.superClass).bind ((writeU16_writes _).bind (hi.bind
          ((writeU16_writes _).bind (hf.bind ((writeU16_writes _).bind (hm.bind
            ((writeU16_writes _).bind ha))))))))))))))⟩

theorem RawClassFile.faithful_iff (raw : RawClassFile) :
    Faithful RawClassFile.Laid raw ↔ raw.Fits ∨ raw.Overlong := by
  constructor
  · intro h
    by_cases hover : raw.Overlong
    · exact .inr hover
    · obtain ⟨_, hw⟩ := raw.write hover
      obtain ⟨_, _, _, _, _, _, _, -, hi, ⟨hf, _, hfields, -⟩, ⟨hm, _, hmethods, -⟩, ha, -⟩ :=
        h.laid hw
      refine .inl ⟨hi.1, ⟨hf, ?_⟩, ⟨hm, ?_⟩, .of_prefixed ha⟩
      · intro field hfield
        obtain ⟨_, _, htable, -⟩ := hfields.get hfield
        exact .of_prefixed htable
      · intro meth hmeth
        obtain ⟨_, _, htable, -⟩ := hmethods.get hmeth
        exact .of_prefixed htable
  · rintro (h | h) W _ rec
    · exact emits_of_fits h
    · exact emits_of_overlong h _

/-- Length fields are right, or the call is an error, exactly when the lengths fit their fields.
Only the length of a string is checked, and a class file with one that is too long is an error. -/
theorem length_fields_iff :
    (∀ attr : AttributeInfo, Faithful AttributeInfo.Laid attr ↔ attr.info.length < 2 ^ 32) ∧
    (∀ field : FieldInfo, Faithful FieldInfo.Laid field ↔ AttributesFit field.attributes) ∧
    (∀ meth : MethodInfo, Faithful MethodInfo.Laid meth ↔ AttributesFit meth.attributes) ∧
    (∀ entry : ConstantPoolEntry, Faithful ConstantPoolEntry.Laid entry) ∧
    (∀ raw : RawClassFile, Faithful RawClassFile.Laid raw ↔ raw.Fits ∨ raw.Overlong) :=
  ⟨AttributeInfo.faithful_iff, FieldInfo.faithful_iff, MethodInfo.faithful_iff,
    fun entry _ _ _ => entry.emits, RawClassFile.faithful_iff⟩

end

/-- The number of 65536 attributes is written as 0. -/
theorem many_attributes_truncated :
    ¬ Faithful FieldInfo.Laid ⟨0, 0, 0, List.replicate 65536 ⟨0, []⟩⟩ := by
  rw [FieldInfo.faithful_iff]
  rintro ⟨hlen, -⟩
  rw [List.length_replicate] at hlen
  exact Nat.lt_irrefl _ hlen

end Janadinite
