import Janadinite.Lib.Triple
import Janadinite.Parse.CodeWalk
import Janadinite.Parse.PoolSlots

namespace Janadinite
open Bytes Codec ClassDecode Hoare
set_option autoImplicit true

theorem readNextExact_parses (n : Nat) :
    Parses (ClassReader.readNextExact (R := ClassByteReader) n)
      (fun buf bs => buf = bs ∧ bs.length = n) := by
  intro input buf rest
  constructor
  · intro h
    obtain ⟨hrest, hle⟩ := readNextExact_ok n h
    have hlen : (input.take n).length = n := by
      rw [List.length_take, Nat.min_eq_left hle]
    have hread := readNextExact_reads (input.take n) (input.drop n)
    rw [hlen, List.take_append_drop, h] at hread
    cases hread
    exact ⟨_, ⟨rfl, hlen⟩, (List.take_append_drop n input).symm⟩
  · rintro ⟨bs, ⟨rfl, rfl⟩, rfl⟩
    exact readNextExact_reads buf rest

theorem parses_toBE {ofNat : Nat → α} {toNat : α → Nat} (w : Nat)
    (hto : ∀ n < 256 ^ w, toNat (ofNat n) = n) (hof : ∀ a, ofNat (toNat a) = a)
    (hlt : ∀ a, toNat a < 256 ^ w) :
    Parses (ClassReader.readNextExact (R := ClassByteReader) w >>= fun buf =>
      pure (ofNat (ofBE buf))) (fun a bs => bs = toBE w (toNat a)) := by
  apply ((readNextExact_parses w).map fun buf => ofNat (ofBE buf)).congr
  intro a bs
  constructor
  · rintro ⟨buf, rfl, rfl, rfl⟩
    rw [hto _ (ofBE_lt buf), toBE_ofBE]
  · rintro rfl
    refine ⟨toBE w (toNat a), ?_, rfl, toBE_length ..⟩
    rw [ofBE_toBE (hlt a), hof]

theorem readU8_parses : Parses (readU8 (R := ClassByteReader)) (fun x bs => bs = toBE 1 x.toNat) :=
  parses_toBE 1 (fun _ h => UInt8.toNat_ofNat_of_lt' h) (fun _ => UInt8.ofNat_toNat)
    UInt8.toNat_lt

theorem readU16_parses :
    Parses (readU16 (R := ClassByteReader)) (fun x bs => bs = toBE 2 x.toNat) :=
  parses_toBE 2 (fun _ h => UInt16.toNat_ofNat_of_lt' h) (fun _ => UInt16.ofNat_toNat)
    UInt16.toNat_lt

theorem readU32_parses :
    Parses (readU32 (R := ClassByteReader)) (fun x bs => bs = toBE 4 x.toNat) :=
  parses_toBE 4 (fun _ h => UInt32.toNat_ofNat_of_lt' h) (fun _ => UInt32.ofNat_toNat)
    UInt32.toNat_lt

theorem decodeN_parses [ClassDecode α] {G : α → List UInt8 → Prop}
    (h : Parses (decodeFrom (R := ClassByteReader)) G) (n : Nat) :
    Parses (decodeN α (R := ClassByteReader) n) (fun xs bs => xs.length = n ∧ Concat G xs bs) := by
  induction n with
  | zero =>
    apply (Parses.pure []).congr
    intro xs bs
    constructor
    · rintro ⟨rfl, rfl⟩
      exact ⟨rfl, .nil⟩
    · rintro ⟨hlen, hc⟩
      cases hc with
      | nil => exact ⟨rfl, rfl⟩
      | cons => cases hlen
  | succ n ih =>
    apply (h.bind fun x => ih.map (x :: ·)).congr
    intro xs bs
    constructor
    · rintro ⟨x, cs, ds, hx, ⟨ys, rfl, hlen, hys⟩, rfl⟩
      exact ⟨congrArg (· + 1) hlen, .cons hx hys⟩
    · rintro ⟨hlen, hc⟩
      cases hc with
      | nil => cases hlen
      | cons hx hys => exact ⟨_, _, _, hx, ⟨_, rfl, Nat.succ.inj hlen, hys⟩, rfl⟩

theorem decodeBytes_parses (n : Nat) :
    Parses (decodeN UInt8 (R := ClassByteReader) n) (fun xs bs => xs.length = n ∧ bs = xs) := by
  apply (decodeN_parses readU8_parses n).congr
  intro xs bs
  have hmap : ∀ ys : List UInt8, ys.flatMap (fun x => toBE 1 x.toNat) = ys := by
    intro ys
    simp only [toBE_one, List.flatMap_singleton']
  apply and_congr_right
  rintro -
  constructor
  · intro h
    rw [h.functional (fun _ _ hb => hb), hmap]
  · rintro rfl
    have hc := Concat.flatMap (G := fun (x : UInt8) bs => bs = toBE 1 x.toNat) (fun _ => rfl) bs
    rwa [hmap] at hc

def AttributeInfo.bytes (attr : AttributeInfo) : List UInt8 :=
  toBE 2 attr.attributeNameIndex.toNat ++ (toBE 4 attr.info.length ++ attr.info)

theorem AttributeInfo.parses : Parses (decodeFrom (α := AttributeInfo) (R := ClassByteReader))
    (fun attr bs => attr.info.length < 2 ^ 32 ∧ bs = attr.bytes) := by
  apply (readU16_parses.bind fun _ => readU32_parses.bind fun len =>
    (decodeBytes_parses len.toNat).map _).congr
  intro attr bs
  constructor
  · rintro ⟨i, cs, ds, rfl, ⟨len, cs', ds', rfl, ⟨info, rfl, hlen, rfl⟩, rfl⟩, rfl⟩
    constructor
    · change ds'.length < _
      rw [hlen]
      exact len.toNat_lt
    · rw [bytes, hlen]
  · rintro ⟨hlt, rfl⟩
    have hlen : (UInt32.ofNat attr.info.length).toNat = attr.info.length :=
      UInt32.toNat_ofNat_of_lt' hlt
    refine ⟨attr.attributeNameIndex, _, _, rfl, ⟨.ofNat attr.info.length, _, _, rfl,
      ⟨attr.info, rfl, hlen.symm, rfl⟩, rfl⟩, ?_⟩
    rw [hlen, bytes]

def ExceptionTableEntry.bytes (entry : ExceptionTableEntry) : List UInt8 :=
  toBE 2 entry.startPc.toNat ++ (toBE 2 entry.endPc.toNat ++
    (toBE 2 entry.handlerPc.toNat ++ toBE 2 entry.catchType.toNat))

theorem ExceptionTableEntry.parses :
    Parses (decodeFrom (α := ExceptionTableEntry) (R := ClassByteReader))
      (fun entry bs => bs = entry.bytes) := by
  apply (readU16_parses.bind fun _ => readU16_parses.bind fun _ => readU16_parses.bind fun _ =>
    readU16_parses.map _).congr
  intro entry bs
  constructor
  · rintro ⟨i, _, _, rfl, ⟨j, _, _, rfl, ⟨k, _, _, rfl, ⟨l, rfl, rfl⟩, rfl⟩, rfl⟩, rfl⟩
    rfl
  · rintro rfl
    exact ⟨_, _, _, rfl, ⟨_, _, _, rfl, ⟨_, _, _, rfl, ⟨_, rfl, rfl⟩, rfl⟩, rfl⟩, rfl⟩

/-- The attributes nested in a `Code` attribute, and their bytes. -/
inductive NestedAttributes (Accept : AttributeInfo → JVMAttribute → Prop) :
    List JVMAttribute → List UInt8 → Prop
  | nil : NestedAttributes Accept [] []
  | cons (hlen : raw.info.length < 2 ^ 32) (h : Accept raw parsed)
      (hs : NestedAttributes Accept attributes bytes) :
      NestedAttributes Accept (parsed :: attributes) (raw.bytes ++ bytes)

/-- The sections of a `Code` attribute, one after another. -/
inductive CodeSections (Accept : AttributeInfo → JVMAttribute → Prop) :
    JVMCode → List UInt8 → Prop
  | mk (hcode : code.length < 2 ^ 32) (htable : exceptionTable.length < 2 ^ 16)
      (hcount : attributes.length < 2 ^ 16) (hs : NestedAttributes Accept attributes bytes) :
      CodeSections Accept ⟨maxLocals, maxStack, code, exceptionTable, attributes⟩
        (toBE 2 maxStack.toNat ++ (toBE 2 maxLocals.toNat ++ (toBE 4 code.length ++ (code ++
          (toBE 2 exceptionTable.length ++ (exceptionTable.flatMap ExceptionTableEntry.bytes ++
            (toBE 2 attributes.length ++ bytes)))))))

/-- An attribute that is not named `Code` is kept as it is. One that is must begin with the
sections, in which the attributes are accepted in the same way; what follows them is ignored. -/
inductive Accepts (pool : List ConstantPoolEntry) : AttributeInfo → JVMAttribute → Prop
  | unknown (hname : getUtf8 pool attr.attributeNameIndex "Attribute name" = .ok name)
      (h : name ≠ "Code") : Accepts pool attr (.unknown name attr.info)
  | code (hname : getUtf8 pool attr.attributeNameIndex "Attribute name" = .ok "Code")
      (h : CodeSections (Accepts pool) code bytes) (hinfo : attr.info = bytes ++ rest) :
      Accepts pool attr (.code code)

theorem AttributeInfo.length_bytes (attr : AttributeInfo) :
    attr.bytes.length = attr.info.length + 6 := by
  simp only [bytes, List.length_append, toBE_length]
  omega

/-- Only what is accepted of shorter attributes matters. -/
theorem NestedAttributes.mono (hs : NestedAttributes Accept attributes bytes)
    (h : ∀ raw, raw.info.length < bytes.length → ∀ parsed, Accept raw parsed → Accept' raw parsed) :
    NestedAttributes Accept' attributes bytes := by
  induction hs with
  | nil => exact .nil
  | @cons raw parsed attributes bytes hlen ha hs ih =>
    rw [List.length_append, raw.length_bytes] at h
    refine .cons hlen (h raw (by omega) parsed ha) (ih ?_)
    intro raw' hraw'
    exact h raw' (by omega)

theorem CodeSections.mono (hs : CodeSections Accept code bytes)
    (h : ∀ raw, raw.info.length < bytes.length → ∀ parsed, Accept raw parsed → Accept' raw parsed) :
    CodeSections Accept' code bytes := by
  cases hs with
  | mk hcode htable hcount hs =>
    apply CodeSections.mk hcode htable hcount
    apply hs.mono
    intro raw hraw
    apply h
    simp only [List.length_append]
    omega

theorem ExceptionTableEntry.orderly : Orderly (decodeFrom (α := ExceptionTableEntry)) :=
  readU16_orderly.bind fun _ => readU16_orderly.bind fun _ => readU16_orderly.bind fun _ =>
    readU16_orderly.map _

namespace JVMAttribute

def AcceptedAt (depth : Nat) (pool : List ConstantPoolEntry) (attr : AttributeInfo)
    (parsed : JVMAttribute) : Prop :=
  parseNested depth attr pool = .ok parsed

def codeReader (depth : Nat) (pool : List ConstantPoolEntry) : Io ClassByteReader JVMAttribute := do
  let maxStack ← readU16
  let maxLocals ← readU16
  let codeLength ← readU32
  let code ← decodeN UInt8 codeLength.toNat
  let exceptionTableLength ← readU16
  let exceptionTable ← decodeN ExceptionTableEntry exceptionTableLength.toNat
  let attributesCount ← readU16
  let attributes ← parseNested.parseItems depth pool attributesCount.toNat
  pure (.code { maxLocals, maxStack, code, exceptionTable, attributes })

theorem parseNested_code (depth : Nat)
    (hname : getUtf8 pool attr.attributeNameIndex "Attribute name" = .ok "Code") :
    parseNested (depth + 1) attr pool =
      (codeReader depth pool attr.info >>= fun p => Except.ok p.1) := by
  rw [parseNested, hname]
  rfl

theorem parseNested_unknown (depth : Nat)
    (hname : getUtf8 pool attr.attributeNameIndex "Attribute name" = .ok name)
    (h : name ≠ "Code") : parseNested (depth + 1) attr pool = .ok (.unknown name attr.info) := by
  rw [parseNested, hname]
  exact if_neg h

theorem parseItems_parses (depth : Nat) (pool : List ConstantPoolEntry) (n : Nat) :
    Parses (parseNested.parseItems depth pool n)
      (fun as bs => as.length = n ∧ NestedAttributes (AcceptedAt depth pool) as bs) := by
  induction n with
  | zero =>
    rw [parseNested.parseItems]
    apply (Parses.pure []).congr
    intro as bs
    constructor
    · rintro ⟨rfl, rfl⟩
      exact ⟨rfl, .nil⟩
    · rintro ⟨hlen, hs⟩
      cases hs with
      | nil => exact ⟨rfl, rfl⟩
      | cons => cases hlen
  | succ n ih =>
    rw [parseNested.parseItems]
    apply (AttributeInfo.parses.bind fun raw => (Parses.lift (parseNested depth raw pool)).bind
      fun parsed => ih.map (parsed :: ·)).congr
    intro as bs
    constructor
    · rintro ⟨raw, cs, ds, ⟨hraw, rfl⟩, ⟨parsed, cs', ds', ⟨hparsed, rfl⟩, ⟨rest, rfl, hlen, hs⟩,
        rfl⟩, rfl⟩
      exact ⟨congrArg (· + 1) hlen, .cons hraw hparsed hs⟩
    · rintro ⟨hlen, hs⟩
      cases hs with
      | nil => cases hlen
      | cons hraw hparsed hs =>
        exact ⟨_, _, _, ⟨hraw, rfl⟩, ⟨_, [], _, ⟨hparsed, rfl⟩, ⟨_, rfl, Nat.succ.inj hlen, hs⟩,
          rfl⟩, rfl⟩

theorem codeReader_parses (depth : Nat) (pool : List ConstantPoolEntry) :
    Parses (codeReader depth pool)
      (fun parsed bs => ∃ code, parsed = .code code ∧
        CodeSections (AcceptedAt depth pool) code bs) := by
  apply (readU16_parses.bind fun _ => readU16_parses.bind fun _ => readU32_parses.bind fun len =>
    (decodeBytes_parses len.toNat).bind fun _ => readU16_parses.bind fun count =>
      (decodeN_parses ExceptionTableEntry.parses count.toNat).bind fun _ =>
        readU16_parses.bind fun count' => (parseItems_parses depth pool count'.toNat).map _).congr
  intro parsed bs
  constructor
  · rintro ⟨maxStack, _, _, rfl, ⟨maxLocals, _, _, rfl, ⟨len, _, _, rfl, ⟨code, _, _,
      ⟨hcode, rfl⟩, ⟨count, _, _, rfl, ⟨table, _, _, ⟨htable, hentries⟩, ⟨count', _, _, rfl,
        ⟨attributes, rfl, hcount, hs⟩, rfl⟩, rfl⟩, rfl⟩, rfl⟩, rfl⟩, rfl⟩, rfl⟩
    rw [hentries.functional fun _ _ hb => hb, ← hcode, ← htable, ← hcount]
    refine ⟨_, rfl, .mk ?_ ?_ ?_ hs⟩
    · exact hcode ▸ len.toNat_lt
    · exact htable ▸ count.toNat_lt
    · exact hcount ▸ count'.toNat_lt
  · rintro ⟨code, rfl, hs⟩
    cases hs with
    | mk hcode htable hcount hs =>
      have hlen := UInt32.toNat_ofNat_of_lt' hcode
      have hlen' := UInt16.toNat_ofNat_of_lt' htable
      have hlen'' := UInt16.toNat_ofNat_of_lt' hcount
      have hentries := fun table => Concat.flatMap (G := fun entry bs => bs = entry.bytes)
        (f := ExceptionTableEntry.bytes) (fun _ => rfl) table
      refine ⟨_, _, _, rfl, ⟨_, _, _, rfl, ⟨.ofNat _, _, _, rfl, ⟨_, _, _, ⟨hlen.symm, rfl⟩,
        ⟨.ofNat _, _, _, rfl, ⟨_, _, _, ⟨hlen'.symm, hentries _⟩,
          ⟨.ofNat _, _, _, rfl, ⟨_, rfl, hlen''.symm, hs⟩, rfl⟩, rfl⟩, rfl⟩, rfl⟩, rfl⟩, rfl⟩, ?_⟩
      rw [hlen, hlen', hlen'']

/-- With a depth above the length it is accepted what should be. -/
theorem acceptedAt_iff (pool : List ConstantPoolEntry) (h : attr.info.length < depth) :
    AcceptedAt depth pool attr parsed ↔ Accepts pool attr parsed := by
  induction depth generalizing attr parsed with
  | zero => exact absurd h (Nat.not_lt_zero _)
  | succ depth ih =>
    have hshorter : ∀ bytes rest, attr.info = bytes ++ rest → ∀ raw,
      raw.info.length < bytes.length →
        ∀ parsed, AcceptedAt depth pool raw parsed ↔ Accepts pool raw parsed := by
      intro bytes rest hinfo raw hraw parsed
      apply ih
      rw [hinfo, List.length_append] at h
      omega
    rw [AcceptedAt]
    cases hname : getUtf8 pool attr.attributeNameIndex "Attribute name" with
    | error fault =>
      constructor
      · intro hp
        rw [parseNested, hname] at hp
        cases hp
      · intro ha
        cases ha with
        | unknown hname' => cases hname.symm.trans hname'
        | code hname' => cases hname.symm.trans hname'
    | ok name =>
      by_cases hcode : name = "Code"
      · subst hcode
        rw [parseNested_code depth hname]
        constructor
        · intro hp
          obtain ⟨⟨_, rest⟩, hread, hpure⟩ := exceptBind_ok hp
          cases hpure
          obtain ⟨bytes, ⟨code, rfl, hs⟩, hinfo⟩ := (codeReader_parses depth pool _ _ _).mp hread
          have hs' := hs.mono fun raw hraw parsed => (hshorter _ _ hinfo raw hraw parsed).mp
          exact .code hname hs' hinfo
        · intro ha
          cases ha with
          | unknown hname' hne =>
            cases hname.symm.trans hname'
            exact absurd rfl hne
          | code hname' hs hinfo =>
            have hs' := hs.mono fun raw hraw parsed => (hshorter _ _ hinfo raw hraw parsed).mpr
            have hread := (codeReader_parses depth pool attr.info _ _).mpr
              ⟨_, ⟨_, rfl, hs'⟩, hinfo⟩
            rw [hread]
            rfl
      · rw [parseNested_unknown depth hname hcode]
        constructor
        · intro hp
          cases hp
          exact .unknown hname hcode
        · intro ha
          cases ha with
          | unknown hname' hne =>
            cases hname.symm.trans hname'
            rfl
          | code hname' =>
            cases hname.symm.trans hname'
            exact absurd rfl hcode

theorem parse_iff (pool : List ConstantPoolEntry) (attr : AttributeInfo) :
    parse attr pool = .ok parsed ↔ Accepts pool attr parsed :=
  acceptedAt_iff pool (Nat.lt_succ_self _)

theorem parseItems_orderly (depth : Nat) (pool : List ConstantPoolEntry)
    (h : ∀ attr fault, parseNested depth attr pool = .error fault → fault.IsError) (n : Nat) :
    Orderly (parseNested.parseItems depth pool n) := by
  induction n with
  | zero =>
    rw [parseNested.parseItems]
    exact .pure []
  | succ n ih =>
    rw [parseNested.parseItems]
    apply AttributeInfo.orderly.bind
    intro raw
    apply Orderly.bind (m := StateT.lift (parseNested depth raw pool))
    · cases hr : parseNested depth raw pool with
      | error fault =>
        obtain ⟨e, rfl⟩ := h raw fault hr
        exact .throw e
      | ok parsed => exact .pure parsed
    · exact fun parsed => ih.map (parsed :: ·)

theorem getConst_error {pick : ConstantPoolEntry → Option α}
    (h : getConst variant pick pool idx targetName = .error fault) : fault.IsError := by
  rw [getConst] at h
  split at h
  · cases h
  · cases h
    exact ⟨_, rfl⟩

theorem parseNested_error (depth : Nat) (pool : List ConstantPoolEntry) (attr : AttributeInfo)
    (fault : Fault) (h : parseNested depth attr pool = .error fault) : fault.IsError := by
  induction depth generalizing attr fault with
  | zero =>
    rw [parseNested] at h
    cases h
    exact ⟨_, rfl⟩
  | succ depth ih =>
    cases hname : getUtf8 pool attr.attributeNameIndex "Attribute name" with
    | error fault' =>
      rw [parseNested, hname] at h
      cases h
      exact getConst_error hname
    | ok name =>
      by_cases hcode : name = "Code"
      · subst hcode
        rw [parseNested_code depth hname] at h
        have horderly : Orderly (codeReader depth pool) :=
          readU16_orderly.bind fun _ => readU16_orderly.bind fun _ => readU32_orderly.bind fun _ =>
            (decodeN_orderly readU8_orderly _).bind fun _ => readU16_orderly.bind fun _ =>
              (decodeN_orderly ExceptionTableEntry.orderly _).bind fun _ =>
                readU16_orderly.bind fun _ => (parseItems_orderly depth pool ih _).map _
        cases hread : codeReader depth pool attr.info with
        | error fault' =>
          rw [hread] at h
          cases h
          exact horderly.error _ _ hread
        | ok p =>
          rw [hread] at h
          cases h
      · rw [parseNested_unknown depth hname hcode] at h
        cases h

end JVMAttribute

/-- An input begins with the sections of one `Code` attribute at most. -/
theorem sections_unique (hs : CodeSections (Accepts pool) code bytes)
    (hs' : CodeSections (Accepts pool) code' bytes') (heq : bytes ++ rest = bytes' ++ rest') :
    code = code' ∧ bytes = bytes' := by
  have hdepth : ∀ raw : AttributeInfo, ∀ b : List UInt8, raw.info.length < b.length →
      b.length ≤ bytes.length + bytes'.length → ∀ parsed, Accepts pool raw parsed →
        JVMAttribute.AcceptedAt (bytes.length + bytes'.length) pool raw parsed := by
    intro raw b hraw hb parsed
    exact (JVMAttribute.acceptedAt_iff pool (by omega)).mpr
  have h₁ := hs.mono fun raw hraw => hdepth raw bytes hraw (by omega)
  have h₂ := hs'.mono fun raw hraw => hdepth raw bytes' hraw (by omega)
  obtain ⟨hcode, hbytes, -⟩ :=
    (JVMAttribute.codeReader_parses (bytes.length + bytes'.length) pool).unique
    ⟨code, rfl, h₁⟩ ⟨code', rfl, h₂⟩ heq
  cases hcode
  exact ⟨rfl, hbytes⟩

/-- A `Code` attribute is accepted exactly when its bytes begin with the sections. What is shorter
than them is an error, as is everything else. -/
theorem parse_code_iff
    (hname : getUtf8 pool attr.attributeNameIndex "Attribute name" = .ok "Code") :
    (∀ parsed, JVMAttribute.parse attr pool = .ok parsed ↔ ∃ code bytes rest, parsed = .code code ∧
      CodeSections (Accepts pool) code bytes ∧ attr.info = bytes ++ rest) ∧
    (∀ code bytes short, CodeSections (Accepts pool) code bytes → short <+: bytes →
      short ≠ bytes → ∃ e,
        JVMAttribute.parse ⟨attr.attributeNameIndex, short⟩ pool = .error (.error e)) ∧
    ∀ fault, JVMAttribute.parse attr pool = .error fault → fault.IsError := by
  have hiff : ∀ info parsed, JVMAttribute.parse ⟨attr.attributeNameIndex, info⟩ pool = .ok parsed ↔
      ∃ code bytes rest, parsed = .code code ∧ CodeSections (Accepts pool) code bytes ∧
        info = bytes ++ rest := by
    intro info parsed
    rw [JVMAttribute.parse_iff]
    constructor
    · intro ha
      cases ha with
      | unknown hname' hne =>
        cases hname.symm.trans hname'
        exact absurd rfl hne
      | code _ hs hinfo => exact ⟨_, _, _, rfl, hs, hinfo⟩
    · rintro ⟨code, bytes, rest, rfl, hs, hinfo⟩
      exact .code hname hs hinfo
  refine ⟨hiff attr.info, ?_, JVMAttribute.parseNested_error _ pool attr⟩
  rintro code bytes short hs ⟨missing, rfl⟩ hne
  cases hp : JVMAttribute.parse ⟨attr.attributeNameIndex, short⟩ pool with
  | error fault =>
    obtain ⟨e, rfl⟩ := JVMAttribute.parseNested_error _ pool _ fault hp
    exact ⟨e, rfl⟩
  | ok parsed =>
    obtain ⟨code', bytes', rest, -, hs', rfl⟩ := (hiff short parsed).mp hp
    have heq : (bytes' ++ rest ++ missing) ++ [] = bytes' ++ (rest ++ missing) := by
      rw [List.append_nil, List.append_assoc]
    obtain ⟨-, hbytes⟩ := sections_unique hs hs' heq
    have hlen := congrArg List.length hbytes
    simp only [List.length_append] at hlen
    have hnil : missing = [] := List.length_eq_zero_iff.mp (by omega)
    rw [hnil, List.append_nil] at hne
    exact absurd rfl hne

/-- A byte behind the sections is ignored. -/
theorem trailing_byte_accepted : ¬ ∀ pool attr parsed,
    getUtf8 pool attr.attributeNameIndex "Attribute name" = .ok "Code" →
      JVMAttribute.parse attr pool = .ok parsed →
        ∃ code, parsed = .code code ∧ CodeSections (Accepts pool) code attr.info := by
  intro h
  have hname : getUtf8 [.unusable, .utf8 "Code"] 1 "Attribute name" = .ok "Code" := rfl
  have hs : CodeSections (Accepts [.unusable, .utf8 "Code"]) ⟨0, 0, [], [], []⟩ (codeInfo 0 0 []) :=
    .mk (by decide) (by decide) (by decide) .nil
  have hparse : JVMAttribute.parse ⟨1, codeInfo 0 0 [] ++ [0]⟩ [.unusable, .utf8 "Code"] =
      .ok (.code ⟨0, 0, [], [], []⟩) :=
    (JVMAttribute.parse_iff _ _).mpr (.code hname hs rfl)
  obtain ⟨code, -, hs'⟩ := h _ _ _ hname hparse
  obtain ⟨-, hbytes⟩ := sections_unique hs' hs (List.append_nil _)
  exact absurd hbytes (by decide)

/-- In this attribute one is nested that has a byte behind its sections. -/
theorem nested_accepted : JVMAttribute.parse
    ⟨1, toBE 2 0 ++ (toBE 2 0 ++ (toBE 4 0 ++ (toBE 2 0 ++ (toBE 2 1 ++
      AttributeInfo.bytes ⟨1, codeInfo 0 0 [0xb1] ++ [0]⟩))))⟩ [.unusable, .utf8 "Code"] =
    .ok (.code ⟨0, 0, [], [], [.code ⟨0, 0, [0xb1], [], []⟩]⟩) := by
  have hname : getUtf8 [.unusable, .utf8 "Code"] 1 "Attribute name" = .ok "Code" := rfl
  have hinner : CodeSections (Accepts [.unusable, .utf8 "Code"]) ⟨0, 0, [0xb1], [], []⟩
      (codeInfo 0 0 [0xb1]) :=
    .mk (by decide) (by decide) (by decide) .nil
  have hnested : NestedAttributes (Accepts [.unusable, .utf8 "Code"])
      [.code ⟨0, 0, [0xb1], [], []⟩]
      (AttributeInfo.bytes ⟨1, codeInfo 0 0 [0xb1] ++ [0]⟩ ++ []) :=
    .cons (by decide) (.code hname hinner rfl) .nil
  have houter : CodeSections (Accepts [.unusable, .utf8 "Code"])
      ⟨0, 0, [], [], [.code ⟨0, 0, [0xb1], [], []⟩]⟩ _ :=
    .mk (by decide) (by decide) (by decide) hnested
  exact ((parse_code_iff hname).1 _).mpr ⟨_, _, [], rfl, houter, rfl⟩

end Janadinite
