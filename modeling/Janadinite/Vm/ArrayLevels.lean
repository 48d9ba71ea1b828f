import Janadinite.Vm.Allocation

namespace Janadinite
open Hoare
set_option autoImplicit true

theorem usizeOf_of_nonneg {i : Int32} (h : 0 ≤ i) : usizeOf i = i.toNatClampNeg := by
  have h' : (0 : Int64) ≤ i.toInt64 := by
    rw [Int64.le_iff_toInt_le, Int32.toInt_toInt64]
    exact Int32.le_iff_toInt_le.mp h
  rw [usizeOf, Int64.toNat_toUInt64_of_le h', Int32.toNatClampNeg_toInt64]

theorem usizeOf_of_neg {i : Int32} (h : i < 0) :
    2 ^ 64 - 2 ^ 31 ≤ usizeOf i ∧ usizeOf i < 2 ^ 64 := by
  have h' : i.toInt < 0 := Int32.lt_iff_toInt_lt.mp h
  have hmin := i.le_toInt
  have hc := BitVec.toInt_eq_toNat_cond i.toInt64.toBitVec
  have hi : i.toInt64.toBitVec.toInt = i.toInt := Int32.toInt_toInt64 i
  have hlt := i.toInt64.toBitVec.isLt
  change 2 ^ 64 - 2 ^ 31 ≤ i.toInt64.toBitVec.toNat ∧ i.toInt64.toBitVec.toNat < 2 ^ 64
  split at hc <;> omega

theorem NonZeroU16.pos (n : NonZeroU16) : 0 < n.val.toNat := by
  apply Nat.pos_of_ne_zero
  intro h
  exact n.ne_zero (UInt16.toNat_inj.mp h)

/-- The slots of an array of a length that is not negative fit in a boxed slice. -/
theorem slots_of_nonneg (p : Profile) (h : 0 ≤ len) (size : NonZeroU16) :
    p.mul 64 (usizeOf len) size.val.toNat = .ok (len.toNatClampNeg * size.val.toNat) ∧
    newData (len.toNatClampNeg * size.val.toNat) =
      pure (List.replicate (len.toNatClampNeg * size.val.toNat) .null) := by
  have hlt : len.toNatClampNeg * size.val.toNat < 2 ^ 31 * 2 ^ 16 :=
    Nat.mul_lt_mul'' len.toNatClampNeg_lt size.val.toNat_lt
  rw [usizeOf_of_nonneg h]
  exact ⟨if_pos (Nat.lt_trans hlt (by decide)), if_pos (by omega)⟩

/-- A negative length is too much for a boxed slice, also when the size wraps around. -/
theorem slots_of_neg {p : Profile} {len : Int32} (h : len < 0) {size : NonZeroU16}
    (hm : p.mul 64 (usizeOf len) size.val.toNat = .ok n) : 2 ^ 63 ≤ n * 8 := by
  obtain ⟨hle, hlt⟩ := usizeOf_of_neg h
  have hpos := size.pos
  have hsize : size.val.toNat < 2 ^ 16 := size.val.toNat_lt
  rw [Profile.mul] at hm
  split at hm
  · cases hm
    have hn := Nat.le_mul_of_pos_right (usizeOf len) hpos
    omega
  · split at hm
    · cases hm
    · cases hm
      obtain ⟨k, hk⟩ := Nat.exists_eq_add_of_le (Nat.le_of_lt hlt)
      have hkpos : 0 < k * size.val.toNat := Nat.mul_pos (by omega) hpos
      have hksize : k * size.val.toNat ≤ 2 ^ 31 * 2 ^ 16 :=
        Nat.mul_le_mul (by omega) (Nat.le_of_lt hsize)
      have hsum : usizeOf len * size.val.toNat + k * size.val.toNat =
          2 ^ 64 * size.val.toNat := by
        rw [← Nat.add_mul, ← hk]
      omega

theorem newArray_eq (p : Profile) (h : 0 ≤ len) (size : NonZeroU16) (s : Store) :
    BareObject.newArray p (usizeOf len) size s =
      .ok ⟨.array size, List.replicate (len.toNatClampNeg * size.val.toNat) .null⟩ s := by
  obtain ⟨hmul, hdata⟩ := slots_of_nonneg p h size
  rw [BareObject.newArray, hmul]
  change (newData (len.toNatClampNeg * size.val.toNat) >>= fun data => _ : VM Store _) s = _
  rw [hdata]
  rfl

theorem newArray_negative (p : Profile) (h : len < 0) (size : NonZeroU16) (s : Store) :
    ∃ msg, BareObject.newArray p (usizeOf len) size s = .error (.panic msg) s := by
  rw [BareObject.newArray]
  cases hm : p.mul 64 (usizeOf len) size.val.toNat with
  | error msg => exact ⟨msg, rfl⟩
  | ok n =>
    have hle := slots_of_neg h hm
    have hdata : newData n = panicWith "capacity overflow" := if_neg (by omega)
    change ∃ msg, (newData n >>= fun data => _ : VM Store _) s = _
    rw [hdata]
    exact ⟨_, rfl⟩

/-- An array of so many lengths, with the arrays in it level by level. The arrays of a level have
the same slots. -/
inductive ArrayLevels (s : Store) (size : NonZeroU16) :
    List Int32 → BareObject → List (List Addr) → Prop
  | leaf : 0 ≤ n → ArrayLevels s size [n]
      ⟨.array size, List.replicate (n.toNatClampNeg * size.val.toNat) .null⟩ []
  | empty : counts ≠ [] → ArrayLevels s size (0 :: counts) ⟨.array .one, []⟩ []
  | fill : 0 < n → ArrayLevels s size counts child levels → as.length = n.toNatClampNeg →
      (as ++ levels.flatten).Nodup →
      (∀ a ∈ as, a.Fits ∧ ∃ strong, s.memory a = some ⟨strong, 0, child.kind, child.data⟩) →
      ArrayLevels s size (n :: counts) ⟨.array .one, as.map .fromObject⟩ (as :: levels)

namespace ArrayLevels

variable {s s' : Store} {size : NonZeroU16} {obj : BareObject} {levels : List (List Addr)}

theorem counts_ne_nil (h : ArrayLevels s size counts obj levels) : counts ≠ [] := by
  cases h <;> exact List.cons_ne_nil _ _

theorem allocated (h : ArrayLevels s size counts obj levels) (ha : a ∈ levels.flatten) :
    a.Fits ∧ ∃ o, s.memory a = some o := by
  induction h with
  | leaf => cases ha
  | empty => cases ha
  | fill _ _ _ _ hm ih =>
    rw [List.flatten_cons] at ha
    rcases List.mem_append.mp ha with ha | ha
    · obtain ⟨hf, strong, ho⟩ := hm a ha
      exact ⟨hf, _, ho⟩
    · exact ih ha

theorem nodup (h : ArrayLevels s size counts obj levels) : levels.flatten.Nodup := by
  cases h with
  | leaf => exact .nil
  | empty => exact .nil
  | fill _ _ _ hn _ => exact hn

theorem ne_nil (h : ArrayLevels s size counts obj levels) : ∀ level ∈ levels, level ≠ [] := by
  induction h with
  | leaf => exact fun _ hl => nomatch hl
  | empty => exact fun _ hl => nomatch hl
  | fill hpos _ hlen _ _ ih =>
    intro level hl
    rcases List.mem_cons.mp hl with rfl | hl
    · rintro rfl
      exact Nat.ne_of_lt ((Int32.toNatClampNeg_pos_iff _).mpr hpos) hlen
    · exact ih level hl

/-- Only what is in memory matters, and not the counts there. -/
theorem grows (h : ArrayLevels s size counts obj levels)
    (hg : ∀ a o, s.memory a = some o → ∃ strong, s'.memory a = some { o with strong }) :
    ArrayLevels s' size counts obj levels := by
  induction h with
  | leaf hn => exact .leaf hn
  | empty hc => exact .empty hc
  | fill hpos _ hlen hn hm ih =>
    refine .fill hpos ih hlen hn fun a ha => ?_
    obtain ⟨hf, strong, ho⟩ := hm a ha
    obtain ⟨strong', ho'⟩ := hg a _ ho
    exact ⟨hf, strong', ho'⟩

end ArrayLevels

theorem refs_map_fromObject {as : List Addr} (h : ∀ a ∈ as, a.Fits) :
    refs (as.map .fromObject) = as := by
  induction as with
  | nil => rfl
  | cons a as ih =>
    rw [List.map_cons, refs_cons, JVMSlot.object?_fromObject (h a List.mem_cons_self),
      ih fun b hb => h b (List.mem_cons_of_mem _ hb)]
    rfl

/-- What a new array refers to is the first level of the arrays in it. -/
theorem ArrayLevels.refs_eq {s : Store} (h : ArrayLevels s size counts obj levels) :
    refs obj.data = levels.headD [] := by
  cases h with
  | leaf => exact refs_replicate_null _
  | empty => rfl
  | fill _ _ _ _ hm => exact refs_map_fromObject fun a ha => (hm a ha).1

/-- The array made by the rounds so far: nothing else refers to the arrays in it. -/
inductive Laid (s : Store) (size : NonZeroU16) : List Int32 → Option BareObject → Prop
  | start : Laid s size [] none
  | made : ArrayLevels s size counts obj levels →
      (∀ a ∈ refs obj.data, ∃ o, s.memory a = some o ∧ o.strong = 2) →
      Laid s size counts (some obj)

structure Store.Locked (s : Store) : Prop where
  locked : s.locked = true
  poisoned : s.poisoned = false

theorem Store.Locked.grows {s s' : Store} (h : s.Locked) (hg : s.Grows s') : s'.Locked :=
  ⟨hg.locked.trans h.locked, hg.poisoned.trans h.poisoned⟩

theorem dropSlots_null (p : Profile) (h : refs slots = []) (s : Store) :
    dropSlots p slots s = .ok ⟨⟩ s := by
  induction slots with
  | nil => rfl
  | cons slot slots ih =>
    rw [refs_cons] at h
    obtain ⟨hs, h⟩ := List.append_eq_nil_iff.mp h
    rw [dropSlots, dropSlot, Option.toList_eq_nil_iff.mp hs]
    exact ih h

theorem dropSlots_deadlock (p : Profile) {s : Store} (hl : s.Locked) (h : refs slots ≠ [])
    (h2 : ∀ a ∈ refs slots, ∃ o, s.memory a = some o ∧ o.strong = 2) :
    dropSlots p slots s = .error .deadlock s := by
  induction slots with
  | nil => exact absurd rfl h
  | cons slot slots ih =>
    rw [refs_cons] at h h2
    rw [dropSlots, dropSlot]
    cases hs : slot.object? with
    | none =>
      rw [hs] at h h2
      exact ih h h2
    | some a =>
      rw [hs] at h2
      obtain ⟨o, ho, hstrong⟩ := h2 a List.mem_cons_self
      have hd : dropRefs p (s.heldRefs + 1) [a] s = .error .deadlock s :=
        bind_error _ (dropOnce_deadlock ho hstrong hl.poisoned hl.locked)
      have hr : dropRef p a s = .error .deadlock s := hd
      exact bind_error _ hr

theorem Laid.dropLast_null {s : Store} (h : heldBy last = []) (p : Profile) :
    dropLast p last s = .ok ⟨⟩ s := by
  cases last with
  | none => rfl
  | some old => exact dropSlots_null p h s

theorem Laid.dropLast_deadlock {s : Store} (h : Laid s size counts last) (hl : s.Locked)
    (hh : heldBy last ≠ []) (p : Profile) : dropLast p last s = .error .deadlock s := by
  cases h with
  | start => exact absurd rfl hh
  | made _ h2 => exact dropSlots_deadlock p hl hh h2

theorem newDimension_ok (last : Option BareObject)
    (h : BareObject.newArray p count size s = .ok obj s') :
    newDimension p last count size s = .ok obj s' := by
  rw [newDimension, h]

theorem newDimension_panic (last : Option BareObject)
    (h : BareObject.newArray p count size s = .error (.panic msg) s') :
    newDimension p last count size s = (do
      dropLast p last
      panicWith msg : VM Store BareObject) s' := by
  rw [newDimension, h]

/-- What a round leaves. -/
structure Round (s : Store) (p : Profile) (size : NonZeroU16) (counts : List Int32)
    (last : Option BareObject) (len : Int32) (obj : BareObject) (s' : Store) : Prop where
  laid : Laid s' size (len :: counts) (some obj)
  locked : s'.Locked
  kept : ∀ a o, s.memory a = some o → a ∉ heldBy last → s'.memory a = some o
  room : ∀ m, s.Room p (m + len.toNatClampNeg) → s'.Room p m
  nonneg : 0 ≤ len
  zero : len = 0 → heldBy last = []
  holds : refs obj.data ≠ [] ↔ last.isSome ∧ len ≠ 0

/-- A round fails with a deadlock when it drops references, else for a negative length or for want
of room. -/
def RoundFails (s : Store) (p : Profile) (last : Option BareObject) (len : Int32) (e : Stop) :
    Prop :=
  (e = .deadlock ∧ heldBy last ≠ [] ∧ len ≤ 0) ∨
  (e ≠ .deadlock ∧ ((heldBy last = [] ∧ len < 0) ∨ ¬ s.Room p len.toNatClampNeg))

theorem addDimension_zero (p : Profile) {s : Store} (h : Laid s size counts last)
    (hl : s.Locked) :
    Ends (Round s p size counts last 0) (fun e _ => RoundFails s p last 0 e)
      (addDimension p last 0 (if last.isNone then size else .one) s) := by
  have hn := newArray_eq p (Int32.le_refl 0) (if last.isNone then size else .one) s
  change BareObject.newArray p 0 _ s = .ok ⟨_, List.replicate (0 * _) .null⟩ s at hn
  rw [Nat.zero_mul] at hn
  rw [addDimension, if_pos rfl, bind_eq _ hn]
  by_cases hh : heldBy last = []
  · rw [bind_eq _ (Laid.dropLast_null hh p)]
    refine ⟨?_, hl, fun _ _ ho _ => ho, fun m hr => hr, Int32.le_refl 0, fun _ => hh, ?_⟩
    · cases h with
      | start =>
        have hleaf : ArrayLevels s size [0]
            ⟨.array size, List.replicate (0 * size.val.toNat) .null⟩ [] := .leaf (Int32.le_refl 0)
        rw [Nat.zero_mul] at hleaf
        exact .made hleaf fun _ ha => (nomatch ha)
      | made hb _ => exact .made (.empty hb.counts_ne_nil) fun _ ha => (nomatch ha)
    · exact ⟨fun h => absurd rfl h, fun h => absurd rfl h.2⟩
  · rw [bind_error _ (h.dropLast_deadlock hl hh p)]
    exact .inl ⟨rfl, hh, Int32.le_refl 0⟩

theorem addDimension_negative (p : Profile) {s : Store} (h : Laid s size counts last)
    (hl : s.Locked) (hlen : len < 0) (size' : NonZeroU16) :
    Ends (Round s p size counts last len) (fun e _ => RoundFails s p last len e)
      (addDimension p last len size' s) := by
  obtain ⟨msg, hn⟩ := newArray_negative p hlen size' s
  have hne := Int32.ne_of_lt hlen
  have hd := newDimension_panic last hn
  rw [addDimension, if_neg hne]
  by_cases hh : heldBy last = []
  · rw [bind_eq _ (Laid.dropLast_null hh p)] at hd
    rw [bind_error _ hd]
    exact .inr ⟨fun h => (nomatch h), .inl ⟨hh, hlen⟩⟩
  · rw [bind_error _ (h.dropLast_deadlock hl hh p)] at hd
    rw [bind_error _ hd]
    exact .inl ⟨rfl, hh, Int32.le_of_lt hlen⟩

theorem addDimension_leaf (p : Profile) {s : Store} (hl : s.Locked) (hlen : 0 < len) :
    Ends (Round s p size [] none len) (fun e _ => RoundFails s p none len e)
      (addDimension p none len size s) := by
  have hle := Int32.le_of_lt hlen
  rw [addDimension, if_neg (Int32.ne_of_lt hlen).symm,
    bind_eq _ (newDimension_ok none (newArray_eq p hle size s))]
  have hleaf : ArrayLevels s size [len] _ [] := .leaf hle
  have hnil := hleaf.refs_eq
  refine ⟨.made hleaf fun a ha => ?_, hl, fun _ _ ho _ => ho,
    fun m hr => hr.mono (Nat.le_add_right m _), hle, fun _ => rfl, ?_⟩
  · rw [hnil] at ha
    cases ha
  · exact ⟨fun h => absurd hnil h, fun h => (nomatch h.1)⟩

theorem ArrayLevels.clonable {s : Store} (h : ArrayLevels s size counts obj levels)
    (h2 : ∀ a ∈ refs obj.data, ∃ o, s.memory a = some o ∧ o.strong = 2) (hn : n < 2 ^ 31) :
    s.Clonable n obj.data := by
  intro a ha
  obtain ⟨o, ho, hstrong⟩ := h2 a ha
  have hmem : a ∈ levels.flatten := by
    rw [h.refs_eq] at ha
    cases levels with
    | nil => cases ha
    | cons level levels => exact List.mem_append_left _ ha
  refine ⟨(h.allocated hmem).1, o, ho, ?_⟩
  rw [hstrong, maxRefcount]
  omega

theorem ArrayLevels.refs_nodup {s : Store} (h : ArrayLevels s size counts obj levels) :
    (refs obj.data).Nodup := by
  rw [h.refs_eq]
  have hn := h.nodup
  cases levels with
  | nil => exact .nil
  | cons level levels => exact (List.nodup_append.mp hn).1

theorem ArrayLevels.made {s s' : Store} (h : ArrayLevels s size counts child levels)
    (hm : s.Made s' child as) (hpos : 0 < len) (hlen : as.length = len.toNatClampNeg) :
    ArrayLevels s' size (len :: counts) ⟨.array .one, as.map .fromObject⟩ (as :: levels) := by
  refine .fill hpos (h.grows hm.grows.memory) hlen ?_ ?_
  · refine List.nodup_append.mpr ⟨hm.nodup, h.nodup, ?_⟩
    rintro a ha b hb rfl
    obtain ⟨_, o, ho⟩ := h.allocated hb
    cases (hm.fresh a ha).symm.trans ho
  · exact fun a ha => ⟨(hm.memory a ha).1, 2, (hm.memory a ha).2⟩

theorem addDimension_fill (p : Profile) {s : Store} (h : Laid s size counts (some child))
    (hl : s.Locked) (hlen : 0 < len) :
    Ends (Round s p size counts (some child) len) (fun e _ => RoundFails s p (some child) len e)
      (addDimension p (some child) len .one s) := by
  cases h with
  | made hb h2 =>
    have hle := Int32.le_of_lt hlen
    have hne := (Int32.ne_of_lt hlen).symm
    have hpos : 0 < len.toNatClampNeg := (Int32.toNatClampNeg_pos_iff len).mpr hlen
    obtain ⟨n, hn⟩ := Nat.exists_eq_succ_of_ne_zero (Nat.ne_of_gt hpos)
    have hmax := len.toNatClampNeg_lt
    have hlength : (List.replicate (len.toNatClampNeg * NonZeroU16.one.val.toNat)
        JVMSlot.null).length = n + 1 := by
      rw [List.length_replicate, hn]
      exact Nat.mul_one _
    rw [addDimension, if_neg hne,
      bind_eq _ (newDimension_ok (some child) (newArray_eq p hle .one s))]
    change Ends _ _ ((fillArray p child (List.replicate (len.toNatClampNeg *
      NonZeroU16.one.val.toNat) JVMSlot.null).length >>= fun data => _ : VM Store _) s)
    rw [hlength]
    apply Ends.bind ((fillArray_ends p hb.refs_nodup (hb.clonable h2 (by omega))).mono
      (fun _ _ h => h) ?_)
    · rintro slots s' - ⟨as, rfl, hlen', hmade, hr⟩
      have hnew := hb.made hmade hlen (hlen'.trans hn.symm)
      refine ⟨.made hnew ?_, hl.grows hmade.grows, hmade.kept, ?_, hle, fun h => absurd h hne, ?_⟩
      · intro a ha
        rw [hnew.refs_eq] at ha
        exact ⟨_, (hmade.memory a ha).2, rfl⟩
      · rw [hn]
        exact hr
      · rw [hnew.refs_eq]
        refine ⟨fun _ => ⟨rfl, hne⟩, fun _ has => ?_⟩
        change as = [] at has
        rw [has] at hlen'
        cases hlen'
    · intro e s' he
      refine .inr ⟨he.1, .inr ?_⟩
      rw [hn]
      exact he.2

theorem addDimension_ends (p : Profile) {s : Store} (h : Laid s size counts last)
    (hl : s.Locked) (len : Int32) :
    Ends (Round s p size counts last len) (fun e _ => RoundFails s p last len e)
      (addDimension p last len (if last.isNone then size else .one) s) := by
  by_cases hz : len = 0
  · rw [hz]
    exact addDimension_zero p h hl
  · rcases Int32.lt_or_lt_of_ne hz with hlen | hlen
    · exact addDimension_negative p h hl hlen _
    · cases h with
      | start => exact addDimension_leaf p hl hlen
      | made hb h2 => exact addDimension_fill p (.made hb h2) hl hlen

end Janadinite
