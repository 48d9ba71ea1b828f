import Janadinite.Lib.Paths
import Janadinite.Vm.Multiarray

namespace Janadinite
open Hoare
set_option autoImplicit true

namespace Store

/-- The array that an element of an array refers to. -/
def element? (s : Store) (a : Addr) (i : Nat) : Option Addr :=
  (s.memory a).bind fun o => o.data[i]?.bind JVMSlot.object?

/-- Different index paths lead to different arrays. -/
def IsTree (s : Store) (a : Addr) : Prop := Paths.Unique s.element? a

theorem element?_eq {s : Store} (h : s.memory a = some o) (i : Nat) :
    s.element? a i = o.data[i]?.bind JVMSlot.object? := by
  rw [element?, h, Option.bind_some]

end Store

/-- Every count with two more after it is one, up to the first zero. -/
def Narrow (counts : List Int32) : Prop :=
  ∀ j, j + 2 < counts.length → 0 ∉ counts.take (j + 2) → counts[j]? = some 1

theorem narrow_cons : Narrow (n :: m :: k :: counts) ↔
    n = 0 ∨ m = 0 ∨ (n = 1 ∧ Narrow (m :: k :: counts)) := by
  constructor
  · intro h
    by_cases hn : n = 0
    · exact .inl hn
    by_cases hm : m = 0
    · exact .inr (.inl hm)
    refine .inr (.inr ⟨?_, fun j hj hz => ?_⟩)
    · have h0 := h 0 (by simp) (by simp [Ne.symm hn, Ne.symm hm])
      exact Option.some.inj h0
    · apply h (j + 1) (Nat.succ_lt_succ hj)
      rw [List.take_succ_cons, List.mem_cons]
      exact fun h => h.elim (Ne.symm hn) hz
  · rintro (rfl | rfl | ⟨rfl, h⟩) j hj hz
    · exact absurd List.mem_cons_self hz
    · exact absurd (List.mem_cons_of_mem _ List.mem_cons_self) hz
    · cases j with
      | zero => rfl
      | succ j =>
        rw [List.take_succ_cons, List.mem_cons] at hz
        exact h j (Nat.lt_of_succ_lt_succ hj) fun h0 => hz (.inr h0)

theorem narrow_zero (n : Int32) (counts : List Int32) :
    Narrow (0 :: counts) ∧ Narrow (n :: 0 :: counts) := by
  cases counts with
  | nil => exact ⟨fun _ hj _ => absurd hj (by simp), fun _ hj _ => absurd hj (by simp)⟩
  | cons m counts =>
    refine ⟨?_, narrow_cons.mpr (.inr (.inl rfl))⟩
    cases counts with
    | nil => exact fun _ hj _ => absurd hj (by simp)
    | cons k counts => exact narrow_cons.mpr (.inl rfl)

theorem narrow_short (h : counts.length ≤ 2) : Narrow counts :=
  fun _ hj _ => absurd hj (by omega)

theorem toNatClampNeg_le_one {n : Int32} (h : 0 < n) : n.toNatClampNeg ≤ 1 ↔ n = 1 := by
  have hpos : (0 : Int32).toInt < n.toInt := Int32.lt_iff_toInt_lt.mp h
  constructor
  · intro hle
    apply Int32.toInt_inj.mp
    change Int.toNat _ ≤ 1 at hle
    change (0 : Int) < _ at hpos
    change _ = (1 : Int)
    omega
  · rintro rfl
    exact Nat.le_refl 1

namespace ArrayLevels

variable {s : Store} {size : NonZeroU16} {obj : BareObject} {levels : List (List Addr)}

theorem element?_eq (h : ArrayLevels s size counts obj levels)
    (ho : s.memory a = some ⟨strong, 0, obj.kind, obj.data⟩) (i : Nat) :
    s.element? a i = (levels.headD [])[i]? := by
  rw [Store.element?_eq ho]
  cases h with
  | leaf =>
    change (List.replicate _ JVMSlot.null)[i]?.bind _ = none
    rw [List.getElem?_replicate]
    split
    · exact JVMSlot.object?_null
    · rfl
  | empty => rfl
  | @fill n counts child levels as _ _ _ _ hm =>
    change (as.map JVMSlot.fromObject)[i]?.bind _ = as[i]?
    rw [List.getElem?_map]
    cases ha : as[i]? with
    | none => rfl
    | some b => exact JVMSlot.object?_fromObject (hm b (List.mem_of_getElem? ha)).1

theorem layered (h : ArrayLevels s size counts obj levels) :
    Paths.Layered s.element? levels := by
  induction h with
  | leaf => exact trivial
  | empty => exact trivial
  | fill _ h' _ _ hm ih =>
    refine ⟨fun a ha i => ?_, ih⟩
    obtain ⟨_, strong, ho⟩ := hm a ha
    exact h'.element?_eq ho i

theorem narrow_iff (h : ArrayLevels s size counts obj levels) :
    (∀ level ∈ levels.dropLast, level.length ≤ 1) ↔ Narrow counts := by
  induction h with
  | leaf => exact ⟨fun _ => narrow_short (by simp), fun _ _ hl => (nomatch hl)⟩
  | empty => exact ⟨fun _ => (narrow_zero 0 _).1, fun _ _ hl => (nomatch hl)⟩
  | fill hpos h' hlen _ _ ih =>
    cases h' with
    | leaf => exact ⟨fun _ => narrow_short (by simp), fun _ _ hl => (nomatch hl)⟩
    | empty => exact ⟨fun _ => (narrow_zero _ _).2, fun _ _ hl => (nomatch hl)⟩
    | fill hpos' h'' =>
      obtain ⟨k, counts, rfl⟩ := List.exists_cons_of_ne_nil h''.counts_ne_nil
      rw [narrow_cons, ← ih, List.dropLast_cons_cons, List.forall_mem_cons, hlen,
        toNatClampNeg_le_one hpos]
      refine ⟨fun h => .inr (.inr h), ?_⟩
      rintro (rfl | rfl | h)
      · exact absurd hpos Int32.lt_irrefl
      · exact absurd hpos' Int32.lt_irrefl
      · exact h

/-- The arrays are a tree exactly when the counts are narrow: the arrays of a level share theirs. -/
theorem isTree_iff (h : ArrayLevels s size counts obj levels) (ha : a ∉ levels.flatten)
    (ho : s.memory a = some ⟨strong, 0, obj.kind, obj.data⟩) : s.IsTree a ↔ Narrow counts := by
  have hl : Paths.Layered s.element? ([a] :: levels) := by
    refine ⟨fun b hb i => ?_, h.layered⟩
    rw [List.mem_singleton.mp hb]
    exact h.element?_eq ho i
  rw [← h.narrow_iff]
  exact hl.unique_iff (List.nodup_cons.mpr ⟨ha, h.nodup⟩) h.ne_nil

end ArrayLevels

theorem allocateMultiarray_ok (h : r.store.Owned roots) (ho : Offers r.context rest d counts)
    (hret : allocateMultiarray p d size r = .ok a r') : Returned r size counts rest d a r' := by
  obtain ⟨⟨⟩, r₁, hstore, _⟩ := bind_ok hret
  obtain ⟨s, hlock, rfl⟩ := onStore_ok hstore
  have hown : r.store.Owned (refs (counts.map .fromI32) ++ roots) := by
    rwa [refs_counts]
  have hends := allocateMultiarray_ends p size hown hlock (offers_iff.mp ho)
  rw [hret, asI32_counts] at hends
  exact hends.1

/-- The array that a call returns is a tree exactly when the counts are narrow. -/
theorem allocateMultiarray_tree_iff {r r' : Runtime} (h : r.store.Owned roots)
    (ho : Offers r.context rest d counts) (hret : allocateMultiarray p d size r = .ok a r') :
    r'.store.IsTree a ↔ Narrow counts := by
  obtain ⟨obj, levels, hb, ha, hmem⟩ := (allocateMultiarray_ok h ho hret).array
  exact hb.isTree_iff ha hmem

/-- Two arrays of one array each have this one in common. -/
theorem twoRows_share : ∃ a r', allocateMultiarray ⟨true⟩ 3 .one (withCounts [2, 1, 1]) = .ok a r' ∧
    Paths.follow r'.store.element? a [0, 0] = some 8 ∧
    Paths.follow r'.store.element? a [1, 0] = some 8 := by
  apply Ends.returns
  decide +kernel

theorem oneRow_isTree : ∃ a r', allocateMultiarray ⟨true⟩ 3 .one (withCounts [1, 2, 3]) = .ok a r' ∧
    r'.store.IsTree a := by
  obtain ⟨a, r', hret, _⟩ : ∃ a r',
      allocateMultiarray ⟨true⟩ 3 .one (withCounts [1, 2, 3]) = .ok a r' ∧ True :=
    Ends.returns (by decide +kernel)
  have hnarrow : Narrow [1, 2, 3] :=
    narrow_cons.mpr (.inr (.inr ⟨rfl, narrow_short (Nat.le_refl 2)⟩))
  have ho : Offers (withCounts [1, 2, 3]).context [] 3 [1, 2, 3] := withCounts_offers [1, 2, 3]
  exact ⟨a, r', hret, (allocateMultiarray_tree_iff (withCounts_owned _) ho hret).mpr hnarrow⟩

/-- An array with so many elements of this size. -/
def Store.IsArray (s : Store) (a : Addr) (size : NonZeroU16) (n : Int32) : Prop :=
  0 ≤ n ∧ ∃ o, s.memory a = some o ∧ o.kind = .array size ∧
    o.data.length = n.toNatClampNeg * size.val.toNat

/-- `ArrayLength` of a reference to the array pushes the number, before it drops the reference. -/
def LengthIs (p : Profile) (s : Store) (a : Addr) (n : Int32) : Prop :=
  ∀ (r : Runtime) (rest : List JVMSlot), r.store = s → r.context.stack = rest ++ [.fromObject a] →
    r.context.currentFrame.stackStart ≤ rest.length →
    arrayLength p r = (do
      onStore (dropRef p a)
      pure .next : VM Runtime Outcome)
        { r with context := { r.context with stack := rest ++ [.fromI32 n] } }

/-- An array of arrays of these lengths. The innermost ones have elements of the size `leaf`. -/
def ArrayOf (p : Profile) (s : Store) (leaf : NonZeroU16) : List Int32 → Addr → Prop
  | [], _ => True
  | [n], a => s.IsArray a leaf n ∧ LengthIs p s a n
  | n :: m :: counts, a => s.IsArray a .one n ∧ LengthIs p s a n ∧
    ∀ i < n.toNatClampNeg, ∃ b, s.element? a i = some b ∧ ArrayOf p s leaf (m :: counts) b

theorem Store.IsArray.lengthIs {s : Store} (h : s.IsArray a size n) (hf : a.Fits) (p : Profile) :
    LengthIs p s a n := by
  obtain ⟨hn, o, ho, hk, hlen⟩ := h
  rintro r rest rfl hstack hstart
  have hp : ThreadContext.popSlotOr r =
      .ok (.fromObject a) { r with context := { r.context with stack := rest } } := by
    rw [ThreadContext.popSlotOr, bind_eq _ (popSlot_concat hstack hstart)]
    rfl
  have ha : ThreadContext.apop r =
      .ok a { r with context := { r.context with stack := rest } } := by
    rw [ThreadContext.apop, bind_eq _ hp, JVMSlot.object?_fromObject hf]
    rfl
  have hd : onStore (deref a) { r with context := { r.context with stack := rest } } =
      .ok o { r with context := { r.context with stack := rest } } :=
    onStore_eq (deref_eq ho)
  have hcount : Int32.ofNat (o.data.length / size.val.toNat) = n := by
    rw [hlen, Nat.mul_div_cancel _ size.pos, Int32.ofNat_toNatClampNeg n hn]
  rw [arrayLength, bind_eq _ ha, bind_eq _ hd, hk, ← hcount]
  rfl

theorem ArrayLevels.arrayOf {s : Store} (h : ArrayLevels s size counts obj levels) (p : Profile)
    (hf : a.Fits) (ho : s.memory a = some ⟨strong, 0, obj.kind, obj.data⟩) :
    ArrayOf p s size counts a := by
  induction h generalizing a strong with
  | leaf hn =>
    have ha : s.IsArray a size _ := ⟨hn, _, ho, rfl, List.length_replicate⟩
    exact ⟨ha, ha.lengthIs hf p⟩
  | @empty counts hne =>
    obtain ⟨m, counts, rfl⟩ := List.exists_cons_of_ne_nil hne
    have ha : s.IsArray a .one 0 := ⟨Int32.le_refl 0, _, ho, rfl, rfl⟩
    exact ⟨ha, ha.lengthIs hf p, fun i hi => absurd hi (Nat.not_lt_zero i)⟩
  | @fill n counts child levels as hpos h' hlen hn hm ih =>
    have hlevel := (ArrayLevels.fill hpos h' hlen hn hm).element?_eq ho
    have ha : s.IsArray a .one n := by
      refine ⟨Int32.le_of_lt hpos, _, ho, rfl, ?_⟩
      rw [List.length_map, hlen]
      exact (Nat.mul_one _).symm
    obtain ⟨m, counts, rfl⟩ := List.exists_cons_of_ne_nil h'.counts_ne_nil
    refine ⟨ha, ha.lengthIs hf p, fun i hi => ?_⟩
    rw [← hlen] at hi
    obtain ⟨hfb, strong, hb⟩ := hm as[i] (List.getElem_mem hi)
    exact ⟨as[i], (hlevel i).trans (List.getElem?_eq_getElem hi), ih hfb hb⟩

/-- The element size of the innermost arrays can be told unless there are none. -/
theorem ArrayOf.leaf_iff {s : Store} (h : ArrayOf p s size counts a) (hne : counts ≠ []) :
    ArrayOf p s leaf counts a ↔ leaf = size ∨ 0 ∈ counts.dropLast := by
  induction counts generalizing a with
  | nil => exact absurd rfl hne
  | cons n counts ih =>
    cases counts with
    | nil =>
      obtain ⟨⟨hn, o, ho, hk, hlen⟩, hl⟩ := h
      constructor
      · rintro ⟨⟨_, o', ho', hk', _⟩, _⟩
        cases ho.symm.trans ho'
        exact .inl (ObjectKind.array.inj (hk'.symm.trans hk))
      · rintro (rfl | h)
        · exact ⟨⟨hn, o, ho, hk, hlen⟩, hl⟩
        · cases h
    | cons m counts =>
      obtain ⟨ha, hl, hchild⟩ := h
      rw [List.dropLast_cons_cons, List.mem_cons]
      constructor
      · rintro ⟨_, _, hchild'⟩
        by_cases hz : n = 0
        · exact .inr (.inl hz.symm)
        · have hpos := (Int32.toNatClampNeg_pos_iff _).mpr (Int32.lt_of_le_of_ne ha.1 (Ne.symm hz))
          obtain ⟨b, hb, hsub⟩ := hchild 0 hpos
          obtain ⟨b', hb', hsub'⟩ := hchild' 0 hpos
          cases hb.symm.trans hb'
          exact ((ih hsub (List.cons_ne_nil m counts)).mp hsub').imp_right .inr
      · intro h
        refine ⟨ha, hl, fun i hi => ?_⟩
        obtain ⟨b, hb, hsub⟩ := hchild i hi
        refine ⟨b, hb, (ih hsub (List.cons_ne_nil m counts)).mpr ?_⟩
        rcases h with h | rfl | h
        · exact .inl h
        · exact absurd hi (Nat.not_lt_zero i)
        · exact .inr h

def ClassOrArray.dimensions : ClassOrArray → Nat
  | .class _ => 0
  | .primitiveArray dimensions _ => dimensions.val.toNat
  | .classArray dimensions _ => dimensions.val.toNat

def ClassOrArray.isWide : ClassOrArray → Bool
  | .primitiveArray _ .long => true
  | .primitiveArray _ .double => true
  | _ => false

/-- The size of the elements of an array of the class with `d` dimensions made. -/
def ClassOrArray.leafSize (found : ClassOrArray) (d : Nat) : NonZeroU16 :=
  if d = found.dimensions ∧ found.isWide then .two else .one

/-- The size that `MultiANewArray` passes on, for the elements of arrays in any depth. -/
def ClassOrArray.slotCount : ClassOrArray → NonZeroU16
  | .class _ => .one
  | .classArray _ _ => .one
  | .primitiveArray _ ty => ty.slotCount

theorem ClassOrArray.leafSize_eq_iff (found : ClassOrArray) (d : Nat) :
    found.leafSize d = found.slotCount ↔ d = found.dimensions ∨ found.isWide = false := by
  have hs : found.slotCount = if found.isWide then .two else .one := by
    cases found with
    | primitiveArray _ ty => cases ty <;> rfl
    | _ => rfl
  rw [hs, leafSize]
  cases found.isWide with
  | false => simp
  | true =>
    by_cases hd : d = found.dimensions
    · simp [hd]
    · simp [hd]
      decide

theorem fromObject_inj {a b : Addr} (h : JVMSlot.fromObject a = .fromObject b) : a = b := by
  have hraw := congrArg (fun slot => (-slot.raw).toUInt64) h
  simpa only [JVMSlot.fromObject, Int64.neg_neg, UInt64.toUInt64_toInt64] using hraw

theorem multiANewArray_eq (p : Profile) (cls : ClassRef) (refIdx : UInt16) {r : Runtime}
    (hdim : dim ≠ 0) (hfound : onTable (getClassOrArrayByRef cls refIdx) r = .ok found r₁) :
    multiANewArray p cls refIdx dim r = (do
      let instance_ ← allocateMultiarray p dim.toNat found.slotCount
      ThreadContext.apush instance_
      pure .next : VM Runtime Outcome) r₁ := by
  rw [multiANewArray, if_neg hdim, bind_eq _ hfound]
  cases found <;> rfl

/-- `MultiANewArray` that returns has pushed an array of arrays of the lengths on the stack. -/
theorem multiANewArray_arrayOf {r r' : Runtime} (h : r.store.Owned roots)
    (hfound : onTable (getClassOrArrayByRef cls refIdx) r = .ok found r₁)
    (ho : Offers r.context rest dim.toNat counts)
    (hret : multiANewArray p cls refIdx dim r = .ok out r') :
    counts ≠ [] ∧ ∃ a, r'.context.stack = rest ++ [.fromObject a] ∧
      ArrayOf p r'.store found.slotCount counts a := by
  have hdim : dim ≠ 0 := by
    rintro rfl
    cases hret
  rw [multiANewArray_eq p cls refIdx hdim hfound] at hret
  obtain ⟨t, _, rfl⟩ := onTable_ok hfound
  obtain ⟨a, r₂, ha, hpush⟩ := bind_ok hret
  have hr := allocateMultiarray_ok (r := { r with table := t }) h ho ha
  obtain ⟨obj, levels, hb, _, hmem⟩ := hr.array
  have hcontext := hr.context
  cases hpush
  refine ⟨hb.counts_ne_nil, a, ?_, hb.arrayOf p hr.fits hmem⟩
  change r₂.context.stack ++ [JVMSlot.fromObject a] = _
  rw [hcontext]

/-- The innermost arrays have elements of the right size exactly when all dimensions of the class
are made, or its elements are not of two slots, or there are no innermost arrays. -/
theorem multiANewArray_shape_iff {r r' : Runtime} (h : r.store.Owned roots)
    (hfound : onTable (getClassOrArrayByRef cls refIdx) r = .ok found r₁)
    (ho : Offers r.context rest dim.toNat counts)
    (hret : multiANewArray p cls refIdx dim r = .ok out r') :
    (∃ a, r'.context.stack = rest ++ [.fromObject a] ∧
      ArrayOf p r'.store (found.leafSize dim.toNat) counts a) ↔
    dim.toNat = found.dimensions ∨ found.isWide = false ∨ 0 ∈ counts.dropLast := by
  obtain ⟨hne, a, hs, ha⟩ := multiANewArray_arrayOf h hfound ho hret
  rw [← or_assoc, ← found.leafSize_eq_iff, ← ha.leaf_iff hne]
  constructor
  · rintro ⟨a', hs', ha'⟩
    have hlast := List.append_cancel_left (hs.symm.trans hs')
    rwa [fromObject_inj (List.head_eq_of_cons_eq hlast)]
  · exact fun ha' => ⟨a, hs, ha'⟩

def longGrid (counts : List Int32) : Runtime :=
  { withCounts counts with
    table := ⟨[{ VMClass.javaLangObject with
      constantPool := [.unusable, .primitiveArray .two .long] }], []⟩ }

/-- With one of the two dimensions made, the array is one of references, but has two slots for
each. -/
theorem partialGrid_wide : ∃ out r', multiANewArray ⟨true⟩ 0 1 1 (longGrid [3]) = .ok out r' ∧
    ¬ ∃ a, r'.context.stack = [.fromObject a] ∧ ArrayOf ⟨true⟩ r'.store .one [3] a := by
  obtain ⟨out, r', hret, hs, hk⟩ : ∃ out r',
      multiANewArray ⟨true⟩ 0 1 1 (longGrid [3]) = .ok out r' ∧
      r'.context.stack = [.fromObject 8] ∧
      (r'.store.memory 8).map Object.kind = some (.array .two) :=
    Ends.returns (by decide +kernel)
  refine ⟨out, r', hret, ?_⟩
  rintro ⟨a, hs', ⟨_, o, ho, hk', _⟩, _⟩
  have ha := fromObject_inj (List.head_eq_of_cons_eq (hs.symm.trans hs'))
  rw [ha, ho, Option.map_some, hk'] at hk
  exact absurd hk (by decide)

theorem fullGrid_shape : ∃ out r', multiANewArray ⟨true⟩ 0 1 2 (longGrid [2, 3]) = .ok out r' ∧
    ∃ a, r'.context.stack = [.fromObject a] ∧ ArrayOf ⟨true⟩ r'.store .two [2, 3] a := by
  obtain ⟨out, r', hret, _⟩ : ∃ out r',
      multiANewArray ⟨true⟩ 0 1 2 (longGrid [2, 3]) = .ok out r' ∧ True :=
    Ends.returns (by decide +kernel)
  have hfound : onTable (getClassOrArrayByRef 0 1) (longGrid [2, 3]) =
      .ok (.primitiveArray .two .long) (longGrid [2, 3]) := rfl
  have ho : Offers (longGrid [2, 3]).context [] 2 [2, 3] := withCounts_offers [2, 3]
  have howned : (longGrid [2, 3]).store.Owned [] := withCounts_owned [2, 3]
  exact ⟨out, r', hret, (multiANewArray_shape_iff howned hfound ho hret).mpr (.inl rfl)⟩

end Janadinite
