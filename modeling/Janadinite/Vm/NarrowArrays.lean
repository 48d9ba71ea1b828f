import Janadinite.Vm.References
import Janadinite.Vm.WideArrays

namespace Janadinite
open Hoare Layout
open ThreadContext (popSlotOr ipop apop pushSlot)
set_option autoImplicit true

inductive NarrowType where
  | byte
  | char
  | short
  deriving DecidableEq, Repr

namespace NarrowType

def storeOp : NarrowType → OpCode
  | byte => .baStore
  | char => .caStore
  | short => .saStore

def loadOp : NarrowType → OpCode
  | byte => .baLoad
  | char => .caLoad
  | short => .saLoad

/-- The value that an element of the type has, as the documentation of the instructions says it. -/
def narrow : NarrowType → Int32 → Int32
  | byte, v => v.toInt8.toInt32
  | char, v => v.toUInt32.toUInt16.toUInt32.toInt32
  | short, v => v.toInt16.toInt32

end NarrowType

/-- An array of `n` elements of one slot. -/
structure NarrowArray (s : Store) (a : Addr) (o : Object) (n : Nat) : Prop where
  fits : a.Fits
  object : s.memory a = some o
  kind : o.kind = .array .one
  length : o.data.length = n

/-- `NewArray` of a narrow type makes arrays of elements of one slot. -/
theorem newArray_narrow {r r' : Runtime} (ht : PrimitiveArrayType.fromRaw t = some prim)
    (hnarrow : prim.slotCount = .one) (hs : r.context.Spans rest)
    (h : newArray p t (r.onStack (rest ++ [.fromI32 len])) = .ok out r') :
    0 ≤ len ∧ ∃ a o, r'.context.stack = rest ++ [.fromObject a] ∧
      NarrowArray r'.store a o len.toNatClampNeg := by
  obtain ⟨hlen, a, hfits, hstack, ho⟩ := newArray_ok ht hs h
  rw [hnarrow] at ho
  exact ⟨hlen, a, _, hstack, hfits, ho, rfl, List.length_replicate.trans (Nat.mul_one _)⟩

/-- A value is stored in an element, the others stay, and from any stack on which the array and the
index are then, the narrowed value is loaded. -/
def NarrowType.StoresAndLoads [FloatArith] (p : Profile) (cls : ClassRef) (lastPc : UInt16)
    (ty : NarrowType) (r : Runtime) (rest : List JVMSlot) (a : Addr) (o : Object)
    (index v : Int32) :
    Prop :=
  ∃ r₁ o₁, execute p cls lastPc ty.storeOp
      (r.onStack (rest ++ ([.fromObject a, .fromI32 index] ++ [.fromI32 v]))) = .ok .next r₁ ∧
    r₁.context = (r.onStack rest).context ∧
    r₁.store.memory a = some o₁ ∧ o₁.data.length = o.data.length ∧
    (∀ j ≠ index.toNatClampNeg, o₁.data[j]? = o.data[j]?) ∧
    ∀ rest', r.context.Spans rest' → ∃ r₂, execute p cls lastPc ty.loadOp
        (r₁.onStack (rest' ++ [.fromObject a, .fromI32 index])) = .ok .next r₂ ∧
      r₂.context = (r₁.onStack (rest' ++ [.fromI32 (ty.narrow v)])).context

theorem fromI32_injective (h : JVMSlot.fromI32 i = .fromI32 j) : i = j := by
  rw [← asI32_fromI32 i, h, asI32_fromI32]

theorem arrayLoad_eq (p : Profile) {r : Runtime} (harray : array.Fits) (hs : r.context.Spans rest)
    (ho : r.store.memory array = some o) (hi : o.data[usizeOf index]? = some slot)
    (hslot : slot.object? = none) :
    arrayLoad p (r.onStack (rest ++ [.fromObject array, .fromI32 index])) = (do
        onStore (dropSlots p [.fromObject array])
        pure .next : VM Runtime Outcome) (r.onStack (rest ++ [slot])) := by
  have hsplit : rest ++ [.fromObject array, .fromI32 index] =
      (rest ++ [.fromObject array]) ++ [.fromI32 index] := by
    rw [List.append_assoc]
    rfl
  rw [hsplit, arrayLoad, (ipop_pops p index).bind _ (hs.append _), (apop_pops harray).bind _ hs,
    bind_eq _ (onStore_eq (r := r.onStack rest) (deref_eq ho)), hi, dropSlots_reference p harray]
  change (onStore (cloneSlot p slot) >>= _) _ = _
  rw [bind_eq _ (onStore_eq (cloneSlot_null hslot))]
  rfl

theorem Store.Drops.get {s : Store} (ha : a.Fits) (h : s.Drops p [.fromObject a]) :
    ∃ o, s.memory a = some o := by
  obtain ⟨s', h⟩ := h
  rw [dropSlots_reference p ha] at h
  obtain ⟨_, _, hdrop, -⟩ := bind_ok (m := dropOnce p a) h
  obtain ⟨o, ho, -⟩ := dropOnce_ok hdrop
  exact ⟨o, ho⟩

section
variable [FloatArith] {ty : NarrowType} {r : Runtime} {o : Object}

/-- The value is in the element before the slot that was there is dropped. -/
theorem NarrowType.store_eq (ty : NarrowType) (p : Profile) (cls : ClassRef) (lastPc : UInt16)
    (h : NarrowArray r.store a o n) (hs : r.context.Spans rest) (h0 : 0 ≤ index)
    (hold : o.data[index.toNatClampNeg]? = some old) (v : Int32) :
    execute p cls lastPc ty.storeOp
      (r.onStack (rest ++ ([.fromObject a, .fromI32 index] ++ [.fromI32 v]))) = (do
        onStore (dropSlots p [old, .fromObject a])
        pure .next : VM Runtime Outcome)
      { r.onStack rest with
        store := r.store.withSlots a o index.toNatClampNeg [.fromI32 v] } := by
  rw [← usizeOf_of_nonneg h0] at hold ⊢
  have hrun := arrayStore_eq p (popSlotOr_pops (.fromI32 v)) h.fits hs h.object hold
  cases ty <;> exact hrun

theorem NarrowType.load_eq (ty : NarrowType) (p : Profile) (cls : ClassRef) (lastPc : UInt16)
    (ha : a.Fits) (ho : r.store.memory a = some o) (hs : r.context.Spans rest) (h0 : 0 ≤ index)
    (hi : o.data[index.toNatClampNeg]? = some (.fromI32 v)) :
    execute p cls lastPc ty.loadOp (r.onStack (rest ++ [.fromObject a, .fromI32 index])) = (do
        onStore (dropSlots p [.fromObject a])
        pure .next : VM Runtime Outcome) (r.onStack (rest ++ [.fromI32 v])) := by
  rw [← usizeOf_of_nonneg h0] at hi
  have hrun := arrayLoad_eq p ha hs ho hi (JVMSlot.object?_fromI32 v)
  cases ty <;> exact hrun

/-- What is stored in a narrow element is loaded narrowed exactly when the value is narrow already,
and what the element held and the two references to the array can be dropped. -/
theorem storesAndLoads_iff (h : NarrowArray r.store a o n) (hs : r.context.Spans rest)
    (h0 : 0 ≤ index) (hold : o.data[index.toNatClampNeg]? = some old) :
    ty.StoresAndLoads p cls lastPc r rest a o index v ↔ ty.narrow v = v ∧
      (r.store.withSlots a o index.toNatClampNeg [.fromI32 v]).Drops p
        [old, .fromObject a, .fromObject a] := by
  have hn : index.toNatClampNeg < o.data.length := (List.getElem?_eq_some_iff.mp hold).1
  have hin : index.toNatClampNeg + [JVMSlot.fromI32 v].length ≤ o.data.length := hn
  have hstore := ty.store_eq p cls lastPc h hs h0 hold v
  -- what the array holds after the store
  have hdata : ∀ s₁, dropSlots p [old, .fromObject a]
      (r.store.withSlots a o index.toNatClampNeg [.fromI32 v]) = .ok ⟨⟩ s₁ →
      ∀ o₁, s₁.memory a = some o₁ →
        o₁.data = overwrite o.data index.toNatClampNeg [.fromI32 v] := by
    exact fun _ hdrop _ ho₁ => (dropSlots_recounted hdrop).written ho₁
  have helement : ∀ o₁ : Object, o₁.data = overwrite o.data index.toNatClampNeg [.fromI32 v] →
      o₁.data[index.toNatClampNeg]? = some (.fromI32 v) := by
    intro o₁ hd
    rw [hd, ← set_eq_overwrite hn, List.getElem?_set_self hn]
  have hsplit : ∀ s : Store, s.Drops p [old, .fromObject a, .fromObject a] ↔
      ∃ s', dropSlots p [old, .fromObject a] s = .ok ⟨⟩ s' ∧ s'.Drops p [.fromObject a] := by
    intro s
    change s.Drops p ([old, .fromObject a] ++ [.fromObject a]) ↔ _
    exact Store.drops_append
  rw [hsplit]
  constructor
  · rintro ⟨r₁, o₁, hr₁, -, ho₁, -, -, hload⟩
    obtain ⟨_, r₁', hdrop, hpure⟩ := bind_ok (hstore.symm.trans hr₁)
    cases hpure
    obtain ⟨s₁, hs₁, rfl⟩ := onStore_ok hdrop
    obtain ⟨r₂, hr₂, hc₂⟩ := hload rest hs
    have hrun := ty.load_eq p cls lastPc h.fits ho₁ hs h0 (helement o₁ (hdata s₁ hs₁ o₁ ho₁))
    obtain ⟨_, r₂', hdrop₂, hpure₂⟩ := bind_ok (hrun.symm.trans hr₂)
    cases hpure₂
    obtain ⟨s₂, hs₂, rfl⟩ := onStore_ok hdrop₂
    have hstack := congrArg ThreadContext.stack hc₂
    have hslot := List.singleton_inj.mp (List.append_cancel_left hstack)
    exact ⟨(fromI32_injective hslot).symm, s₁, hs₁, s₂, hs₂⟩
  · rintro ⟨hv, s₁, hs₁, hdrops₁⟩
    obtain ⟨o₁, ho₁⟩ := hdrops₁.get h.fits
    have hd := hdata s₁ hs₁ o₁ ho₁
    have hlen : o₁.data.length = o.data.length := by
      rw [hd, length_overwrite hin]
    have hothers : ∀ j ≠ index.toNatClampNeg, o₁.data[j]? = o.data[j]? := by
      intro j hj
      rw [hd]
      apply overwrite_other hin
      rintro ⟨hle, hlt⟩
      exact hj (Nat.le_antisymm (Nat.le_of_lt_succ hlt) hle)
    refine ⟨{ r.onStack rest with store := s₁ }, o₁, hstore.trans (bind_eq _ (onStore_eq hs₁)),
      rfl, ho₁, hlen, hothers, ?_⟩
    intro rest' hs'
    obtain ⟨s₂, hs₂⟩ := hdrops₁
    have hrun :=
      ty.load_eq (r := { r.onStack rest with store := s₁ }) p cls lastPc h.fits ho₁ hs' h0
      (helement o₁ hd)
    rw [hv]
    exact ⟨_, hrun.trans (bind_eq _ (onStore_eq hs₂)), rfl⟩

end

def withBytes : Runtime :=
  { withCounts [] with
    store := (withCounts []).store.write 8 (some ⟨4, 0, .array .one, [.null, .null]⟩) }

theorem withBytes_narrow : NarrowArray withBytes.store 8 ⟨4, 0, .array .one, [.null, .null]⟩ 2 :=
  ⟨by decide, rfl, rfl, rfl⟩

/-- The `byte` that is loaded after 200 is stored is 200, and not -56. -/
theorem baStore_not_truncated :
    ¬ @NarrowType.StoresAndLoads noFloats ⟨true⟩ 0 0 .byte withBytes [] 8
    ⟨4, 0, .array .one, [.null, .null]⟩ 1 200 := by
  rintro ⟨r₁, o₁, h₁, -, -, -, -, hload⟩
  obtain ⟨r₂, h₂, hc⟩ := hload [] (Nat.le_refl 0)
  have hrun : ∃ r, @execute noFloats ⟨true⟩ 0 0 .baStore (withBytes.onStack
        ([] ++ ([.fromObject 8, .fromI32 1] ++ [.fromI32 200]))) = .ok .next r ∧
      ∃ r', @execute noFloats ⟨true⟩ 0 0 .baLoad
          (r.onStack ([] ++ [.fromObject 8, .fromI32 1])) = .ok .next r' ∧
        r'.context.stack = [.fromI32 200] := ⟨_, rfl, _, rfl, rfl⟩
  obtain ⟨r, hr, r', hr', hstack⟩ := hrun
  cases h₁.symm.trans hr
  cases h₂.symm.trans hr'
  rw [hc] at hstack
  exact absurd (List.singleton_inj.mp hstack) (by decide)

theorem caStore_stores : @NarrowType.StoresAndLoads noFloats ⟨true⟩ 0 0 .char withBytes [] 8
    ⟨4, 0, .array .one, [.null, .null]⟩ 1 65000 :=
  (@storesAndLoads_iff noFloats .char withBytes ⟨4, 0, .array .one, [.null, .null]⟩ 8 2 [] 1 .null
    ⟨true⟩ 0 0 65000 withBytes_narrow (Nat.le_refl 0) (by decide) rfl).mpr ⟨by decide, _, rfl⟩

end Janadinite
