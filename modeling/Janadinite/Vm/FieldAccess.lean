import Janadinite.Vm.Drops
import Janadinite.Vm.FieldLayout
import Janadinite.Vm.Operands

namespace Janadinite
open Hoare Layout
open ThreadContext (popSlotOr apop pushSlot)
set_option autoImplicit true

namespace JVMValue

theorem length_toSlots (v : JVMValue) : v.toSlots.length = v.slotCount := by
  cases v <;> rfl

theorem toSlots_narrow {v : JVMValue} (h : v.slotCount = 1) : ∃ slot, v.toSlots = [slot] :=
  List.length_eq_one_iff.mp (v.length_toSlots.trans h)

theorem toSlots_wide {v : JVMValue} (h : v.slotCount ≠ 1) : ∃ i, v.toSlots = JVMSlot.fromI64 i := by
  cases v with
  | long i => exact ⟨i, rfl⟩
  | double d => exact ⟨_, rfl⟩
  | _ => exact absurd rfl h

theorem toSlots_refs_nodup (v : JVMValue) : (refs v.toSlots).Nodup := by
  by_cases h : v.slotCount = 1
  · obtain ⟨slot, hslot⟩ := toSlots_narrow h
    rw [hslot, refs_cons]
    cases slot.object? with
    | none => exact .nil
    | some a => exact List.nodup_singleton a
  · obtain ⟨i, hi⟩ := toSlots_wide h
    have hrefs : refs (JVMSlot.fromI64 i) = [] := by
      rw [JVMSlot.fromI64, refs_cons, refs_cons, JVMSlot.object?_fromI32, JVMSlot.object?_fromI32]
      rfl
    rw [hi, hrefs]
    exact .nil

end JVMValue

/-- A reference to a field leads to an instance field, of which the object has the slots. -/
structure FieldOf (cls : ClassRef) (refIdx : UInt16) (r : Runtime) (table : ClassTable)
    (field : VMField) (a : Addr) (o : Object) (off : Nat) : Prop where
  resolves : ∃ fieldClass fieldIdx,
    getFieldOrResolve cls refIdx r.table = .ok (fieldClass, fieldIdx) table ∧
    (table.get fieldClass).fieldByIdx fieldIdx = some field
  normal : ∃ n, field.objOff = some n ∧ n.toNat = off
  fits : a.Fits
  object : r.store.memory a = some o
  inside : off + field.field.slotCount ≤ o.data.length

section
variable [FloatArith]

/-- `GetField` pushes these slots and leaves the object and the stack below as they are, when it can
clone the slots and drop the reference to the object. -/
def Gets (p : Profile) (cls : ClassRef) (lastPc refIdx : UInt16) (r : Runtime) (a : Addr)
    (slots : List JVMSlot) : Prop :=
  ∀ rest o, r.context.Spans rest → r.store.memory a = some o → r.store.Clonable 1 slots →
    (r.store.retain (refs slots)).Drops p [.fromObject a] →
    ∃ r', execute p cls lastPc (.getField refIdx) (r.onStack (rest ++ [.fromObject a])) =
        .ok .next r' ∧
      r'.context = (r.onStack (rest ++ slots)).context ∧
      ∀ o', r'.store.memory a = some o' → o'.data = o.data

/-- `PutField` takes the reference and the value off the stack and puts the value into the object,
where nothing else changes; `GetField` then gets it. -/
def PutsAndGets (p : Profile) (cls : ClassRef) (lastPc refIdx : UInt16) (r : Runtime)
    (rest : List JVMSlot) (a : Addr) (o : Object) (off : Nat) (v : JVMValue) : Prop :=
  ∃ r', execute p cls lastPc (.putField refIdx)
      (r.onStack (rest ++ ([.fromObject a] ++ v.toSlots))) = .ok .next r' ∧
    r'.context = (r.onStack rest).context ∧
    (∀ o', r'.store.memory a = some o' → o'.data = overwrite o.data off v.toSlots) ∧
    Gets p cls lastPc refIdx r' a v.toSlots

end

theorem FieldOf.resolveField_eq (h : FieldOf cls refIdx r table field a o off)
    (stack : List JVMSlot) :
    ∃ fieldClass fieldIdx, resolveField cls refIdx (r.onStack stack) =
      .ok (fieldClass, fieldIdx, field) { r.onStack stack with table } := by
  obtain ⟨fieldClass, fieldIdx, hr, hf⟩ := h.resolves
  refine ⟨fieldClass, fieldIdx, ?_⟩
  rw [resolveField, bind_eq _ (onTable_eq (r := r.onStack stack) hr)]
  change (unwrap ((table.get fieldClass).fieldByIdx fieldIdx) >>= _) _ = _
  rw [hf]
  rfl

/-- The slot taken off the stack is put into the object before the old one and the reference are
dropped. -/
theorem FieldOf.putField_eq (h : FieldOf cls refIdx r table field a o off)
    (hone : field.field.slotCount = 1) (p : Profile) (slot : JVMSlot) (hs : r.context.Spans rest) :
    putField p cls refIdx (r.onStack (rest ++ [.fromObject a, slot])) = (do
        onStore (dropSlots p (slice o.data off 1 ++ [.fromObject a]))
        pure .next : VM Runtime Outcome)
      { r.onStack rest with table, store := r.store.withSlots a o off [slot] } := by
  obtain ⟨fieldClass, fieldIdx, hr⟩ := h.resolveField_eq (rest ++ [.fromObject a, slot])
  obtain ⟨n, hn, rfl⟩ := h.normal
  have hin := h.inside
  rw [hone] at hin
  obtain ⟨old, hold⟩ : ∃ old, o.data[n.toNat]? = some old := ⟨_, List.getElem?_eq_getElem hin⟩
  have hslice : slice o.data n.toNat 1 = [old] := slice_succ hold 0
  have hpop : ∀ f : JVMSlot → VM Runtime Outcome, (popSlotOr >>= f)
      { r.onStack (rest ++ [.fromObject a, slot]) with table } =
        f slot { r.onStack (rest ++ [.fromObject a]) with table } := by
    intro f
    have hsplit : rest ++ [.fromObject a, slot] = (rest ++ [.fromObject a]) ++ [slot] := by
      rw [List.append_assoc]
      rfl
    rw [hsplit]
    exact (popSlotOr_pops slot).bind (r := { r with table }) f (hs.append _)
  have hobj : ∀ f : Addr → VM Runtime Outcome, (apop >>= f)
      { r.onStack (rest ++ [.fromObject a]) with table } = f a { r.onStack rest with table } :=
    fun f => (apop_pops h.fits).bind (r := { r with table }) f hs
  have hread : onStore (sliceData a n.toNat field.field.slotCount)
      { r.onStack rest with table } = .ok [old] { r.onStack rest with table } := by
    have hslots := sliceData_eq h.object h.inside
    rw [hone] at hslots ⊢
    exact onStore_eq (hslots.trans (congrArg (EStateM.Result.ok · r.store) hslice))
  have hassign : onStore (assignData p a n.toNat slot) { r.onStack rest with table } =
      onStore (dropSlot p old)
        { r.onStack rest with table, store := r.store.withSlots a o n.toNat [slot] } :=
    onStore_from (r := { r.onStack rest with table }) (assignData_eq h.object hold slot)
  rw [putField, bind_eq _ hr]
  change (okOr _ field.objOff >>= _) _ = _
  rw [hn]
  change (popSlotOr >>= _) _ = _
  rw [hpop, hobj, bind_eq _ hread]
  rw [hslice, List.singleton_append, onStore_dropSlots, dropSlots_reference p h.fits, bind_assoc]
  exact bind_from _ hassign

/-- A two-slot value is not put into the object: its low half is taken for the reference. -/
theorem FieldOf.putField_wide (h : FieldOf cls refIdx r table field a o off) (p : Profile)
    (i : Int64) (hs : r.context.Spans rest) :
    putField p cls refIdx (r.onStack (rest ++ ([.fromObject a] ++ JVMSlot.fromI64 i))) =
      .error (.error .notAnObject) { r.onStack (rest ++ [.fromObject a]) with table } := by
  obtain ⟨fieldClass, fieldIdx, hr⟩ :=
    h.resolveField_eq (rest ++ ([.fromObject a] ++ JVMSlot.fromI64 i))
  obtain ⟨n, hn, -⟩ := h.normal
  have hs' := hs.append [.fromObject a]
  have hpop : ∀ f : JVMSlot → VM Runtime Outcome, (popSlotOr >>= f)
      { r.onStack (rest ++ ([.fromObject a] ++ JVMSlot.fromI64 i)) with table } =
        f (.fromI32 (i.toUInt64 >>> 32).toUInt32.toInt32)
          { r.onStack ((rest ++ [.fromObject a]) ++ [.fromI32 i.toUInt64.toUInt32.toInt32])
            with table } := by
    intro f
    have hsplit : rest ++ ([.fromObject a] ++ JVMSlot.fromI64 i) =
        ((rest ++ [.fromObject a]) ++ [.fromI32 i.toUInt64.toUInt32.toInt32]) ++
          [.fromI32 (i.toUInt64 >>> 32).toUInt32.toInt32] := by
      simp only [List.append_assoc]
      rfl
    rw [hsplit]
    exact (popSlotOr_pops _).bind (r := { r with table }) f (hs'.append _)
  rw [putField, bind_eq _ hr]
  change (okOr _ field.objOff >>= _) _ = _
  rw [hn]
  change (popSlotOr >>= _) _ = _
  rw [hpop]
  exact bind_error _ (apop_plain (r := { r with table }) (JVMSlot.object?_fromI32 _) hs')

theorem cloneOntoStack_eq {r : Runtime} (h : cloneSlots p slots r.store = .ok cs store) :
    cloneOntoStack p slots r =
      .ok ⟨⟩ { r.onStack (r.context.stack ++ cs) with store } := by
  induction slots generalizing r cs with
  | nil =>
    cases h
    have hnil : r.onStack (r.context.stack ++ []) = r := by rw [List.append_nil]; rfl
    rw [hnil]
    rfl
  | cons slot slots ih =>
    obtain ⟨c, s₁, hc, hrest⟩ := bind_ok h
    obtain ⟨cs', s₂, hcs, hpure⟩ := bind_ok hrest
    cases hpure
    rw [cloneOntoStack, bind_eq _ (onStore_eq hc)]
    have happend : r.context.stack ++ c :: cs' = (r.context.stack ++ [c]) ++ cs' := by
      rw [List.append_assoc]
      rfl
    rw [happend]
    exact ih (r := { r.onStack (r.context.stack ++ [c]) with store := s₁ }) hcs

/-- The slots of the field are pushed before the reference is dropped. -/
theorem FieldOf.getField_eq (h : FieldOf cls refIdx r table field a o off) (p : Profile)
    (hslots : slice o.data off field.field.slotCount = slots) (hn : (refs slots).Nodup)
    (hc : r.store.Clonable 1 slots) (hs : r.context.Spans rest) :
    getField p cls refIdx (r.onStack (rest ++ [.fromObject a])) = (do
        onStore (dropSlots p [.fromObject a])
        pure .next : VM Runtime Outcome)
      { r.onStack (rest ++ slots) with table, store := r.store.retain (refs slots) } := by
  obtain ⟨fieldClass, fieldIdx, hr⟩ := h.resolveField_eq (rest ++ [.fromObject a])
  obtain ⟨n, hoff, rfl⟩ := h.normal
  have hobj : ∀ f : Addr → VM Runtime Outcome, (apop >>= f)
      { r.onStack (rest ++ [.fromObject a]) with table } = f a { r.onStack rest with table } :=
    fun f => (apop_pops h.fits).bind (r := { r with table }) f hs
  have hread : onStore (sliceData a n.toNat field.field.slotCount)
      { r.onStack rest with table } = .ok slots { r.onStack rest with table } :=
    onStore_eq ((sliceData_eq h.object h.inside).trans
      (congrArg (EStateM.Result.ok · r.store) hslots))
  have hclone := cloneOntoStack_eq (r := { r.onStack rest with table })
    (cloneSlots_eq (p := p) hn hc)
  rw [getField, bind_eq _ hr]
  change (okOr _ field.objOff >>= _) _ = _
  rw [hoff]
  change (apop >>= _) _ = _
  rw [hobj, bind_eq _ hread, bind_eq _ hclone, dropSlots_reference p h.fits]
  rfl

theorem FieldOf.again (h : FieldOf cls refIdx r table field a o off) {r' : Runtime}
    (ht : r'.table = table) (ho : r'.store.memory a = some o')
    (hlen : o'.data.length = o.data.length) : FieldOf cls refIdx r' table field a o' off where
  resolves := by
    obtain ⟨fieldClass, fieldIdx, hr, hf⟩ := h.resolves
    rw [ht]
    exact ⟨fieldClass, fieldIdx, getFieldOrResolve_again hr, hf⟩
  normal := h.normal
  fits := h.fits
  object := ho
  inside := hlen ▸ h.inside

theorem FieldOf.gets [FloatArith] (h : FieldOf cls refIdx r table field a o off)
    {v : JVMValue} (hv : v.slotCount = field.field.slotCount) {r' : Runtime} (ht : r'.table = table)
    (hd : ∀ o', r'.store.memory a = some o' → o'.data = overwrite o.data off v.toSlots) :
    Gets p cls lastPc refIdx r' a v.toSlots := by
  intro rest o' hs ho hc hdrops
  have hin : off + v.toSlots.length ≤ o.data.length := by
    rw [v.length_toSlots, hv]
    exact h.inside
  have hagain := h.again ht ho (by rw [hd o' ho, length_overwrite hin])
  have hslots : slice o'.data off field.field.slotCount = v.toSlots := by
    rw [hd o' ho, ← hv, ← v.length_toSlots, slice_overwrite hin]
  obtain ⟨s, hs'⟩ := hdrops
  have hrun := hagain.getField_eq p hslots v.toSlots_refs_nodup hc hs
  refine ⟨{ r'.onStack (rest ++ v.toSlots) with table, store := s }, ?_, rfl, ?_⟩
  · exact hrun.trans (bind_eq _ (onStore_eq hs'))
  · intro o'' ho''
    obtain ⟨o₁, ho₁, -, hdata⟩ := dropSlots_recounted hs' a o'' ho''
    obtain ⟨n, hn⟩ := (Store.Grows.retain r'.store (refs v.toSlots)).memory a o' ho
    cases hn.symm.trans ho₁
    exact hdata

/-- A value that `PutField` puts into an object is what `GetField` gets, exactly when it takes one
slot, and the slot that it replaces and the reference can be dropped. -/
theorem putsAndGets_iff [FloatArith] (h : FieldOf cls refIdx r table field a o off)
    {v : JVMValue} (hv : v.slotCount = field.field.slotCount) (hs : r.context.Spans rest) :
    PutsAndGets p cls lastPc refIdx r rest a o off v ↔ v.slotCount = 1 ∧
      (r.store.withSlots a o off v.toSlots).Drops p (slice o.data off 1 ++ [.fromObject a]) := by
  by_cases hone : v.slotCount = 1
  · obtain ⟨slot, hslot⟩ := JVMValue.toSlots_narrow hone
    have hrun : execute p cls lastPc (.putField refIdx)
        (r.onStack (rest ++ ([.fromObject a] ++ v.toSlots))) = (do
          onStore (dropSlots p (slice o.data off 1 ++ [.fromObject a]))
          pure .next : VM Runtime Outcome)
        { r.onStack rest with table, store := r.store.withSlots a o off v.toSlots } := by
      rw [hslot]
      exact h.putField_eq (hv ▸ hone) p slot hs
    constructor
    · rintro ⟨r', hr', -⟩
      exact ⟨hone, (ends_dropping ..).mp ⟨r', hrun.symm.trans hr'⟩⟩
    · rintro ⟨-, s, hdrops⟩
      have hdata : ∀ o', s.memory a = some o' → o'.data = overwrite o.data off v.toSlots := by
        intro o' ho'
        obtain ⟨o₁, ho₁, -, hd⟩ := dropSlots_recounted hdrops a o' ho'
        cases (Store.memory_write_self ..).symm.trans ho₁
        exact hd
      refine ⟨{ r.onStack rest with table, store := s }, ?_, rfl, hdata, ?_⟩
      · exact hrun.trans (bind_eq _ (onStore_eq hdrops))
      · exact h.gets hv rfl hdata
  · obtain ⟨i, hi⟩ := JVMValue.toSlots_wide hone
    constructor
    · rintro ⟨r', hr', -⟩
      rw [hi] at hr'
      cases (h.putField_wide p i hs).symm.trans hr'
    · exact fun hc => absurd hc.1 hone

theorem inside_of_class {c : VMClass} (hc : Placed 0 c.instanceFields)
    (hf : field ∈ c.instanceFields) {n : UInt32} (hn : field.objOff = some n) {o : Object}
    (ho : o.data.length = c.fieldsSlots) : n.toNat + field.field.slotCount ≤ o.data.length := by
  have hin := instanceFields_inside hc hf
  rw [VMField.start, hn] at hin
  exact ho ▸ hin

def withObjectOf (field : VMField) (data : List JVMSlot) : Runtime :=
  { withCounts [] with
    table := ⟨[{ VMClass.javaLangObject with
      fields := [field], constantPool := [.unusable, .resolvedField 0] }], []⟩
    store := (withCounts []).store.write 8 (some ⟨3, 0, .instance 0, data⟩) }

def fieldOf (descriptor : String) (slotCount : Nat) : VMField :=
  ⟨0, .normal 0, ⟨"x", descriptor, slotCount, .accPublic, []⟩⟩

/-- A `long` is not put into an object. -/
theorem longField_not_put : ¬ @PutsAndGets noFloats ⟨true⟩ 0 0 1
    (withObjectOf (fieldOf "J" 2) [.null, .null]) [] 8 ⟨3, 0, .instance 0, [.null, .null]⟩ 0
    (.long 5) := by
  rintro ⟨r', h, -⟩
  have hrun : ∃ r₁, @execute noFloats ⟨true⟩ 0 0 (.putField 1)
      ((withObjectOf (fieldOf "J" 2) [.null, .null]).onStack
        ([] ++ ([.fromObject 8] ++ (JVMValue.long 5).toSlots))) =
      .error (.error .notAnObject) r₁ := ⟨_, rfl⟩
  obtain ⟨r₁, hrun⟩ := hrun
  cases hrun.symm.trans h

theorem intField_put : @PutsAndGets noFloats ⟨true⟩ 0 0 1 (withObjectOf (fieldOf "I" 1) [.null])
    [] 8 ⟨3, 0, .instance 0, [.null]⟩ 0 (.int 7) := by
  have hfield : FieldOf 0 1 (withObjectOf (fieldOf "I" 1) [.null])
      (withObjectOf (fieldOf "I" 1) [.null]).table (fieldOf "I" 1) 8
      ⟨3, 0, .instance 0, [.null]⟩ 0 :=
    ⟨⟨0, 0, rfl, rfl⟩, ⟨0, rfl, rfl⟩, by decide, rfl, by decide⟩
  exact (@putsAndGets_iff 0 1 _ _ _ 8 _ 0 [] ⟨true⟩ 0 noFloats hfield (.int 7) rfl
    (Nat.le_refl 0)).mpr ⟨rfl, _, rfl⟩

end Janadinite
