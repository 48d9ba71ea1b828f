import Janadinite.Vm.ArrayShape
import Janadinite.Vm.Operands
import Janadinite.Vm.Silent

namespace Janadinite
open Hoare
open ThreadContext (apush ipop popSlot popSlotOr readContext_eq)
set_option autoImplicit true

inductive ArrayInstr where
  | newArray (t : UInt8)
  | aNewArray (refIdx : UInt16)
  | multiANewArray (refIdx : UInt16) (dim : UInt8)
  deriving DecidableEq, Repr

/-- The array that is asked for: as many slots as its length times the size of an element. -/
def requested (len : Int32) (size : NonZeroU16) : BareObject :=
  ⟨.array size, List.replicate (len.toNatClampNeg * size.val.toNat) .null⟩

/-- An allocation of the array that is asked for. -/
def requestArray (p : Profile) (len : Int32) (size : NonZeroU16) : VM Store Addr := do
  lockOrStop p
  let a ← allocateFromObject p (requested len size).kind (requested len size).data
  unlockHeap
  pure a

/-- A round of the loop over the dimensions in which the array that is asked for is made. -/
def requestDimension (p : Profile) (last : Option BareObject) (len : Int32) (size : NonZeroU16) :
    VM Store BareObject :=
  if len = 0 then do
    dropLast p last
    pure (requested 0 size)
  else
    match last with
    | some child => do
      let data ← fillArray p child (requested len size).data.length
      pure { requested len size with data }
    | none => pure (requested len size)

def requestDimensions (p : Profile) (lastDimOSize : NonZeroU16) :
    Nat → Option BareObject → VM Runtime (Option BareObject)
  | 0, last => pure last
  | n + 1, last => do
    let len ← nextCount p last
    let size := if last.isNone then lastDimOSize else .one
    let obj ← onStore (requestDimension p last len size)
    requestDimensions p lastDimOSize n (some obj)

/-- An allocation of the arrays that are asked for, one dimension after the other. -/
def requestMultiarray (p : Profile) (dimensions : Nat) (lastDimOSize : NonZeroU16) :
    VM Runtime Addr := do
  onStore (lockOrStop p)
  match ← requestDimensions p lastDimOSize dimensions none with
  | some obj => do
    let a ← onStore (allocateFromObject p obj.kind obj.data)
    onStore unlockHeap
    pure a
  | none => do
    onStore unlockHeap
    fail (.corrupted "allocate array with dimensions=0")

namespace ArrayInstr

def opcode : ArrayInstr → OpCode
  | newArray t => .newArray t
  | aNewArray refIdx => .aNewArray refIdx
  | multiANewArray refIdx dim => .multiANewArray refIdx dim

def dimensions : ArrayInstr → Nat
  | newArray _ => 1
  | aNewArray _ => 1
  | multiANewArray _ dim => dim.toNat

/-- The size of the elements is found, before a length is popped. -/
def Sized (cls : ClassRef) (r r' : Runtime) (size : NonZeroU16) : ArrayInstr → Prop
  | newArray t => r' = r ∧ ∃ prim, PrimitiveArrayType.fromRaw t = some prim ∧ size = prim.slotCount
  | aNewArray refIdx => size = .one ∧
      ∃ found, onTable (getClassOrArrayByRef cls refIdx) r = .ok found r'
  | multiANewArray refIdx dim => dim ≠ 0 ∧
      ∃ found, onTable (getClassOrArrayByRef cls refIdx) r = .ok found r' ∧ size = found.slotCount

def allocate (p : Profile) (size : NonZeroU16) : ArrayInstr → VM Runtime Addr
  | newArray _ => do
    let len ← ipop p
    onStore (allocateArray p (usizeOf len) size)
  | aNewArray _ => do
    let len ← ipop p
    onStore (allocateArray p (usizeOf len) size)
  | multiANewArray _ dim => allocateMultiarray p dim.toNat size

def request (p : Profile) (size : NonZeroU16) : ArrayInstr → VM Runtime Addr
  | newArray _ => do
    let len ← ipop p
    onStore (requestArray p len size)
  | aNewArray _ => do
    let len ← ipop p
    onStore (requestArray p len size)
  | multiANewArray _ dim => requestMultiarray p dim.toNat size

/-- The arrays that are asked for are allocated, but an error is returned for a negative length. -/
def Requests [FloatArith] (p : Profile) (cls : ClassRef) (lastPc : UInt16) (instr : ArrayInstr)
    (r r' : Runtime) (size : NonZeroU16) (counts : List Int32) : Prop :=
  ((∀ len ∈ counts, 0 ≤ len) →
    execute p cls lastPc instr.opcode r = (do
      let instance_ ← instr.request p size
      apush instance_
      pure .next : VM Runtime Outcome) r') ∧
  ((∃ len ∈ counts, len < 0) →
    ∃ x r₁, execute p cls lastPc instr.opcode r = .error (.error x) r₁ ∧
      r₁.store.allocated = r.store.allocated)

end ArrayInstr

theorem onStore_silent {m : VM Store α} (h : Silent m) (r : Runtime) (x : VMError) (r' : Runtime) :
    onStore m r ≠ .error (.error x) r' := by
  intro hr
  cases hm : m r.store with
  | ok v s => cases (onStore_eq hm).symm.trans hr
  | error e s =>
    cases (onStore_error hm).symm.trans hr
    exact h _ x s hm

section
variable {lens : List Int32} {last : Option BareObject}

theorem Offers.pop {r r' : Runtime} (ho : Offers r.context rest (n + 1) lens.reverse)
    (h : popSlot r = .ok (some slot) r') : ∃ len lens', lens = len :: lens' ∧ slot = .fromI32 len ∧
      r'.store = r.store ∧ Offers r'.context rest n lens'.reverse := by
  cases lens with
  | nil =>
    have hs : r.context.stack.length ≤ r.context.currentFrame.stackStart := by
      rw [ho.stack, ← ho.short (Nat.succ_pos n)]
      exact Nat.le_of_eq (congrArg List.length (List.append_nil rest))
    cases (popSlot_empty hs).symm.trans h
  | cons len lens =>
    rw [List.reverse_cons] at ho
    obtain ⟨hs, hstart, ho'⟩ := ho.next
    cases (popSlot_concat hs hstart).symm.trans h
    exact ⟨len, lens, rfl, rfl, rfl, ho'⟩

theorem Offers.ipop {r r' : Runtime} (p : Profile) (ho : Offers r.context rest (n + 1) lens.reverse)
    (h : ipop p r = .ok len r') : len ∈ lens := by
  obtain ⟨slot, r₁, hslot, h⟩ := bind_ok h
  obtain ⟨found, r₂, hpop, hok⟩ := bind_ok hslot
  cases found with
  | none => cases hok
  | some found =>
    cases hok
    obtain ⟨len', lens', rfl, rfl, -, -⟩ := ho.pop hpop
    obtain ⟨_, r₃, -, h⟩ := bind_ok h
    cases h
    rw [asI32_fromI32]
    exact List.mem_cons_self

theorem Offers.nextCount {r r' : Runtime} (p : Profile) (last : Option BareObject)
    (ho : Offers r.context rest (n + 1) lens.reverse) (h : nextCount p last r = .ok len r') :
    ∃ lens', lens = len :: lens' ∧ Offers r'.context rest n lens'.reverse := by
  obtain ⟨found, r₁, hpop, h⟩ := bind_ok h
  cases found with
  | none =>
    obtain ⟨_, r₂, -, h⟩ := bind_ok h
    obtain ⟨_, r₃, -, h⟩ := bind_ok h
    cases h
  | some slot =>
    obtain ⟨len', lens', rfl, rfl, -, ho'⟩ := ho.pop hpop
    change (onStore (dropSlot p (.fromI32 len')) >>= fun _ => pure (JVMSlot.fromI32 len').asI32 :
      VM Runtime Int32) r₁ = _ at h
    rw [dropSlot_plain p (JVMSlot.object?_fromI32 len'), asI32_fromI32] at h
    cases h
    exact ⟨lens', rfl, ho'⟩

theorem allocateArray_eq (p : Profile) (h : 0 ≤ len) (size : NonZeroU16) :
    allocateArray p (usizeOf len) size = requestArray p len size := by
  obtain ⟨hmul, hdata⟩ := slots_of_nonneg p h size
  rw [allocateArray, hmul]
  change allocateInner p (.array size) (len.toNatClampNeg * size.val.toNat) = _
  rw [allocateInner, allocate, hdata]
  rfl

theorem addDimension_eq (p : Profile) (last : Option BareObject) (h : 0 ≤ len) (size : NonZeroU16) :
    addDimension p last len size = requestDimension p last len size := by
  funext s
  rw [addDimension, requestDimension.eq_def]
  by_cases hz : len = 0
  · subst hz
    rw [if_pos rfl, if_pos rfl]
    exact bind_eq _ (newArray_eq p h size s)
  · rw [if_neg hz, if_neg hz, bind_eq _ (newDimension_ok last (newArray_eq p h size s))]
    cases last <;> rfl

theorem addDimensions_eq (p : Profile) (size : NonZeroU16) {r : Runtime}
    (ho : Offers r.context rest n lens.reverse) (h : ∀ len ∈ lens, 0 ≤ len) :
    addDimensions p size n last r = requestDimensions p size n last r := by
  induction n generalizing r lens last with
  | zero => rfl
  | succ n ih =>
    apply bind_alike
    intro len r₁ hlen
    obtain ⟨lens', rfl, ho'⟩ := ho.nextCount p last hlen
    rw [addDimension_eq p last (h len List.mem_cons_self)]
    apply bind_alike
    intro obj r₂ hobj
    obtain ⟨s, -, rfl⟩ := onStore_ok hobj
    exact ih ho' fun len' hlen' => h len' (List.mem_cons_of_mem _ hlen')

theorem addDimension_fails (p : Profile) (last : Option BareObject) (h : len < 0)
    (size : NonZeroU16) (s : Store) : ∃ e s', addDimension p last len size s = .error e s' := by
  obtain ⟨msg, hn⟩ := newArray_negative p h size s
  have hpanic : ∃ e s', newDimension p last (usizeOf len) size s = .error e s' := by
    rw [newDimension_panic last hn]
    cases hd : dropLast p last s with
    | ok _ s₁ => exact ⟨_, _, bind_eq _ hd⟩
    | error e s₁ => exact ⟨_, _, bind_error _ hd⟩
  obtain ⟨e, s', he⟩ := hpanic
  rw [addDimension, if_neg (Int32.ne_of_lt h)]
  exact ⟨e, s', bind_error _ he⟩

/-- The rounds end in a negative length, if not before, but not with an error of the machine. -/
theorem addDimensions_fails (p : Profile) (size : NonZeroU16) {r : Runtime}
    (ho : Offers r.context rest n lens.reverse) (h : ∃ len ∈ lens, len < 0) :
    ∃ e r', addDimensions p size n last r = .error e r' ∧ ∀ x, e ≠ .error x := by
  induction n generalizing r lens last with
  | zero =>
    obtain ⟨len, hlen, -⟩ := h
    have hl := ho.length
    rw [List.length_reverse] at hl
    exact absurd (List.length_pos_of_mem hlen) (Nat.not_lt.mpr hl)
  | succ n ih =>
    cases lens with
    | nil =>
      obtain ⟨len, hlen, -⟩ := h
      cases hlen
    | cons len lens =>
      rw [List.reverse_cons] at ho
      obtain ⟨hs, hstart, ho'⟩ := ho.next
      rw [addDimensions, bind_eq _ (nextCount_eq p last hs hstart)]
      let r₁ : Runtime := { r with context := { r.context with
        stack := rest ++ lens.reverse.map .fromI32 } }
      cases ha : onStore (addDimension p last len (if last.isNone then size else .one)) r₁ with
      | error e r₂ =>
        refine ⟨e, r₂, bind_error _ ha, ?_⟩
        rintro x rfl
        exact onStore_silent (Silent.addDimension p last len _) _ x r₂ ha
      | ok obj r₂ =>
        obtain ⟨s, hs', rfl⟩ := onStore_ok ha
        have hlater : ∃ len ∈ lens, len < 0 := by
          obtain ⟨len', hlen', hneg⟩ := h
          rcases List.mem_cons.mp hlen' with rfl | hlen'
          · obtain ⟨e, s', he⟩ := addDimension_fails p last hneg
              (if last.isNone then size else .one) r.store
            cases he.symm.trans hs'
          · exact ⟨len', hlen', hneg⟩
        obtain ⟨e, r', he, hne⟩ := ih (r := { r₁ with store := s }) ho' hlater
        exact ⟨e, r', (bind_eq _ ha).trans he, hne⟩

theorem allocateMultiarray_eq (p : Profile) (size : NonZeroU16) {r : Runtime}
    (ho : Offers r.context rest d lens.reverse) (h : ∀ len ∈ lens, 0 ≤ len) :
    allocateMultiarray p d size r = requestMultiarray p d size r := by
  apply bind_alike
  intro _ r₁ hlock
  obtain ⟨s, -, rfl⟩ := onStore_ok hlock
  exact bind_from _ (addDimensions_eq p size ho h)

theorem allocateMultiarray_fails (p : Profile) (size : NonZeroU16) {r : Runtime}
    (ho : Offers r.context rest d lens.reverse) (h : ∃ len ∈ lens, len < 0) :
    ∃ e r', allocateMultiarray p d size r = .error e r' ∧ ∀ x, e ≠ .error x := by
  rw [allocateMultiarray]
  cases hlock : onStore (lockOrStop p) r with
  | error e r₁ =>
    refine ⟨e, r₁, bind_error _ hlock, ?_⟩
    rintro x rfl
    exact onStore_silent (Silent.lockOrStop p) r x r₁ hlock
  | ok u r₁ =>
    obtain ⟨s, -, rfl⟩ := onStore_ok hlock
    obtain ⟨e, r', he, hne⟩ := addDimensions_fails (r := { r with store := s }) p size ho h
    exact ⟨e, r', (bind_eq _ hlock).trans (bind_error _ he), hne⟩

end

namespace ArrayInstr
variable {instr : ArrayInstr} {cls : ClassRef} {r r' : Runtime} {counts : List Int32}

theorem Sized.context (h : instr.Sized cls r r' size) : r'.context = r.context := by
  cases instr with
  | newArray t => rw [h.1]
  | aNewArray refIdx =>
    obtain ⟨-, found, hfound⟩ := h
    obtain ⟨t, -, rfl⟩ := onTable_ok hfound
    rfl
  | multiANewArray refIdx dim =>
    obtain ⟨-, found, hfound, -⟩ := h
    obtain ⟨t, -, rfl⟩ := onTable_ok hfound
    rfl

theorem execute_eq [FloatArith] (p : Profile) (lastPc : UInt16) (h : instr.Sized cls r r' size) :
    execute p cls lastPc instr.opcode r = (do
      let instance_ ← instr.allocate p size
      apush instance_
      pure .next : VM Runtime Outcome) r' := by
  cases instr with
  | newArray t =>
    obtain ⟨rfl, prim, ht, rfl⟩ := h
    change Janadinite.newArray p t r' = _
    rw [Janadinite.newArray, ht, allocate, bind_assoc]
    rfl
  | aNewArray refIdx =>
    obtain ⟨rfl, found, hfound⟩ := h
    change Janadinite.aNewArray p cls refIdx r = _
    rw [Janadinite.aNewArray, bind_eq _ hfound, allocate, bind_assoc]
  | multiANewArray refIdx dim =>
    obtain ⟨hdim, found, hfound, rfl⟩ := h
    exact multiANewArray_eq p cls refIdx hdim hfound

theorem allocate_eq (p : Profile) (size : NonZeroU16)
    (ho : Offers r.context rest instr.dimensions counts) (h : ∀ len ∈ counts, 0 ≤ len) :
    instr.allocate p size r = instr.request p size r := by
  rw [← List.reverse_reverse counts] at ho
  have hrev : ∀ len ∈ counts.reverse, 0 ≤ len := fun len hlen => h len (List.mem_reverse.mp hlen)
  have hone : Offers r.context rest 1 counts.reverse.reverse →
      (ipop p >>= fun len => onStore (allocateArray p (usizeOf len) size)) r =
        (ipop p >>= fun len => onStore (requestArray p len size)) r := by
    intro ho
    apply bind_alike
    intro len r₁ hlen
    rw [allocateArray_eq p (hrev len (ho.ipop p hlen))]
  cases instr with
  | newArray t => exact hone ho
  | aNewArray refIdx => exact hone ho
  | multiANewArray refIdx dim => exact allocateMultiarray_eq p size ho hrev

theorem allocate_silent (p : Profile) (size : NonZeroU16)
    (ho : Offers r.context rest instr.dimensions counts) (h : ∃ len ∈ counts, len < 0) (x : VMError)
    (r₁ : Runtime) : instr.allocate p size r ≠ .error (.error x) r₁ := by
  intro hr
  rw [← List.reverse_reverse counts] at ho
  obtain ⟨len, hlen, hneg⟩ := h
  rw [← List.mem_reverse] at hlen
  have hone : Offers r.context rest 1 counts.reverse.reverse →
      (ipop p >>= fun len => onStore (allocateArray p (usizeOf len) size)) r ≠
        .error (.error x) r₁ := by
    intro ho hr
    cases hrev : counts.reverse with
    | nil =>
      rw [hrev] at hlen
      cases hlen
    | cons len lens =>
      rw [hrev, List.reverse_cons] at ho
      obtain ⟨hs, hstart, -⟩ := ho.next
      have hpop : ipop p r = .ok len { r with context := { r.context with
          stack := rest ++ lens.reverse.map .fromI32 } } := by
        have hr : r = r.onStack ((rest ++ lens.reverse.map .fromI32) ++ [.fromI32 len]) := by
          rw [← hs]
          rfl
        exact hr ▸ ipop_pops p len r _ hstart
      exact onStore_silent (Silent.allocateArray p _ size) _ x r₁ ((bind_eq _ hpop).symm.trans hr)
  cases instr with
  | newArray t => exact hone ho hr
  | aNewArray refIdx => exact hone ho hr
  | multiANewArray refIdx dim =>
    obtain ⟨e, r₂, he, hne⟩ := allocateMultiarray_fails p size ho ⟨len, hlen, hneg⟩
    cases he.symm.trans hr
    exact hne x rfl

end ArrayInstr

/-- The lengths that are popped are what is asked for exactly when none of them is negative: for a
negative length there is no error that is returned. -/
theorem requests_iff [FloatArith] {instr : ArrayInstr} {r r' : Runtime} {counts : List Int32}
    (hsize : instr.Sized cls r r' size) (ho : Offers r.context rest instr.dimensions counts) :
    instr.Requests p cls lastPc r r' size counts ↔ ∀ len ∈ counts, 0 ≤ len := by
  have ho' : Offers r'.context rest instr.dimensions counts := hsize.context ▸ ho
  rw [ArrayInstr.Requests, ArrayInstr.execute_eq p lastPc hsize]
  constructor
  · intro ⟨_, hrefused⟩
    by_contra h
    have hneg : ∃ len ∈ counts, len < 0 := by
      simpa only [not_forall, exists_prop, Int32.not_le] using h
    obtain ⟨x, r₁, hr, -⟩ := hrefused hneg
    cases ha : instr.allocate p size r' with
    | ok a r₂ => cases (bind_eq _ ha).symm.trans hr
    | error e r₂ =>
      cases (bind_error _ ha).symm.trans hr
      exact absurd ha (ArrayInstr.allocate_silent p size ho' hneg x _)
  · intro h
    refine ⟨fun _ => bind_from _ (ArrayInstr.allocate_eq p size ho' h), ?_⟩
    rintro ⟨len, hmem, hlen⟩
    exact absurd (h len hmem) (Int32.not_le.mpr hlen)

/-- A length of -1 is a panic while `HEAP` is locked. -/
theorem newArray_minus_one_panics :
    (¬ @ArrayInstr.Requests noFloats ⟨false⟩ 0 0 (.newArray 10) (withCounts [-1]) (withCounts [-1])
      .one [-1]) ∧
    ∃ r', @execute noFloats ⟨false⟩ 0 0 (.newArray 10) (withCounts [-1]) =
      .error (.panic "capacity overflow") r' ∧ r'.store.locked = true := by
  have hrun : ∃ r', @execute noFloats ⟨false⟩ 0 0 (.newArray 10) (withCounts [-1]) =
      .error (.panic "capacity overflow") r' ∧ r'.store.locked = true := ⟨_, rfl, rfl⟩
  refine ⟨?_, hrun⟩
  intro h
  obtain ⟨r', hr', -⟩ := hrun
  obtain ⟨x, r₁, hr, -⟩ := h.2 ⟨-1, List.mem_singleton_self _, by decide⟩
  cases hr'.symm.trans hr

theorem longGrid_requests : @ArrayInstr.Requests noFloats ⟨true⟩ 0 0 (.multiANewArray 1 2)
    (longGrid [2, 3]) (longGrid [2, 3]) .two [2, 3] :=
  (@requests_iff 0 .two [] ⟨true⟩ 0 noFloats (.multiANewArray 1 2) (longGrid [2, 3])
    (longGrid [2, 3]) [2, 3] ⟨by decide, _, rfl, rfl⟩ (withCounts_offers [2, 3])).mpr
      (List.forall_mem_cons.mpr ⟨by decide, List.forall_mem_singleton.mpr (by decide)⟩)

end Janadinite
