import Janadinite.Vm.ArrayShape
import Janadinite.Vm.FieldAccess

namespace Janadinite
open Hoare Layout
open ThreadContext (popSlotOr apop ipop lpop pushSlot)
set_option autoImplicit true

/-- The instructions on elements of two slots, with the value that a store writes. -/
inductive WideAccess where
  | laLoad
  | daLoad
  | laStore (v : Int64)
  | daStore (v : F64)
  deriving DecidableEq, Repr

namespace WideAccess

def opcode : WideAccess → OpCode
  | laLoad => .laLoad
  | daLoad => .daLoad
  | laStore _ => .laStore
  | daStore _ => .daStore

def value? : WideAccess → Option JVMValue
  | laLoad => none
  | daLoad => none
  | laStore v => some (.long v)
  | daStore v => some (.double v)

def operands (access : WideAccess) (a : Addr) (index : Int32) : List JVMSlot :=
  [.fromObject a, .fromI32 index] ++ resultSlots access.value?

def pushed (access : WideAccess) (data : List JVMSlot) (i : Nat) : List JVMSlot :=
  match access.value? with
  | none => slice data (2 * i) 2
  | some _ => []

/-- The slots of the array after the access to an element. -/
def updated (access : WideAccess) (data : List JVMSlot) (i : Nat) : List JVMSlot :=
  match access.value? with
  | none => data
  | some v => overwrite data (2 * i) v.toSlots

/-- The store after the access, before the reference to the array is dropped. -/
def accessed (access : WideAccess) (s : Store) (a : Addr) (o : Object) (i : Nat) : Store :=
  match access.value? with
  | none => s
  | some v => s.withSlots a o (2 * i) v.toSlots

end WideAccess

/-- An array of `n` elements of two slots, which hold numbers. -/
structure WideArray (s : Store) (a : Addr) (o : Object) (n : Nat) : Prop where
  fits : a.Fits
  object : s.memory a = some o
  kind : o.kind = .array .two
  length : o.data.length = 2 * n
  bound : n < 2 ^ 31
  numbers : ∀ slot ∈ o.data, slot.object? = none

namespace WideAccess

/-- The element is accessed where there is one, and otherwise the index is not in bounds. -/
def Accesses [FloatArith] (p : Profile) (cls : ClassRef) (lastPc : UInt16) (access : WideAccess)
    (r : Runtime) (rest : List JVMSlot) (a : Addr) (o : Object) (n : Nat) (index : Int32) : Prop :=
  if 0 ≤ index ∧ index.toNatClampNeg < n then
    ∃ r', execute p cls lastPc access.opcode (r.onStack (rest ++ access.operands a index)) =
        .ok .next r' ∧
      r'.context = (r.onStack (rest ++ access.pushed o.data index.toNatClampNeg)).context ∧
      ∀ o', r'.store.memory a = some o' → o'.data = access.updated o.data index.toNatClampNeg
  else
    ∃ r', execute p cls lastPc access.opcode (r.onStack (rest ++ access.operands a index)) =
        .error (.error (.indexOutOfBounds index)) r' ∧
      ∀ o', r'.store.memory a = some o' → o'.data = o.data

/-- The rest of the access, once both places are known to be in the array. -/
def finish (access : WideAccess) (p : Profile) (a : Addr) (index : Int32) (second : Nat) :
    VM Runtime Outcome := do
  match access.value? with
  | none => do
    cloneData p a (usizeOf index)
    cloneData p a second
  | some v =>
    match v.toSlots with
    | [low, high] => do
      onStore (assignData p a (usizeOf index) low)
      onStore (assignData p a second high)
    | _ => pure ⟨⟩
  onStore (dropRef p a)
  pure .next

def atDoubled (access : WideAccess) (p : Profile) (index : Int32) : VM Runtime Outcome := do
  let reference ← apop
  let second ← onStore (checkWide p reference index)
  access.finish p reference index second

end WideAccess

section
variable [FloatArith]

theorem WideAccess.execute_eq (p : Profile) (cls : ClassRef) (lastPc : UInt16)
    (access : WideAccess) (a : Addr) (index : Int32) {r : Runtime} (hs : r.context.Spans rest) :
    execute p cls lastPc access.opcode (r.onStack (rest ++ access.operands a index)) =
      (checked (p.mulI32 index 2) >>= access.atDoubled p)
        (r.onStack (rest ++ [.fromObject a])) := by
  have hs' := hs.append [.fromObject a]
  have hindex : ∀ f : Int32 → VM Runtime Outcome, (wideIndex p >>= f)
      (r.onStack (rest ++ [.fromObject a, .fromI32 index])) =
        (checked (p.mulI32 index 2) >>= f) (r.onStack (rest ++ [.fromObject a])) := by
    intro f
    have hsplit : rest ++ [.fromObject a, .fromI32 index] =
        (rest ++ [.fromObject a]) ++ [.fromI32 index] := by
      rw [List.append_assoc]
      rfl
    rw [hsplit, wideIndex, bind_assoc, (ipop_pops p index).bind _ hs']
  have hstore : ∀ v, wideArrayStore p (r.onStack (rest ++ ([.fromObject a, .fromI32 index] ++
      JVMSlot.fromI64 v))) = (checked (p.mulI32 index 2) >>= (laStore v).atDoubled p)
        (r.onStack (rest ++ [.fromObject a])) := by
    intro v
    rw [← List.append_assoc, wideArrayStore, (lpop_pops p v).bind _ (hs.append _)]
    exact hindex _
  cases access with
  | laLoad => exact hindex _
  | daLoad => exact hindex _
  | laStore v => exact hstore v
  | daStore v => exact hstore _

end

theorem WideAccess.atDoubled_eq (access : WideAccess) (p : Profile) {a : Addr} (h : a.Fits)
    (index : Int32) {r : Runtime} (hs : r.context.Spans rest) :
    access.atDoubled p index (r.onStack (rest ++ [.fromObject a])) =
      (onStore (checkWide p a index) >>= access.finish p a index) (r.onStack rest) :=
  (apop_pops h).bind _ hs

theorem checkWide_inside {s : Store} (h : s.memory a = some o)
    (hlt : usizeOf index + 1 < o.data.length) (hmax : usizeOf index + 1 < 2 ^ 64) :
    checkWide p a index s = .ok (usizeOf index + 1) s := by
  rw [checkWide, bind_eq _ (deref_eq h), p.add_eq hmax]
  change (if o.data.length ≤ usizeOf index + 1 then _ else pure _ : VM Store Nat) s = _
  rw [if_neg (by omega)]
  rfl

theorem checkWide_outside {s : Store} (h : s.memory a = some o)
    (hle : o.data.length ≤ usizeOf index + 1) (hlt : usizeOf index + 1 < 2 ^ 64) :
    checkWide p a index s = (do
      dropRef p a
      fail (.indexOutOfBounds index) : VM Store Nat) s := by
  rw [checkWide, bind_eq _ (deref_eq h), p.add_eq hlt]
  change (if o.data.length ≤ usizeOf index + 1 then _ else pure _ : VM Store Nat) s = _
  rw [if_pos hle]

theorem checkWide_ok {s s' : Store} (h : s.memory a = some o)
    (hlt : usizeOf index + 1 < 2 ^ 64) (hr : checkWide p a index s = .ok second s') :
    usizeOf index + 1 < o.data.length ∧ second = usizeOf index + 1 ∧ s' = s := by
  by_cases hle : o.data.length ≤ usizeOf index + 1
  · obtain ⟨_, s₁, -, hfail⟩ := bind_ok ((checkWide_outside h hle hlt).symm.trans hr)
    cases hfail
  · rw [checkWide, bind_eq _ (deref_eq h), p.add_eq hlt] at hr
    change (if o.data.length ≤ usizeOf index + 1 then _ else pure _ : VM Store Nat) s = _ at hr
    rw [if_neg hle] at hr
    cases hr
    exact ⟨Nat.lt_of_not_le hle, rfl, rfl⟩

/-- The error is returned once the reference is dropped. -/
theorem checkWide_error {s s' : Store} (hr : checkWide p a index s = .error (.error x) s') :
    x = .indexOutOfBounds index ∧ dropRef p a s = .ok ⟨⟩ s' := by
  obtain h | ⟨o, s₁, hd⟩ : (∃ e s₁, deref a s = .error e s₁) ∨ ∃ o s₁, deref a s = .ok o s₁ := by
    cases hd : deref a s with
    | ok o s₁ => exact .inr ⟨o, s₁, rfl⟩
    | error e s₁ => exact .inl ⟨e, s₁, rfl⟩
  · obtain ⟨e, s₁, he⟩ := h
    cases (bind_error _ he).symm.trans hr
    exact absurd he (Silent.deref a s x _)
  · obtain ⟨-, rfl⟩ := deref_ok hd
    rw [checkWide, bind_eq _ hd] at hr
    cases hadd : p.add 64 (usizeOf index) 1 with
    | error msg =>
      rw [hadd] at hr
      cases hr
    | ok m =>
      rw [hadd] at hr
      change (if o.data.length ≤ m then _ else pure _ : VM Store Nat) s₁ = _ at hr
      split at hr
      · cases hdrop : dropRef p a s₁ with
        | error e s₂ =>
          cases (bind_error _ hdrop).symm.trans hr
          exact absurd hdrop (Silent.dropRef p a s₁ x _)
        | ok u s₂ =>
          cases (bind_eq _ hdrop).symm.trans hr
          exact ⟨rfl, rfl⟩
      · cases hr

theorem indexData_eq {s : Store} (h : s.memory a = some o) (hi : o.data[i]? = some slot) :
    indexData a i s = .ok slot s := by
  rw [indexData, bind_eq _ (deref_eq h), hi]
  rfl

theorem cloneData_plain (p : Profile) {r : Runtime} (h : r.store.memory a = some o)
    (hi : o.data[i]? = some slot) (hslot : slot.object? = none) :
    cloneData p a i r = .ok ⟨⟩ (r.onStack (r.context.stack ++ [slot])) := by
  rw [cloneData, bind_eq _ (onStore_eq (indexData_eq h hi)),
    bind_eq _ (onStore_eq (cloneSlot_null hslot))]
  rfl

theorem assignData_plain (p : Profile) {s : Store} (h : s.memory a = some o)
    (hi : o.data[i]? = some old) (hold : old.object? = none) (slot : JVMSlot) :
    assignData p a i slot s = .ok ⟨⟩ (s.withSlots a o i [slot]) := by
  rw [assignData_eq h hi, dropSlot_plain p hold]
  rfl

theorem Store.withSlots_next (s : Store) (a : Addr) {o : Object}
    (h : off + slots.length ≤ o.data.length) (slots' : List JVMSlot) :
    (s.withSlots a o off slots).withSlots a { o with data := overwrite o.data off slots }
      (off + slots.length) slots' = s.withSlots a o off (slots ++ slots') := by
  rw [withSlots, withSlots, withSlots, write_write, overwrite_next h]

theorem WideAccess.value?_slots {access : WideAccess} (h : access.value? = some v) :
    ∃ low high, v.toSlots = [low, high] ∧ low.object? = none ∧ high.object? = none := by
  cases access <;> cases h <;>
    exact ⟨_, _, rfl, JVMSlot.object?_fromI32 _, JVMSlot.object?_fromI32 _⟩

theorem WideAccess.finish_load (p : Profile) {r : Runtime} (hv : access.value? = none)
    (ha : a.Fits) (ho : r.store.memory a = some o) (hx : o.data[i]? = some x)
    (hy : o.data[i + 1]? = some y) (hxn : x.object? = none) (hyn : y.object? = none)
    (hi : usizeOf index = i) (rest : List JVMSlot) :
    WideAccess.finish access p a index (i + 1) (r.onStack rest) = (do
        onStore (dropSlots p [.fromObject a])
        pure .next : VM Runtime Outcome) (r.onStack (rest ++ [x, y])) := by
  have hstack : rest ++ [x, y] = (rest ++ [x]) ++ [y] := by
    rw [List.append_assoc]
    rfl
  have hfirst := cloneData_plain p (r := r.onStack rest) ho hx hxn
  have hsecond := cloneData_plain p (r := r.onStack (rest ++ [x])) ho hy hyn
  rw [finish, hv, hi, dropSlots_reference p ha]
  change (cloneData p a i >>= fun _ => cloneData p a (i + 1) >>= fun _ => (do
    onStore (dropRef p a)
    pure .next : VM Runtime Outcome)) (r.onStack rest) = _
  rw [hstack, bind_eq _ hfirst]
  exact bind_eq _ hsecond

theorem WideAccess.finish_store (p : Profile) (a : Addr) (second : Nat)
    (hv : access.value? = some v) (hslots : v.toSlots = [low, high]) :
    WideAccess.finish access p a index second = (do
      onStore (assignData p a (usizeOf index) low)
      onStore (assignData p a second high)
      onStore (dropRef p a)
      pure .next : VM Runtime Outcome) := by
  rw [finish, hv]
  simp only [hslots]

/-- Inside the array the element is pushed or written before the reference is dropped. -/
theorem WideAccess.finish_eq (access : WideAccess) (p : Profile) {r : Runtime} {o : Object}
    (h : WideArray r.store a o n) (hi : usizeOf index = 2 * i) (hlt : 2 * i + 1 < o.data.length)
    (rest : List JVMSlot) :
    access.finish p a index (2 * i + 1) (r.onStack rest) = (do
        onStore (dropSlots p [.fromObject a])
        pure .next : VM Runtime Outcome)
      { r.onStack (rest ++ access.pushed o.data i) with
        store := access.accessed r.store a o i } := by
  obtain ⟨x, hx⟩ : ∃ x, o.data[2 * i]? = some x :=
    ⟨_, List.getElem?_eq_getElem (Nat.lt_of_succ_lt hlt)⟩
  obtain ⟨y, hy⟩ : ∃ y, o.data[2 * i + 1]? = some y := ⟨_, List.getElem?_eq_getElem hlt⟩
  have hxn := h.numbers x (List.mem_of_getElem? hx)
  have hyn := h.numbers y (List.mem_of_getElem? hy)
  rw [pushed, accessed]
  cases hv : access.value? with
  | none =>
    have hslice : slice o.data (2 * i) 2 = [x, y] := by
      rw [slice_succ hx, slice_succ hy]
      rfl
    rw [WideAccess.finish_load p hv h.fits h.object hx hy hxn hyn hi rest, hslice]
    rfl
  | some v =>
    obtain ⟨low, high, hslots, -, -⟩ := WideAccess.value?_slots hv
    have hfirst := assignData_plain p h.object hx hxn low
    have hlen : 2 * i + [low].length ≤ o.data.length := Nat.le_of_lt hlt
    have hy' : (overwrite o.data (2 * i) [low])[2 * i + 1]? = some y := by
      rw [overwrite_other hlen, hy]
      exact fun hw => Nat.lt_irrefl _ hw.2
    have hsecond : assignData p a (2 * i + 1) high (r.store.withSlots a o (2 * i) [low]) =
        .ok ⟨⟩ (r.store.withSlots a o (2 * i) [low, high]) :=
      (assignData_plain p (Store.memory_write_self ..) hy' hyn high).trans
        (congrArg (EStateM.Result.ok PUnit.unit) (r.store.withSlots_next a hlen [high]))
    rw [WideAccess.finish_store p a _ hv hslots, hi, dropSlots_reference p h.fits,
      bind_eq _ (onStore_eq (r := r.onStack rest) hfirst)]
    simp only [hslots, List.append_nil]
    exact bind_eq _ (onStore_eq hsecond)

theorem usizeOf_int (i : Int32) : (usizeOf i : Int) = i.toInt % 2 ^ 64 := by
  have hmin := i.le_toInt
  have hmax := i.toInt_lt
  have hc := BitVec.toInt_eq_toNat_cond i.toInt64.toBitVec
  have hi : i.toInt64.toBitVec.toInt = i.toInt := Int32.toInt_toInt64 i
  have hlt := i.toInt64.toBitVec.isLt
  change (i.toInt64.toBitVec.toNat : Int) = _
  split at hc <;> omega

theorem toInt_double (index : Int32) :
    ∃ k : Int, (index * 2).toInt = 2 * index.toInt + 2 ^ 32 * k := by
  have hm : (index * 2).toInt = (index.toInt * 2).bmod (2 ^ 32) := Int32.toInt_mul index 2
  have hd := Int.bmod_add_bdiv (index.toInt * 2) (2 ^ 32)
  refine ⟨-(index.toInt * 2).bdiv (2 ^ 32), ?_⟩
  rw [hm]
  omega

theorem mulI32_cases (p : Profile) (index : Int32) :
    (∃ msg, p.mulI32 index 2 = .error msg ∧ ¬ (-2 ^ 30 ≤ index.toInt ∧ index.toInt < 2 ^ 30)) ∨
      p.mulI32 index 2 = .ok (index * 2) := by
  have htwo : (2 : Int32).toInt = 2 := rfl
  rw [Profile.mulI32, Profile.i32, htwo]
  split
  · exact .inr rfl
  · rename_i hr
    split
    · exact .inl ⟨_, rfl, fun h => hr (by omega)⟩
    · exact .inr rfl

/-- The doubled index is even, also when it has wrapped around. -/
theorem usizeOf_double (index : Int32) : ∃ i, usizeOf (index * 2) = 2 * i ∧ 2 * i + 1 < 2 ^ 64 := by
  obtain ⟨k, hk⟩ := toInt_double index
  have hu := usizeOf_int (index * 2)
  exact ⟨usizeOf (index * 2) / 2, by omega, by omega⟩

theorem WideAccess.accessed_data (access : WideAccess) {s : Store} (h : s.memory a = some o)
    (i : Nat) :
    ∃ o', (access.accessed s a o i).memory a = some o' ∧
      o'.data = access.updated o.data i := by
  rw [accessed, updated]
  cases access.value? with
  | none => exact ⟨o, h, rfl⟩
  | some v => exact ⟨_, Store.memory_write_self .., rfl⟩

section
variable [FloatArith] {access : WideAccess} {r : Runtime} {o : Object}

theorem WideAccess.execute_cases (p : Profile) (cls : ClassRef) (lastPc : UInt16)
    (access : WideAccess) (h : a.Fits) (index : Int32) (hs : r.context.Spans rest) :
    (¬ (-2 ^ 30 ≤ index.toInt ∧ index.toInt < 2 ^ 30) ∧ ∃ msg r',
      execute p cls lastPc access.opcode (r.onStack (rest ++ access.operands a index)) =
        .error (.panic msg) r') ∨
    execute p cls lastPc access.opcode (r.onStack (rest ++ access.operands a index)) =
      (onStore (checkWide p a (index * 2)) >>= access.finish p a (index * 2)) (r.onStack rest) := by
  rw [access.execute_eq p cls lastPc a index hs]
  rcases mulI32_cases p index with ⟨msg, hmul, hr⟩ | hmul
  · rw [hmul]
    exact .inl ⟨hr, msg, _, rfl⟩
  · rw [hmul]
    exact .inr (access.atDoubled_eq p h _ hs)

theorem WideAccess.run_small (p : Profile) (cls : ClassRef) (lastPc : UInt16)
    (access : WideAccess) (ha : a.Fits) (ho : r.store.memory a = some o) (hs : r.context.Spans rest)
    {i : Nat} (hi : index.toInt = (i : Int)) (hn : 2 * i + 1 < o.data.length)
    (hsmall : i < 2 ^ 30) : usizeOf (index * 2) = 2 * i ∧
      execute p cls lastPc access.opcode (r.onStack (rest ++ access.operands a index)) =
        access.finish p a (index * 2) (2 * i + 1) (r.onStack rest) := by
  have husize : usizeOf (index * 2) = 2 * i := by
    obtain ⟨k, hk⟩ := toInt_double index
    have hu := usizeOf_int (index * 2)
    have hmin := (index * 2).le_toInt
    have hmax := (index * 2).toInt_lt
    omega
  have hcheck : checkWide p a (index * 2) r.store = .ok (2 * i + 1) r.store := by
    rw [checkWide_inside ho (by omega) (by omega), husize]
  refine ⟨husize, ?_⟩
  rcases access.execute_cases p cls lastPc ha index hs with ⟨hr, -⟩ | hrun
  · exact absurd ⟨by omega, by omega⟩ hr
  · rw [hrun]
    exact bind_eq _ (onStore_eq (r := r.onStack rest) hcheck)

theorem WideAccess.run_inside (p : Profile) (cls : ClassRef) (lastPc : UInt16)
    (h : WideArray r.store a o n) (hs : r.context.Spans rest) {i : Nat}
    (hi : index.toInt = (i : Int)) (hn : i < n) (hsmall : i < 2 ^ 30) :
    execute p cls lastPc access.opcode (r.onStack (rest ++ access.operands a index)) = (do
        onStore (dropSlots p [.fromObject a])
        pure .next : VM Runtime Outcome)
      { r.onStack (rest ++ access.pushed o.data i) with
        store := access.accessed r.store a o i } := by
  have hin : 2 * i + 1 < o.data.length := by
    have hlen := h.length
    omega
  obtain ⟨husize, hrun⟩ := access.run_small p cls lastPc h.fits h.object hs hi hin hsmall
  rw [hrun]
  exact access.finish_eq p h husize hin rest

/-- From the index 2^30 on an element is not accessed. -/
theorem WideAccess.run_beyond (p : Profile) (cls : ClassRef) (lastPc : UInt16)
    (access : WideAccess) (ha : a.Fits) (ho : r.store.memory a = some o)
    (hlen : o.data.length < 2 ^ 32) (hs : r.context.Spans rest) (hi : 2 ^ 30 ≤ index.toInt)
    (out : Outcome) (r' : Runtime) :
    execute p cls lastPc access.opcode (r.onStack (rest ++ access.operands a index)) ≠
      .ok out r' := by
  intro hr
  rcases access.execute_cases p cls lastPc ha index hs with ⟨-, msg, r₁, hrun⟩ | hrun
  · cases hrun.symm.trans hr
  · have houtside : o.data.length ≤ usizeOf (index * 2) + 1 ∧
        usizeOf (index * 2) + 1 < 2 ^ 64 := by
      obtain ⟨k, hk⟩ := toInt_double index
      obtain ⟨j, hj, hlt⟩ := usizeOf_double index
      have hu := usizeOf_int (index * 2)
      have hmin := (index * 2).le_toInt
      have hmax := (index * 2).toInt_lt
      have hmax' := index.toInt_lt
      omega
    obtain ⟨second, r₁, hcheck, -⟩ := bind_ok (hrun.symm.trans hr)
    obtain ⟨s, hcheck, -⟩ := onStore_ok hcheck
    have hin := (checkWide_ok ho houtside.2 hcheck).1
    exact absurd hin (Nat.not_lt_of_le houtside.1)

/-- The index that is reported is the doubled one, once the reference is dropped. -/
theorem WideAccess.run_error (h : WideArray r.store a o n) (hs : r.context.Spans rest)
    (hr : execute p cls lastPc access.opcode (r.onStack (rest ++ access.operands a index)) =
      .error (.error x) r') :
    x = .indexOutOfBounds (index * 2) ∧ dropRef p a r.store = .ok ⟨⟩ r'.store := by
  rcases access.execute_cases p cls lastPc h.fits index hs with ⟨-, msg, r₁, hrun⟩ | hrun
  · cases hrun.symm.trans hr
  · have hr' := hrun.symm.trans hr
    obtain ⟨i, hi, hlt⟩ := usizeOf_double index
    cases hc : checkWide p a (index * 2) r.store with
    | error e s =>
      cases (bind_error _ (onStore_error (r := r.onStack rest) hc)).symm.trans hr'
      exact checkWide_error hc
    | ok second s =>
      obtain ⟨hin, rfl, rfl⟩ := checkWide_ok h.object (by omega) hc
      rw [hi] at hin hc
      have hfinish := access.finish_eq p h hi hin rest
      have hdrop := (bind_eq _ (onStore_eq (r := r.onStack rest) hc)).trans hfinish
      exact (dropping_silent _ _ _ _ _ (hdrop.symm.trans hr')).elim

/-- The elements of `long` and `double` arrays are accessed as they should be exactly below the
index 2^30, and outside of an array the index that is popped is reported only when it is 0, both
only when the reference to the array can be dropped. -/
theorem accesses_iff (h : WideArray r.store a o n) (hs : r.context.Spans rest) :
    access.Accesses p cls lastPc r rest a o n index ↔
      (0 ≤ index ∧ index.toNatClampNeg < n ∧ index.toNatClampNeg < 2 ^ 30 ∧
        (access.accessed r.store a o index.toNatClampNeg).Drops p [.fromObject a]) ∨
      (index = 0 ∧ n = 0 ∧ r.store.Drops p [.fromObject a]) := by
  have hnat : (index.toNatClampNeg : Int) = max index.toInt 0 := Int.toNat_eq_max _
  have hnonneg : 0 ≤ index ↔ 0 ≤ index.toInt := Int32.le_iff_toInt_le
  rw [WideAccess.Accesses]
  by_cases hin : 0 ≤ index ∧ index.toNatClampNeg < n
  · rw [if_pos hin]
    have hpos := hnonneg.mp hin.1
    by_cases hsmall : index.toNatClampNeg < 2 ^ 30
    · have hi := (Int32.cast_toNatClampNeg index hin.1).symm
      have hrun := access.run_inside p cls lastPc h hs hi hin.2 hsmall
      constructor
      · rintro ⟨r', hr', -⟩
        exact .inl ⟨hin.1, hin.2, hsmall, (ends_dropping ..).mp ⟨r', hrun.symm.trans hr'⟩⟩
      · rintro (⟨-, -, -, s, hdrops⟩ | ⟨-, rfl, -⟩)
        · refine ⟨{ r.onStack (rest ++ access.pushed o.data index.toNatClampNeg) with store := s },
            hrun.trans (bind_eq _ (onStore_eq hdrops)), rfl, ?_⟩
          intro o' ho'
          obtain ⟨o₁, ho₁, -, hd⟩ := dropSlots_recounted hdrops a o' ho'
          obtain ⟨o₂, ho₂, hd₂⟩ := access.accessed_data h.object index.toNatClampNeg
          cases ho₁.symm.trans ho₂
          exact hd.trans hd₂
        · exact absurd hin.2 (Nat.not_lt_zero _)
    · constructor
      · rintro ⟨r', hr', -⟩
        have hlen := h.length
        have hbound := h.bound
        exact absurd hr'
          (access.run_beyond p cls lastPc h.fits h.object (by omega) hs (by omega) _ _)
      · rintro (⟨-, -, hlt, -⟩ | ⟨-, rfl, -⟩)
        · exact absurd hlt hsmall
        · exact absurd hin.2 (Nat.not_lt_zero _)
  · rw [if_neg hin]
    constructor
    · rintro ⟨r', hr', -⟩
      obtain ⟨hx, hdrop⟩ := WideAccess.run_error h hs hr'
      rw [← dropSlots_reference p h.fits] at hdrop
      have hx := VMError.indexOutOfBounds.inj hx
      have hzero : index.toInt = 0 := by
        obtain ⟨k, hk⟩ := toInt_double index
        have hmin := index.le_toInt
        have hmax := index.toInt_lt
        rw [← hx] at hk
        omega
      refine .inr ⟨Int32.toInt_inj.mp hzero, ?_, _, hdrop⟩
      apply Classical.byContradiction
      intro hn
      exact hin ⟨hnonneg.mpr (by omega), by omega⟩
    · rintro (⟨h0, hn, -⟩ | ⟨rfl, rfl, s, hdrops⟩)
      · exact absurd ⟨h0, hn⟩ hin
      · rw [dropSlots_reference p h.fits] at hdrops
        have hlen : o.data.length = 0 := h.length
        have hcheck : checkWide p a 0 r.store = .error (.error (.indexOutOfBounds 0)) s :=
          (checkWide_outside h.object (by omega) (by decide)).trans (bind_eq _ hdrops)
        rcases access.execute_cases p cls lastPc h.fits 0 hs with ⟨hr, -⟩ | hrun
        · exact absurd (by decide) hr
        · refine ⟨_, hrun.trans (bind_error _ (onStore_error (r := r.onStack rest) hcheck)), ?_⟩
          intro o' ho'
          obtain ⟨o₁, ho₁, -, hd⟩ := dropRef_recounted hdrops a o' ho'
          cases ho₁.symm.trans h.object
          exact hd

end

theorem allocateArray_ok {s s' : Store} (h : allocateArray p count size s = .ok a s') :
    ∃ slots, p.mul 64 count size.val.toNat = .ok slots ∧ slots * 8 < 2 ^ 63 ∧ a.Fits ∧
      s'.memory a = some ⟨2, 0, .array size, List.replicate slots .null⟩ := by
  obtain ⟨slots, s₁, hmul, h₁⟩ := bind_ok h
  obtain ⟨_, s₂, -, h₂⟩ := bind_ok h₁
  obtain ⟨b, s₃, halloc, h₃⟩ := bind_ok h₂
  obtain ⟨data, s₄, hdata, hobj⟩ := bind_ok halloc
  obtain ⟨n, hfree, -, rfl, rfl⟩ := allocateFromObject_ok hobj
  cases h₃
  cases hm : p.mul 64 count size.val.toNat with
  | error msg =>
    rw [hm] at hmul
    cases hmul
  | ok m =>
    rw [hm] at hmul
    cases hmul
    rw [newData] at hdata
    split at hdata
    · rename_i hle
      cases hdata
      exact ⟨slots, rfl, hle, hfree.1, Store.memory_write_self ..⟩
    · cases hdata

theorem newArray_ok {r r' : Runtime} (ht : PrimitiveArrayType.fromRaw t = some prim)
    (hs : r.context.Spans rest)
    (h : newArray p t (r.onStack (rest ++ [.fromI32 len])) = .ok out r') :
    0 ≤ len ∧ ∃ a, a.Fits ∧ r'.context.stack = rest ++ [.fromObject a] ∧
      r'.store.memory a = some ⟨2, 0, .array prim.slotCount,
        List.replicate (len.toNatClampNeg * prim.slotCount.val.toNat) .null⟩ := by
  rw [newArray, ht] at h
  change (ipop p >>= _) _ = _ at h
  rw [(ipop_pops p len).bind _ hs] at h
  obtain ⟨a, r₁, halloc, hpush⟩ := bind_ok h
  obtain ⟨s, hs', rfl⟩ := onStore_ok halloc
  cases hpush
  obtain ⟨slots, hmul, hlt, hfits, ho⟩ := allocateArray_ok hs'
  have hlen : 0 ≤ len := by
    rcases Int32.lt_or_le len 0 with hneg | hle
    · exact absurd hlt (Nat.not_lt.mpr (slots_of_neg hneg hmul))
    · exact hle
  cases (slots_of_nonneg p hlen prim.slotCount).1.symm.trans hmul
  exact ⟨hlen, a, hfits, rfl, ho⟩

/-- `NewArray` of `long` or `double` makes arrays of elements of two slots. -/
theorem newArray_wide {r r' : Runtime} (ht : PrimitiveArrayType.fromRaw t = some prim)
    (hwide : prim.slotCount = .two) (hs : r.context.Spans rest)
    (h : newArray p t (r.onStack (rest ++ [.fromI32 len])) = .ok out r') :
    0 ≤ len ∧ ∃ a o, r'.context.stack = rest ++ [.fromObject a] ∧
      WideArray r'.store a o len.toNatClampNeg := by
  obtain ⟨hlen, a, hfits, hstack, ho⟩ := newArray_ok ht hs h
  rw [hwide] at ho
  refine ⟨hlen, a, _, hstack, hfits, ho, rfl, ?_, len.toNatClampNeg_lt, ?_⟩
  · exact List.length_replicate.trans (Nat.mul_comm _ _)
  · intro slot hslot
    rw [List.eq_of_mem_replicate hslot]
    exact JVMSlot.object?_null

theorem WideArray.updated {s s' : Store} (h : WideArray s a o n) (access : WideAccess) (hi : i < n)
    (ho' : s'.memory a = some o') (hk : o'.kind = o.kind)
    (hd : o'.data = access.updated o.data i) : WideArray s' a o' n := by
  have hlen := h.length
  cases hv : access.value? with
  | none =>
    rw [WideAccess.updated, hv] at hd
    exact ⟨h.fits, ho', hk.trans h.kind, hd ▸ hlen, h.bound, hd ▸ h.numbers⟩
  | some v =>
    obtain ⟨low, high, hslots, hl, hh⟩ := WideAccess.value?_slots hv
    simp only [WideAccess.updated, hv, hslots] at hd
    have hin : 2 * i + [low, high].length ≤ o.data.length := by
      change 2 * i + 2 ≤ _
      omega
    refine ⟨h.fits, ho', hk.trans h.kind, ?_, h.bound, ?_⟩
    · rw [hd, length_overwrite hin, hlen]
    · intro slot hslot
      rw [hd, overwrite, List.mem_append, List.mem_append] at hslot
      rcases hslot with (hslot | hslot) | hslot
      · exact h.numbers slot (List.mem_of_mem_take hslot)
      · rcases List.mem_cons.mp hslot with rfl | hslot
        · exact hl
        · rw [List.mem_singleton.mp hslot]
          exact hh
      · exact h.numbers slot (List.mem_of_mem_drop hslot)

def withLongs (n : Nat) : Runtime :=
  { withCounts [] with
    store := (withCounts []).store.write 8
      (some ⟨3, 0, .array .two, List.replicate (2 * n) .null⟩) }

theorem withLongs_wide (h : n < 2 ^ 31) : WideArray (withLongs n).store 8
    ⟨3, 0, .array .two, List.replicate (2 * n) .null⟩ n where
  fits := by decide
  object := rfl
  kind := rfl
  length := List.length_replicate
  bound := h
  numbers slot hslot := by
    rw [List.eq_of_mem_replicate hslot]
    exact JVMSlot.object?_null

/-- The index after the last is reported doubled, and without overflow checks the index -2^31 is
taken for 0. -/
theorem laLoad_index_wrong :
    ¬ @WideAccess.Accesses noFloats ⟨true⟩ 0 0 .laLoad (withLongs 1) [] 8
      ⟨3, 0, .array .two, [.null, .null]⟩ 1 1 ∧
    ∃ r', @execute noFloats ⟨false⟩ 0 0 .laLoad
      ((withLongs 1).onStack ([] ++ WideAccess.laLoad.operands 8 (-2147483648))) =
        .ok .next r' := by
  refine ⟨?_, _, rfl⟩
  rintro ⟨r', h, -⟩
  have hrun : ∃ r₁, @execute noFloats ⟨true⟩ 0 0 .laLoad
      ((withLongs 1).onStack ([] ++ WideAccess.laLoad.operands 8 1)) =
        .error (.error (.indexOutOfBounds 2)) r₁ := ⟨_, rfl⟩
  obtain ⟨r₁, hrun⟩ := hrun
  cases hrun.symm.trans h

theorem daStore_accesses : @WideAccess.Accesses noFloats ⟨true⟩ 0 0 (.daStore ⟨0x4000000000000000⟩)
    (withLongs 2) [] 8 ⟨3, 0, .array .two, List.replicate 4 .null⟩ 2 1 :=
  (@accesses_iff noFloats (.daStore ⟨0x4000000000000000⟩) (withLongs 2)
    ⟨3, 0, .array .two, List.replicate 4 .null⟩ 8 2 [] ⟨true⟩ 0 0 1 (withLongs_wide (by decide))
    (Nat.le_refl 0)).mpr (.inl ⟨by decide, by decide, by decide, _, rfl⟩)

end Janadinite
