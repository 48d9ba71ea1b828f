import Janadinite.Vm.Arithmetic
import Janadinite.Vm.Drops

namespace Janadinite
open Hoare
open ThreadContext (apop apush astore aload assignLocal assignLocals readContext_eq)
set_option autoImplicit true

inductive RefMove where
  | aStore (idx : UInt8)
  | wideAStore (idx : UInt16)
  | aload (idx : UInt8)
  | wideAload (idx : UInt16)
  | aaStore (array : Addr) (index : Int32)
  | aReturn
  deriving DecidableEq, Repr

/-- Where a reference is moved to, or from. -/
inductive RefPlace where
  | toLocal (idx : UInt16)
  | fromLocal (idx : UInt16)
  | toElement (array : Addr) (index : Int32)
  | toCaller

namespace RefMove

def opcode : RefMove → OpCode
  | aStore idx => .aStore idx
  | wideAStore idx => .wideAStore idx
  | aload idx => .aload idx
  | wideAload idx => .wideAload idx
  | aaStore _ _ => .aaStore
  | aReturn => .aReturn

def place : RefMove → RefPlace
  | aStore idx => .toLocal idx.toUInt16
  | wideAStore idx => .toLocal idx
  | aload idx => .fromLocal idx.toUInt16
  | wideAload idx => .fromLocal idx
  | aaStore array index => .toElement array index
  | aReturn => .toCaller

end RefMove

/-- A slot that holds null, or a reference to a live object. -/
def Store.RefSlot (s : Store) (x : JVMSlot) : Prop :=
  x = .null ∨ ∃ a o, x = .fromObject a ∧ a.Fits ∧ s.memory a = some o ∧ o.strong ≤ maxRefcount

namespace RefPlace

def operands (x : JVMSlot) : RefPlace → List JVMSlot
  | toLocal _ => [x]
  | fromLocal _ => []
  | toElement array index => [.fromObject array, .fromI32 index, x]
  | toCaller => [x]

/-- The place is there, and a local that is moved from holds the slot. -/
def Valid (r : Runtime) (x : JVMSlot) : RefPlace → Prop
  | toLocal idx => ∃ old, r.context.local? idx = some old
  | fromLocal idx => r.context.local? idx = some x
  | toElement array index => array.Fits ∧ ∃ o old, r.store.memory array = some o ∧
      o.data[usizeOf index]? = some old
  | toCaller => True

/-- After the move the slot is in the place, and nothing else of the frame or the array differs. -/
def Moved (r : Runtime) (rest : List JVMSlot) (x : JVMSlot) (out : Outcome) (r' : Runtime) :
    RefPlace → Prop
  | toLocal idx => out = .next ∧ r'.context = ((r.onStack rest).withLocal idx x).context
  | fromLocal _ => out = .next ∧ r'.context = (r.onStack (rest ++ [x])).context
  | toElement array index => out = .next ∧ r'.context = (r.onStack rest).context ∧
      ∀ o o', r.store.memory array = some o → r'.store.memory array = some o' →
        o'.data = o.data.set (usizeOf index) x
  | toCaller => ∃ v : JVMValue, out = .return (some v) ∧ v.toSlots = [x] ∧
      r'.context = (r.onStack rest).context

/-- What is dropped when the slot is moved can be dropped. -/
def Releases (p : Profile) (r : Runtime) (x : JVMSlot) : RefPlace → Prop
  | toLocal idx => ∀ old, r.context.local? idx = some old → r.store.Drops p [old]
  | fromLocal _ => True
  | toElement array index => ∀ o old, r.store.memory array = some o →
      o.data[usizeOf index]? = some old →
      (r.store.withSlots array o (usizeOf index) [x]).Drops p [old, .fromObject array]
  | toCaller => True

end RefPlace

/-- The instruction succeeds, and preserves the reference or null that it moves. -/
def RefMove.Moves [FloatArith] (p : Profile) (cls : ClassRef) (lastPc : UInt16) (move : RefMove)
    (r : Runtime) (rest : List JVMSlot) (x : JVMSlot) : Prop :=
  ∃ out r', execute p cls lastPc move.opcode (r.onStack (rest ++ move.place.operands x)) =
      .ok out r' ∧
    move.place.Moved r rest x out r'

theorem fromObject_ne_null (h : Addr.Fits a) : JVMSlot.fromObject a ≠ .null := by
  intro hn
  have ho := JVMSlot.object?_fromObject h
  rw [hn] at ho
  cases ho

/-- `apop` takes a reference off the stack, but not null. -/
theorem apop_null {r : Runtime} (hs : r.context.Spans rest) :
    apop (r.onStack (rest ++ [.null])) = .error (.error .notAnObject) (r.onStack rest) :=
  apop_plain JVMSlot.object?_null hs

theorem dropSlots_one (p : Profile) (slot : JVMSlot) : dropSlots p [slot] = dropSlot p slot := by
  rw [dropSlots, dropSlots]
  exact bind_pure (dropSlot p slot)

theorem assignLocals_one (p : Profile) (idx : Nat) (slot : JVMSlot) :
    assignLocals p idx [slot] = assignLocal p idx slot := by
  rw [assignLocals, assignLocals]
  exact bind_pure (assignLocal p idx slot)

theorem storeOp_eq (p : Profile) {r : Runtime} (ha : a.Fits) (hs : r.context.Spans rest)
    (h : r.context.local? idx = some old) :
    storeOp (astore p) apop idx (r.onStack (rest ++ [.fromObject a])) = (do
      onStore (dropSlots p [old])
      pure .next : VM Runtime Outcome) ((r.onStack rest).withLocal idx (.fromObject a)) := by
  have hlt : idx.toNat + r.context.currentFrame.localsStart + 1 ≤ r.context.locals.length :=
    (List.getElem?_eq_some_iff.mp h).1
  have hassign := ThreadContext.assignLocal_eq p (r := r.onStack rest) h (.fromObject a)
  have hstore : astore p idx a (r.onStack rest) = (do
      onStore (dropSlot p old)
      pure true : VM Runtime Bool) ((r.onStack rest).withLocal idx (.fromObject a)) := by
    change (if idx.toNat + r.context.currentFrame.localsStart + 1 ≤ r.context.locals.length then _
      else _ : VM Runtime Bool) _ = _
    rw [if_pos hlt]
    change (assignLocals p _ [.fromObject a] >>= fun _ => (pure true : VM Runtime Bool)) _ = _
    rw [assignLocals_one]
    exact bind_from _ hassign
  rw [storeOp, (apop_pops ha).bind _ hs, dropSlots_one, bind_from _ hstore, bind_assoc]
  rfl

theorem cloneSlot_reference (p : Profile) {s : Store} (ha : a.Fits) (ho : s.memory a = some o)
    (hmax : o.strong ≤ maxRefcount) : withObject p (.fromObject a) arcClone s =
      .ok (some a) (s.write a (some { o with strong := o.strong + 1 })) := by
  rw [withObject_some p arcClone (JVMSlot.object?_fromObject ha) ha,
    bind_eq _ (arcClone_eq ho hmax)]
  rfl

theorem loadOp_eq (p : Profile) {r : Runtime} (ha : a.Fits)
    (h : r.context.local? idx = some (.fromObject a)) (ho : r.store.memory a = some o)
    (hmax : o.strong ≤ maxRefcount) (rest : List JVMSlot) :
    loadOp (aload p) apush idx (r.onStack rest) =
      .ok .next { r.onStack (rest ++ [.fromObject a]) with
        store := r.store.write a (some { o with strong := o.strong + 1 }) } := by
  have hload : aload p idx (r.onStack rest) = .ok a { r.onStack rest with
      store := r.store.write a (some { o with strong := o.strong + 1 }) } := by
    rw [aload, bind_eq _ (readContext_eq _)]
    change (okOr _ (r.context.local? idx) >>= _) _ = _
    rw [h]
    change (onStore (withObject p (.fromObject a) arcClone) >>= okOr _) _ = _
    rw [bind_eq _ (onStore_eq (r := r.onStack rest) (cloneSlot_reference p ha ho hmax))]
    rfl
  rw [loadOp, bind_eq _ hload]
  rfl

theorem arrayStore_eq (p : Profile) {popValue : VM Runtime JVMSlot}
    (hvalue : Pops popValue values value) {r : Runtime} (harray : array.Fits)
    (hs : r.context.Spans rest) (ho : r.store.memory array = some o)
    (hi : o.data[usizeOf index]? = some old) :
    arrayStore p popValue
      (r.onStack (rest ++ ([.fromObject array, .fromI32 index] ++ values))) = (do
        onStore (dropSlots p [old, .fromObject array])
        pure .next : VM Runtime Outcome)
      { r.onStack rest with
        store := r.store.withSlots array o (usizeOf index) [value] } := by
  have hsplit : rest ++ ([.fromObject array, .fromI32 index] ++ values) =
      ((rest ++ [.fromObject array]) ++ [.fromI32 index]) ++ values := by
    simp only [List.append_assoc]
    rfl
  have hs' := hs.append [.fromObject array]
  have hassign : onStore (assignData p array (usizeOf index) value) (r.onStack rest) =
      onStore (dropSlot p old) { r.onStack rest with
        store := r.store.withSlots array o (usizeOf index) [value] } :=
    onStore_from (assignData_eq ho hi _)
  rw [hsplit, arrayStore, hvalue.bind _ (hs'.append _), (ipop_pops p index).bind _ hs',
    (apop_pops harray).bind _ hs, bind_eq _ (onStore_eq (r := r.onStack rest) (deref_eq ho)),
    onStore_dropSlots, dropSlots_reference p harray, bind_assoc]
  simp only [hi]
  exact bind_from _ hassign

def RefPlace.run (p : Profile) : RefPlace → VM Runtime Outcome
  | toLocal idx => storeOp (astore p) apop idx
  | fromLocal idx => loadOp (aload p) apush idx
  | toElement _ _ => arrayStore p popObjectSlot
  | toCaller => returnOp .object apop

theorem RefMove.execute_eq [FloatArith] (p : Profile) (cls : ClassRef) (lastPc : UInt16)
    (move : RefMove) : execute p cls lastPc move.opcode = move.place.run p := by
  cases move <;> rfl

theorem RefPlace.run_null (p : Profile) (place : RefPlace) (hs : r.context.Spans rest)
    (hv : place.Valid r .null) :
    ∃ r', place.run p (r.onStack (rest ++ place.operands .null)) =
      .error (.error .notAnObject) r' := by
  cases place with
  | toLocal idx => exact ⟨_, bind_error _ (apop_null hs)⟩
  | fromLocal idx =>
    have hload : aload p idx (r.onStack (rest ++ [])) =
        .error (.error .notAnObject) (r.onStack (rest ++ [])) := by
      rw [aload, bind_eq _ (readContext_eq _)]
      change (okOr _ (r.context.local? idx) >>= _) _ = _
      rw [hv]
      change (onStore (withObject p .null arcClone) >>= okOr _) _ = _
      rw [withObject_none p arcClone JVMSlot.object?_null]
      rfl
    exact ⟨_, bind_error _ hload⟩
  | toElement array index =>
    have hsplit : rest ++ [.fromObject array, .fromI32 index, .null] =
        (rest ++ [.fromObject array, .fromI32 index]) ++ [.null] := by
      rw [List.append_assoc]
      rfl
    refine ⟨r.onStack (rest ++ [.fromObject array, .fromI32 index]), ?_⟩
    rw [operands, hsplit]
    exact bind_error _ (bind_error _ (apop_null (hs.append _)))
  | toCaller => exact ⟨_, bind_error _ (apop_null hs)⟩

/-- A reference is moved as it should be exactly when what is dropped for it can be dropped. -/
theorem RefPlace.run_reference (p : Profile) (place : RefPlace) (hs : r.context.Spans rest)
    (ha : a.Fits) (ho : r.store.memory a = some o) (hmax : o.strong ≤ maxRefcount)
    (hv : place.Valid r (.fromObject a)) :
    (∃ out r', place.run p (r.onStack (rest ++ place.operands (.fromObject a))) = .ok out r' ∧
      place.Moved r rest (.fromObject a) out r') ↔ place.Releases p r (.fromObject a) := by
  cases place with
  | toLocal idx =>
    obtain ⟨old, hold⟩ := hv
    have hrun := storeOp_eq p ha hs hold
    constructor
    · rintro ⟨out, r', hr, rfl, -⟩ old' hold'
      cases hold.symm.trans hold'
      exact (ends_dropping p [old] ((r.onStack rest).withLocal idx (.fromObject a))).mp
        ⟨r', hrun.symm.trans hr⟩
    · intro h
      obtain ⟨s, hdrops⟩ := h old hold
      exact ⟨_, { (r.onStack rest).withLocal idx (.fromObject a) with store := s },
        hrun.trans (bind_eq _ (onStore_eq hdrops)), rfl, rfl⟩
  | fromLocal idx =>
    refine iff_of_true ?_ trivial
    rw [operands, List.append_nil]
    exact ⟨_, _, loadOp_eq p ha hv ho hmax rest, rfl, rfl⟩
  | toElement array index =>
    obtain ⟨harray, o', old, ho', hold⟩ := hv
    have hvalue : Pops popObjectSlot [.fromObject a] (.fromObject a) := (apop_pops ha).map _
    have hrun := arrayStore_eq p hvalue harray hs ho' hold
    constructor
    · rintro ⟨out, r', hr, rfl, -⟩ o₁ old₁ ho₁ hold₁
      cases ho'.symm.trans ho₁
      cases hold.symm.trans hold₁
      exact (ends_dropping p [old, .fromObject array] _).mp ⟨r', hrun.symm.trans hr⟩
    · intro h
      obtain ⟨s, hdrops⟩ := h o' old ho' hold
      refine ⟨_, { r.onStack rest with store := s },
        hrun.trans (bind_eq _ (onStore_eq hdrops)), rfl, rfl, ?_⟩
      intro o₁ o₂ ho₁ ho₂
      cases ho'.symm.trans ho₁
      obtain ⟨o₃, ho₃, -, hd⟩ := dropSlots_recounted hdrops array o₂ ho₂
      cases (Store.memory_write_self ..).symm.trans ho₃
      rw [hd, Layout.set_eq_overwrite (List.getElem?_eq_some_iff.mp hold).1]
  | toCaller =>
    refine iff_of_true ?_ trivial
    exact ⟨_, r.onStack rest, (apop_pops ha).bind _ hs, .object a, rfl, rfl, rfl⟩

/-- The instructions that move references preserve what they move exactly when it is not null, and
what is dropped for it can be dropped. -/
theorem moves_iff [FloatArith] {move : RefMove} (hs : r.context.Spans rest)
    (hx : r.store.RefSlot x) (hv : move.place.Valid r x) :
    move.Moves p cls lastPc r rest x ↔ x ≠ .null ∧ move.place.Releases p r x := by
  rw [RefMove.Moves, move.execute_eq p cls lastPc]
  rcases hx with rfl | ⟨a, o, rfl, ha, ho, hmax⟩
  · constructor
    · rintro ⟨out, r', hr, -⟩
      obtain ⟨r₁, hnull⟩ := move.place.run_null p hs hv
      cases hnull.symm.trans hr
    · exact fun h => absurd rfl h.1
  · rw [move.place.run_reference p hs ha ho hmax hv]
    exact (and_iff_right (fromObject_ne_null ha)).symm

def withReferences (slot : JVMSlot) : Runtime :=
  { withCounts [] with
    context := { ThreadContext.new 8 1 with locals := [slot] }
    store := (withCounts []).store.write 8 (some ⟨3, 0, .array .one, [.null, .null]⟩) }

/-- A null element that `AALoad` has pushed is not stored. -/
theorem aStore_null :
    (∃ r', @execute noFloats ⟨true⟩ 0 0 .aaLoad
      ((withReferences .null).onStack [.fromObject 8, .fromI32 1]) = .ok .next r' ∧
      r'.context.stack = [.null]) ∧
    ¬ @RefMove.Moves noFloats ⟨true⟩ 0 0 (.aStore 0) (withReferences .null) [] .null := by
  refine ⟨⟨_, rfl, rfl⟩, ?_⟩
  rintro ⟨out, r', h, -⟩
  have hrun : ∃ r₁, @execute noFloats ⟨true⟩ 0 0 (.aStore 0)
      ((withReferences .null).onStack ([] ++ [.null])) = .error (.error .notAnObject) r₁ := ⟨_, rfl⟩
  obtain ⟨r₁, hrun⟩ := hrun
  cases hrun.symm.trans h

theorem aload_array : @RefMove.Moves noFloats ⟨true⟩ 0 0 (.aload 0) (withReferences (.fromObject 8))
    [] (.fromObject 8) :=
  (@moves_iff (withReferences (.fromObject 8)) (.fromObject 8) ⟨true⟩ 0 0 [] noFloats (.aload 0)
    (Nat.le_refl 0) (.inr ⟨8, _, rfl, by decide, rfl, by decide⟩) rfl).mpr ⟨by decide, trivial⟩

end Janadinite
