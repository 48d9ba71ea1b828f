import Janadinite.Vm.FrameBounds
import Janadinite.Vm.LocalBounds
import Janadinite.Vm.NarrowArrays
import Janadinite.Vm.CalleeFrame
import Janadinite.Vm.Arithmetic

namespace Janadinite
open Runs Hoare Layout ThreadContext
set_option autoImplicit true

/-- So many slots were popped, all of them from the current frame's part of the stack. -/
structure Popped (n : Nat) (r r' : Runtime) : Prop where
  frame : r'.context.currentFrame = r.context.currentFrame
  length : r'.context.stack.length + n = r.context.stack.length
  spans : r'.context.Spans r'.context.stack

theorem Popped.trans (h : Popped n r r') (h' : Popped k r' r'') : Popped (n + k) r r'' := by
  have hl := h.length
  have hl' := h'.length
  exact ⟨h'.frame.trans h.frame, by omega, h'.spans⟩

theorem Popped.below {r r' : Runtime} (h : Popped values.length (r.onStack (rest ++ values)) r') :
    r.context.Spans rest := by
  have hs := h.spans
  have hl : r'.context.stack.length + values.length = (rest ++ values).length := h.length
  have hf : r'.context.currentFrame = r.context.currentFrame := h.frame
  rw [List.length_append] at hl
  rw [Spans, hf] at hs
  rw [Spans]
  omega

theorem popSlotOr_popped {r r' : Runtime} (h : popSlotOr r = .ok slot r') : Popped 1 r r' := by
  obtain ⟨_, r₁, hpop, hok⟩ := bind_ok h
  obtain ⟨hsome, rfl⟩ := okOr_ok hok
  rw [hsome, popSlot, bind_eq _ (readContext_eq r)] at hpop
  split at hpop
  · cases hpop
  · rename_i hlow
    rcases List.eq_nil_or_concat r.context.stack with hs | ⟨rest, top, hs⟩
    · rw [hs] at hlow
      exact absurd (Nat.zero_le _) hlow
    · rw [List.concat_eq_append] at hs
      cases (stackPop_concat hs).symm.trans hpop
      rw [hs, List.length_append] at hlow
      refine ⟨rfl, ?_, Nat.le_of_lt_succ (Nat.lt_of_not_le hlow)⟩
      rw [hs, List.length_append]
      rfl

theorem ipop_popped {r r' : Runtime} (h : ipop p r = .ok i r') : Popped 1 r r' := by
  obtain ⟨slot, r₁, hpop, h⟩ := bind_ok h
  obtain ⟨_, r₂, hdrop, h⟩ := bind_ok h
  obtain ⟨s, -, rfl⟩ := onStore_ok hdrop
  cases h
  obtain ⟨hf, hl, hs⟩ := popSlotOr_popped hpop
  exact ⟨hf, hl, hs⟩

theorem lpop_popped {r r' : Runtime} (h : lpop p r = .ok i r') : Popped 2 r r' := by
  obtain ⟨high, r₁, hhigh, h⟩ := bind_ok h
  obtain ⟨low, r₂, hlow, h⟩ := bind_ok h
  cases h
  exact (ipop_popped hhigh).trans (ipop_popped hlow)

theorem apop_popped {r r' : Runtime} (h : apop r = .ok a r') : Popped 1 r r' := by
  obtain ⟨slot, r₁, hpop, h⟩ := bind_ok h
  obtain ⟨-, rfl⟩ := okOr_ok h
  exact popSlotOr_popped hpop

/-- A `long` is popped when the current frame's part of the stack ends below it. -/
theorem lpop_iff (p : Profile) (v : Int64) (r : Runtime) (rest : List JVMSlot) :
    (∃ r', lpop p (r.onStack (rest ++ JVMSlot.fromI64 v)) = .ok v r') ↔ r.context.Spans rest := by
  constructor
  · rintro ⟨r', h⟩
    have hpopped : Popped (JVMSlot.fromI64 v).length _ r' := lpop_popped h
    exact hpopped.below
  · exact fun hs => ⟨_, lpop_pops p v r rest hs⟩

def PushesAndPops (p : Profile) (r : Runtime) (v : Int64) : Prop :=
  (do lpush v; lpop p : VM Runtime Int64) r = .ok v r

theorem pushesAndPops_iff : PushesAndPops p r v ↔ r.context.Spans r.context.stack := by
  have hpush : (do lpush v; lpop p : VM Runtime Int64) r =
      lpop p (r.onStack (r.context.stack ++ JVMSlot.fromI64 v)) :=
    bind_eq _ (lpush_pushes v r r.context.stack)
  rw [PushesAndPops, hpush]
  constructor
  · exact fun h => (lpop_iff p v r _).mp ⟨r, h⟩
  · exact lpop_pops p v r r.context.stack

theorem iload_eq {r : Runtime} (h : r.context.local? index = some slot) :
    iload index r = .ok slot.asI32 r := by
  rw [iload, bind_eq _ (readContext_eq r), h]
  rfl

theorem lload_eq (p : Profile) {r : Runtime} {index : UInt16}
    (hl : r.context.locals = front ++ (JVMSlot.fromI64 v ++ back))
    (hf : front.length = index.toNat + r.context.currentFrame.localsStart)
    (hi : index.toNat + 1 < 2 ^ 16) : lload p index r = .ok v r := by
  have hlow : r.context.local? index = some (.fromI32 v.toUInt64.toUInt32.toInt32) := by
    rw [local?, hl, ← hf, List.getElem?_append_right (Nat.le_refl _), Nat.sub_self]
    rfl
  have hnext : (UInt16.ofNat (index.toNat + 1)).toNat = index.toNat + 1 :=
    UInt16.toNat_ofNat_of_lt' hi
  have hhigh : r.context.local? (.ofNat (index.toNat + 1)) =
      some (.fromI32 (v.toUInt64 >>> 32).toUInt32.toInt32) := by
    rw [local?, hl, hnext, Nat.add_right_comm, ← hf,
      List.getElem?_append_right (Nat.le_add_right _ 1), Nat.add_sub_cancel_left]
    rfl
  rw [lload, bind_eq _ (iload_eq hlow), p.add_eq hi]
  change (iload (.ofNat (index.toNat + 1)) >>= _) r = _
  rw [bind_eq _ (iload_eq hhigh), asI32_fromI32, asI32_fromI32, UInt32.toUInt32_toInt32,
    UInt32.toUInt32_toInt32, halves, Int64.toInt64_toUInt64]
  rfl

/-- What was in the locals is dropped when the values are there; the store sees no more than
that. -/
theorem assignLocals_ok (p : Profile) {values : List JVMSlot} {r r' : Runtime}
    (hle : idx + values.length ≤ r.context.locals.length) :
    assignLocals p idx values r = .ok ⟨⟩ r' ↔
      ∃ s, dropSlots p (slice r.context.locals idx values.length) r.store = .ok ⟨⟩ s ∧
        r' = { r with
          store := s
          context := { r.context with locals := overwrite r.context.locals idx values } } := by
  induction values generalizing idx r r' with
  | nil =>
    rw [overwrite_nil]
    constructor
    · intro h
      cases h
      exact ⟨_, rfl, rfl⟩
    · rintro ⟨s, hs, rfl⟩
      cases hs
      rfl
  | cons slot values ih =>
    rw [List.length_cons] at hle
    have hlt : idx < r.context.locals.length := by omega
    have hold := List.getElem?_eq_getElem hlt
    have hassign := assignLocal_eq p hold slot
    have hslice : slice (r.context.locals.set idx slot) (idx + 1) values.length =
        slice r.context.locals (idx + 1) values.length := by
      rw [slice, slice, List.drop_set_of_lt (Nat.lt_succ_self idx)]
    have hoverwrite : overwrite (r.context.locals.set idx slot) (idx + 1) values =
        overwrite r.context.locals idx (slot :: values) := by
      have hone : idx + [slot].length ≤ r.context.locals.length := hlt
      rw [set_eq_overwrite hlt]
      exact overwrite_next hone values
    have hle' : ∀ s : Store, idx + 1 + values.length ≤ (Runtime.context { r with
        store := s
        context := { r.context with locals := r.context.locals.set idx slot } }).locals.length := by
      intro s
      change _ ≤ (r.context.locals.set idx slot).length
      rw [List.length_set]
      omega
    rw [List.length_cons, slice_succ hold]
    constructor
    · intro h
      obtain ⟨_, r₁, hfirst, hrest⟩ := bind_ok h
      obtain ⟨s₁, hs₁, rfl⟩ := onStore_ok (hassign.symm.trans hfirst)
      obtain ⟨s, hs, rfl⟩ := (ih (hle' s₁)).mp hrest
      rw [← hoverwrite]
      refine ⟨s, (bind_eq _ hs₁).trans ?_, rfl⟩
      rw [← hslice]
      exact hs
    · rintro ⟨s, hs, rfl⟩
      obtain ⟨_, s₁, hs₁, hs₂⟩ := bind_ok hs
      rw [← hslice] at hs₂
      rw [← hoverwrite]
      exact (bind_eq _ (hassign.trans (onStore_eq hs₁))).trans
        ((ih (hle' s₁)).mpr ⟨s, hs₂, rfl⟩)

/-- Both locals that a `long` takes are in the current frame. -/
def ThreadContext.Holds (c : ThreadContext) (index : UInt16) : Prop :=
  index.toNat + 1 < (c.locals.drop c.currentFrame.localsStart).length

instance (c : ThreadContext) (index : UInt16) : Decidable (c.Holds index) :=
  inferInstanceAs (Decidable (_ < _))

/-- A `long` is stored in a local and the one after it and is loaded from there, and the others
stay. Where these are not both in the frame nothing changes. -/
def StoresLocal (p : Profile) (index : UInt16) (r : Runtime) (v : Int64) : Prop :=
  if r.context.Holds index then
    ∃ r', lstore p index v r = .ok true r' ∧ lload p index r' = .ok v r' ∧
      ∀ k, ¬ Within (index.toNat + r.context.currentFrame.localsStart) 2 k →
        r'.context.locals[k]? = r.context.locals[k]?
  else
    lstore p index v r = .ok false r

theorem lstore_inside (p : Profile) (v : Int64)
    (h : index.toNat + r.context.currentFrame.localsStart + 2 ≤ r.context.locals.length) :
    lstore p index v r = (do
      assignLocals p (index.toNat + r.context.currentFrame.localsStart) (JVMSlot.fromI64 v)
      pure true : VM Runtime Bool) r :=
  congrFun (if_pos (c := index.toNat + r.context.currentFrame.localsStart + 2 ≤ _) h) r

theorem lstore_outside (p : Profile) (v : Int64)
    (h : ¬ index.toNat + r.context.currentFrame.localsStart + 2 ≤ r.context.locals.length) :
    lstore p index v r = .ok false r :=
  (congrFun (if_neg (c := index.toNat + r.context.currentFrame.localsStart + 2 ≤ _) h) r).trans
    (bind_eq _ (onStore_eq (dropSlots_null p (refs_fromI64 v) r.store)))

theorem ThreadContext.Holds.inside {c : ThreadContext} (h : c.Holds index) :
    index.toNat + c.currentFrame.localsStart + 2 ≤ c.locals.length := by
  rw [Holds, List.length_drop] at h
  omega

theorem storesLocal_iff (hb : r.context.Bounded) : StoresLocal p index r v ↔
    (r.context.Holds index → r.store.Drops p
      (slice r.context.locals (index.toNat + r.context.currentFrame.localsStart) 2)) := by
  rw [StoresLocal]
  by_cases hin : r.context.Holds index
  · have hle : index.toNat + r.context.currentFrame.localsStart + (JVMSlot.fromI64 v).length ≤
        r.context.locals.length := hin.inside
    have hstart : index.toNat + r.context.currentFrame.localsStart ≤ r.context.locals.length :=
      Nat.le_of_add_right_le hle
    have hnext : index.toNat + 1 < 2 ^ 16 := by
      have hinside := hin.inside
      have hbound := hb.current.2
      omega
    rw [if_pos hin, forall_prop_of_true hin, lstore_inside p v hin.inside]
    constructor
    · rintro ⟨r', h, -⟩
      obtain ⟨_, r₁, hassign, -⟩ := bind_ok h
      obtain ⟨s, hs, -⟩ := (assignLocals_ok p hle).mp hassign
      exact ⟨s, hs⟩
    · rintro ⟨s, hs⟩
      refine ⟨_, bind_eq _ ((assignLocals_ok p hle).mpr ⟨s, hs, rfl⟩), ?_, ?_⟩
      · exact lload_eq p (List.append_assoc _ _ _) (List.length_take_of_le hstart) hnext
      · exact fun k hk => overwrite_other hle hk
  · rw [if_neg hin]
    refine iff_of_true (lstore_outside p v ?_) (absurd · hin)
    rw [Holds, List.length_drop] at hin
    omega

/-- A `long` among the arguments of a call is in the locals of the callee. -/
def PassesArgument (p : Profile) (r : Runtime) (rest before after : List JVMSlot)
    (methRef maxStack maxLocals argsSize : UInt16) (v : Int64) : Prop :=
  ∃ r', pushFrame p methRef maxStack maxLocals argsSize
      (r.onStack (rest ++ (before ++ (JVMSlot.fromI64 v ++ after)))) = .ok ⟨⟩ r' ∧
    lload p (.ofNat before.length) r' = .ok v r'

/-- A `long` among what a call has taken from the stack is in the locals of the callee. -/
def InvokesWith [FloatArith] (p : Profile) (cls : ClassRef) (lastPc : UInt16) (op : OpCode)
    (r : Runtime) (before after : List JVMSlot) (v : Int64) : Prop :=
  ∀ target method code r', execute p cls lastPc op r = .ok (.call target method code) r' →
    r.context.stack = r'.context.stack ++ (before ++ (JVMSlot.fromI64 v ++ after)) →
      lload p (.ofNat before.length) r' = .ok v r'

/-- The arguments of a call are the first locals of the callee. -/
theorem ThreadContext.Entered.lload {r : Runtime} {c₀ : ThreadContext} (h : Entered k c₀ r.context)
    (hk : k < 2 ^ 16) (p : Profile)
    (hs : c₀.stack = r.context.stack ++ (before ++ (JVMSlot.fromI64 v ++ after))) :
    lload p (.ofNat before.length) r = .ok v r := by
  have hargs := h.args
  have htaken : c₀.stack.length - k = r.context.stack.length := by
    have hl := congrArg List.length h.stack
    rw [List.length_take] at hl
    omega
  have hlen : before.length + 2 + after.length = k := by
    have hl := congrArg List.length hs
    rw [List.length_append, List.length_append, List.length_append] at hl
    change _ = _ + (_ + (2 + _)) at hl
    omega
  have hlt : before.length + 1 < 2 ^ 16 := by omega
  have hbefore : (UInt16.ofNat before.length).toNat = before.length :=
    UInt16.toNat_ofNat_of_lt' (Nat.lt_of_succ_lt hlt)
  obtain ⟨n, hl⟩ := h.locals
  rw [htaken, hs, List.drop_left, List.append_assoc, List.append_assoc, ← List.append_assoc] at hl
  apply lload_eq p hl
  · rw [List.length_append, h.localsStart, hbefore, Nat.add_comm]
  · rwa [hbefore]

theorem passesArgument (p : Profile) (r : Runtime) (rest : List JVMSlot)
    {before after : List JVMSlot}
    (methRef maxStack : UInt16) {maxLocals argsSize : UInt16} (v : Int64)
    (hlen : argsSize.toNat = before.length + 2 + after.length) (hmax : argsSize ≤ maxLocals) :
    PassesArgument p r rest before after methRef maxStack maxLocals argsSize v := by
  have hargs : (before ++ (JVMSlot.fromI64 v ++ after)).length = argsSize.toNat := by
    rw [hlen, List.length_append, List.length_append, ← Nat.add_assoc]
    rfl
  have hstack : rest.length + argsSize.toNat =
      (rest ++ (before ++ (JVMSlot.fromI64 v ++ after))).length := by
    rw [List.length_append, hargs]
  have hpush := pushFrame_eq p methRef maxStack
    (r := r.onStack (rest ++ (before ++ (JVMSlot.fromI64 v ++ after))))
    (Nat.le.intro ((Nat.add_comm _ _).trans hstack)) hmax
  have hentered := pushFrame_entered p methRef maxStack maxLocals argsSize
    (r.onStack (rest ++ (before ++ (JVMSlot.fromI64 v ++ after))))
  rw [hpush] at hentered
  have hs : rest ++ (before ++ (JVMSlot.fromI64 v ++ after)) =
      (rest ++ (before ++ (JVMSlot.fromI64 v ++ after))).take
          ((rest ++ (before ++ (JVMSlot.fromI64 v ++ after))).length - argsSize.toNat) ++
        (before ++ (JVMSlot.fromI64 v ++ after)) := by
    rw [← hstack, Nat.add_sub_cancel, List.take_left]
  exact ⟨_, hpush, hentered.2.2.lload argsSize.toNat_lt p hs⟩

theorem invokesWith [FloatArith] {r : Runtime} (h : Framed b [] r) :
    InvokesWith p cls lastPc op r before after v := by
  intro target method code r' hx hs
  obtain ⟨_, _, _, k, _, _, _, _, _, hcalled⟩ := Machine.framed_calls h hx
  exact hcalled.context.lload k.toNat_lt p hs

def ReturnsLong [FloatArith] (p : Profile) (cls : ClassRef) (lastPc : UInt16) (r : Runtime)
    (rest : List JVMSlot) (v : Int64) : Prop :=
  ∃ r₁ r₂ r₃, execute p cls lastPc .lReturn (r.onStack (rest ++ JVMSlot.fromI64 v)) =
      .ok (.return (some (.long v))) r₁ ∧
    leaveFrame p (some (.long v)) r₁ = .ok ⟨⟩ r₂ ∧ lpop p r₂ = .ok v r₃

/-- The part of the stack of the frame that is returned to begins where that of the current frame
does, or below. -/
def ThreadContext.Nests (c : ThreadContext) : Prop :=
  c.left.currentFrame.stackStart ≤ c.currentFrame.stackStart

theorem returnsLong_iff [FloatArith] : ReturnsLong p cls lastPc r rest v ↔
    r.context.Spans rest ∧ r.context.Nests ∧
      r.store.Drops p (r.onStack rest).context.frameSlots := by
  have hreturn : execute p cls lastPc .lReturn = returnOp .long (lpop p) := rfl
  have hleave : ∀ r₂, leaveFrame p (some (.long v)) (r.onStack rest) = .ok ⟨⟩ r₂ →
      r.context.Spans rest → ((∃ r₃, lpop p r₂ = .ok v r₃) ↔ r.context.Nests) := by
    intro r₂ h hs
    have hc := (leaveFrame_ok h).2
    have hlen : (rest.take r.context.currentFrame.stackStart).length =
        r.context.currentFrame.stackStart := List.length_take_of_le hs
    have hr₂ : r₂ = r₂.onStack (rest.take r.context.currentFrame.stackStart ++
        JVMSlot.fromI64 v) := by
      have hstack : r₂.context.stack = rest.take r.context.currentFrame.stackStart ++
          JVMSlot.fromI64 v := congrArg ThreadContext.stack hc
      rw [← hstack]
      rfl
    rw [hr₂, lpop_iff, Spans, hc, hlen]
    rfl
  constructor
  · rintro ⟨r₁, r₂, r₃, hx, hl, hpop⟩
    rw [hreturn] at hx
    obtain ⟨w, r₀, hlong, hret⟩ := bind_ok hx
    cases hret
    have hs := (lpop_iff p v r rest).mp ⟨_, hlong⟩
    cases (lpop_pops p v r rest hs).symm.trans hlong
    obtain ⟨_, r₄, hpopped, -⟩ := bind_ok hl
    exact ⟨hs, (hleave r₂ hl hs).mp ⟨r₃, hpop⟩, (popFrame_returns p _).mp ⟨r₄, hpopped⟩⟩
  · rintro ⟨hs, hn, hd⟩
    obtain ⟨r₁, hpopped⟩ := (popFrame_returns p (r.onStack rest)).mpr hd
    obtain ⟨r₂, hl⟩ : ∃ r₂, leaveFrame p (some (.long v)) (r.onStack rest) = .ok ⟨⟩ r₂ :=
      ⟨_, (bind_eq _ hpopped).trans (pushSlots_eq _ _)⟩
    obtain ⟨r₃, hpop⟩ := (hleave r₂ hl hs).mpr hn
    refine ⟨r.onStack rest, r₂, r₃, ?_, hl, hpop⟩
    rw [hreturn]
    exact (lpop_pops p v).bind _ hs

/-- An array of `n` elements of two slots. -/
structure LongArray (s : Store) (a : Addr) (o : Object) (n : Nat) : Prop where
  fits : a.Fits
  object : s.memory a = some o
  kind : o.kind = .array .two
  length : o.data.length = 2 * n
  bound : n < 2 ^ 31

/-- A `long` is stored in an element, and from any stack on which the array and the index are then,
it is loaded. -/
def StoresElement [FloatArith] (p : Profile) (cls : ClassRef) (lastPc : UInt16) (r : Runtime)
    (rest : List JVMSlot) (a : Addr) (o : Object) (index : Int32) (v : Int64) : Prop :=
  ∃ r₁ o₁, execute p cls lastPc .laStore
      (r.onStack (rest ++ ([.fromObject a, .fromI32 index] ++ JVMSlot.fromI64 v))) =
        .ok .next r₁ ∧
    r₁.context = (r.onStack rest).context ∧ r₁.store.memory a = some o₁ ∧
    o₁.data = overwrite o.data (2 * index.toNatClampNeg) (JVMSlot.fromI64 v) ∧
    ∀ rest', r.context.Spans rest' → ∃ r₂, execute p cls lastPc .laLoad
        (r₁.onStack (rest' ++ [.fromObject a, .fromI32 index])) = .ok .next r₂ ∧
      r₂.context = (r₁.onStack (rest' ++ JVMSlot.fromI64 v)).context

/-- The two slots of a `long` are written one after the other, and what was in them and the two
references to the array can be dropped. -/
def Replaceable (p : Profile) (s : Store) (a : Addr) (o : Object) (i : Nat) (v : Int64) : Prop :=
  ∃ low high x y s₁ o₁, JVMSlot.fromI64 v = [low, high] ∧ o.data[2 * i]? = some x ∧
    o.data[2 * i + 1]? = some y ∧
    dropSlot p x (s.withSlots a o (2 * i) [low]) = .ok ⟨⟩ s₁ ∧ s₁.memory a = some o₁ ∧
    (s₁.withSlots a o₁ (2 * i + 1) [high]).Drops p [y, .fromObject a, .fromObject a]

theorem writePair_ok (p : Profile) {s s' : Store} (ha : a.Fits) (ho : s.memory a = some o)
    (hx : o.data[i]? = some x) (hy : o.data[i + 1]? = some y) (low high : JVMSlot) :
    (do
      assignData p a i low
      assignData p a (i + 1) high
      dropRef p a : VM Store PUnit) s = .ok ⟨⟩ s' ↔
    ∃ s₁ o₁, dropSlot p x (s.withSlots a o i [low]) = .ok ⟨⟩ s₁ ∧ s₁.memory a = some o₁ ∧
      dropSlots p [y, .fromObject a] (s₁.withSlots a o₁ (i + 1) [high]) = .ok ⟨⟩ s' := by
  have hlen : i + [low].length ≤ o.data.length := (List.getElem?_eq_some_iff.mp hx).1
  have hy₁ : ∀ s₁ o₁, dropSlot p x (s.withSlots a o i [low]) = .ok ⟨⟩ s₁ →
      s₁.memory a = some o₁ → o₁.data[i + 1]? = some y := by
    intro s₁ o₁ hdrop ho₁
    rw [(dropSlot_recounted hdrop).written ho₁, overwrite_other hlen, hy]
    exact fun hw => Nat.lt_irrefl _ hw.2
  rw [← dropSlots_reference p ha]
  constructor
  · intro h
    obtain ⟨_, s₁, hfirst, h⟩ := bind_ok h
    obtain ⟨_, s₂, hsecond, hlast⟩ := bind_ok h
    rw [assignData_eq ho hx] at hfirst
    obtain ⟨o₁, ho₁⟩ : ∃ o₁, s₁.memory a = some o₁ := by
      obtain ⟨_, _, hreplace, -⟩ := bind_ok hsecond
      obtain ⟨o₁, _, hderef, -⟩ := bind_ok hreplace
      exact ⟨o₁, (deref_ok hderef).1⟩
    rw [assignData_eq ho₁ (hy₁ s₁ o₁ hfirst ho₁)] at hsecond
    exact ⟨s₁, o₁, hfirst, ho₁, (bind_eq _ hsecond).trans hlast⟩
  · rintro ⟨s₁, o₁, hfirst, ho₁, h⟩
    obtain ⟨_, s₂, hsecond, hlast⟩ := bind_ok h
    rw [← assignData_eq ho hx] at hfirst
    rw [← assignData_eq ho₁ (hy₁ s₁ o₁ _ ho₁)] at hsecond
    · exact (bind_eq _ hfirst).trans ((bind_eq _ hsecond).trans hlast)
    · rwa [← assignData_eq ho hx]

section
variable [FloatArith] {r : Runtime}

theorem laStore_popped {r' : Runtime} (h : execute p cls lastPc .laStore
    (r.onStack (rest ++ ([.fromObject a, .fromI32 index] ++ JVMSlot.fromI64 v))) = .ok out r') :
    r.context.Spans rest := by
  obtain ⟨value, r₁, hlong, h⟩ := bind_ok (m := lpop p) h
  obtain ⟨doubled, r₂, hwide, h⟩ := bind_ok h
  obtain ⟨index', r₃, hindex, hdouble⟩ := bind_ok hwide
  obtain rfl : r₂ = r₃ := by
    cases hc : p.mulI32 index' 2 with
    | error msg =>
      rw [hc] at hdouble
      cases hdouble
    | ok i =>
      rw [hc] at hdouble
      cases hdouble
      rfl
  obtain ⟨array, r₄, harray, -⟩ := bind_ok h
  have hpopped := ((lpop_popped hlong).trans (ipop_popped hindex)).trans (apop_popped harray)
  have hlen : ([JVMSlot.fromObject a, .fromI32 index] ++ JVMSlot.fromI64 v).length = 2 + 1 + 1 :=
    rfl
  rw [← hlen] at hpopped
  exact hpopped.below

theorem laStore_ok (p : Profile) (cls : ClassRef) (lastPc : UInt16) {i : Nat} (ha : a.Fits)
    (ho : r.store.memory a = some o) (hs : r.context.Spans rest)
    (hi : index.toInt = (i : Int)) (hx : o.data[2 * i]? = some x)
    (hy : o.data[2 * i + 1]? = some y) (hsmall : i < 2 ^ 30)
    (hslots : JVMSlot.fromI64 v = [low, high]) {r₁ : Runtime} :
    execute p cls lastPc .laStore
      (r.onStack (rest ++ ([.fromObject a, .fromI32 index] ++ JVMSlot.fromI64 v))) =
        .ok .next r₁ ↔
    ∃ s₁ o₁ s₂, dropSlot p x (r.store.withSlots a o (2 * i) [low]) = .ok ⟨⟩ s₁ ∧
      s₁.memory a = some o₁ ∧
      dropSlots p [y, .fromObject a] (s₁.withSlots a o₁ (2 * i + 1) [high]) = .ok ⟨⟩ s₂ ∧
      r₁ = { r.onStack rest with store := s₂ } := by
  have hin : 2 * i + 1 < o.data.length := (List.getElem?_eq_some_iff.mp hy).1
  obtain ⟨husize, hrun⟩ :=
    (WideAccess.laStore v).run_small p cls lastPc ha ho hs hi hin hsmall
  have hvalue : (WideAccess.laStore v).value? = some (.long v) := rfl
  have htoSlots : (JVMValue.long v).toSlots = [low, high] := hslots
  rw [WideAccess.finish_store p a _ hvalue htoSlots, husize] at hrun
  have hstore : execute p cls lastPc .laStore
      (r.onStack (rest ++ ([.fromObject a, .fromI32 index] ++ JVMSlot.fromI64 v))) = (do
        onStore (do
          assignData p a (2 * i) low
          assignData p a (2 * i + 1) high
          dropRef p a)
        pure .next : VM Runtime Outcome) (r.onStack rest) := by
    simp only [onStore_bind, bind_assoc]
    exact hrun
  rw [hstore]
  constructor
  · intro h
    obtain ⟨_, r₂, hpair, hpure⟩ := bind_ok h
    obtain ⟨s₂, hs₂, rfl⟩ := onStore_ok hpair
    cases hpure
    obtain ⟨s₁, o₁, hfirst, ho₁, hrest⟩ := (writePair_ok p ha ho hx hy low high).mp hs₂
    exact ⟨s₁, o₁, s₂, hfirst, ho₁, hrest, rfl⟩
  · rintro ⟨s₁, o₁, s₂, hfirst, ho₁, hrest, rfl⟩
    have hs₂ := (writePair_ok p ha ho hx hy low high).mpr ⟨s₁, o₁, hfirst, ho₁, hrest⟩
    exact bind_eq _ (onStore_eq (r := r.onStack rest) hs₂)

theorem laLoad_eq (p : Profile) (cls : ClassRef) (lastPc : UInt16) {i : Nat} (ha : a.Fits)
    (ho : r.store.memory a = some o) (hs : r.context.Spans rest)
    (hi : index.toInt = (i : Int)) (hx : o.data[2 * i]? = some low)
    (hy : o.data[2 * i + 1]? = some high) (hsmall : i < 2 ^ 30)
    (hslots : JVMSlot.fromI64 v = [low, high]) :
    execute p cls lastPc .laLoad (r.onStack (rest ++ [.fromObject a, .fromI32 index])) = (do
        onStore (dropSlots p [.fromObject a])
        pure .next : VM Runtime Outcome) (r.onStack (rest ++ JVMSlot.fromI64 v)) := by
  have hin : 2 * i + 1 < o.data.length := (List.getElem?_eq_some_iff.mp hy).1
  obtain ⟨husize, hrun⟩ := WideAccess.laLoad.run_small p cls lastPc ha ho hs hi hin hsmall
  have hplain : low.object? = none ∧ high.object? = none := by
    cases hslots
    exact ⟨JVMSlot.object?_fromI32 _, JVMSlot.object?_fromI32 _⟩
  have hvalue : WideAccess.laLoad.value? = none := rfl
  rw [hslots, ← WideAccess.finish_load p hvalue ha ho hx hy hplain.1 hplain.2 husize rest]
  exact hrun

/-- A `long` is stored and loaded exactly below the index 2^30, with its operands in the frame's
part of the stack, and when what is there and the references to the array can be dropped. -/
theorem storesElement_iff (h : LongArray r.store a o n) (h0 : 0 ≤ index)
    (hn : index.toNatClampNeg < n) : StoresElement p cls lastPc r rest a o index v ↔
      r.context.Spans rest ∧ index.toNatClampNeg < 2 ^ 30 ∧
        Replaceable p r.store a o index.toNatClampNeg v := by
  have hlen := h.length
  have hbound := h.bound
  have hi := (Int32.cast_toNatClampNeg index h0).symm
  have hsplit : ∀ (s : Store) (y : JVMSlot), s.Drops p [y, .fromObject a, .fromObject a] ↔
      ∃ s', dropSlots p [y, .fromObject a] s = .ok ⟨⟩ s' ∧ s'.Drops p [.fromObject a] := by
    intro s y
    change s.Drops p ([y, .fromObject a] ++ [.fromObject a]) ↔ _
    exact Store.drops_append
  obtain ⟨low, high, hslots⟩ : ∃ low high, JVMSlot.fromI64 v = [low, high] := ⟨_, _, rfl⟩
  have hin : 2 * index.toNatClampNeg + (JVMSlot.fromI64 v).length ≤ o.data.length := by
    change _ + 2 ≤ _
    omega
  -- the two halves are where they were written
  have helement : ∀ o₁ : Object,
      o₁.data = overwrite o.data (2 * index.toNatClampNeg) (JVMSlot.fromI64 v) →
        o₁.data[2 * index.toNatClampNeg]? = some low ∧
          o₁.data[2 * index.toNatClampNeg + 1]? = some high := by
    intro o₁ hd
    rw [hd, hslots]
    rw [hslots] at hin
    exact ⟨overwrite_inside hin Nat.two_pos, overwrite_inside hin Nat.one_lt_two⟩
  constructor
  · rintro ⟨r₁, o₁, hr₁, -, ho₁, hd, hload⟩
    have hs := laStore_popped hr₁
    have hsmall : index.toNatClampNeg < 2 ^ 30 := by
      apply Nat.lt_of_not_le
      intro hle
      exact (WideAccess.laStore v).run_beyond p cls lastPc h.fits h.object (by omega) hs (by omega)
        _ _ hr₁
    obtain ⟨x, hx⟩ : ∃ x, o.data[2 * index.toNatClampNeg]? = some x :=
      ⟨_, List.getElem?_eq_getElem (by omega)⟩
    obtain ⟨y, hy⟩ : ∃ y, o.data[2 * index.toNatClampNeg + 1]? = some y :=
      ⟨_, List.getElem?_eq_getElem (by omega)⟩
    obtain ⟨s₁, o', s₂, hfirst, ho', hrest, rfl⟩ :=
      (laStore_ok p cls lastPc h.fits h.object hs hi hx hy hsmall hslots).mp hr₁
    obtain ⟨r₂, hr₂, -⟩ := hload rest hs
    obtain ⟨hlow, hhigh⟩ := helement o₁ hd
    have hrun := laLoad_eq (r := { r.onStack rest with store := s₂ }) p cls lastPc h.fits ho₁ hs hi
      hlow hhigh hsmall hslots
    have hdrops := (ends_dropping p [.fromObject a] _).mp ⟨r₂, hrun.symm.trans hr₂⟩
    exact ⟨hs, hsmall, low, high, x, y, s₁, o', hslots, hx, hy, hfirst, ho',
      (hsplit _ y).mpr ⟨s₂, hrest, hdrops⟩⟩
  · rintro ⟨hs, hsmall, low', high', x, y, s₁, o', hslots', hx, hy, hfirst, ho', hdrops⟩
    cases hslots.symm.trans hslots'
    obtain ⟨s₂, hrest, hdrops₂⟩ := (hsplit _ y).mp hdrops
    obtain ⟨o₁, ho₁⟩ := hdrops₂.get h.fits
    have hd : o₁.data = overwrite o.data (2 * index.toNatClampNeg) (JVMSlot.fromI64 v) := by
      have hone : 2 * index.toNatClampNeg + [low].length ≤ o.data.length := by
        change _ + 1 ≤ _
        omega
      rw [(dropSlots_recounted hrest).written ho₁, (dropSlot_recounted hfirst).written ho', hslots]
      exact overwrite_next hone [high]
    obtain ⟨hlow, hhigh⟩ := helement o₁ hd
    have hr₁ := (laStore_ok p cls lastPc h.fits h.object hs hi hx hy hsmall hslots).mpr
      ⟨s₁, o', s₂, hfirst, ho', hrest, rfl⟩
    refine ⟨_, o₁, hr₁, rfl, ho₁, hd, ?_⟩
    intro rest' hs'
    obtain ⟨s₃, hs₃⟩ := hdrops₂
    have hrun := laLoad_eq (r := { r.onStack rest with store := s₂ }) p cls lastPc h.fits ho₁ hs' hi
      hlow hhigh hsmall hslots
    exact ⟨_, hrun.trans (bind_eq _ (onStore_eq hs₃)), rfl⟩

end

/-- Where a `long` is put and read again, with what else is there. -/
inductive LongPlace where
  | stack
  | locals (index : UInt16)
  | argument (rest before after : List JVMSlot) (methRef maxStack maxLocals argsSize : UInt16)
  | invoke (cls : ClassRef) (lastPc : UInt16) (op : OpCode) (before after : List JVMSlot)
  | result (cls : ClassRef) (lastPc : UInt16) (rest : List JVMSlot)
  | element (cls : ClassRef) (lastPc : UInt16) (rest : List JVMSlot) (a : Addr) (o : Object)
      (n : Nat) (index : Int32)

namespace LongPlace

/-- The arguments of a call are those that it counts and not more than its locals, and an index is
one of the array. -/
def Valid (s : Store) : LongPlace → Prop
  | stack => True
  | locals _ => True
  | argument _ before after _ _ maxLocals argsSize =>
    argsSize.toNat = before.length + 2 + after.length ∧ argsSize ≤ maxLocals
  | invoke _ _ _ _ _ => True
  | result _ _ _ => True
  | element _ _ _ a o n index => LongArray s a o n ∧ 0 ≤ index ∧ index.toNatClampNeg < n

def Keeps [FloatArith] (p : Profile) (r : Runtime) (v : Int64) : LongPlace → Prop
  | stack => PushesAndPops p r v
  | locals index => StoresLocal p index r v
  | argument rest before after methRef maxStack maxLocals argsSize =>
    PassesArgument p r rest before after methRef maxStack maxLocals argsSize v
  | invoke cls lastPc op before after => InvokesWith p cls lastPc op r before after v
  | result cls lastPc rest => ReturnsLong p cls lastPc r rest v
  | element cls lastPc rest a o _ index => StoresElement p cls lastPc r rest a o index v

/-- The operands are in the current frame's part of the stack, the index of an element is below
2^30, and what is replaced or left behind can be dropped. -/
def Free (p : Profile) (r : Runtime) (v : Int64) : LongPlace → Prop
  | stack => r.context.Spans r.context.stack
  | locals index => r.context.Holds index → r.store.Drops p
      (slice r.context.locals (index.toNat + r.context.currentFrame.localsStart) 2)
  | argument _ _ _ _ _ _ _ => True
  | invoke _ _ _ _ _ => True
  | result _ _ rest => r.context.Spans rest ∧ r.context.Nests ∧
      r.store.Drops p (r.onStack rest).context.frameSlots
  | element _ _ rest a o _ index => r.context.Spans rest ∧ index.toNatClampNeg < 2 ^ 30 ∧
      Replaceable p r.store a o index.toNatClampNeg v

theorem keeps_iff [FloatArith] {r : Runtime} (hb : r.context.Bounded) (hf : Framed b [] r)
    (place : LongPlace) (h : place.Valid r.store) : place.Keeps p r v ↔ place.Free p r v := by
  cases place with
  | stack => exact pushesAndPops_iff
  | locals index => exact storesLocal_iff hb
  | argument rest before after methRef maxStack maxLocals argsSize =>
    exact iff_of_true (passesArgument p r rest methRef maxStack v h.1 h.2) trivial
  | invoke cls lastPc op before after => exact iff_of_true (invokesWith hf) trivial
  | result cls lastPc rest => exact returnsLong_iff
  | element cls lastPc rest a o n index => exact storesElement_iff h.1 h.2.1 h.2.2

end LongPlace

theorem ThreadContext.Stacked.nests {c : ThreadContext} (h : c.Stacked n) :
    c.Spans c.stack ∧ c.Nests := by
  refine ⟨h.stack, ?_⟩
  have hsorted := h.sorted
  rw [Nests, left]
  cases hprev : c.prevFrames with
  | nil => exact Nat.zero_le _
  | cons f frames =>
    rw [hprev] at hsorted
    exact ((List.pairwise_cons.mp hsorted).1 f List.mem_cons_self).1

mutual

theorem CodeCaller.Stacked.contexts {caller : CodeCaller} (h : caller.Stacked) :
    ∀ c ∈ caller.contexts, ∃ n, ThreadContext.Stacked n c := by
  cases caller with
  | main =>
    intro c hc
    cases hc
  | invoke act caller =>
    have hs : caller.Stacked := h
    have hall := CodeCaller.Stacked.contexts hs
    exact hall
  | clinit cls caller =>
    have hs : caller.Stacked := h
    have hall := LoadCaller.Stacked.contexts hs
    exact hall

theorem LoadCaller.Stacked.contexts {caller : LoadCaller} (h : caller.Stacked) :
    ∀ c ∈ caller.contexts, ∃ n, ThreadContext.Stacked n c := by
  cases caller with
  | «open» =>
    intro c hc
    cases hc
  | perform act op context caller =>
    exact List.forall_mem_cons.mpr ⟨⟨_, h.1⟩, CodeCaller.Stacked.contexts h.2⟩
  | superClass name cls caller =>
    have hs : caller.Stacked := h
    have hall := LoadCaller.Stacked.contexts hs
    exact hall

end

theorem Control.Stacked.contexts {control : Control} (h : control.Stacked) :
    ∀ c ∈ control.contexts, ∃ n, ThreadContext.Stacked n c := by
  cases control with
  | run act context caller => exact List.forall_mem_cons.mpr ⟨⟨_, h.1⟩, h.2.contexts⟩
  | perform act op context caller => exact List.forall_mem_cons.mpr ⟨⟨_, h.1⟩, h.2.contexts⟩
  | load name caller =>
    have hs : caller.Stacked := h
    exact hs.contexts
  | loaded cls caller =>
    have hs : caller.Stacked := h
    exact hs.contexts
  | finished result =>
    intro c hc
    cases hc

namespace Machine

theorem Owned.framed {m : Machine} (h : m.Owned) (hc : c ∈ m.control.contexts) :
    ∃ others, Framed ⟨m.table, c, others⟩ [] ⟨m.table, m.store, c⟩ := by
  obtain ⟨front, back, he⟩ := List.append_of_mem hc
  have hslots : m.control.slots = m.control.contexts.flatMap ThreadContext.slots := by
    cases hm : m.control with
    | finished result =>
      rw [hm] at hc
      cases hc
    | _ => rfl
  have hperm : (refs (m.control.contexts.flatMap ThreadContext.slots ++ m.table.statics)).Perm
      (refs ((c :: (front ++ back)).flatMap ThreadContext.slots ++ m.table.statics)) := by
    rw [he]
    exact ((List.perm_middle.flatMap_right _).append_right _).filterMap _
  rw [Owned, live, hslots] at h
  exact ⟨_, (h.perm hperm.symm).perm (live_perm c (front ++ back) m.table), .refl _, .refl _⟩

/-- A `long` is read as it was put exactly when the operands are in the frame's part of the stack,
the index of an element is below 2^30 and what is replaced or left behind can be dropped. The first
is so in every run whose invokes find their arguments in the frame. -/
theorem long_kept_iff [FloatArith] {p : Profile} {path : ClassPath} {m : Machine}
    (h : Reaches (Step p path) Ok Opened m) (hc : c ∈ m.control.contexts) (v : Int64) :
    (∀ index slot, c.local? index = some slot → index.toNat + 1 < 2 ^ 16) ∧
    (∀ place : LongPlace, place.Valid m.store →
      (place.Keeps p ⟨m.table, m.store, c⟩ v ↔ place.Free p ⟨m.table, m.store, c⟩ v)) ∧
    ((∀ s e, Ok s e → s.ArgsInFrame p e) → c.Spans c.stack ∧ c.Nests) := by
  have hb := reaches_bounded h c hc
  have ho : m.Owned := by
    apply h.invariant
    · exact fun m hm => opened_owned hm
    · exact fun m e m' ho _ hs => step_owned ho hs
  obtain ⟨others, hf⟩ := ho.framed hc
  refine ⟨fun index slot hs => hb.local_next hs, fun place hp => place.keeps_iff hb hf hp, ?_⟩
  intro hok
  obtain ⟨n, hs⟩ := (reaches_stacked (h.mono hok)).2.contexts c hc
  exact hs.nests

end Machine

/-- After `g` has taken the slot of `main`, `f` does not get back what it pushes. -/
theorem callG_loses_long : ∃ m c,
    Reaches (MainStep [callG [0xb8, 0, 10, 0xb1]]) (fun _ _ => True) Machine.Opened m ∧
    c ∈ m.control.contexts ∧ ¬ PushesAndPops ⟨true⟩ ⟨m.table, m.store, c⟩ 5 := by
  obtain ⟨m, h, hany⟩ : ∃ m, mainRun [callG [0xb8, 0, 10, 0xb1]] 12 = .ok m ∧
      m.control.contexts.any
        (fun c => decide (c.stack.length < c.currentFrame.stackStart)) = true :=
    mainRun_any (by decide +kernel)
  obtain ⟨c, hc, hlt⟩ := List.any_eq_true.mp hany
  refine ⟨m, c, mainRun_reaches h fun _ _ _ _ => trivial, hc, ?_⟩
  rw [pushesAndPops_iff]
  exact Nat.not_le_of_lt (of_decide_eq_true hlt)

/-- With an argument of its own it does. -/
theorem callG_keeps_long : ∃ m c,
    Reaches (MainStep [callG [0x10, 9, 0xb8, 0, 10, 0xb1]]) (fun _ _ => True) Machine.Opened m ∧
    c ∈ m.control.contexts ∧ PushesAndPops ⟨true⟩ ⟨m.table, m.store, c⟩ 5 := by
  obtain ⟨m, h, hany⟩ : ∃ m, mainRun [callG [0x10, 9, 0xb8, 0, 10, 0xb1]] 14 = .ok m ∧
      m.control.contexts.any
        (fun c => decide (c.currentFrame.stackStart ≤ c.stack.length)) = true :=
    mainRun_any (by decide +kernel)
  obtain ⟨c, hc, hle⟩ := List.any_eq_true.mp hany
  have hreach : Reaches (MainStep [callG [0x10, 9, 0xb8, 0, 10, 0xb1]]) (fun _ _ => True)
      Machine.Opened m := mainRun_reaches h fun _ _ _ _ => trivial
  obtain ⟨-, hplaces, -⟩ := @Machine.long_kept_iff _ _ noFloats _ _ _ hreach hc 5
  have hspans : c.currentFrame.stackStart ≤ c.stack.length := of_decide_eq_true hle
  exact ⟨m, c, hreach, hc, (hplaces .stack trivial).mpr hspans⟩

end Janadinite
