import Janadinite.Vm.ArrayLengths
import Janadinite.Vm.WideArrays

namespace Janadinite
open Hoare Layout
open ThreadContext (popSlot popSlotOr apop ipop lpop readContext_eq)
set_option autoImplicit true

inductive StoreInstr where
  | putstatic (refIdx : UInt16)
  | putField (refIdx : UInt16)
  | aaStore
  | baStore
  | iaStore
  | caStore
  | saStore
  | faStore
  | laStore
  | daStore
  deriving DecidableEq, Repr

/-- The field to which an entry of the constant pool is already resolved. -/
def ClassTable.resolvedField (t : ClassTable) (cls : ClassRef) (refIdx : UInt16) :
    Option (ClassRef × FieldOff) :=
  match (t.get cls).constantPool.getEntry refIdx with
  | some (.filedRef _ _ (some found)) => some found
  | some (.resolvedField off) => some (cls, off)
  | _ => none

def ClassTable.staticSlots (t : ClassTable) (cls : ClassRef) (off : FieldOff) :
    Option (List JVMSlot) :=
  ((t.get cls).fieldByIdx off).bind fun f =>
    match f.data with
    | .static slots => some slots
    | .normal _ => none

/-- The operands of the current frame. -/
def ThreadContext.operands (c : ThreadContext) : List JVMSlot :=
  c.stack.drop c.currentFrame.stackStart

namespace StoreInstr

def opcode : StoreInstr → OpCode
  | putstatic refIdx => .putstatic refIdx
  | putField refIdx => .putField refIdx
  | aaStore => .aaStore
  | baStore => .baStore
  | iaStore => .iaStore
  | caStore => .caStore
  | saStore => .saStore
  | faStore => .faStore
  | laStore => .laStore
  | daStore => .daStore

/-- The constant pool entry of the instruction is resolved. -/
def Resolved (cls : ClassRef) (r : Runtime) : StoreInstr → Prop
  | putstatic refIdx => ∃ found, r.table.resolvedField cls refIdx = some found
  | putField refIdx => ∃ found, r.table.resolvedField cls refIdx = some found
  | _ => True

/-- When the instruction ends with an error, the statics are what they were, and so are the objects
that are left, also once slots that it had taken are dropped. -/
def KeepsOnError [FloatArith] (p : Profile) (cls : ClassRef) (lastPc : UInt16) (instr : StoreInstr)
    (r : Runtime) : Prop :=
  ∀ x r' slots s', execute p cls lastPc instr.opcode r = .error (.error x) r' →
    dropSlots p slots r'.store = .ok ⟨⟩ s' →
    (∀ c off, r'.table.staticSlots c off = r.table.staticSlots c off) ∧ r.store.Recounted s'

/-- The operands do not reach for all slots of a static, and those that they reach differ from them
and can be dropped. -/
def HalfWrites (p : Profile) (cls : ClassRef) (r : Runtime) : StoreInstr → Prop
  | putstatic refIdx => ∃ found field slots, r.table.resolvedField cls refIdx = some found ∧
      (r.table.get found.1).fieldByIdx found.2 = some field ∧ field.asStatic = some slots ∧
      r.context.operands.length < slots.length ∧
      slots.drop (slots.length - r.context.operands.length) ≠ r.context.operands ∧
      r.store.Drops p (slots.drop (slots.length - r.context.operands.length)).reverse
  | _ => False

end StoreInstr

/-- Nothing is written but counts. -/
def Kept (r r' : Runtime) : Prop := r'.table = r.table ∧ r.store.Recounted r'.store

/-- Code that has written nothing when it ends, unless it ends in another way than with a value or
an error of the machine. -/
def Keeping (m : VM Runtime α) : Prop :=
  ∀ r, Ends (fun _ => Kept r) (fun e r' => ∀ x, e = .error x → Kept r r') (m r)

/-- Code that has written nothing when it ends with an error of the machine. -/
def Careful (m : VM Runtime α) : Prop := ∀ r x r', m r = .error (.error x) r' → Kept r r'

/-- Code that ends with no error of the machine. -/
def Quiet (m : VM Runtime α) : Prop := ∀ r x r', m r ≠ .error (.error x) r'

theorem Kept.refl (r : Runtime) : Kept r r := ⟨rfl, .refl _⟩

theorem Kept.trans (h : Kept r r') (h' : Kept r' r'') : Kept r r'' :=
  ⟨h'.1.trans h.1, h.2.trans h'.2⟩

namespace Quiet

theorem pure (v : α) : Quiet (Pure.pure v) := fun _ _ _ h => by cases h

theorem bind {m : VM Runtime α} {f : α → VM Runtime β} (hm : Quiet m) (hf : ∀ v, Quiet (f v)) :
    Quiet (m >>= f) := by
  intro r x r' h
  cases hr : m r with
  | ok v r₁ => exact hf v r₁ x r' ((bind_eq f hr).symm.trans h)
  | error e r₁ =>
    cases (bind_error f hr).symm.trans h
    exact hm r x _ hr

theorem onStore {m : VM Store α} (h : Silent m) : Quiet (onStore m) := onStore_silent h

theorem dropRef (p : Profile) (a : Addr) : Quiet (do
    Janadinite.onStore (dropRef p a)
    Pure.pure .next : VM Runtime Outcome) :=
  (onStore (Silent.dropRef p a)).bind fun _ => pure _

end Quiet

namespace Keeping

theorem pure (v : α) : Keeping (Pure.pure v) := fun r => .refl r

theorem fail (x : VMError) : Keeping (fail x : VM Runtime α) := fun r _ _ => .refl r

theorem panics (msg : String) : Keeping (panicWith msg : VM Runtime α) := fun r _ _ => .refl r

theorem okOr (x : VMError) (o : Option α) : Keeping (okOr x o : VM Runtime α) := by
  cases o with
  | some v => exact pure v
  | none => exact fail x

theorem checked (v : Except String α) : Keeping (checked v : VM Runtime α) := by
  cases v with
  | ok v => exact pure v
  | error msg => exact panics msg

theorem bind {m : VM Runtime α} {f : α → VM Runtime β} (hm : Keeping m) (hf : ∀ v, Keeping (f v)) :
    Keeping (m >>= f) := by
  intro r
  apply (hm r).bind
  intro v r₁ _ h
  apply (hf v r₁).mono
  · exact fun _ _ h' => h.trans h'
  · exact fun e r' h' x hx => h.trans (h' x hx)

theorem readContext : Keeping readContext := fun r => .refl r

theorem modifyContext (f : ThreadContext → ThreadContext) : Keeping (modifyContext f) :=
  fun r => ⟨rfl, .refl r.store⟩

theorem onStore {m : VM Store α} (h : ∀ s v s', m s = .ok v s' → s.Recounted s')
    (he : ∀ s x s', m s = .error (.error x) s' → s.Recounted s') : Keeping (onStore m) := by
  intro r
  cases hm : m r.store with
  | ok v s =>
    rw [onStore_eq hm]
    exact ⟨rfl, h _ v s hm⟩
  | error e s =>
    rw [onStore_error hm]
    rintro x rfl
    exact ⟨rfl, he _ x s hm⟩

theorem dropSlot (p : Profile) (slot : JVMSlot) :
    Keeping (Janadinite.onStore (dropSlot p slot)) := by
  apply onStore
  · exact fun _ _ _ h => dropSlot_recounted h
  · exact fun s x s' h => absurd h (Silent.dropSlot p slot s x s')

theorem deref (a : Addr) : Keeping (Janadinite.onStore (deref a)) := by
  apply onStore
  · intro s o s' h
    rw [(deref_ok h).2]
    exact .refl s
  · exact fun s x s' h => absurd h (Silent.deref a s x s')

theorem sliceData (a : Addr) (start len : Nat) :
    Keeping (Janadinite.onStore (sliceData a start len)) := by
  apply onStore
  · intro s slots s' h
    obtain ⟨o, s₁, ho, hslice⟩ := bind_ok h
    obtain ⟨-, rfl⟩ := deref_ok ho
    split at hslice
    · cases hslice
      exact .refl _
    · cases hslice
  · intro s x s' h
    refine absurd h ((Silent.deref a).bind (fun o => ?_) s x s')
    split
    · exact Silent.pure _
    · exact Silent.panics _

theorem checkWide (p : Profile) (a : Addr) (index : Int32) :
    Keeping (Janadinite.onStore (checkWide p a index)) := by
  apply onStore
  · intro s second s' h
    obtain ⟨o, s₁, ho, h₁⟩ := bind_ok h
    obtain ⟨-, rfl⟩ := deref_ok ho
    obtain ⟨m, s₂, hadd, h₂⟩ := bind_ok h₁
    obtain ⟨-, rfl⟩ := checked_ok hadd
    split at h₂
    · obtain ⟨_, s₃, -, hfail⟩ := bind_ok h₂
      cases hfail
    · cases h₂
      exact .refl _
  · intro s x s' h
    exact dropRef_recounted (checkWide_error h).2

theorem popSlot : Keeping popSlot := by
  apply readContext.bind
  intro c
  split
  · exact pure none
  · apply readContext.bind
    intro c
    cases c.stack.getLast? with
    | some slot => exact (modifyContext _).bind fun _ => pure _
    | none => exact pure none

theorem popSlotOr : Keeping popSlotOr := popSlot.bind fun _ => okOr _ _

theorem apop : Keeping apop := popSlotOr.bind fun _ => okOr _ _

theorem ipop (p : Profile) : Keeping (ipop p) :=
  popSlotOr.bind fun slot => (dropSlot p slot).bind fun _ => pure _

theorem lpop (p : Profile) : Keeping (lpop p) :=
  (ipop p).bind fun _ => (ipop p).bind fun _ => pure _

theorem wideIndex (p : Profile) : Keeping (wideIndex p) := (ipop p).bind fun _ => checked _

end Keeping

namespace Careful

theorem bind {m : VM Runtime α} {f : α → VM Runtime β} (hm : Keeping m) (hf : ∀ v, Careful (f v)) :
    Careful (m >>= f) := by
  intro r x r' h
  have hk := hm r
  cases hr : m r with
  | ok v r₁ =>
    rw [hr] at hk
    exact hk.trans (hf v r₁ x r' ((bind_eq f hr).symm.trans h))
  | error e r₁ =>
    rw [hr] at hk
    cases (bind_error f hr).symm.trans h
    exact hk x rfl

theorem quiet {m : VM Runtime α} (h : Quiet m) : Careful m :=
  fun r x r' hr => absurd hr (h r x r')

theorem assign (p : Profile) (a : Addr) (i : Nat) (slot : JVMSlot) : Quiet (do
    onStore (assignData p a i slot)
    onStore (dropRef p a)
    pure .next : VM Runtime Outcome) := by
  apply Quiet.bind (.onStore (Silent.assignData p a i slot))
  exact fun _ => .dropRef p a

theorem arrayStore (p : Profile) {popValue : VM Runtime JVMSlot} (h : Keeping popValue) :
    Careful (arrayStore p popValue) := by
  apply bind h
  intro value
  apply bind (.ipop p)
  intro index
  apply bind .apop
  intro reference
  apply bind (.deref reference)
  intro o
  cases o.data[usizeOf index]? with
  | some old => exact quiet (assign p reference _ value)
  | none =>
    apply bind (.fail _)
    exact fun _ => quiet (.dropRef p reference)

theorem wideArrayStore (p : Profile) : Careful (wideArrayStore p) := by
  apply bind (.lpop p)
  intro value
  apply bind (.wideIndex p)
  intro index
  apply bind .apop
  intro reference
  apply bind (.checkWide p reference index)
  intro second
  apply quiet
  apply Quiet.bind (.onStore (Silent.assignData p reference _ _))
  exact fun _ => assign p reference second _

end Careful

theorem ClassTable.resolvedField_eq {r : Runtime}
    (h : r.table.resolvedField cls refIdx = some found) :
    resolveField cls refIdx r = (do
      let field ← unwrap ((r.table.get found.1).fieldByIdx found.2)
      pure (found.1, found.2, field) : VM Runtime _) r := by
  have hget : getFieldOrResolve cls refIdx r.table = .ok found r.table := by
    rw [resolvedField] at h
    rw [getFieldOrResolve]
    change (okOr _ ((r.table.get cls).constantPool.getEntry refIdx) >>= _) r.table = _
    cases he : (r.table.get cls).constantPool.getEntry refIdx with
    | none =>
      rw [he] at h
      cases h
    | some e =>
      rw [he] at h
      cases e with
      | filedRef classIdx nameAndDesc resolved =>
        cases resolved with
        | none => cases h
        | some found' =>
          cases h
          rfl
      | resolvedField off =>
        cases h
        rfl
      | _ => cases h
  rw [resolveField, bind_eq _ (onTable_eq hget)]
  rfl

/-- Once the field is resolved, nothing is written before an error. -/
theorem putField_careful (p : Profile) {r r' : Runtime}
    (h : r.table.resolvedField cls refIdx = some found)
    (hr : putField p cls refIdx r = .error (.error x) r') : Kept r r' := by
  rw [putField, bind_from _ (ClassTable.resolvedField_eq h)] at hr
  cases hf : (r.table.get found.1).fieldByIdx found.2 with
  | none =>
    rw [hf] at hr
    cases hr
  | some field =>
    rw [hf] at hr
    have key {m : VM Runtime Outcome} (hm : Careful m) (hr : m r = .error (.error x) r') :
        Kept r r' := hm r x r' hr
    apply key _ hr
    apply Careful.bind (.okOr _ _)
    intro off
    apply Careful.bind .popSlotOr
    intro gotSlot
    apply Careful.bind .apop
    intro obj
    apply Careful.bind (.sliceData _ _ _)
    intro slots
    cases slots with
    | nil =>
      apply Careful.bind (.panics _)
      exact fun _ => Careful.quiet (.dropRef p obj)
    | cons slot slots => exact Careful.quiet (Careful.assign p obj _ gotSlot)

namespace ClassTable
variable {t : ClassTable} {cls : ClassRef} {off : FieldOff}

theorem static?_eq (t : ClassTable) (cls : ClassRef) (off : FieldOff) (k : Nat) :
    t.static? cls off k = (t.staticSlots cls off).bind (·[k]?) := by
  rw [static?, staticSlots, Option.bind_assoc]
  apply congrArg
  funext f
  cases f.data <;> rfl

theorem staticSlots_some (h : t.staticSlots cls off = some slots) :
    ∃ f, (t.get cls).fieldByIdx off = some f ∧ f.data = .static slots := by
  obtain ⟨f, hf, hd⟩ := Option.bind_eq_some_iff.mp h
  refine ⟨f, hf, ?_⟩
  cases hdata : f.data with
  | normal n =>
    rw [hdata] at hd
    cases hd
  | static found =>
    rw [hdata] at hd
    rw [Option.some.inj hd]

theorem staticSlots_setStatic_self (h : t.staticSlots cls off = some slots) (k : Nat)
    (slot : JVMSlot) : (t.setStatic cls off k slot).staticSlots cls off =
      some (slots.set k slot) := by
  obtain ⟨f, hf, hd⟩ := staticSlots_some h
  have hc : cls < t.classes.length := by
    apply Classical.byContradiction
    intro hge
    rw [get, List.getD_eq_getElem?_getD, List.getElem?_eq_none (Nat.le_of_not_lt hge)] at hf
    cases hf
  have hfield : ((t.setStatic cls off k slot).get cls).fieldByIdx off =
      some (f.setStatic k slot) := by
    rw [VMClass.fieldByIdx] at hf
    rw [setStatic, get_modifyClass_self hc, VMClass.fieldByIdx, List.getElem?_modify, hf]
    exact congrArg some (if_pos rfl)
  rw [staticSlots, hfield, VMField.setStatic, hd]
  rfl

theorem staticSlots_setStatic_ne (h : ¬ (cls = c ∧ off = o)) (k : Nat) (slot : JVMSlot) :
    (t.setStatic cls off k slot).staticSlots c o = t.staticSlots c o := by
  rw [staticSlots, staticSlots, setStatic]
  by_cases hc : cls = c
  · subst hc
    have hne : off.toNat ≠ o.toNat := fun heq => h ⟨rfl, UInt16.toNat_inj.mp heq⟩
    have hfield : ((t.modifyClass cls fun c => { c with
        fields := c.fields.modify off.toNat fun f => f.setStatic k slot }).get cls).fieldByIdx o =
        (t.get cls).fieldByIdx o := by
      apply t.get_modifyClass (g := fun c => c.fieldByIdx o)
      intro c
      simp only [VMClass.fieldByIdx, List.getElem?_modify, if_neg hne, Option.map_eq_map,
        Option.map_id']
    rw [hfield]
  · rw [get_modifyClass_ne hc]

end ClassTable

/-- The table is what it was except for the slots of one static. -/
structure ClassTable.Writes (t : ClassTable) (cls : ClassRef) (off : FieldOff)
    (slots : List JVMSlot)
    (t' : ClassTable) : Prop where
  written : t'.staticSlots cls off = some slots
  others : ∀ c o, ¬ (cls = c ∧ off = o) → t'.staticSlots c o = t.staticSlots c o

/-- A slot of the same static that was written before is one of those that may differ. -/
theorem ClassTable.Writes.of_setStatic {t t' : ClassTable}
    (h : (t.setStatic cls off k slot).Writes cls off slots t') : t.Writes cls off slots t' := by
  refine ⟨h.written, fun c o hne => ?_⟩
  rw [h.others c o hne]
  exact staticSlots_setStatic_ne hne k slot

section
variable {r : Runtime} {cls : ClassRef} {off : FieldOff} {frame full : List JVMSlot}

theorem popStatics_concat (p : Profile) (hs : r.table.staticSlots cls off = some full)
    (hold : full[k]? = some old) (hstack : r.context.stack = rest ++ [top])
    (hstart : r.context.currentFrame.stackStart ≤ rest.length) :
    popStatics p cls off (k + 1) r = (do
      onStore (dropSlot p old)
      popStatics p cls off k : VM Runtime PUnit)
      { r.onStack rest with table := r.table.setStatic cls off k top } := by
  have hslot : popSlotOr r = .ok top (r.onStack rest) := by
    rw [popSlotOr, bind_eq _ (popSlot_concat hstack hstart)]
    rfl
  have hstatic : (r.onStack rest).table.static? cls off k = some old := by
    rw [ClassTable.static?_eq]
    change (r.table.staticSlots cls off).bind _ = _
    rw [hs]
    exact hold
  rw [popStatics, bind_eq _ hslot, bind_get]
  simp only [hstatic]
  rfl

theorem popStatics_quiet (p : Profile) (hs : r.table.staticSlots cls off = some full)
    (hk : k ≤ full.length) (hstack : k ≤ r.context.operands.length) (x : VMError)
    (r' : Runtime) : popStatics p cls off k r ≠ .error (.error x) r' := by
  intro hr
  induction k generalizing r full with
  | zero => cases hr
  | succ k ih =>
    rw [ThreadContext.operands, List.length_drop] at hstack
    obtain ⟨rest, top, hrest⟩ : ∃ rest top, r.context.stack = rest ++ [top] := by
      rcases List.eq_nil_or_concat' r.context.stack with hnil | hconcat
      · rw [hnil, List.length_nil, Nat.zero_sub] at hstack
        cases hstack
      · exact hconcat
    rw [hrest, List.length_append, List.length_singleton] at hstack
    have hold : full[k]? = some full[k] := List.getElem?_eq_getElem hk
    rw [popStatics_concat p hs hold hrest (by omega)] at hr
    cases hd : dropSlot p full[k] r.store with
    | error e s =>
      cases (bind_error _ (onStore_error (r := { r.onStack rest with
        table := r.table.setStatic cls off k top }) hd)).symm.trans hr
      exact Silent.dropSlot p _ _ x s hd
    | ok u s =>
      rw [bind_eq _ (onStore_eq (r := { r.onStack rest with
        table := r.table.setStatic cls off k top }) hd)] at hr
      refine ih (r := { r.onStack rest with
        table := r.table.setStatic cls off k top, store := s })
        (ClassTable.staticSlots_setStatic_self hs k top) ?_ ?_ hr
      · rw [List.length_set]
        exact Nat.le_of_succ_le hk
      · change k ≤ (rest.drop r.context.currentFrame.stackStart).length
        rw [List.length_drop]
        omega

theorem popStatics_empty (p : Profile)
    (h : r.context.stack.length ≤ r.context.currentFrame.stackStart) :
    popStatics p cls off (k + 1) r = .error (.error .stackUnderflow) r := by
  have hpop : popSlotOr r = .error (.error .stackUnderflow) r := by
    rw [popSlotOr, bind_eq _ (popSlot_empty h)]
    rfl
  rw [popStatics, bind_error _ hpop]

/-- With too few operands, all of them are written to the last slots of the static, and what was
there is dropped, before the error. -/
theorem popStatics_underflow (p : Profile) (hs : r.table.staticSlots cls off = some full)
    (hk : k ≤ full.length) (hstack : r.context.stack = rest ++ frame)
    (hstart : rest.length ≤ r.context.currentFrame.stackStart)
    (hframe : frame ≠ [] → r.context.currentFrame.stackStart ≤ rest.length)
    (hlt : frame.length < k) :
    ∃ t', r.table.Writes cls off (overwrite full (k - frame.length) frame) t' ∧
      ∀ x r', popStatics p cls off k r = .error (.error x) r' ↔ ∃ s,
        dropSlots p (slice full (k - frame.length) frame.length).reverse r.store = .ok ⟨⟩ s ∧
        x = .stackUnderflow ∧ r' = { r.onStack rest with table := t', store := s } := by
  induction k generalizing r full frame with
  | zero => exact absurd hlt (Nat.not_lt_zero _)
  | succ k ih =>
    rcases List.eq_nil_or_concat' frame with rfl | ⟨front, top, rfl⟩
    · have hempty : r.context.stack.length ≤ r.context.currentFrame.stackStart := by
        rw [hstack, List.append_nil]
        exact hstart
      have hrest : r.onStack rest = r := by
        rw [← List.append_nil rest, ← hstack]
        rfl
      refine ⟨r.table, ⟨?_, fun _ _ _ => rfl⟩, fun x r' => ?_⟩
      · rw [overwrite_nil]
        exact hs
      · rw [popStatics_empty p hempty, hrest]
        constructor
        · intro h
          cases h
          exact ⟨_, rfl, rfl, rfl⟩
        · rintro ⟨s, hdrop, rfl, rfl⟩
          cases hdrop
          rfl
    · have hlen : k + 1 - (front ++ [top]).length = k - front.length := by
        rw [List.length_append, List.length_singleton]
        omega
      have hfront : front.length < k := by
        rw [List.length_append, List.length_singleton] at hlt
        exact Nat.lt_of_succ_lt_succ hlt
      have hplace : k - front.length + front.length = k := Nat.sub_add_cancel (Nat.le_of_lt hfront)
      have hold : full[k]? = some full[k] := List.getElem?_eq_getElem hk
      have hstart' := hframe (List.append_ne_nil_of_right_ne_nil _ (List.cons_ne_nil top []))
      have hround := popStatics_concat p hs hold (hstack.trans (List.append_assoc ..).symm)
        (Nat.le_trans hstart' (by rw [List.length_append]; exact Nat.le_add_right _ _))
      have hslice : slice (full.set k top) (k - front.length) front.length =
          slice full (k - front.length) front.length := by
        apply slice_set
        rintro ⟨-, hk⟩
        rw [hplace] at hk
        exact Nat.lt_irrefl k hk
      have hwrite : overwrite (full.set k top) (k - front.length) front =
          overwrite full (k - front.length) (front ++ [top]) := by
        have h : k - front.length + front.length < full.length := by rwa [hplace]
        have hset := overwrite_set h top
        rwa [hplace] at hset
      have holds : slice full (k - front.length) (front.length + 1) =
          slice full (k - front.length) front.length ++ [full[k]] :=
        slice_concat (hplace.symm ▸ hold)
      let r₁ : Runtime := { r.onStack (rest ++ front) with
        table := r.table.setStatic cls off k top }
      have hs₁ : r₁.table.staticSlots cls off = some (full.set k top) :=
        ClassTable.staticSlots_setStatic_self hs k top
      have hk₁ : k ≤ (full.set k top).length := by
        rw [List.length_set]
        exact Nat.le_of_succ_le hk
      have hwrites : ∀ t', r₁.table.Writes cls off (overwrite (full.set k top)
          (k - front.length) front) t' →
          r.table.Writes cls off (overwrite full (k - front.length) (front ++ [top])) t' := by
        intro t' h
        rw [← hwrite]
        exact h.of_setStatic
      rw [hlen, List.length_append, List.length_singleton, holds, List.reverse_append, hround]
      cases hd : dropSlot p full[k] r.store with
      | error e s =>
        obtain ⟨t', ht', -⟩ := ih (r := r₁) hs₁ hk₁ rfl hstart (fun _ => hstart') hfront
        refine ⟨t', hwrites t' ht', fun x r' => ?_⟩
        rw [bind_error _ (onStore_error (r := r₁) hd)]
        constructor
        · intro h
          cases h
          exact absurd hd (Silent.dropSlot p _ _ x s)
        · rintro ⟨s', hdrops, -⟩
          cases (bind_error _ hd).symm.trans hdrops
      | ok u s =>
        obtain ⟨t', ht', hiff⟩ := ih (r := { r₁ with store := s }) hs₁ hk₁ rfl hstart
          (fun _ => hstart') hfront
        refine ⟨t', hwrites t' ht', fun x r' => ?_⟩
        rw [bind_eq _ (onStore_eq (r := r₁) hd), ← hslice]
        change _ ↔ ∃ s, (dropSlot p full[k] >>= fun _ => dropSlots p _) r.store = _ ∧ _
        rw [bind_eq _ hd]
        exact hiff x r'

end

theorem VMField.asStatic_some {f : VMField} (h : f.asStatic = some slots) :
    ∃ full, f.data = .static full ∧ slots = full.take slots.length ∧
      slots.length ≤ full.length := by
  rw [asStatic] at h
  cases hd : f.data with
  | normal off =>
    rw [hd] at h
    cases h
  | static full =>
    rw [hd] at h
    cases h
    refine ⟨full, rfl, ?_, ?_⟩
    · rw [List.length_take, List.take_eq_take_min]
    · exact List.length_take_le' _ _

theorem ThreadContext.stack_eq (c : ThreadContext) :
    c.stack = c.stack.take c.currentFrame.stackStart ++ c.operands :=
  (List.take_append_drop ..).symm

theorem putstatic_error_iff {r : Runtime} {field : VMField} (p : Profile)
    (h : r.table.resolvedField cls refIdx = some found)
    (hf : (r.table.get found.1).fieldByIdx found.2 = some field)
    (hslots : field.asStatic = some slots) (x : VMError) (r' : Runtime) :
    putstatic p cls refIdx r = .error (.error x) r' ↔
      popStatics p found.1 found.2 slots.length r = .error (.error x) r' := by
  have hrun : putstatic p cls refIdx r = (do
      popStatics p found.1 found.2 slots.length
      pure .next : VM Runtime Outcome) r := by
    rw [putstatic, bind_from _ (ClassTable.resolvedField_eq h), hf]
    change (okOr _ field.asStatic >>= _) r = _
    rw [hslots]
    rfl
  rw [hrun]
  cases hp : popStatics p found.1 found.2 slots.length r with
  | ok u r₁ =>
    rw [bind_eq _ hp]
    constructor <;> intro hr <;> cases hr
  | error e r₁ =>
    rw [bind_error _ hp]
    constructor <;> intro hr <;> cases hr <;> rfl

theorem putstatic_keeps_iff {r : Runtime} {field : VMField}
    (h : r.table.resolvedField cls refIdx = some found)
    (hf : (r.table.get found.1).fieldByIdx found.2 = some field)
    (hslots : field.asStatic = some slots) :
    (∀ x r' dropped s', putstatic p cls refIdx r = .error (.error x) r' →
      dropSlots p dropped r'.store = .ok ⟨⟩ s' →
      (∀ c off, r'.table.staticSlots c off = r.table.staticSlots c off) ∧ r.store.Recounted s') ↔
    ¬ (r.context.operands.length < slots.length ∧
      slots.drop (slots.length - r.context.operands.length) ≠ r.context.operands ∧
      r.store.Drops p (slots.drop (slots.length - r.context.operands.length)).reverse) := by
  obtain ⟨full, hd, htake, hle⟩ := VMField.asStatic_some hslots
  have hs : r.table.staticSlots found.1 found.2 = some full := by
    rw [ClassTable.staticSlots, hf]
    change (match field.data with | .static slots => some slots | .normal _ => none) = _
    rw [hd]
  have herror := putstatic_error_iff p h hf hslots
  by_cases hlt : r.context.operands.length < slots.length
  · have hslice : slots.drop (slots.length - r.context.operands.length) =
        slice full (slots.length - r.context.operands.length) r.context.operands.length := by
      have hdrop := congrArg (List.drop (slots.length - r.context.operands.length)) htake
      rw [hdrop, List.drop_take, Nat.sub_sub_self (Nat.le_of_lt hlt)]
      rfl
    have hin : slots.length - r.context.operands.length + r.context.operands.length ≤
        full.length := by
      rwa [Nat.sub_add_cancel (Nat.le_of_lt hlt)]
    have hframe : r.context.operands ≠ [] → r.context.currentFrame.stackStart ≤
        (r.context.stack.take r.context.currentFrame.stackStart).length := by
      intro hne
      have hpos := List.length_pos_of_ne_nil hne
      rw [ThreadContext.operands, List.length_drop] at hpos
      rw [List.length_take]
      omega
    obtain ⟨t', hw, hiff⟩ := popStatics_underflow p hs hle r.context.stack_eq
      (List.length_take_le ..) hframe hlt
    rw [hslice]
    constructor
    · rintro hk ⟨-, hne, s, hdrops⟩
      have hr := (herror _ _).mpr ((hiff _ _).mpr ⟨s, hdrops, rfl, rfl⟩)
      have hsame := (hk _ _ [] s hr rfl).1 found.1 found.2
      have hfull := Option.some.inj (hw.written.symm.trans (hsame.trans hs))
      apply hne
      rw [← hfull]
      exact slice_overwrite hin
    · intro hn x r' dropped s' hr hdropped
      obtain ⟨s, hdrops, rfl, rfl⟩ := (hiff x r').mp ((herror x r').mp hr)
      have heq : slice full (slots.length - r.context.operands.length) r.context.operands.length =
          r.context.operands := by
        apply Classical.byContradiction
        exact fun hne => hn ⟨hlt, hne, s, hdrops⟩
      refine ⟨fun c off => ?_, (dropSlots_recounted hdrops).trans (dropSlots_recounted hdropped)⟩
      by_cases hc : found.1 = c ∧ found.2 = off
      · obtain ⟨rfl, rfl⟩ := hc
        have hover := overwrite_slice hin
        rw [heq] at hover
        exact hw.written.trans ((congrArg some hover).trans hs.symm)
      · exact hw.others c off hc
  · apply iff_of_true
    · intro x r' dropped s' hr
      exact absurd ((herror x r').mp hr) (popStatics_quiet p hs hle (Nat.le_of_not_lt hlt) x r')
    · exact fun hn => hlt hn.1

/-- An instruction that stores keeps the statics and the objects when it ends with an error, exactly
when it does not write a part of a static. -/
theorem keepsOnError_iff [FloatArith] {instr : StoreInstr} {r : Runtime}
    (h : instr.Resolved cls r) :
    instr.KeepsOnError p cls lastPc r ↔ ¬ instr.HalfWrites p cls r := by
  have hkept : (∀ x r', execute p cls lastPc instr.opcode r = .error (.error x) r' → Kept r r') →
      instr.KeepsOnError p cls lastPc r := by
    intro hk x r' slots s' hr hdrops
    obtain ⟨ht, hs⟩ := hk x r' hr
    exact ⟨fun c off => by rw [ht], hs.trans (dropSlots_recounted hdrops)⟩
  have hstore : ∀ {popValue : VM Runtime JVMSlot}, Keeping popValue →
      execute p cls lastPc instr.opcode = arrayStore p popValue → ¬ instr.HalfWrites p cls r →
      (instr.KeepsOnError p cls lastPc r ↔ ¬ instr.HalfWrites p cls r) := by
    intro popValue hpop hexecute hn
    exact iff_of_true (hkept (hexecute ▸ Careful.arrayStore p hpop r)) hn
  cases instr with
  | putstatic refIdx =>
    obtain ⟨found, hfound⟩ := h
    have hrun : execute p cls lastPc (.putstatic refIdx) r = putstatic p cls refIdx r := rfl
    cases hf : (r.table.get found.1).fieldByIdx found.2 with
    | none =>
      apply iff_of_true
      · apply hkept
        intro x r' hr
        rw [StoreInstr.opcode, hrun, putstatic, bind_from _ (ClassTable.resolvedField_eq hfound),
          hf] at hr
        cases hr
      · rintro ⟨found', field, slots, hfound', hf', -⟩
        cases hfound.symm.trans hfound'
        cases hf.symm.trans hf'
    | some field =>
      cases hslots : field.asStatic with
      | none =>
        apply iff_of_true
        · apply hkept
          intro x r' hr
          rw [StoreInstr.opcode, hrun, putstatic, bind_from _ (ClassTable.resolvedField_eq hfound),
            hf] at hr
          change (okOr _ field.asStatic >>= _) r = _ at hr
          rw [hslots] at hr
          cases hr
          exact .refl r
        · rintro ⟨found', field', slots, hfound', hf', hslots', -⟩
          cases hfound.symm.trans hfound'
          cases hf.symm.trans hf'
          cases hslots.symm.trans hslots'
      | some slots =>
        apply (putstatic_keeps_iff hfound hf hslots).trans
        apply not_congr
        constructor
        · exact fun hw => ⟨found, field, slots, hfound, hf, hslots, hw⟩
        · rintro ⟨found', field', slots', hfound', hf', hslots', hw⟩
          cases hfound.symm.trans hfound'
          cases hf.symm.trans hf'
          cases hslots.symm.trans hslots'
          exact hw
  | putField refIdx =>
    obtain ⟨found, hfound⟩ := h
    exact iff_of_true (hkept fun x r' hr => putField_careful p hfound hr) id
  | aaStore => exact hstore (Keeping.apop.bind fun _ => .pure _) rfl id
  | laStore => exact iff_of_true (hkept (Careful.wideArrayStore p r)) id
  | daStore => exact iff_of_true (hkept (Careful.wideArrayStore p r)) id
  | _ => exact hstore .popSlotOr rfl id

def withStatic (stack : List JVMSlot) : Runtime :=
  { withCounts [] with
    table := ⟨[{ VMClass.javaLangObject with
      fields := [⟨0, .static [.null, .null], ⟨"x", "J", 2, .accStatic, []⟩⟩]
      constantPool := [.unusable, .resolvedField 0] }], []⟩
    context := { ThreadContext.new 8 0 with stack } }

/-- With one operand only the high half of the static is written. -/
theorem putstatic_half_written : ¬ @StoreInstr.KeepsOnError noFloats ⟨true⟩ 0 0 (.putstatic 1)
    (withStatic [.fromI32 5]) := by
  intro h
  have hrun : ∃ r', @execute noFloats ⟨true⟩ 0 0 (.putstatic 1) (withStatic [.fromI32 5]) =
        .error (.error .stackUnderflow) r' ∧
      r'.table.staticSlots 0 0 = some [.null, .fromI32 5] := ⟨_, rfl, rfl⟩
  obtain ⟨r', hr, hslots⟩ := hrun
  have hsame := (h _ r' [] r'.store hr rfl).1 0 0
  rw [hslots] at hsame
  exact absurd hsame (by decide)

theorem putstatic_empty_keeps : @StoreInstr.KeepsOnError noFloats ⟨true⟩ 0 0 (.putstatic 1)
    (withStatic []) := by
  apply (@keepsOnError_iff 0 ⟨true⟩ 0 noFloats (.putstatic 1) (withStatic []) ⟨(0, 0), rfl⟩).mpr
  rintro ⟨found, field, slots, -, -, -, -, hne, -⟩
  apply hne
  exact List.drop_length

end Janadinite
