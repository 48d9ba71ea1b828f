import Janadinite.Vm.Context
import Janadinite.Vm.HeapOps

namespace Janadinite
open Hoare
set_option autoImplicit true

theorem okOr_triple {P : σ → Prop} {Q : α → σ → Prop} (h : ∀ a s, o = some a → P s → Q a s) :
    Triple P (okOr e o) Q Regular := by
  intro s hp
  cases o with
  | none => trivial
  | some a => exact h a s rfl hp

theorem expect_triple {P : σ → Prop} {Q : α → σ → Prop} (h : ∀ a s, o = some a → P s → Q a s) :
    Triple P (expect msg o) Q Regular := by
  intro s hp
  cases o with
  | none => trivial
  | some a => exact h a s rfl hp

theorem checked_triple {P : σ → Prop} (x : Except String α) :
    Triple P (checked x) (fun _ => P) Regular := by
  intro s hp
  cases x with
  | error msg => trivial
  | ok a => exact hp

def VMField.statics (f : VMField) : List JVMSlot :=
  match f.data with
  | .static slots => slots
  | .normal _ => []

def VMClass.statics (c : VMClass) : List JVMSlot := c.fields.flatMap VMField.statics

def ClassTable.statics (t : ClassTable) : List JVMSlot := t.classes.flatMap VMClass.statics

def ThreadContext.slots (c : ThreadContext) : List JVMSlot := c.stack ++ c.locals

def Runtime.slots (r : Runtime) : List JVMSlot := r.context.slots ++ r.table.statics

/-- An entry as it was before its cell was set. -/
def VMConstantPoolEntry.unresolved : VMConstantPoolEntry → VMConstantPoolEntry
  | .class name _ => .class name none
  | .classArray descriptor dimensions _ => .classArray descriptor dimensions none
  | .methodRef classIdx nameAndDesc _ => .methodRef classIdx nameAndDesc none
  | .filedRef classIdx nameAndDesc _ => .filedRef classIdx nameAndDesc none
  | entry => entry

/-- What no instruction changes of the classes. -/
structure ClassTable.Keeps (t₀ t : ClassTable) : Prop where
  loaded : t.loaded = t₀.loaded
  length : t.classes.length = t₀.classes.length
  vtable : ∀ c, (t.get c).vtable = (t₀.get c).vtable
  staticVtable : ∀ c, (t.get c).staticVtable = (t₀.get c).staticVtable
  pool : ∀ c, (t.get c).constantPool.map VMConstantPoolEntry.unresolved =
    (t₀.get c).constantPool.map VMConstantPoolEntry.unresolved

/-- What an instruction that is no call changes of a context is in the current frame's part. -/
structure ThreadContext.Keeps (c₀ c : ThreadContext) : Prop where
  currentFrame : c.currentFrame = c₀.currentFrame
  prevFrames : c.prevFrames = c₀.prevFrames
  stack : c₀.stack.take c₀.currentFrame.stackStart <+: c.stack
  length : c.locals.length = c₀.locals.length
  locals : c.locals.take c₀.currentFrame.localsStart = c₀.locals.take c₀.currentFrame.localsStart

/-- Where an instruction begins: the classes, its context, and the references in other contexts. -/
structure Outset where
  table : ClassTable
  context : ThreadContext
  others : List Addr

/-- In the middle of an instruction: besides the slots it holds the references `temps` itself. -/
structure Framed (b : Outset) (temps : List Addr) (r : Runtime) : Prop where
  owned : r.store.Owned (temps ++ (refs r.slots ++ b.others))
  table : b.table.Keeps r.table
  context : b.context.Keeps r.context

namespace Framed

theorem perm (h : Framed b temps r) (hp : temps'.Perm temps) : Framed b temps' r :=
  ⟨h.owned.perm (hp.append_right _), h.table, h.context⟩

theorem setContext (h : Framed b temps r) (hc : b.context.Keeps c)
    (hp : (temps' ++ refs c.slots).Perm (temps ++ refs r.context.slots)) :
    Framed b temps' { r with context := c } := by
  refine ⟨h.owned.perm ?_, h.table, hc⟩
  have hr := hp.append_right (refs r.table.statics ++ b.others)
  simpa only [Runtime.slots, refs_append, List.append_assoc] using hr

theorem setTable (h : Framed b temps r) (ht : b.table.Keeps t)
    (hp : (temps' ++ refs t.statics).Perm (temps ++ refs r.table.statics)) :
    Framed b temps' { r with table := t } := by
  refine ⟨h.owned.perm ?_, ht, h.context⟩
  apply List.perm_iff_count.mpr
  intro a
  have ha := hp.count_eq a
  simp only [Runtime.slots, refs_append, List.count_append] at ha ⊢
  omega

theorem mem_objects (h : Framed b temps r) (ha : a ∈ temps) : a ∈ r.store.heap.objects :=
  h.owned.counted.root_mem a (List.mem_append_left _ ha)

theorem slots_objects (h : Framed b temps r) : refs r.slots ⊆ r.store.heap.objects := by
  intro a ha
  apply h.owned.counted.root_mem
  exact List.mem_append_right _ (List.mem_append_left _ ha)

theorem refs_fromObject (h : Framed b (a :: temps) r) : refs [.fromObject a] = [a] := by
  rw [refs_cons, JVMSlot.object?_fromObject (h.owned.root_fits List.mem_cons_self)]
  rfl

end Framed

theorem refs_of_object {slot : JVMSlot} (h : slot.object? = some a) : refs [slot] = [a] := by
  rw [refs_cons, h]
  rfl

theorem refs_fromI32 (i : Int32) : refs [.fromI32 i] = [] := by
  rw [refs_cons, JVMSlot.object?_fromI32]
  rfl

section
variable {b : Outset} {temps : List Addr}

/-- What an operation does on the store it does beside the classes and the context. -/
theorem onStore_lift {m : VM Store α} {r : Runtime} (h : Hoare.Ends Q E (m r.store)) :
    Ends (fun a r' => r'.table = r.table ∧ r'.context = r.context ∧ Q a r'.store)
      (fun e r' => E e r'.store) (onStore m r) := by
  unfold onStore
  cases hm : m r.store with
  | ok a s =>
    rw [hm] at h
    exact ⟨rfl, rfl, h⟩
  | error e s =>
    rw [hm] at h
    exact h

theorem onStore_ends {m : VM Store α} {P : Store → Prop} {Q : α → Store → Prop}
    (h : Triple P m Q Regular) {r : Runtime} (hp : P r.store) :
    Ends (fun a r' => r'.table = r.table ∧ r'.context = r.context ∧ Q a r'.store) Regular
      (onStore m r) := by
  apply (onStore_lift (h r.store hp)).mono (fun _ _ hq => hq)
  intro e _ he
  cases e <;> exact he

theorem onStore_framed {m : VM Store α} {used : List Addr} {made : α → List Addr}
    {P : Store → Prop} {Q : α → Store → Prop}
    (h : ∀ roots, Triple (fun s => s.Owned (used ++ roots) ∧ P s) m
      (fun a s => s.Owned (made a ++ roots) ∧ Q a s) Regular) :
    Triple (fun r => Framed b (used ++ temps) r ∧ P r.store) (onStore m)
      (fun a r => Framed b (made a ++ temps) r ∧ Q a r.store) Regular := by
  intro r ⟨hr, hp⟩
  have ho := hr.owned
  rw [List.append_assoc] at ho
  apply (onStore_ends (h _) ⟨ho, hp⟩).mono
  · intro a r' ⟨ht, hc, ho, hq⟩
    rw [← List.append_assoc] at ho
    have hs : r'.slots = r.slots := by rw [Runtime.slots, Runtime.slots, ht, hc]
    refine ⟨⟨?_, ?_, ?_⟩, hq⟩
    · rw [hs]
      exact ho
    · rw [ht]
      exact hr.table
    · rw [hc]
      exact hr.context
  · exact fun _ _ he => he

theorem onStore_owned {m : VM Store α} (used : List Addr) (made : α → List Addr)
    (h : ∀ roots, Triple (fun s => s.Owned (used ++ roots)) m
      (fun a s => s.Owned (made a ++ roots)) Regular) :
    Triple (Framed b (used ++ temps)) (onStore m) (fun a => Framed b (made a ++ temps))
      Regular := by
  have hm : Triple (fun r => Framed b (used ++ temps) r ∧ True) (onStore m)
      (fun a r => Framed b (made a ++ temps) r ∧ True) Regular := by
    apply onStore_framed (P := fun _ => True) (Q := fun _ _ => True)
    intro roots
    exact (h roots).mono (fun _ hs => hs.1) (fun _ _ hs => ⟨hs, trivial⟩) fun _ _ hs => hs
  exact hm.mono (fun _ hr => ⟨hr, trivial⟩) (fun _ _ hr => hr.1) fun _ _ hr => hr

theorem dropSlot_framed (p : Profile) (slot : JVMSlot) :
    Triple (Framed b (refs [slot] ++ temps)) (onStore (dropSlot p slot))
      (fun _ => Framed b temps) Regular := by
  exact onStore_owned _ (fun _ => []) fun roots => dropSlot_owned p slot roots

theorem dropSlots_framed (p : Profile) (slots : List JVMSlot) :
    Triple (Framed b (refs slots ++ temps)) (onStore (dropSlots p slots))
      (fun _ => Framed b temps) Regular := by
  exact onStore_owned _ (fun _ => []) fun roots => dropSlots_owned p slots roots

theorem dropRef_framed (p : Profile) (a : Addr) :
    Triple (Framed b (a :: temps)) (onStore (dropRef p a)) (fun _ => Framed b temps) Regular := by
  exact onStore_owned [a] (fun _ => []) fun roots => dropRef_owned p a roots

/-- Slots are cloned of which it is known that what they refer to is in the heap. -/
theorem cloneSlot_framed {live : List Addr} (p : Profile) (hs : refs [slot] ⊆ live) :
    Triple (fun r => Framed b temps r ∧ live ⊆ r.store.heap.objects) (onStore (cloneSlot p slot))
      (fun c r => c = slot ∧ Framed b (refs [slot] ++ temps) r ∧ live ⊆ r.store.heap.objects)
      Regular := by
  have hm : Triple (fun r => Framed b ([] ++ temps) r ∧ live ⊆ r.store.heap.objects)
      (onStore (cloneSlot p slot)) (fun c r => Framed b (refs [slot] ++ temps) r ∧
        c = slot ∧ live ⊆ r.store.heap.objects) Regular := by
    apply onStore_framed (P := fun s => live ⊆ s.heap.objects)
      (Q := fun c s => c = slot ∧ live ⊆ s.heap.objects)
    intro roots
    apply (cloneSlot_owned p roots hs).mono
    · exact fun _ h => h
    · exact fun _ _ ⟨hc, h, hl⟩ => ⟨h, hc, hl⟩
    · exact fun _ _ h => h
  apply hm.mono
  · exact fun _ h => h
  · exact fun _ _ ⟨h, hc, hl⟩ => ⟨hc, h, hl⟩
  · exact fun _ _ h => h

theorem cloneTemp_framed (p : Profile) (slot : JVMSlot) :
    Triple (Framed b (refs [slot] ++ temps)) (onStore (cloneSlot p slot))
      (fun c r => c = slot ∧ Framed b (refs [slot] ++ (refs [slot] ++ temps)) r) Regular := by
  intro r h
  have hl : refs [slot] ⊆ r.store.heap.objects := fun a ha =>
    h.mem_objects (List.mem_append_left _ ha)
  apply (cloneSlot_framed p (fun a ha => ha) r ⟨h, hl⟩).mono
  · exact fun _ _ ⟨hc, h, _⟩ => ⟨hc, h⟩
  · exact fun _ _ h => h

namespace ThreadContext

theorem keeps_push {c₀ c : ThreadContext} (h : c₀.Keeps c) (slot : JVMSlot) :
    c₀.Keeps { c with stack := c.stack ++ [slot] } :=
  ⟨h.currentFrame, h.prevFrames, h.stack.trans (List.prefix_append _ _), h.length, h.locals⟩

theorem pushSlot_framed (slot : JVMSlot) :
    Triple (Framed b (refs [slot] ++ temps)) (pushSlot slot) (fun _ => Framed b temps)
      Regular := by
  intro r h
  apply h.setContext (keeps_push h.context slot)
  apply List.perm_iff_count.mpr
  intro a
  simp only [slots, refs_append, List.count_append]
  omega

theorem pushSlots_framed (values : List JVMSlot) :
    Triple (Framed b (refs values ++ temps)) (pushSlots values) (fun _ => Framed b temps)
      Regular := by
  induction values with
  | nil => exact Triple.pure fun _ h => h
  | cons slot values ih =>
    rw [refs_cons, ← List.append_nil slot.object?.toList, ← refs_nil, ← refs_cons,
      List.append_assoc]
    apply Triple.bind (pushSlot_framed slot)
    exact fun _ => ih

theorem pushValue_framed (v : JVMValue) :
    Triple (Framed b (refs v.toSlots ++ temps)) (pushValue v) (fun _ => Framed b temps) Regular :=
  pushSlots_framed v.toSlots

theorem ipush_framed (v : Int32) :
    Triple (Framed b temps) (ipush v) (fun _ => Framed b temps) Regular := by
  have h : Triple (Framed b (refs [.fromI32 v] ++ temps)) (ipush v) (fun _ => Framed b temps)
      Regular := pushSlot_framed _
  rwa [refs_fromI32] at h

theorem fpush_framed (v : F32) :
    Triple (Framed b temps) (fpush v) (fun _ => Framed b temps) Regular :=
  ipush_framed _

theorem refs_fromI64 (i : Int64) : refs (JVMSlot.fromI64 i) = [] := by
  rw [JVMSlot.fromI64, refs_cons, JVMSlot.object?_fromI32]
  exact refs_fromI32 _

theorem lpush_framed (v : Int64) :
    Triple (Framed b temps) (lpush v) (fun _ => Framed b temps) Regular := by
  have h : Triple (Framed b (refs (JVMSlot.fromI64 v) ++ temps)) (lpush v)
      (fun _ => Framed b temps) Regular := pushValue_framed (.long v)
  rwa [refs_fromI64] at h

theorem dpush_framed (v : F64) :
    Triple (Framed b temps) (dpush v) (fun _ => Framed b temps) Regular := by
  have h : Triple (Framed b (refs (JVMSlot.fromI64 v.bits.toInt64) ++ temps)) (dpush v)
      (fun _ => Framed b temps) Regular := pushValue_framed (.double v)
  rwa [refs_fromI64] at h

theorem apush_framed (obj : Addr) :
    Triple (Framed b (obj :: temps)) (apush obj) (fun _ => Framed b temps) Regular := by
  intro r h
  apply pushSlot_framed (.fromObject obj)
  rw [h.refs_fromObject]
  exact h

theorem keeps_pop {c₀ c : ThreadContext} (h : c₀.Keeps c)
    (hl : c.currentFrame.stackStart < c.stack.length) :
    c₀.Keeps { c with stack := c.stack.dropLast } := by
  refine ⟨h.currentFrame, h.prevFrames, ?_, h.length, h.locals⟩
  apply List.prefix_of_prefix_length_le h.stack (List.dropLast_prefix _)
  rw [List.length_take, List.length_dropLast]
  rw [h.currentFrame] at hl
  omega

theorem readContext_eq (r : Runtime) : readContext r = .ok r.context r := rfl

theorem popSlot_framed :
    Triple (Framed b temps) popSlot (fun slot => Framed b (refs slot.toList ++ temps))
      Regular := by
  intro r h
  rw [popSlot, bind_eq _ (readContext_eq r)]
  split
  · exact h
  · rename_i hl
    rw [stackPop, bind_eq _ (readContext_eq r)]
    cases hs : r.context.stack.getLast? with
    | none => exact h
    | some slot =>
      apply h.setContext (keeps_pop h.context (Nat.lt_of_not_le hl))
      obtain ⟨front, hf⟩ := List.getLast?_eq_some_iff.mp hs
      apply List.perm_iff_count.mpr
      intro a
      simp only [slots, hf, List.dropLast_concat, Option.toList, refs_append, List.count_append]
      omega

theorem popSlotOr_framed :
    Triple (Framed b temps) popSlotOr (fun slot => Framed b (refs [slot] ++ temps)) Regular := by
  apply Triple.bind popSlot_framed
  intro slot
  apply okOr_triple
  intro a r hs h
  rwa [hs] at h

theorem ipop_framed (p : Profile) :
    Triple (Framed b temps) (ipop p) (fun _ => Framed b temps) Regular := by
  apply Triple.bind popSlotOr_framed
  intro slot
  apply Triple.bind (dropSlot_framed p slot)
  exact fun _ => Triple.pure fun _ h => h

theorem fpop_framed (p : Profile) :
    Triple (Framed b temps) (fpop p) (fun _ => Framed b temps) Regular := by
  apply Triple.bind (ipop_framed p)
  exact fun _ => Triple.pure fun _ h => h

theorem apop_framed :
    Triple (Framed b temps) apop (fun a => Framed b (a :: temps)) Regular := by
  apply Triple.bind popSlotOr_framed
  intro slot
  apply okOr_triple
  intro a r hs h
  rwa [refs_of_object hs] at h

theorem lpop_framed (p : Profile) :
    Triple (Framed b temps) (lpop p) (fun _ => Framed b temps) Regular := by
  apply Triple.bind (ipop_framed p)
  intro high
  apply Triple.bind (ipop_framed p)
  exact fun _ => Triple.pure fun _ h => h

theorem dpop_framed (p : Profile) :
    Triple (Framed b temps) (dpop p) (fun _ => Framed b temps) Regular := by
  apply Triple.bind (lpop_framed p)
  exact fun _ => Triple.pure fun _ h => h

theorem iload_reads {P : Runtime → Prop} (index : UInt16) :
    Triple P (iload index) (fun _ => P) Regular := by
  intro r h
  change Ends _ _ ((okOr _ (r.context.local? index) >>= _ : VM Runtime Int32) r)
  apply Triple.bind (okOr_triple fun _ _ _ h => h) _ r h
  exact fun _ => Triple.pure fun _ h => h

theorem fload_reads {P : Runtime → Prop} (index : UInt16) :
    Triple P (fload index) (fun _ => P) Regular := by
  apply Triple.bind (iload_reads index)
  exact fun _ => Triple.pure fun _ h => h

theorem lload_reads {P : Runtime → Prop} (p : Profile) (index : UInt16) :
    Triple P (lload p index) (fun _ => P) Regular := by
  apply Triple.bind (iload_reads index)
  intro low
  apply Triple.bind (checked_triple _)
  intro next
  apply Triple.bind (iload_reads _)
  exact fun _ => Triple.pure fun _ h => h

theorem dload_reads {P : Runtime → Prop} (p : Profile) (index : UInt16) :
    Triple P (dload p index) (fun _ => P) Regular := by
  apply Triple.bind (lload_reads p index)
  exact fun _ => Triple.pure fun _ h => h

theorem local_objects (h : Framed b temps r) (hs : r.context.local? index = some slot) :
    refs [slot] ⊆ r.store.heap.objects := by
  intro a ha
  apply h.slots_objects
  obtain ⟨x, hx, hxa⟩ := List.mem_filterMap.mp ha
  rw [List.mem_singleton.mp hx] at hxa
  apply List.mem_filterMap.mpr
  refine ⟨slot, ?_, hxa⟩
  have hm : slot ∈ r.context.locals := List.mem_of_getElem? hs
  exact List.mem_append_left _ (List.mem_append_right _ hm)

theorem aload_framed (p : Profile) (index : UInt16) :
    Triple (Framed b temps) (aload p index) (fun a => Framed b (a :: temps)) Regular := by
  intro r h
  change Ends _ _ ((okOr _ (r.context.local? index) >>= _ : VM Runtime Addr) r)
  cases hs : r.context.local? index with
  | none => trivial
  | some slot =>
    change Ends _ _ ((onStore (withObject p slot arcClone) >>= okOr .notAnObject) r)
    have hc : Triple (fun r' => Framed b ([] ++ temps) r' ∧
        r.store.heap.objects ⊆ r'.store.heap.objects) (onStore (withObject p slot arcClone))
        (fun a r' => Framed b (refs [slot] ++ temps) r' ∧ a = slot.object?) Regular := by
      apply onStore_framed (P := fun s => r.store.heap.objects ⊆ s.heap.objects)
        (Q := fun a _ => a = slot.object?)
      intro roots
      apply (withObject_clone_owned p roots (local_objects h hs)).mono
      · exact fun _ h => h
      · exact fun _ _ ⟨ha, h, _⟩ => ⟨h, ha⟩
      · exact fun _ _ h => h
    apply Triple.bind hc _ r ⟨h, fun a ha => ha⟩
    intro o
    apply okOr_triple
    intro a r ho ⟨h, hs⟩
    rw [ho] at hs
    rwa [refs_of_object hs.symm] at h

theorem keeps_set {c₀ c : ThreadContext} (h : c₀.Keeps c) (hi : c₀.currentFrame.localsStart ≤ idx)
    (slot : JVMSlot) : c₀.Keeps { c with locals := c.locals.set idx slot } := by
  refine ⟨h.currentFrame, h.prevFrames, h.stack, ?_, ?_⟩
  · rw [List.length_set, h.length]
  · rw [List.take_set_of_le hi, h.locals]

theorem assignLocal_framed (p : Profile) (hi : b.context.currentFrame.localsStart ≤ idx)
    (slot : JVMSlot) :
    Triple (Framed b (refs [slot] ++ temps)) (assignLocal p idx slot) (fun _ => Framed b temps)
      Regular := by
  intro r h
  rw [assignLocal, bind_eq _ (readContext_eq r)]
  cases ho : r.context.locals[idx]? with
  | none => trivial
  | some old =>
    apply dropSlot_framed p old
    apply h.setContext (keeps_set h.context hi slot)
    have hp := refs_set_perm ho slot
    apply List.perm_iff_count.mpr
    intro a
    have ha := hp.count_eq a
    simp only [slots, refs_append, List.count_append] at ha ⊢
    omega

theorem assignLocals_framed (p : Profile) (values : List JVMSlot)
    (hi : b.context.currentFrame.localsStart ≤ idx) :
    Triple (Framed b (refs values ++ temps)) (assignLocals p idx values)
      (fun _ => Framed b temps) Regular := by
  induction values generalizing idx with
  | nil => exact Triple.pure fun _ h => h
  | cons slot values ih =>
    rw [refs_cons, ← List.append_nil slot.object?.toList, ← refs_nil, ← refs_cons,
      List.append_assoc]
    apply Triple.bind (assignLocal_framed p hi slot)
    exact fun _ => ih (Nat.le_succ_of_le hi)

theorem vstore_framed (p : Profile) (index : UInt16) (value : JVMValue) :
    Triple (Framed b (refs value.toSlots ++ temps)) (vstore p index value)
      (fun _ => Framed b temps) Regular := by
  intro r h
  change Ends _ _ ((if _ then _ else _ : VM Runtime Bool) r)
  split
  · have hi : b.context.currentFrame.localsStart ≤
        index.toNat + r.context.currentFrame.localsStart := by
      rw [h.context.currentFrame]
      exact Nat.le_add_left _ _
    apply Triple.bind (assignLocals_framed p _ hi) _ r h
    exact fun _ => Triple.pure fun _ h => h
  · apply Triple.bind (dropSlots_framed p _) _ r h
    exact fun _ => Triple.pure fun _ h => h

theorem cloneOption_framed (p : Profile) (slot : Option JVMSlot) :
    Triple (Framed b (refs slot.toList ++ temps)) (cloneOption p slot)
      (fun c r => c = slot ∧ Framed b (refs slot.toList ++ (refs slot.toList ++ temps)) r)
      Regular := by
  cases slot with
  | none => exact Triple.pure fun _ h => ⟨rfl, h⟩
  | some slot =>
    apply Triple.bind (cloneTemp_framed p slot)
    exact fun c => Triple.pure fun _ ⟨hc, h⟩ => ⟨congrArg some hc, h⟩

theorem pushOption_framed (slot : Option JVMSlot) :
    Triple (Framed b (refs slot.toList ++ temps)) (pushOption slot) (fun _ => Framed b temps)
      Regular := by
  cases slot with
  | none => exact Triple.pure fun _ h => h
  | some slot => exact pushSlot_framed slot

theorem dup_framed (p : Profile) :
    Triple (Framed b temps) (dup p) (fun _ => Framed b temps) Regular := by
  apply Triple.bind popSlot_framed
  intro slot
  cases slot with
  | none => exact Triple.pure fun _ h => h
  | some slot =>
    apply Triple.bind (cloneTemp_framed p slot)
    intro c r ⟨hc, h⟩
    rw [hc]
    apply Triple.bind (pushSlot_framed slot) _ r h
    exact fun _ => pushSlot_framed slot

theorem dup2_framed (p : Profile) :
    Triple (Framed b temps) (dup2 p) (fun _ => Framed b temps) Regular := by
  apply Triple.bind popSlot_framed
  intro slot1
  apply Triple.bind popSlot_framed
  intro slot2
  apply Triple.bind (cloneOption_framed p slot2)
  intro c2 r ⟨hc2, h⟩
  rw [hc2]
  apply Triple.bind (pushOption_framed slot2) _ r h
  intro _ r h
  have h₁ := h.perm (List.perm_append_comm_assoc _ _ _)
  apply Triple.bind (cloneOption_framed p slot1) _ r h₁
  intro c1 r ⟨hc1, h⟩
  rw [hc1]
  apply Triple.bind (pushOption_framed slot1) _ r h
  intro _ r h
  have h₂ := h.perm (List.perm_append_comm_assoc _ _ _)
  apply Triple.bind (pushOption_framed slot2) _ r h₂
  exact fun _ => pushOption_framed slot1

end ThreadContext

end

end Janadinite
