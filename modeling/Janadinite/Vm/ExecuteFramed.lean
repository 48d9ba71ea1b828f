import Janadinite.Vm.Safepoint
import Janadinite.Vm.TableFramed

namespace Janadinite
open Hoare ThreadContext
set_option autoImplicit true

section
variable {roots : List Addr}

theorem deref_owned (ha : a ∈ roots) :
    Triple (fun s => s.Owned roots) (deref a)
      (fun o s => s.Owned roots ∧ refs o.data ⊆ s.heap.objects) Regular := by
  intro s h
  have hobj := h.counted.root_mem a ha
  obtain ⟨o, ho⟩ := h.allocated.get hobj
  rw [deref_eq ho]
  exact ⟨h, fun b hb => h.refs_mem hobj ho hb⟩

theorem sliceData_owned (ha : a ∈ roots) (start len : Nat) :
    Triple (fun s => s.Owned roots) (sliceData a start len)
      (fun slots s => s.Owned roots ∧ refs slots ⊆ s.heap.objects) Regular := by
  apply Triple.bind (deref_owned ha)
  intro o
  split
  · apply Triple.pure
    intro s ⟨h, hd⟩
    refine ⟨h, fun b hb => hd ?_⟩
    have hs : List.Sublist ((o.data.drop start).take len) o.data :=
      (List.take_sublist _ _).trans (List.drop_sublist _ _)
    exact (hs.filterMap _).subset hb
  · exact fun _ _ => trivial

theorem checkWide_owned (p : Profile) (a : Addr) (index : Int32) (roots : List Addr) :
    Triple (fun s => s.Owned (a :: roots)) (checkWide p a index) (fun _ s => s.Owned (a :: roots))
      Regular := by
  apply Triple.bind (deref_owned List.mem_cons_self)
  intro o
  apply Triple.bind (checked_triple _)
  intro second
  split
  · intro s ⟨h, _⟩
    apply Triple.bind (dropRef_owned p a roots) _ s h
    exact fun _ _ _ => trivial
  · exact Triple.pure fun _ h => h.1

theorem indexData_owned (ha : a ∈ roots) (i : Nat) :
    Triple (fun s => s.Owned roots) (indexData a i)
      (fun slot s => s.Owned roots ∧ refs [slot] ⊆ s.heap.objects) Regular := by
  apply Triple.bind (deref_owned ha)
  intro o
  apply expect_triple
  intro slot s hs ⟨h, hd⟩
  refine ⟨h, fun b hb => hd ?_⟩
  have hsub : List.Sublist [slot] o.data := List.singleton_sublist.mpr (List.mem_of_getElem? hs)
  exact (hsub.filterMap _).subset hb

theorem assignData_owned (ha : a ∈ roots) (p : Profile) (i : Nat) (slot : JVMSlot) :
    Triple (fun s => s.Owned (refs [slot] ++ roots)) (assignData p a i slot)
      (fun _ s => s.Owned roots) Regular := by
  intro s h
  have hobj := h.counted.root_mem a (List.mem_append_right _ ha)
  apply Triple.bind (replaceData_owned a i slot roots) _ s ⟨h, hobj⟩
  exact fun old => dropSlot_owned p old roots

theorem newArray_owned (p : Profile) (count : Nat) (size : NonZeroU16) :
    Triple (fun s => s.Owned roots) (BareObject.newArray p count size)
      (fun obj s => refs obj.data = [] ∧ s.Owned roots) Regular := by
  apply Triple.bind (checked_triple _)
  intro len
  apply Triple.bind (newData_refs len _)
  exact fun data => Triple.pure fun _ h => h

theorem refs_fromObject_cons {s : Store} (h : s.Owned (a :: roots)) (slots : List JVMSlot) :
    refs (.fromObject a :: slots) = a :: refs slots := by
  rw [refs_cons, JVMSlot.object?_fromObject (h.root_fits List.mem_cons_self)]
  rfl

theorem cloneChildren_owned (p : Profile) (child : BareObject) (n : Nat) :
    Triple (fun s => s.Owned (refs child.data ++ roots)) (cloneChildren p child n)
      (fun slots s => s.Owned (refs slots ++ (refs child.data ++ roots))) Regular := by
  induction n generalizing roots with
  | zero => exact Triple.pure fun _ h => h
  | succ n ih =>
    intro s h
    have hl : refs child.data ⊆ s.heap.objects := fun a ha =>
      h.counted.root_mem a (List.mem_append_left _ ha)
    apply Triple.bind (cloneSlots_owned p _ fun a ha => ha) _ s ⟨h, hl⟩
    intro data s ⟨hd, h, _⟩
    rw [← hd] at h
    apply Triple.bind (allocateFromObject_owned p child.kind data _) _ s h
    intro a s h
    have hp : (refs child.data ++ (a :: roots)).Perm (a :: (refs child.data ++ roots)) :=
      List.perm_middle
    rw [hd] at h
    apply Triple.bind ih _ s (h.perm hp)
    intro rest
    apply Triple.pure
    intro s h
    have hp : (a :: (refs rest ++ (refs child.data ++ roots))).Perm
        (refs rest ++ (refs child.data ++ (a :: roots))) := by
      rw [← List.append_assoc, ← List.append_assoc]
      exact List.perm_middle.symm
    have ha := h.perm hp
    rw [refs_fromObject_cons ha]
    exact ha

theorem fillArray_owned (p : Profile) (child : BareObject) (n : Nat) :
    Triple (fun s => s.Owned (refs child.data ++ roots)) (fillArray p child n)
      (fun slots s => s.Owned (refs slots ++ roots)) Regular := by
  cases n with
  | zero =>
    apply Triple.bind (dropSlots_owned p child.data roots)
    exact fun _ => Triple.pure fun _ h => h
  | succ n =>
    apply Triple.bind (cloneChildren_owned p child n)
    intro clones s h
    have h₁ := h.perm (List.perm_append_comm_assoc _ _ _)
    apply Triple.bind (allocateFromObject_owned p child.kind child.data _) _ s h₁
    intro a
    apply Triple.pure
    intro s h
    rw [refs_append, refs_fromObject_cons h, refs_nil, List.append_assoc]
    exact h.perm List.perm_middle

def heldBy (last : Option BareObject) : List Addr := refs ((last.map BareObject.data).getD [])

theorem dropLast_owned (p : Profile) (last : Option BareObject) :
    Triple (fun s => s.Owned (heldBy last ++ roots)) (dropLast p last) (fun _ s => s.Owned roots)
      Regular := by
  cases last with
  | none => exact Triple.pure fun _ h => h
  | some old => exact dropSlots_owned p old.data roots

/-- A panic in `Object::new_array` comes before anything is done. -/
theorem newArray_panic {s s' : Store} (h : BareObject.newArray p count size s = .error e s') :
    s' = s ∧ ∃ msg, e = .panic msg := by
  unfold BareObject.newArray at h
  cases hlen : p.mul 64 count size.val.toNat with
  | error msg =>
    rw [hlen] at h
    cases h
    exact ⟨rfl, msg, rfl⟩
  | ok len =>
    rw [hlen] at h
    change (newData len >>= fun data => pure ⟨.array size, data⟩ : VM Store BareObject) s = _ at h
    unfold newData at h
    split at h <;> cases h
    exact ⟨rfl, _, rfl⟩

theorem newDimension_owned (p : Profile) (last : Option BareObject) (count : Nat)
    (size : NonZeroU16) :
    Triple (fun s => s.Owned (heldBy last ++ roots)) (newDimension p last count size)
      (fun obj s => refs obj.data = [] ∧ s.Owned (heldBy last ++ roots)) Regular := by
  intro s h
  have hn := newArray_owned p count size s h
  unfold newDimension
  cases hx : BareObject.newArray p count size s with
  | ok obj s' =>
    rw [hx] at hn
    exact hn
  | error e s' =>
    obtain ⟨rfl, msg, rfl⟩ := newArray_panic hx
    apply Triple.bind (dropLast_owned p last) _ _ h
    exact fun _ _ _ => trivial

theorem addDimension_owned (p : Profile) (last : Option BareObject) (len : Int32)
    (size : NonZeroU16) :
    Triple (fun s => s.Owned (heldBy last ++ roots)) (addDimension p last len size)
      (fun obj s => s.Owned (refs obj.data ++ roots)) Regular := by
  unfold addDimension
  split
  · apply Triple.bind (newArray_owned p 0 size)
    intro obj s ⟨hd, h⟩
    apply Triple.bind (dropLast_owned p last) _ s h
    intro _
    apply Triple.pure
    rw [hd]
    exact fun _ h => h
  · apply Triple.bind (newDimension_owned p last (usizeOf len) size)
    intro obj s ⟨hd, h⟩
    cases last with
    | none =>
      change s.Owned (refs obj.data ++ roots)
      rw [hd]
      exact h
    | some child =>
      apply Triple.bind (fillArray_owned p child obj.data.length) _ s h
      exact fun data => Triple.pure fun _ h => h

end

/-- What an instruction that is no call leaves, with the references of what it returns. -/
def Outcome.Keeps (b : Outset) : Outcome → Runtime → Prop
  | .next => Framed b []
  | .jump _ => Framed b []
  | .call .. => fun _ => False
  | .return result => Framed b (refs (resultSlots result))

section
variable {b : Outset} {temps : List Addr}

theorem read_framed {m : VM Store α} {Q : α → Store → Prop}
    (h : ∀ roots, a ∈ roots →
      Triple (fun s => s.Owned roots) m (fun x s => s.Owned roots ∧ Q x s) Regular) :
    Triple (Framed b (a :: temps)) (onStore m) (fun x r => Framed b (a :: temps) r ∧ Q x r.store)
      Regular := by
  have hm : Triple (fun r => Framed b ([a] ++ temps) r ∧ True) (onStore m)
      (fun x r => Framed b ([a] ++ temps) r ∧ Q x r.store) Regular := by
    apply onStore_framed (P := fun _ => True)
    intro roots
    apply (h ([a] ++ roots) List.mem_cons_self).mono
    · exact fun _ hs => hs.1
    · exact fun _ _ hs => hs
    · exact fun _ _ hs => hs
  exact hm.mono (fun _ hr => ⟨hr, trivial⟩) (fun _ _ hr => hr) fun _ _ hr => hr

theorem next_framed : Triple (Framed b []) (pure .next) (Outcome.Keeps b) Regular :=
  Triple.pure fun _ h => h

theorem pushThen_framed (h : Triple (Framed b []) push (fun _ => Framed b []) Regular) :
    Triple (Framed b []) (pushThen push) (Outcome.Keeps b) Regular := by
  apply Triple.bind h
  exact fun _ => next_framed

theorem op2_1_framed {pop : VM Runtime α} {push : β → VM Runtime PUnit}
    (hpop : Triple (Framed b []) pop (fun _ => Framed b []) Regular)
    (hpush : ∀ v, Triple (Framed b []) (push v) (fun _ => Framed b []) Regular)
    (op : α → α → Except String β) :
    Triple (Framed b []) (op2_1 pop push op) (Outcome.Keeps b) Regular := by
  apply Triple.bind hpop
  intro v2
  apply Triple.bind hpop
  intro v1
  apply Triple.bind (checked_triple _)
  intro v
  apply Triple.bind (hpush v)
  exact fun _ => next_framed

theorem pure2_1_framed {pop : VM Runtime α} {push : β → VM Runtime PUnit}
    (hpop : Triple (Framed b []) pop (fun _ => Framed b []) Regular)
    (hpush : ∀ v, Triple (Framed b []) (push v) (fun _ => Framed b []) Regular)
    (op : α → α → β) :
    Triple (Framed b []) (pure2_1 pop push op) (Outcome.Keeps b) Regular :=
  op2_1_framed hpop hpush _

theorem op1_1_framed {pop : VM Runtime α} {push : β → VM Runtime PUnit}
    (hpop : Triple (Framed b []) pop (fun _ => Framed b []) Regular)
    (hpush : ∀ v, Triple (Framed b []) (push v) (fun _ => Framed b []) Regular) (op : α → β) :
    Triple (Framed b []) (op1_1 pop push op) (Outcome.Keeps b) Regular := by
  apply Triple.bind hpop
  intro v
  apply Triple.bind (hpush (op v))
  exact fun _ => next_framed

theorem loadOp_framed {load : UInt16 → VM Runtime α} {push : α → VM Runtime PUnit}
    {held : α → List Addr}
    (hload : Triple (Framed b []) (load idx) (fun v => Framed b (held v)) Regular)
    (hpush : ∀ v, Triple (Framed b (held v)) (push v) (fun _ => Framed b []) Regular) :
    Triple (Framed b []) (loadOp load push idx) (Outcome.Keeps b) Regular := by
  apply Triple.bind hload
  intro v
  apply Triple.bind (hpush v)
  exact fun _ => next_framed

theorem storeOp_framed {store : UInt16 → α → VM Runtime Bool} {pop : VM Runtime α}
    {held : α → List Addr}
    (hpop : Triple (Framed b []) pop (fun v => Framed b (held v)) Regular)
    (hstore : ∀ v, Triple (Framed b (held v)) (store idx v) (fun _ => Framed b []) Regular) :
    Triple (Framed b []) (storeOp store pop idx) (Outcome.Keeps b) Regular := by
  apply Triple.bind hpop
  intro v
  apply Triple.bind (hstore v)
  intro stored
  cases stored with
  | true => exact next_framed
  | false => exact fun _ _ => trivial

theorem returnOp_framed {pop : VM Runtime α} {value : α → JVMValue}
    (hpop : Triple (Framed b []) pop (fun v => Framed b (refs (value v).toSlots ++ [])) Regular) :
    Triple (Framed b []) (returnOp value pop) (Outcome.Keeps b) Regular := by
  apply Triple.bind hpop
  intro v
  apply Triple.pure
  intro r h
  rwa [List.append_nil] at h

theorem returnPlain_framed {pop : VM Runtime α} {value : α → JVMValue}
    (hpop : Triple (Framed b []) pop (fun _ => Framed b []) Regular)
    (hv : ∀ v, refs (value v).toSlots = []) :
    Triple (Framed b []) (returnOp value pop) (Outcome.Keeps b) Regular := by
  apply returnOp_framed
  apply hpop.mono
  · exact fun _ h => h
  · intro v r h
    rwa [hv]
  · exact fun _ _ h => h

theorem vstore_plain (p : Profile) (idx : UInt16) (h : refs (JVMValue.toSlots value) = []) :
    Triple (Framed b []) (vstore p idx value) (fun _ => Framed b []) Regular := by
  have hv : Triple (Framed b (refs value.toSlots ++ [])) (vstore p idx value)
      (fun _ => Framed b []) Regular := vstore_framed p idx value
  rwa [h] at hv

theorem popObject_framed :
    Triple (Framed b temps) apop (fun a => Framed b (refs [.fromObject a] ++ temps)) Regular := by
  apply apop_framed.mono
  · exact fun _ h => h
  · intro a r h
    rw [h.refs_fromObject]
    exact h
  · exact fun _ _ h => h

theorem entryOf_bind (cls : ClassRef) (idx : UInt16)
    (f : Option VMConstantPoolEntry → VM Runtime α) (r : Runtime) :
    (entryOf cls idx >>= f) r = f ((r.table.get cls).constantPool.getEntry idx) r := rfl

theorem ldc_framed (cls : ClassRef) (idx : UInt16) :
    Triple (Framed b []) (ldc cls idx) (Outcome.Keeps b) Regular := by
  intro r h
  rw [ldc, entryOf_bind]
  cases (r.table.get cls).constantPool.getEntry idx with
  | none => trivial
  | some e =>
    cases e with
    | float f => exact pushThen_framed (fpush_framed f) r h
    | int i => exact pushThen_framed (ipush_framed i) r h
    | _ => trivial

theorem ldc2W_framed (cls : ClassRef) (refIdx : UInt16) :
    Triple (Framed b []) (ldc2W cls refIdx) (Outcome.Keeps b) Regular := by
  intro r h
  rw [ldc2W, entryOf_bind]
  cases (r.table.get cls).constantPool.getEntry refIdx with
  | none => trivial
  | some e =>
    cases e with
    | double d => exact pushThen_framed (dpush_framed d) r h
    | long l => exact pushThen_framed (lpush_framed l) r h
    | _ => trivial

theorem resolveField_framed (cls : ClassRef) (refIdx : UInt16) :
    Triple (Framed b temps) (resolveField cls refIdx) (fun found r => Framed b temps r ∧
      (r.table.get found.1).fieldByIdx found.2.1 = some found.2.2) Regular := by
  apply Triple.bind (onTable_framed (getFieldOrResolve_resolves cls refIdx))
  intro (fieldClass, fieldIdx) r h
  dsimp only
  rw [bind_get]
  apply Triple.bind (expect_triple (P := fun r' => r' = r) (Q := fun field r' => r' = r ∧
    (r.table.get fieldClass).fieldByIdx fieldIdx = some field) ?_) _ r rfl
  · exact fun field _ hf hr => ⟨hr, hf⟩
  · intro field
    apply Triple.pure
    rintro _ ⟨rfl, hf⟩
    exact ⟨h, hf⟩

theorem statics_objects (h : Framed b temps r)
    (hf : (r.table.get c).fieldByIdx off = some f) : refs f.statics ⊆ r.store.heap.objects := by
  intro a ha
  apply h.slots_objects
  rw [Runtime.slots, refs_append]
  apply List.mem_append_right
  obtain ⟨slot, hs, hsa⟩ := List.mem_filterMap.mp ha
  apply List.mem_filterMap.mpr
  refine ⟨slot, ?_, hsa⟩
  cases hc : r.table.classes[c]? with
  | none =>
    rw [ClassTable.get, List.getD_eq_getElem?_getD, hc] at hf
    cases hf
  | some cls =>
    rw [ClassTable.get, List.getD_eq_getElem?_getD, hc] at hf
    apply List.mem_flatMap.mpr
    refine ⟨cls, List.mem_of_getElem? hc, ?_⟩
    exact List.mem_flatMap.mpr ⟨f, List.mem_of_getElem? hf, hs⟩

theorem asStatic_statics {f : VMField} {slots : List JVMSlot} (h : f.asStatic = some slots) :
    refs slots ⊆ refs f.statics := by
  unfold VMField.asStatic at h
  unfold VMField.statics
  cases hd : f.data with
  | normal off =>
    rw [hd] at h
    cases h
  | static all =>
    rw [hd] at h
    cases h
    exact ((List.take_sublist _ _).filterMap _).subset

theorem cloneOntoStack_framed {slots : List JVMSlot} {live : List Addr} (p : Profile)
    (hs : refs slots ⊆ live) :
    Triple (fun r => Framed b temps r ∧ live ⊆ r.store.heap.objects) (cloneOntoStack p slots)
      (fun _ r => Framed b temps r) Regular := by
  induction slots with
  | nil => exact Triple.pure fun _ h => h.1
  | cons slot slots ih =>
    have hsplit : refs (slot :: slots) = refs [slot] ++ refs slots := refs_append [slot] slots
    rw [hsplit] at hs
    apply Triple.bind (cloneSlot_framed p fun a ha => hs (List.mem_append_left _ ha))
    intro c r ⟨hc, h, hl⟩
    rw [hc]
    have hpush := pushSlot_framed slot r h
    exact ih (fun a ha => hs (List.mem_append_right _ ha)) _ ⟨hpush, hl⟩

theorem getstatic_framed (p : Profile) (cls : ClassRef) (refIdx : UInt16) :
    Triple (Framed b []) (getstatic p cls refIdx) (Outcome.Keeps b) Regular := by
  apply Triple.bind (resolveField_framed cls refIdx)
  intro (fieldClass, fieldIdx, field) r ⟨h, hf⟩
  have hs : ∀ slots, field.asStatic = some slots → refs slots ⊆ r.store.heap.objects :=
    fun slots hslots => List.Subset.trans (asStatic_statics hslots) (statics_objects h hf)
  dsimp only
  cases ho : field.asStatic with
  | none => trivial
  | some slots =>
    apply Triple.bind (cloneOntoStack_framed p (hs slots ho)) _ r ⟨h, fun a ha => ha⟩
    exact fun _ => next_framed

theorem putstatic_framed (p : Profile) (cls : ClassRef) (refIdx : UInt16) :
    Triple (Framed b []) (putstatic p cls refIdx) (Outcome.Keeps b) Regular := by
  apply Triple.bind (resolveField_framed cls refIdx)
  intro (fieldClass, fieldIdx, field)
  apply Triple.bind (okOr_triple fun slots r _ h => h.1)
  intro slots
  apply Triple.bind (popStatics_framed p fieldClass fieldIdx slots.length)
  exact fun _ => next_framed

theorem getField_framed (p : Profile) (cls : ClassRef) (refIdx : UInt16) :
    Triple (Framed b []) (getField p cls refIdx) (Outcome.Keeps b) Regular := by
  apply Triple.bind (resolveField_framed cls refIdx)
  intro (_, _, field)
  apply Triple.bind (okOr_triple fun off r _ h => h.1)
  intro off
  apply Triple.bind apop_framed
  intro obj
  apply Triple.bind (read_framed fun _ ha => sliceData_owned ha off.toNat field.field.slotCount)
  intro slots r ⟨h, hs⟩
  apply Triple.bind (cloneOntoStack_framed p hs) _ r ⟨h, fun a ha => ha⟩
  intro _
  apply Triple.bind (dropRef_framed p obj)
  exact fun _ => next_framed

theorem assignData_framed (p : Profile) (obj : Addr) (i : Nat) (slot : JVMSlot) :
    Triple (Framed b (refs [slot] ++ (obj :: temps))) (onStore (assignData p obj i slot))
      (fun _ => Framed b (obj :: temps)) Regular := by
  have hm : Triple (Framed b (refs [slot] ++ [obj] ++ temps)) (onStore (assignData p obj i slot))
      (fun _ => Framed b ([obj] ++ temps)) Regular := by
    apply onStore_owned
    intro roots
    rw [List.append_assoc]
    exact assignData_owned List.mem_cons_self p i slot
  rwa [List.append_assoc] at hm

theorem putField_framed (p : Profile) (cls : ClassRef) (refIdx : UInt16) :
    Triple (Framed b []) (putField p cls refIdx) (Outcome.Keeps b) Regular := by
  apply Triple.bind (resolveField_framed cls refIdx)
  intro (_, _, field)
  apply Triple.bind (okOr_triple fun off r _ h => h.1)
  intro off
  apply Triple.bind popSlotOr_framed
  intro gotSlot
  apply Triple.bind apop_framed
  intro obj
  apply Triple.bind (read_framed fun _ ha => sliceData_owned ha off.toNat field.field.slotCount)
  intro slots r ⟨h, _⟩
  cases slots with
  | nil => trivial
  | cons slot slots =>
    have h₁ : Framed b (refs [gotSlot] ++ [obj]) r := h.perm List.perm_middle
    apply Triple.bind (assignData_framed p obj off.toNat gotSlot) _ r h₁
    intro _
    apply Triple.bind (dropRef_framed p obj)
    exact fun _ => next_framed

theorem iinc_framed (p : Profile) (idx : UInt16) (imm : Int32) :
    Triple (Framed b []) (iinc p idx imm) (Outcome.Keeps b) Regular := by
  intro r h
  change Ends _ _ ((okOr _ (r.context.local? idx) >>= fun slot => _ : VM Runtime Outcome) r)
  apply Triple.bind (okOr_triple fun _ _ _ h => h) _ r h
  intro slot
  apply Triple.bind (checked_triple _)
  intro v r' h'
  have hi : b.context.currentFrame.localsStart ≤
      idx.toNat + r.context.currentFrame.localsStart := by
    rw [h.context.currentFrame]
    exact Nat.le_add_left _ _
  apply Triple.bind (assignLocal_framed p hi (.fromI32 v)) (fun _ => next_framed) r'
  rw [refs_fromI32]
  exact h'

theorem jumpIf_framed (lastPc : UInt16) (off : Int16) (isTrue : Bool) :
    Triple (Framed b []) (pure (jumpIf lastPc off isTrue)) (Outcome.Keeps b) Regular := by
  apply Triple.pure
  intro r h
  cases isTrue <;> exact h

theorem ifIcmp_framed (p : Profile) (lastPc : UInt16) (off : Int16)
    (test : Int32 → Int32 → Bool) :
    Triple (Framed b []) (ifIcmp p lastPc off test) (Outcome.Keeps b) Regular := by
  apply Triple.bind (ipop_framed p)
  intro v2
  apply Triple.bind (ipop_framed p)
  exact fun v1 => jumpIf_framed lastPc off _

theorem ifZero_framed (p : Profile) (lastPc : UInt16) (off : Int16) (test : Int32 → Bool) :
    Triple (Framed b []) (ifZero p lastPc off test) (Outcome.Keeps b) Regular := by
  apply Triple.bind (ipop_framed p)
  exact fun v1 => jumpIf_framed lastPc off _

theorem arrayLoad_framed (p : Profile) :
    Triple (Framed b []) (arrayLoad p) (Outcome.Keeps b) Regular := by
  apply Triple.bind (ipop_framed p)
  intro index
  apply Triple.bind apop_framed
  intro reference
  apply Triple.bind (read_framed fun _ ha => deref_owned ha)
  intro o r ⟨h, ho⟩
  cases hs : o.data[usizeOf index]? with
  | none => trivial
  | some slot =>
    have hsub : List.Sublist [slot] o.data :=
      List.singleton_sublist.mpr (List.mem_of_getElem? hs)
    have hl : refs [slot] ⊆ r.store.heap.objects := fun a ha =>
      ho ((hsub.filterMap _).subset ha)
    apply Triple.bind (cloneSlot_framed p hl) _ r ⟨h, fun a ha => ha⟩
    intro c r ⟨hc, h, _⟩
    rw [hc]
    apply Triple.bind (pushSlot_framed slot) _ r h
    intro _
    apply Triple.bind (dropRef_framed p reference)
    exact fun _ => next_framed

theorem arrayStore_framed (p : Profile) {popValue : VM Runtime JVMSlot}
    (hpop : Triple (Framed b []) popValue (fun v => Framed b (refs [v] ++ [])) Regular) :
    Triple (Framed b []) (arrayStore p popValue) (Outcome.Keeps b) Regular := by
  apply Triple.bind hpop
  intro value
  apply Triple.bind (ipop_framed p)
  intro index
  apply Triple.bind apop_framed
  intro reference
  apply Triple.bind (read_framed fun _ ha => deref_owned ha)
  intro o r ⟨h, _⟩
  dsimp only
  cases o.data[usizeOf index]? with
  | none => trivial
  | some old =>
    have h₁ : Framed b (refs [value] ++ [reference]) r := h.perm List.perm_middle
    apply Triple.bind (assignData_framed p reference (usizeOf index) value) _ r h₁
    intro _
    apply Triple.bind (dropRef_framed p reference)
    exact fun _ => next_framed

theorem popObjectSlot_framed :
    Triple (Framed b temps) popObjectSlot (fun v => Framed b (refs [v] ++ temps)) Regular := by
  apply Triple.bind popObject_framed
  exact fun a => Triple.pure fun _ h => h

theorem wideIndex_framed (p : Profile) :
    Triple (Framed b temps) (wideIndex p) (fun _ => Framed b temps) Regular := by
  apply Triple.bind (ipop_framed p)
  exact fun index => checked_triple _

theorem checkWide_framed (p : Profile) (reference : Addr) (index : Int32) :
    Triple (Framed b (reference :: temps)) (onStore (checkWide p reference index))
      (fun _ => Framed b (reference :: temps)) Regular := by
  apply onStore_owned [reference] fun _ => [reference]
  exact fun roots => checkWide_owned p reference index roots

theorem cloneData_framed (p : Profile) (reference : Addr) (i : Nat) :
    Triple (Framed b (reference :: temps)) (cloneData p reference i)
      (fun _ => Framed b (reference :: temps)) Regular := by
  apply Triple.bind (read_framed fun _ ha => indexData_owned ha i)
  intro slot r ⟨h, hs⟩
  apply Triple.bind (cloneSlot_framed p hs) _ r ⟨h, fun a ha => ha⟩
  intro c r ⟨hc, h, _⟩
  rw [hc]
  exact pushSlot_framed slot r h

theorem wideArrayLoad_framed (p : Profile) :
    Triple (Framed b []) (wideArrayLoad p) (Outcome.Keeps b) Regular := by
  apply Triple.bind (wideIndex_framed p)
  intro index
  apply Triple.bind apop_framed
  intro reference
  apply Triple.bind (checkWide_framed p reference index)
  intro second
  apply Triple.bind (cloneData_framed p reference (usizeOf index))
  intro _
  apply Triple.bind (cloneData_framed p reference second)
  intro _
  apply Triple.bind (dropRef_framed p reference)
  exact fun _ => next_framed

theorem assignI32_framed (p : Profile) (obj : Addr) (i : Nat) (v : Int32) :
    Triple (Framed b (obj :: temps)) (onStore (assignData p obj i (.fromI32 v)))
      (fun _ => Framed b (obj :: temps)) Regular := by
  have h : Triple (Framed b (refs [.fromI32 v] ++ (obj :: temps)))
      (onStore (assignData p obj i (.fromI32 v))) (fun _ => Framed b (obj :: temps)) Regular :=
    assignData_framed p obj i _
  rwa [refs_fromI32] at h

theorem wideArrayStore_framed (p : Profile) :
    Triple (Framed b []) (wideArrayStore p) (Outcome.Keeps b) Regular := by
  apply Triple.bind (lpop_framed p)
  intro value
  apply Triple.bind (wideIndex_framed p)
  intro index
  apply Triple.bind apop_framed
  intro reference
  apply Triple.bind (checkWide_framed p reference index)
  intro second
  simp only [JVMSlot.fromI64]
  apply Triple.bind (assignI32_framed p reference (usizeOf index) _)
  intro _
  apply Triple.bind (assignI32_framed p reference second _)
  intro _
  apply Triple.bind (dropRef_framed p reference)
  exact fun _ => next_framed

theorem arrayLength_framed (p : Profile) :
    Triple (Framed b []) (arrayLength p) (Outcome.Keeps b) Regular := by
  apply Triple.bind apop_framed
  intro reference
  apply Triple.bind (read_framed fun _ ha => deref_owned ha)
  intro o r ⟨h, _⟩
  dsimp only
  cases o.kind with
  | «instance» cls => trivial
  | array size =>
    apply Triple.bind (ipush_framed _) _ r h
    intro _
    apply Triple.bind (dropRef_framed p reference)
    exact fun _ => next_framed

/-- A new object is made and goes onto the stack. -/
theorem allocated_framed {m : VM Store Addr}
    (h : ∀ roots, Triple (fun s => s.Owned roots) m (fun a s => s.Owned (a :: roots)) Regular) :
    Triple (Framed b []) (onStore m >>= fun a => pushThen (apush a)) (Outcome.Keeps b)
      Regular := by
  apply Triple.bind (onStore_owned [] (fun a => [a]) h)
  intro a
  apply Triple.bind (apush_framed a)
  exact fun _ => next_framed

theorem newObject_framed (p : Profile) (cls : ClassRef) (classRef : UInt16) :
    Triple (Framed b []) (newObject p cls classRef) (Outcome.Keeps b) Regular := by
  apply Triple.bind (onTable_framed (getClassOrLoadByRef_resolves cls classRef))
  intro newClass r h
  rw [bind_get]
  exact allocated_framed (fun roots => allocateInner_owned roots p _ _) r h

theorem newArray_framed (p : Profile) (t : UInt8) :
    Triple (Framed b []) (newArray p t) (Outcome.Keeps b) Regular := by
  apply Triple.bind (expect_triple fun _ _ _ h => h)
  intro prim
  apply Triple.bind (ipop_framed p)
  exact fun len => allocated_framed fun roots => allocateArray_owned roots p _ _

theorem aNewArray_framed (p : Profile) (cls : ClassRef) (refIdx : UInt16) :
    Triple (Framed b []) (aNewArray p cls refIdx) (Outcome.Keeps b) Regular := by
  apply Triple.bind (onTable_framed (getClassOrArrayByRef_resolves cls refIdx))
  intro _
  apply Triple.bind (ipop_framed p)
  exact fun len => allocated_framed fun roots => allocateArray_owned roots p _ _

theorem nextCount_framed (p : Profile) (last : Option BareObject) :
    Triple (Framed b (heldBy last ++ temps)) (nextCount p last)
      (fun _ => Framed b (heldBy last ++ temps)) Regular := by
  apply Triple.bind popSlot_framed
  intro slot
  cases slot with
  | some slot =>
    apply Triple.bind (dropSlot_framed p slot)
    exact fun _ => Triple.pure fun _ h => h
  | none =>
    apply Triple.bind (onStore_owned _ (fun _ => []) fun _ => dropLast_owned p last)
    intro _
    apply Triple.bind (onStore_owned [] (fun _ => []) fun roots => unlockHeap_owned roots)
    exact fun _ _ _ => trivial

theorem addDimensions_framed (p : Profile) (lastDimOSize : NonZeroU16) (n : Nat)
    (last : Option BareObject) :
    Triple (Framed b (heldBy last ++ temps)) (addDimensions p lastDimOSize n last)
      (fun obj => Framed b (heldBy obj ++ temps)) Regular := by
  induction n generalizing last with
  | zero => exact Triple.pure fun _ h => h
  | succ n ih =>
    apply Triple.bind (nextCount_framed p last)
    intro len
    apply Triple.bind (onStore_owned _ (fun obj => refs obj.data) fun roots =>
      addDimension_owned p last len _)
    exact fun obj => ih (some obj)

theorem allocateMultiarray_framed (p : Profile) (dimensions : Nat) (lastDimOSize : NonZeroU16) :
    Triple (Framed b []) (allocateMultiarray p dimensions lastDimOSize)
      (fun a => Framed b [a]) Regular := by
  apply Triple.bind (onStore_owned [] (fun _ => []) fun roots =>
    lockOrStop_owned roots p)
  intro _
  apply Triple.bind (addDimensions_framed p lastDimOSize dimensions none)
  intro last
  cases last with
  | none =>
    apply Triple.bind (onStore_owned [] (fun _ => []) fun roots => unlockHeap_owned roots)
    exact fun _ _ _ => trivial
  | some obj =>
    apply Triple.bind (onStore_owned _ (fun a => [a]) fun roots =>
      allocateFromObject_owned p obj.kind obj.data roots)
    intro a
    apply Triple.bind (onStore_owned [a] (fun _ => [a]) fun roots =>
      unlockHeap_owned ([a] ++ roots))
    exact fun _ => Triple.pure fun _ h => h

theorem multiANewArray_framed (p : Profile) (cls : ClassRef) (refIdx : UInt16) (dim : UInt8) :
    Triple (Framed b []) (multiANewArray p cls refIdx dim) (Outcome.Keeps b) Regular := by
  unfold multiANewArray
  split
  · exact fun _ _ => trivial
  · apply Triple.bind (onTable_framed (getClassOrArrayByRef_resolves cls refIdx))
    intro found
    cases found with
    | _ =>
      apply Triple.bind (allocateMultiarray_framed p dim.toNat _)
      intro a
      apply Triple.bind (apush_framed a)
      exact fun _ => next_framed

/-- Every instruction but a call keeps the references counted and the other frames as they are. -/
theorem execute_framed [FloatArith] (p : Profile) (cls : ClassRef) (lastPc : UInt16)
    (h : op.isInvoke = false) :
    Triple (Framed b []) (execute p cls lastPc op) (Outcome.Keeps b) Regular := by
  cases op
  case invokeStatic | invokeSpecial | invokeVirtual => cases h
  case lconst0 | lconst1 => exact pushThen_framed (lpush_framed _)
  case fconst0 | fconst1 | fconst2 => exact pushThen_framed (fpush_framed _)
  case dconst0 | dconst1 => exact pushThen_framed (dpush_framed _)
  case bipush => exact pushThen_framed (ipush_framed _)
  case ldc | ldcW => exact ldc_framed cls _
  case ldc2W => exact ldc2W_framed cls _
  case iload | wideIload => exact loadOp_framed (iload_reads _) ipush_framed
  case fload | wideFload => exact loadOp_framed (fload_reads _) fpush_framed
  case lload | wideLload => exact loadOp_framed (lload_reads p _) lpush_framed
  case dload | wideDload => exact loadOp_framed (dload_reads p _) dpush_framed
  case aload | wideAload => exact loadOp_framed (aload_framed p _) apush_framed
  case aStore | wideAStore =>
    exact storeOp_framed popObject_framed fun v => vstore_framed p _ (.object v)
  case iStore | wideIStore =>
    exact storeOp_framed (ipop_framed p) fun v => vstore_plain p _ (refs_fromI32 v)
  case fStore | wideFStore =>
    exact storeOp_framed (fpop_framed p) fun v => vstore_plain p _ (refs_fromI32 _)
  case lStore | wideLStore =>
    exact storeOp_framed (lpop_framed p) fun v => vstore_plain p _ (refs_fromI64 v)
  case dStore | wideDStore =>
    exact storeOp_framed (dpop_framed p) fun v => vstore_plain p _ (refs_fromI64 _)
  case iinc | wideIinc => exact iinc_framed p _ _
  case imul | isub | iadd | iand | ior | ixor | ishl | ishr | iushr =>
    exact pure2_1_framed (ipop_framed p) ipush_framed _
  case lmul | lsub | ladd | land | lor | lxor | lshl | lshr | lushr =>
    exact pure2_1_framed (lpop_framed p) lpush_framed _
  case fmul | fdiv | fsub | fadd | frem =>
    exact pure2_1_framed (fpop_framed p) fpush_framed _
  case dmul | ddiv | dsub | dadd | drem =>
    exact pure2_1_framed (dpop_framed p) dpush_framed _
  case idiv | irem => exact op2_1_framed (ipop_framed p) ipush_framed _
  case ldiv | lrem => exact op2_1_framed (lpop_framed p) lpush_framed _
  case ineg => exact op1_1_framed (ipop_framed p) ipush_framed _
  case lneg => exact op1_1_framed (lpop_framed p) lpush_framed _
  case fneg => exact op1_1_framed (fpop_framed p) fpush_framed _
  case dneg => exact op1_1_framed (dpop_framed p) dpush_framed _
  case i2l => exact op1_1_framed (ipop_framed p) lpush_framed _
  case i2f => exact op1_1_framed (ipop_framed p) fpush_framed _
  case i2d => exact op1_1_framed (ipop_framed p) dpush_framed _
  case lcmp => exact pure2_1_framed (lpop_framed p) ipush_framed _
  case fcmpg | fcmpl => exact pure2_1_framed (fpop_framed p) ipush_framed _
  case dcmpg | dcmpl => exact pure2_1_framed (dpop_framed p) ipush_framed _
  case goto => exact Triple.pure fun _ h => h
  case ifIcmpEq | ifIcmpNe | ifIcmpGe | ifIcmpLe | ifIcmpGt | ifIcmpLt =>
    exact ifIcmp_framed p lastPc _ _
  case ifNe | ifEq => exact ifZero_framed p lastPc _ _
  case «return» => exact Triple.pure fun _ h => h
  case iReturn => exact returnPlain_framed (ipop_framed p) fun v => refs_fromI32 _
  case aReturn => exact returnOp_framed popObject_framed
  case lReturn => exact returnPlain_framed (lpop_framed p) fun v => refs_fromI64 _
  case fReturn => exact returnPlain_framed (fpop_framed p) fun v => refs_fromI32 _
  case dReturn => exact returnPlain_framed (dpop_framed p) fun v => refs_fromI64 _
  case aaLoad | baLoad | caLoad | iaLoad | faLoad | saLoad => exact arrayLoad_framed p
  case aaStore => exact arrayStore_framed p popObjectSlot_framed
  case baStore | iaStore | caStore | saStore | faStore =>
    exact arrayStore_framed p popSlotOr_framed
  case daLoad | laLoad => exact wideArrayLoad_framed p
  case laStore | daStore => exact wideArrayStore_framed p
  case arrayLength => exact arrayLength_framed p
  case getstatic => exact getstatic_framed p cls _
  case putstatic => exact putstatic_framed p cls _
  case getField => exact getField_framed p cls _
  case putField => exact putField_framed p cls _
  case new => exact newObject_framed p cls _
  case newArray => exact newArray_framed p _
  case aNewArray => exact aNewArray_framed p cls _
  case multiANewArray => exact multiANewArray_framed p cls _ _
  case dup => exact pushThen_framed (dup_framed p)
  case dup2 => exact pushThen_framed (dup2_framed p)
  case dupX1 | dupX2 | dup2X1 | dup2X2 => exact fun _ _ => trivial
  case invalid => exact next_framed

end

end Janadinite
