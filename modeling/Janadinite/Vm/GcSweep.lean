import Janadinite.Vm.GcMark

namespace Janadinite
open RefCount Hoare
set_option autoImplicit true

/-- Another memory, and all else as before. -/
def Store.withMemory (s : Store) (m : Addr → Option Object) : Store := { s with memory := m }

namespace Heap

/-- While garbage is torn down: `nodes` are the objects still in memory, and those that `owner` has
no reference to are emptied garbage that other garbage still refers to. -/
structure Sweeping (s₀ : Store) (live : Addr → Prop) (owner : Addr → Nat)
    (nodes roots : List Addr) (s : Store) : Prop where
  counted : Counted s.graph owner nodes roots
  owner_le : ∀ a, owner a ≤ 1
  allocated : s.Allocated nodes
  kept : ∀ a ∈ nodes, a ∈ s₀.heap.objects ∧ ∃ o o₀, s.memory a = some o ∧ s₀.memory a = some o₀ ∧
    o.gcRefs = o₀.gcRefs ∧ o.kind = o₀.kind ∧ (live a → o.data = o₀.data)
  emptied : ∀ a ∈ nodes, owner a = 0 → ¬live a ∧ s.graph.refs a = [] ∧ 1 ≤ s.graph.count a
  gone : ∀ a ∈ s₀.heap.objects, a ∉ nodes → ¬live a ∧ s.memory a = none
  other : ∀ a, a ∉ s₀.heap.objects → s.memory a = s₀.memory a

/-- The nodes left are among those there were, and only nodes without an owner go. -/
structure Fewer (owner : Addr → Nat) (nodes nodes' : List Addr) : Prop where
  sub : ∀ a ∈ nodes', a ∈ nodes
  stay : ∀ a ∈ nodes, owner a = 1 → a ∈ nodes'

theorem Fewer.refl (owner : Addr → Nat) (nodes : List Addr) : Fewer owner nodes nodes :=
  ⟨fun _ h => h, fun _ h _ => h⟩

theorem Fewer.trans (h : Fewer owner nodes nodes') (h' : Fewer owner nodes' nodes'') :
    Fewer owner nodes nodes'' :=
  ⟨fun a ha => h.sub a (h'.sub a ha), fun a ha ho => h'.stay a (h.stay a ha ho) ho⟩

theorem Sweeping.write (h : Sweeping s₀ live owner nodes roots s) (ho : s.memory a = some o)
    (ha : a ∈ nodes) (hs : o'.strong ≤ o.strong) (hgc : o'.gcRefs = o.gcRefs)
    (hk : o'.kind = o.kind) (hd : live a → o'.data = o.data)
    (hc : Counted (s.write a (some o')).graph owner' nodes roots')
    (hle : ∀ b, owner' b ≤ 1) (heq : ∀ b ≠ a, owner' b = owner b)
    (he : owner' a = 0 → ¬live a ∧ refs o'.data = [] ∧ 1 ≤ o'.strong) :
    Sweeping s₀ live owner' nodes roots' (s.write a (some o')) where
  counted := hc
  owner_le := hle
  allocated := by
    obtain ⟨_, o₁, ho₁, hlt⟩ := h.allocated a ha
    cases ho.symm.trans ho₁
    exact h.allocated.write (Store.memory_write_self ..) (Nat.lt_of_le_of_lt hs hlt) fun _ _ hba =>
      Store.memory_write_ne s _ hba
  kept b hb := by
    obtain ⟨hobj, o₁, o₀, ho₁, ho₀, hg, hk₁, hd₁⟩ := h.kept b hb
    by_cases hba : b = a
    · subst hba
      cases ho.symm.trans ho₁
      exact ⟨hobj, o', o₀, Store.memory_write_self .., ho₀, hgc.trans hg, hk.trans hk₁, fun hl =>
        (hd hl).trans (hd₁ hl)⟩
    · exact ⟨hobj, o₁, o₀, (Store.memory_write_ne s _ hba).trans ho₁, ho₀, hg, hk₁, hd₁⟩
  emptied b hb h0 := by
    by_cases hba : b = a
    · subst hba
      rw [Store.graph_refs (Store.memory_write_self ..),
        Store.graph_count (Store.memory_write_self ..)]
      exact he h0
    · obtain ⟨hr, hc⟩ := Store.graph_of_memory (Store.memory_write_ne s (some o') hba)
      rw [hr, hc]
      exact h.emptied b hb (by rwa [← heq b hba])
  gone b hb hn := by
    obtain ⟨hl, hm⟩ := h.gone b hb hn
    refine ⟨hl, ?_⟩
    rw [Store.memory_write_ne s _ fun hba : b = a => hn (hba ▸ ha)]
    exact hm
  other b hb := by
    rw [Store.memory_write_ne s _ fun hba : b = a => hb (hba ▸ (h.kept a ha).1)]
    exact h.other b hb

theorem Sweeping.free (h : Sweeping s₀ live owner nodes roots s) (ha : a ∈ nodes)
    (hl : ¬live a) (hc : Counted (s.write a none).graph owner' (nodes.erase a) roots')
    (hle : ∀ b, owner' b ≤ 1) (heq : ∀ b ≠ a, owner' b = owner b) :
    Sweeping s₀ live owner' (nodes.erase a) roots' (s.write a none) := by
  have hmem : ∀ b ∈ nodes.erase a, b ≠ a ∧ b ∈ nodes := fun b hb =>
    (h.counted.nodup.mem_erase_iff).mp hb
  refine ⟨hc, hle, ?_, ?_, ?_, ?_, ?_⟩
  · exact h.allocated.of_memory List.erase_subset fun b hb =>
      Store.memory_write_ne s none (hmem b hb).1
  · intro b hb
    obtain ⟨hba, hb⟩ := hmem b hb
    rw [Store.memory_write_ne s none hba]
    exact h.kept b hb
  · intro b hb h0
    obtain ⟨hba, hb⟩ := hmem b hb
    obtain ⟨hr, hc⟩ := Store.graph_of_memory (Store.memory_write_ne s none hba)
    rw [hr, hc]
    exact h.emptied b hb (by rwa [← heq b hba])
  · intro b hb hn
    by_cases hba : b = a
    · rw [hba]
      exact ⟨hl, Store.memory_write_self ..⟩
    · rw [Store.memory_write_ne s none hba]
      exact h.gone b hb fun hb' => hn ((h.counted.nodup.mem_erase_iff).mpr ⟨hba, hb'⟩)
  · intro b hb
    rw [Store.memory_write_ne s none fun hba : b = a => hb (hba ▸ (h.kept a ha).1)]
    exact h.other b hb

theorem dropArc_shared {s : Store} (p : Profile) (ho : s.memory a = some o) (h : o.strong ≠ 1) :
    dropArc p a s = .ok ⟨⟩ (s.write a (some { o with strong := o.strong - 1 })) := by
  rw [dropArc, bind_get, bind_eq _ (arcRelease_shared ho h)]
  cases s.heldRefs <;> rfl

theorem dropArc_last {s : Store} (p : Profile) (ho : s.memory a = some o) (h : o.strong = 1)
    (hd : refs o.data = []) : dropArc p a s = .ok ⟨⟩ (s.write a none) := by
  rw [dropArc, bind_get, bind_eq _ (arcRelease_last ho h), hd]
  cases s.heldRefs <;> rfl

/-- What the drop of an `Arc` leaves: the memory may change, in the counts and in what is gone. -/
structure Dropped (s₀ : Store) (live : Addr → Prop) (owner owner' : Addr → Nat)
    (nodes roots : List Addr) (a : Addr) (s : Store) (nodes' : List Addr)
    (m : Addr → Option Object) :
    Prop where
  sweeping : Sweeping s₀ live owner' nodes' roots (s.withMemory m)
  fewer : Fewer owner' nodes nodes'
  frame : ∀ b ≠ a, m b = s.memory b
  data : ∀ o, a ∈ nodes' → s.memory a = some o → m a = some { o with strong := o.strong - 1 }

theorem Fewer.erase (hn : nodes.Nodup) (h : owner a = 0) : Fewer owner nodes (nodes.erase a) := by
  refine ⟨fun _ hb => List.mem_of_mem_erase hb, fun b hb h1 => ?_⟩
  apply (hn.mem_erase_iff).mpr
  refine ⟨fun hba => ?_, hb⟩
  rw [hba, h] at h1
  cases h1

theorem Sweeping.dropRoot (h : Sweeping s₀ live owner nodes (c :: roots) s) (p : Profile) :
    ∃ nodes' m, dropArc p c s = .ok ⟨⟩ (s.withMemory m) ∧
      Dropped s₀ live owner owner nodes roots c s nodes' m := by
  have hc := h.counted.root_mem c List.mem_cons_self
  obtain ⟨_, o, ho, _⟩ := h.allocated c hc
  have hcount := h.counted.count c hc
  rw [Store.graph_count ho, List.count_cons_self] at hcount
  by_cases h1 : o.strong = 1
  · have h0 : owner c = 0 := by omega
    obtain ⟨hl, hr, _⟩ := h.emptied c hc h0
    have hfree : Counted (s.write c none).graph owner (nodes.erase c)
        (s.graph.refs c ++ roots) := by
      apply h.counted.free
      · rw [Store.graph_count ho, h1, h0]
      · exact fun b _ hba => Store.graph_of_memory (Store.memory_write_ne s none hba)
    rw [hr, List.nil_append] at hfree
    rw [Store.graph_refs ho] at hr
    refine ⟨nodes.erase c, _, dropArc_last p ho h1 hr, ?_, .erase h.counted.nodup h0, ?_, ?_⟩
    · exact h.free hc hl hfree h.owner_le fun _ _ => rfl
    · exact fun b hba => Store.memory_write_ne s none hba
    · intro o hc'
      exact absurd hc' h.counted.nodup.not_mem_erase
  · refine ⟨nodes, _, dropArc_shared p ho h1, ?_, .refl owner nodes, ?_, ?_⟩
    · refine h.write ho hc (Nat.sub_le ..) rfl rfl (fun _ => rfl) ?_ h.owner_le (fun _ _ => rfl) ?_
      · apply h.counted.dropRoot
        · exact fun b _ => Store.graph_refs_write ho (by rfl) b
        · rw [Store.graph_count ho, Store.graph_count (Store.memory_write_self ..)]
          exact Nat.sub_add_cancel (by omega)
        · exact fun b _ hba => (Store.graph_of_memory (Store.memory_write_ne s _ hba)).2
      · intro h0
        obtain ⟨hl, hr, _⟩ := h.emptied c hc h0
        rw [Store.graph_refs ho] at hr
        exact ⟨hl, hr, Nat.le_sub_of_add_le (by omega)⟩
    · exact fun b hba => Store.memory_write_ne s _ hba
    · intro o' _ ho'
      cases ho.symm.trans ho'
      exact Store.memory_write_self ..

/-- The collector's own `Arc` of an emptied object is dropped. -/
theorem Sweeping.disown (h : Sweeping s₀ live owner nodes roots s) (p : Profile) (ha : a ∈ nodes)
    (h1 : owner a = 1) (hl : ¬live a) (hr : s.graph.refs a = []) :
    ∃ nodes' m, dropArc p a s = .ok ⟨⟩ (s.withMemory m) ∧
      Dropped s₀ live owner (Function.update owner a 0) nodes roots a s nodes' m := by
  obtain ⟨_, o, ho, _⟩ := h.allocated a ha
  have hcount := h.counted.count a ha
  rw [Store.graph_count ho] at hcount
  have hself : Function.update owner a 0 a = 0 := Function.update_self ..
  have hne : ∀ b ≠ a, Function.update owner a 0 b = owner b := fun b hba =>
    Function.update_of_ne hba ..
  have hle : ∀ b, Function.update owner a 0 b ≤ 1 := by
    intro b
    by_cases hba : b = a
    · rw [hba, hself]
      exact Nat.zero_le 1
    · rw [hne b hba]
      exact h.owner_le b
  by_cases hs : o.strong = 1
  · have herase : Counted (s.write a none).graph owner (nodes.erase a)
        (s.graph.refs a ++ roots) := by
      apply h.counted.erase ha
      · rw [Store.graph_count ho, hs, h1]
      · exact fun b _ hba => Store.graph_of_memory (Store.memory_write_ne s none hba)
    rw [hr, List.nil_append] at herase
    have hc : Counted (s.write a none).graph (Function.update owner a 0) (nodes.erase a) roots := by
      refine herase.recount (fun _ _ => rfl) (fun b hb => ?_) herase.root_mem
      rw [hne b ((h.counted.nodup.mem_erase_iff).mp hb).1]
    rw [Store.graph_refs ho] at hr
    refine ⟨nodes.erase a, _, dropArc_last p ho hs hr, h.free ha hl hc hle hne,
      .erase h.counted.nodup hself, fun b hba => Store.memory_write_ne s none hba, ?_⟩
    intro o hc'
    exact absurd hc' h.counted.nodup.not_mem_erase
  · refine ⟨nodes, _, dropArc_shared p ho hs, ?_, .refl _ nodes,
      fun b hba => Store.memory_write_ne s _ hba, ?_⟩
    · refine h.write ho ha (Nat.sub_le ..) rfl rfl (fun _ => rfl) ?_ hle hne fun _ => ?_
      · refine h.counted.disown (a := a) ?_ ?_ (by rw [hself, h1]) ?_
        · exact fun b _ => Store.graph_refs_write ho (by rfl) b
        · rw [Store.graph_count ho, Store.graph_count (Store.memory_write_self ..)]
          exact Nat.sub_add_cancel (by omega)
        · exact fun b _ hba =>
            ⟨(Store.graph_of_memory (Store.memory_write_ne s _ hba)).2, hne b hba⟩
      · rw [Store.graph_refs ho] at hr
        exact ⟨hl, hr, Nat.le_sub_of_add_le (by omega)⟩
    · intro o' _ ho'
      cases ho.symm.trans ho'
      exact Store.memory_write_self ..

theorem refs_take_set_null {data : List JVMSlot} (h : refs (data.take i) = [])
    (hi : data[i]? = some old) : refs ((data.set i .null).take (i + 1)) = [] := by
  have hlt := (List.getElem?_eq_some_iff.mp hi).1
  rw [List.take_add_one, List.getElem?_set_self hlt, List.take_set_of_le (Nat.le_refl i),
    refs_append,
    h]
  exact congrArg ([] ++ ·) (refs_replicate_null 1)

/-- The reference in a slot of a garbage object passes to the collector when the slot is emptied. -/
theorem Sweeping.nullSlot (h : Sweeping s₀ live owner nodes roots s) (ha : a ∈ nodes)
    (h1 : owner a = 1) (hl : ¬live a) (ho : s.memory a = some o) (hold : o.data[i]? = some old) :
    Sweeping s₀ live owner nodes (refs [old] ++ roots)
      (s.write a (some { o with data := o.data.set i .null })) := by
  refine h.write ho ha (Nat.le_refl _) rfl rfl (fun h => absurd h hl) ?_ h.owner_le
    (fun _ _ => rfl) fun h0 => absurd (h0.symm.trans h1) Nat.zero_ne_one
  refine h.counted.exchange ha ?_ (fun b _ => ?_) fun b _ hba =>
    (Store.graph_of_memory (Store.memory_write_ne s _ hba)).1
  · rw [Store.graph_refs ho, Store.graph_refs (Store.memory_write_self ..)]
    have hset := refs_set_perm hold .null
    apply List.perm_iff_count.mpr
    intro b
    have hb := hset.count_eq b
    have hnull : refs [JVMSlot.null] = [] := refs_replicate_null 1
    rw [hnull] at hb
    simp only [List.count_append, List.nil_append] at hb ⊢
    omega
  · by_cases hba : b = a
    · rw [hba, Store.graph_count ho, Store.graph_count (Store.memory_write_self ..)]
    · exact (Store.graph_of_memory (Store.memory_write_ne s _ hba)).2

/-- The slots of a garbage object are emptied one after the other. -/
theorem Sweeping.emptySlots (h : Sweeping s₀ live owner nodes roots s) (p : Profile)
    (ha : a ∈ nodes) (h1 : owner a = 1) (hl : ¬live a) (ho : s.memory a = some o)
    (hlen : o.data.length = i + n) (htake : refs (o.data.take i) = []) :
    ∃ nodes' m, emptySlots p a i n s = .ok ⟨⟩ (s.withMemory m) ∧
      Sweeping s₀ live owner nodes' roots (s.withMemory m) ∧ Fewer owner nodes nodes' ∧
      (s.withMemory m).graph.refs a = [] := by
  induction n generalizing i s nodes o with
  | zero =>
    refine ⟨nodes, s.memory, rfl, h, .refl owner nodes, ?_⟩
    rw [Nat.add_zero] at hlen
    rw [← hlen, List.take_length] at htake
    rwa [← Store.graph_refs ho] at htake
  | succ n ih =>
    have hi : i < o.data.length := by omega
    have hold : o.data[i]? = some o.data[i] := List.getElem?_eq_getElem hi
    have htake₁ := refs_take_set_null htake hold
    have hlen₁ : (o.data.set i .null).length = i + 1 + n := by
      rw [List.length_set]
      omega
    rw [Heap.emptySlots, bind_eq _ (replaceData_eq ho hold .null)]
    have h₁ := h.nullSlot ha h1 hl ho hold
    cases hs : o.data[i].object? with
    | none =>
      rw [refs_cons, hs] at h₁
      exact ih h₁ ha (Store.memory_write_self ..) hlen₁ htake₁
    | some c =>
      rw [refs_cons, hs] at h₁
      obtain ⟨nodes₁, m₁, hdrop, hd⟩ := h₁.dropRoot p
      have ha₁ := hd.fewer.stay a ha h1
      have ho₁ : ∃ o₁, m₁ a = some o₁ ∧ o₁.data = o.data.set i .null := by
        by_cases hac : a = c
        · subst hac
          exact ⟨_, hd.data _ ha₁ (Store.memory_write_self ..), rfl⟩
        · exact ⟨_, (hd.frame a hac).trans (Store.memory_write_self ..), rfl⟩
      obtain ⟨o₁, ho₁, hdata⟩ := ho₁
      rw [← hdata] at htake₁ hlen₁
      obtain ⟨nodes₂, m₂, hrun, h₂, hf, hr⟩ := ih hd.sweeping ha₁ ho₁ hlen₁ htake₁
      exact ⟨nodes₂, m₂, (bind_eq _ hdrop).trans hrun, h₂, hd.fewer.trans hf, hr⟩

theorem Sweeping.tearDown (h : Sweeping s₀ live owner nodes roots s) (p : Profile)
    (ha : a ∈ nodes) (h1 : owner a = 1) (hl : ¬live a) (ho : s.memory a = some o) :
    ∃ s₁ nodes' m, Heap.emptySlots p a 0 o.data.length s = .ok ⟨⟩ s₁ ∧
      dropArc p a s₁ = .ok ⟨⟩ (s.withMemory m) ∧
      Sweeping s₀ live (Function.update owner a 0) nodes' roots (s.withMemory m) ∧
      Fewer (Function.update owner a 0) nodes nodes' := by
  obtain ⟨nodes₁, m₁, hempty, h₁, hf₁, hr⟩ := h.emptySlots p ha h1 hl ho (Nat.zero_add _).symm rfl
  obtain ⟨nodes₂, m₂, hdrop, hd⟩ := h₁.disown p (hf₁.stay a ha h1) h1 hl hr
  refine ⟨_, nodes₂, m₂, hempty, hdrop, hd.sweeping, ?_, ?_⟩
  · exact fun b hb => hf₁.sub b (hd.fewer.sub b hb)
  · intro b hb hb1
    apply hd.fewer.stay b (hf₁.stay b hb ?_) hb1
    by_cases hba : b = a
    · rw [hba]
      exact h1
    · rwa [Function.update_of_ne hba] at hb1

/-- How the objects are divided while `unreachable` is drained: those back in the heap are live, and
`gc_refs` tells for the others. -/
structure Draining (s₀ : Store) (live : Addr → Prop) (owner : Addr → Nat) (nodes : List Addr)
    (objects rest : List Addr) : Prop where
  nodup : (objects ++ rest).Nodup
  owned : ∀ a ∈ nodes, owner a = 1 ↔ a ∈ objects ++ rest
  mem : ∀ a ∈ objects ++ rest, a ∈ nodes
  back : ∀ a ∈ objects, live a
  found : ∀ a ∈ rest, ∀ o, s₀.memory a = some o → (o.gcRefs ≠ usizeMax ↔ live a)

theorem Sweeping.withHeap (h : Sweeping s₀ live owner nodes roots s) (heap : Heap) :
    Sweeping s₀ live owner nodes roots { s with heap } :=
  ⟨h.counted, h.owner_le, h.allocated, h.kept, h.emptied, h.gone, h.other⟩

theorem Draining.insert (h : Draining s₀ live owner nodes objs (obj :: rest)) (hl : live obj) :
    Draining s₀ live owner nodes (Heap.insert obj objs) rest := by
  have hnot : obj ∉ objs := fun hm =>
    (List.nodup_append.mp h.nodup).2.2 obj hm obj List.mem_cons_self rfl
  have happ : (objs ++ [obj]) ++ rest = objs ++ obj :: rest := List.append_assoc ..
  rw [Heap.insert, if_neg hnot]
  refine ⟨by rw [happ]; exact h.nodup, by rw [happ]; exact h.owned, by rw [happ]; exact h.mem, ?_,
    fun a ha => h.found a (List.mem_cons_of_mem _ ha)⟩
  intro a ha
  rcases List.mem_append.mp ha with ha | ha
  · exact h.back a ha
  · rw [List.mem_singleton.mp ha]
    exact hl

theorem Draining.remove (h : Draining s₀ live owner nodes objs (obj :: rest))
    (hf : Fewer (Function.update owner obj 0) nodes nodes') :
    Draining s₀ live (Function.update owner obj 0) nodes' objs rest := by
  have hp : (objs ++ obj :: rest).Perm (obj :: (objs ++ rest)) := List.perm_middle
  obtain ⟨hnot, hn⟩ := List.nodup_cons.mp (hp.nodup_iff.mp h.nodup)
  have hmem : ∀ b ≠ obj, b ∈ objs ++ obj :: rest ↔ b ∈ objs ++ rest := by
    intro b hb
    rw [hp.mem_iff, List.mem_cons]
    exact ⟨fun h => h.resolve_left hb, .inr⟩
  have hne : ∀ b ∈ objs ++ rest, b ≠ obj := fun b hb hbo => hnot (hbo ▸ hb)
  refine ⟨hn, fun b hb => ?_, fun b hb => ?_, h.back, fun a ha =>
    h.found a (List.mem_cons_of_mem _ ha)⟩
  · by_cases hbo : b = obj
    · rw [hbo, Function.update_self]
      exact ⟨fun h => absurd h Nat.zero_ne_one, fun h => absurd h hnot⟩
    · rw [Function.update_of_ne hbo, h.owned b (hf.sub b hb), hmem b hbo]
  · have hall := (hmem b (hne b hb)).mpr hb
    apply hf.stay b (h.mem b hall)
    rw [Function.update_of_ne (hne b hb)]
    exact (h.owned b (h.mem b hall)).mpr hall

theorem drain_sweeping (p : Profile) (h : Sweeping s₀ live owner nodes roots s)
    (hd : Draining s₀ live owner nodes s.heap.objects rest) :
    ∃ owner' nodes' m objects, drain p rest s = .ok ⟨⟩ { s with
        memory := m, heap := { s.heap with objects, unreachable := [] } } ∧
      Sweeping s₀ live owner' nodes' roots (s.withMemory m) ∧
      Draining s₀ live owner' nodes' objects [] := by
  induction rest generalizing s owner nodes with
  | nil => exact ⟨owner, nodes, s.memory, s.heap.objects, rfl, h, hd⟩
  | cons obj rest ih =>
    have hin : obj ∈ s.heap.objects ++ obj :: rest :=
      List.mem_append_right _ List.mem_cons_self
    have ha := hd.mem obj hin
    obtain ⟨_, o, o₀, ho, ho₀, hgc, _⟩ := h.kept obj ha
    have hfound := hd.found obj List.mem_cons_self o₀ ho₀
    rw [← hgc] at hfound
    rw [drain, bind_eq _ (deref_eq ho)]
    by_cases hm : o.gcRefs = usizeMax
    · have hl : ¬live obj := fun hl => hfound.mpr hl hm
      obtain ⟨s₁, nodes', m, hempty, hdrop, hs, hf⟩ :=
        h.tearDown p ha ((hd.owned obj ha).mpr hin) hl ho
      obtain ⟨owner', nodes'', m', objects, hrest, hs', hd'⟩ := ih hs (hd.remove hf)
      refine ⟨owner', nodes'', m', objects, ?_, hs', hd'⟩
      rw [if_neg (fun h : o.gcRefs ≠ usizeMax => h hm), bind_eq _ hempty, bind_eq _ hdrop]
      exact hrest
    · have hd₁ := hd.insert (hfound.mp hm)
      obtain ⟨owner', nodes', m, objects, hrest, hs, hd'⟩ := ih
        (h.withHeap { s.heap with objects := insert obj s.heap.objects }) hd₁
      refine ⟨owner', nodes', m, objects, ?_, hs.withHeap s.heap, hd'⟩
      rw [if_pos (show o.gcRefs ≠ usizeMax from hm)]
      exact hrest

/-- When all is drained nothing is left but the live objects. -/
theorem Sweeping.finish (h : Sweeping s₀ live owner nodes roots s)
    (hd : Draining s₀ live owner nodes objs []) (hroots : ∀ a ∈ roots, live a)
    (hlive : ∀ a, live a → ∀ o, s₀.memory a = some o → ∀ c ∈ refs o.data, live c) :
    objs.Perm nodes ∧ ∀ a ∈ nodes, owner a = 1 := by
  have hall : ∀ a ∈ nodes, owner a = 1 := by
    intro a ha
    apply Classical.byContradiction
    intro h1
    have h0 : owner a = 0 := by
      have := h.owner_le a
      omega
    obtain ⟨hl, _, hpos⟩ := h.emptied a ha h0
    have hcount := h.counted.count a ha
    have hr : roots.count a = 0 := List.count_eq_zero.mpr fun hm => hl (hroots a hm)
    have hheld : (s.graph.held nodes).count a = 0 := by
      apply List.count_eq_zero.mpr
      intro hm
      obtain ⟨b, hb, hab⟩ := List.mem_flatMap.mp hm
      obtain ⟨_, o, o₀, ho, ho₀, _, _, hdata⟩ := h.kept b hb
      by_cases hb1 : owner b = 1
      · have hbl : live b := by
          have hin := (hd.owned b hb).mp hb1
          rw [List.append_nil] at hin
          exact hd.back b hin
        rw [Store.graph_refs ho, hdata hbl] at hab
        exact hl (hlive b hbl o₀ ho₀ a hab)
      · have hb0 : owner b = 0 := by
          have := h.owner_le b
          omega
        rw [(h.emptied b hb hb0).2.1] at hab
        exact List.not_mem_nil hab
    omega
  refine ⟨?_, hall⟩
  have hn := hd.nodup
  have hown := hd.owned
  have hmem := hd.mem
  rw [List.append_nil] at hn hown hmem
  apply (List.perm_ext_iff_of_nodup hn h.counted.nodup).mpr
  exact fun a => ⟨hmem a, fun ha => (hown a ha).mp (hall a ha)⟩

end Heap

end Janadinite
