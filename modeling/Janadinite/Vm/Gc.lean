import Janadinite.Vm.GcSweep

namespace Janadinite
open RefCount Hoare
set_option autoImplicit true

namespace Heap

/-- What a collection leaves of the heap when `roots` are the references from outside it. -/
structure Collected (roots : List Addr) (s s' : Store) : Prop where
  objects : ∀ a, a ∈ s'.heap.objects ↔ s.graph.Reachable roots a
  survivors : ∀ a ∈ s'.heap.objects, ∃ o o', s.memory a = some o ∧ s'.memory a = some o' ∧
    o'.kind = o.kind ∧ o'.data = o.data
  freed : ∀ a ∈ s.heap.objects, a ∉ s'.heap.objects → s'.memory a = none
  owned : s'.Owned roots
  frame : s' = { s with memory := s'.memory, heap := { s.heap with
    objects := s'.heap.objects, unreachable := [], allocCount := 0 } }

theorem reachable_mem {s : Store} (h : s.Owned roots) (ha : s.graph.Reachable roots a) :
    a ∈ s.heap.objects :=
  ha.closed (fun r hr => h.counted.root_mem r hr) fun b hb c hc =>
    h.counted.held_mem c (List.mem_flatMap.mpr ⟨b, hb, hc⟩)

theorem graph_withGc (s : Store) (g : Addr → Nat) : (s.withGc g).graph = s.graph := by
  simp only [Store.graph, Store.withGc, Option.map_map]
  rfl

theorem allocated_withGc {s : Store} (h : s.Allocated objs) (g : Addr → Nat) :
    (s.withGc g).Allocated objs := by
  intro a ha
  obtain ⟨hf, o, ho, hlt⟩ := h a ha
  exact ⟨hf, _, Store.memory_withGc ho g, hlt⟩

theorem Marked.sweeping {s : Store} {stay moved : List Addr} (h : s.Owned roots)
    (hM : Marked s roots g stay moved) :
    Sweeping (s.withGc g) (s.graph.Reachable roots) Store.heapOwner (stay ++ moved) roots
      (marked s g stay moved) where
  counted := by
    change Counted (s.withGc g).graph _ _ _
    rw [graph_withGc]
    exact h.counted.perm_nodes hM.perm
  owner_le _ := Nat.le_refl 1
  allocated := allocated_withGc (h.allocated.of_memory (fun a ha => hM.perm.mem_iff.mp ha)
    fun _ _ => rfl) g
  kept a ha := by
    obtain ⟨o, ho⟩ := h.allocated.get (hM.perm.mem_iff.mp ha)
    exact ⟨hM.perm.mem_iff.mp ha, _, _, Store.memory_withGc ho g, Store.memory_withGc ho g, rfl,
      rfl, fun _ => rfl⟩
  emptied a _ h0 := absurd h0 Nat.one_ne_zero
  gone a ha hn := absurd (hM.perm.mem_iff.mpr ha) hn
  other _ _ := rfl

theorem Marked.draining {s : Store} {stay moved : List Addr} (h : s.Owned roots)
    (hM : Marked s roots g stay moved) :
    Draining (s.withGc g) (s.graph.Reachable roots) Store.heapOwner (stay ++ moved) stay moved where
  nodup := hM.perm.nodup_iff.mpr h.counted.nodup
  owned _ ha := ⟨fun _ => ha, fun _ => rfl⟩
  mem _ ha := ha
  back := hM.stay
  found a ha o ho := by
    obtain ⟨o₁, ho₁⟩ := h.allocated.get (hM.perm.mem_iff.mp (List.mem_append_right _ ha))
    cases (Store.memory_withGc ho₁ g).symm.trans ho
    exact hM.moved a ha

theorem Collected.of_sweeping {s : Store} (h : s.Owned roots)
    (hs : Sweeping (s.withGc g) (s.graph.Reachable roots) owner nodes roots s')
    (hd : Draining (s.withGc g) (s.graph.Reachable roots) owner nodes objs []) :
    Collected roots s { s with
      memory := s'.memory
      heap := { s.heap with objects := objs, unreachable := [], allocCount := 0 } } := by
  have hnext : ∀ a, s.graph.Reachable roots a → ∀ o, (s.withGc g).memory a = some o →
      ∀ c ∈ refs o.data, s.graph.Reachable roots c := by
    intro a ha o ho c hc
    rw [← Store.graph_refs ho, graph_withGc] at hc
    exact ha.next hc
  obtain ⟨hp, hown⟩ := hs.finish hd (fun a ha => .root ha) hnext
  have hkept : ∀ a ∈ nodes, ∃ o o', s.memory a = some o ∧ s'.memory a = some o' ∧
      o'.kind = o.kind ∧ (s.graph.Reachable roots a → o'.data = o.data) := by
    intro a ha
    obtain ⟨hobj, o', o₀, ho', ho₀, _, hk, hdata⟩ := hs.kept a ha
    obtain ⟨o, ho⟩ := h.allocated.get hobj
    cases (Store.memory_withGc ho g).symm.trans ho₀
    exact ⟨o, o', ho, ho', hk, hdata⟩
  have hback : ∀ a ∈ objs, s.graph.Reachable roots a := hd.back
  refine ⟨fun a => ⟨hback a, fun ha => ?_⟩, ?_, ?_, ?_, ?_⟩
  · apply Classical.byContradiction
    intro hn
    have hmem : a ∈ s.heap.objects := reachable_mem h ha
    exact (hs.gone a hmem fun hn' => hn (hp.mem_iff.mpr hn')).1 ha
  · intro a ha
    obtain ⟨o, o', ho, ho', hk, hdata⟩ := hkept a (hp.mem_iff.mp ha)
    exact ⟨o, o', ho, ho', hk, hdata (hback a ha)⟩
  · intro a ha hn
    exact (hs.gone a ha fun hn' => hn (hp.mem_iff.mpr hn')).2
  · refine ⟨?_, hs.allocated.of_memory (fun a ha => hp.mem_iff.mp ha) fun _ _ => rfl, rfl⟩
    apply (hs.counted.perm_nodes hp).recount (fun _ _ => rfl)
    · intro b hb
      rw [hown b (hp.mem_iff.mp hb)]
      rfl
    · exact fun b hb => hp.mem_iff.mpr (hs.counted.root_mem b hb)
  · rfl

/-- A collection, which also leaves alone what the heap does not list. -/
theorem collect_sweeps (p : Profile) {s : Store} (h : s.Owned roots) :
    ∃ s', collect p s = .ok ⟨⟩ s' ∧ Collected roots s s' ∧
      ∀ a, a ∉ s.heap.objects → s.memory a = none → s'.memory a = none := by
  obtain ⟨g, stay, moved, hrun, hM⟩ := collect_marked h p
  obtain ⟨owner, nodes, m, objs, hdrain, hs, hd⟩ :=
    drain_sweeping p (hM.sweeping h) (hM.draining h)
  rw [bind_eq _ hdrain] at hrun
  have hc := Collected.of_sweeping h hs hd
  refine ⟨_, hrun, hc, ?_⟩
  intro a ha hnone
  apply (hs.other a ha).trans
  change (s.memory a).map _ = none
  rw [hnone]
  rfl

theorem collect_collected (p : Profile) {s : Store} (h : s.Owned roots) :
    ∃ s', collect p s = .ok ⟨⟩ s' ∧ Collected roots s s' := by
  obtain ⟨s', hrun, hc, _⟩ := collect_sweeps p h
  exact ⟨s', hrun, hc⟩

theorem tryGc_eq (p : Profile) {s : Store} (hthreads : s.heap.heapThreads = s.heap.parkedThreads)
    (hcount : gcThreshold ≤ s.heap.allocCount) : tryGc p s = collect p s := by
  rw [tryGc, bind_eq _ (readHeap_eq s), if_neg (fun hne => hne hthreads), if_pos hcount]

/-- A collection keeps exactly what is reachable from objects with references from outside, whatever
cycles there are, in either profile: no subtraction on `gc_refs` overflows. -/
theorem tryGc_collects (p : Profile) {s : Store} (h : s.Owned roots)
    (hthreads : s.heap.heapThreads = s.heap.parkedThreads)
    (hcount : gcThreshold ≤ s.heap.allocCount) :
    ∃ s', tryGc p s = .ok ⟨⟩ s' ∧ Collected roots s s' := by
  rw [tryGc_eq p hthreads hcount]
  exact collect_collected p h

/-- An array of two references, held by the heap and so many times by others. -/
def pair (strong : Nat) (a b : Addr) : Object :=
  ⟨strong, 0, .array .one, [.fromObject a, .fromObject b]⟩

/-- Besides an object with a child that both refer to themselves, a cycle of garbage: two objects
that refer to each other, and one of them to the child as well. -/
def garbageCycle : Store where
  memory a :=
    if a = 8 then some (pair 3 8 16)
    else if a = 16 then some (pair 5 16 16)
    else if a = 24 then some (pair 2 32 16)
    else if a = 32 then some (pair 3 24 32)
    else none
  heap := ⟨[8, 24, 16, 32], 20, [], 1, 1⟩
  shouldStopTheWorld := true
  locked := true
  poisoned := false
  addresses n := .ofNat (8 * (n + 1))
  allocated := 4

theorem garbageCycle_owned : garbageCycle.Owned [8] where
  counted := by
    have hcount : garbageCycle.heap.objects.all fun a => garbageCycle.graph.count a ==
        1 + ([8].count a + (garbageCycle.graph.held garbageCycle.heap.objects).count a) := by
      decide +kernel
    have hheld : (garbageCycle.graph.held garbageCycle.heap.objects).all
        fun a => garbageCycle.heap.objects.contains a := by
      decide +kernel
    refine ⟨by decide, ?_, ?_, ?_⟩
    · exact fun a ha => eq_of_beq (List.all_eq_true.mp hcount a ha)
    · exact List.forall_mem_singleton.mpr (by decide)
    · exact fun a ha => List.contains_iff_mem.mp (List.all_eq_true.mp hheld a ha)
  allocated := by
    have hfits : garbageCycle.heap.objects.all fun a => decide (a.Fits ∧
        ((garbageCycle.memory a).map fun o => decide (o.strong < 2 ^ 64)) = some true) := by
      decide +kernel
    intro a ha
    obtain ⟨hf, hm⟩ := of_decide_eq_true (List.all_eq_true.mp hfits a ha)
    obtain ⟨o, ho, hlt⟩ := Option.map_eq_some_iff.mp hm
    exact ⟨hf, o, ho, of_decide_eq_true hlt⟩
  unreachable := rfl

theorem garbageCycle_collected :
    ∃ s', tryGc ⟨true⟩ garbageCycle = .ok ⟨⟩ s' ∧ Collected [8] garbageCycle s' :=
  tryGc_collects ⟨true⟩ garbageCycle_owned rfl (by decide)

theorem tryGc_succeeds (p : Profile) {s : Store} (h : s.Owned roots)
    (hthreads : s.heap.heapThreads = s.heap.parkedThreads) :
    ∃ s', tryGc p s = .ok ⟨⟩ s' ∧ s'.Owned roots := by
  by_cases hcount : gcThreshold ≤ s.heap.allocCount
  · obtain ⟨s', hrun, hc⟩ := collect_collected p h
    exact ⟨s', (tryGc_eq p hthreads hcount).trans hrun, hc.owned⟩
  · refine ⟨s, ?_, h⟩
    rw [tryGc, bind_eq _ (readHeap_eq s), if_neg (fun hne => hne hthreads), if_neg hcount]
    rfl

theorem tryGc_panics (p : Profile) {s : Store}
    (hthreads : s.heap.heapThreads ≠ s.heap.parkedThreads) :
    tryGc p s = .error (.panic "Called without stop-the-world happening first") s := by
  rw [tryGc, bind_eq _ (readHeap_eq s), if_pos hthreads]
  rfl

theorem tryGc_owned (p : Profile) (roots : List Addr) :
    Triple (fun s => s.Owned roots) (tryGc p) (fun _ s => s.Owned roots) Regular := by
  intro s h
  by_cases hthreads : s.heap.heapThreads = s.heap.parkedThreads
  · obtain ⟨s', hrun, ho⟩ := tryGc_succeeds p h hthreads
    rw [hrun]
    exact ho
  · rw [tryGc_panics p hthreads]
    trivial

end Heap

end Janadinite
