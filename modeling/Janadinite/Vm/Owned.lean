import Janadinite.Lib.RefCount
import Janadinite.Lib.Triple
import Janadinite.Vm.Heap

namespace Janadinite
open RefCount Hoare
set_option autoImplicit true

namespace Store

/-- The memory as a graph of objects that refer to one another. -/
def graph (s : Store) : Graph Addr where
  refs a := ((s.memory a).map fun o => refs o.data).getD []
  count a := ((s.memory a).map Object.strong).getD 0

/-- The objects are in memory where slots can refer to them, with counts that fit a `usize`. -/
def Allocated (s : Store) (objects : List Addr) : Prop :=
  ∀ a ∈ objects, a.Fits ∧ ∃ o, s.memory a = some o ∧ o.strong < 2 ^ 64

/-- The heap's own reference to each of its objects. -/
def heapOwner : Addr → Nat := fun _ => 1

/-- Besides the heap and the slots of the objects in it, exactly `roots` refer to objects. -/
structure Owned (s : Store) (roots : List Addr) : Prop where
  counted : Counted s.graph heapOwner s.heap.objects roots
  allocated : s.Allocated s.heap.objects
  unreachable : s.heap.unreachable = []

theorem graph_refs {s : Store} (h : s.memory a = some o) : s.graph.refs a = refs o.data := by
  simp only [graph, h, Option.map_some, Option.getD_some]

theorem graph_count {s : Store} (h : s.memory a = some o) : s.graph.count a = o.strong := by
  simp only [graph, h, Option.map_some, Option.getD_some]

@[simp] theorem memory_write_self (s : Store) (a : Addr) (o : Option Object) :
    (s.write a o).memory a = o :=
  if_pos rfl

theorem memory_write_ne (s : Store) (o : Option Object) (h : b ≠ a) :
    (s.write a o).memory b = s.memory b :=
  if_neg h

theorem write_write (s : Store) (a : Addr) (o o' : Option Object) :
    (s.write a o).write a o' = s.write a o' := by
  simp only [write, Store.mk.injEq, and_true]
  funext b
  by_cases h : b = a
  · rw [if_pos h, if_pos h]
  · rw [if_neg h, if_neg h, if_neg h]

theorem graph_of_memory {s s' : Store} (h : s'.memory a = s.memory a) :
    s'.graph.refs a = s.graph.refs a ∧ s'.graph.count a = s.graph.count a := by
  simp only [graph, h, and_self]

theorem graph_refs_write {s : Store} (ho : s.memory a = some o) (hd : o'.data = o.data)
    (b : Addr) : (s.write a (some o')).graph.refs b = s.graph.refs b := by
  by_cases hba : b = a
  · rw [hba, graph_refs ho, graph_refs (memory_write_self ..), hd]
  · exact (graph_of_memory (memory_write_ne s _ hba)).1

theorem Allocated.get {s : Store} (h : s.Allocated objects) (ha : a ∈ objects) :
    ∃ o, s.memory a = some o :=
  (h a ha).2.imp fun _ h => h.1

theorem Allocated.of_memory {s s' : Store} (h : s.Allocated objects) (hs : objects' ⊆ objects)
    (hm : ∀ a ∈ objects', s'.memory a = s.memory a) : s'.Allocated objects' := by
  intro a ha
  obtain ⟨hf, ho⟩ := h a (hs ha)
  rw [← hm a ha] at ho
  exact ⟨hf, ho⟩

theorem Allocated.write {s s' : Store} (h : s.Allocated objects) (ho : s'.memory a = some o)
    (hlt : o.strong < 2 ^ 64) (hm : ∀ b ∈ objects, b ≠ a → s'.memory b = s.memory b) :
    s'.Allocated objects := by
  intro b hb
  obtain ⟨hf, hb'⟩ := h b hb
  by_cases hba : b = a
  · exact ⟨hf, o, hba ▸ ho, hlt⟩
  · rw [← hm b hb hba] at hb'
    exact ⟨hf, hb'⟩

namespace Owned

theorem perm {s : Store} (h : s.Owned roots) (hp : roots'.Perm roots) : s.Owned roots' :=
  ⟨h.counted.perm hp, h.allocated, h.unreachable⟩

/-- Only the memory of the objects and the lists of the heap matter. -/
theorem congr {s s' : Store} (h : s.Owned roots) (hm : s'.memory = s.memory)
    (ho : s'.heap.objects = s.heap.objects) (hu : s'.heap.unreachable = s.heap.unreachable) :
    s'.Owned roots := by
  have hg : s'.graph = s.graph := by
    simp only [graph, hm]
  refine ⟨?_, ?_, hu.trans h.unreachable⟩
  · rw [hg, ho]
    exact h.counted
  · rw [ho]
    exact h.allocated.of_memory (fun _ ha => ha) fun a _ => by rw [hm]

theorem root_fits {s : Store} (h : s.Owned roots) (ha : a ∈ roots) : a.Fits :=
  (h.allocated a (h.counted.root_mem a ha)).1

theorem strong {s : Store} (h : s.Owned roots) (ha : a ∈ s.heap.objects)
    (ho : s.memory a = some o) :
    o.strong = 1 + (roots.count a + (s.graph.held s.heap.objects).count a) := by
  have hc := h.counted.count a ha
  rwa [graph_count ho] at hc

/-- An object that is referred to from outside has a reference besides the heap's. -/
theorem two_le_strong {s : Store} (h : s.Owned (a :: roots)) (ho : s.memory a = some o) :
    2 ≤ o.strong := by
  have hs := h.strong (h.counted.root_mem a List.mem_cons_self) ho
  rw [List.count_cons_self] at hs
  omega

theorem refs_mem {s : Store} (h : s.Owned roots) (ha : a ∈ s.heap.objects)
    (ho : s.memory a = some o) (hb : b ∈ refs o.data) : b ∈ s.heap.objects := by
  refine h.counted.held_mem b (List.mem_flatMap.mpr ⟨a, ha, ?_⟩)
  rw [graph_refs ho]
  exact hb

theorem write {s : Store} (h : s.Owned roots) (hlt : o'.strong < 2 ^ 64)
    (hc : Counted (s.write a (some o')).graph heapOwner s.heap.objects roots') :
    (s.write a (some o')).Owned roots' :=
  ⟨hc, h.allocated.write (memory_write_self ..) hlt fun _ _ hba => memory_write_ne s _ hba,
    h.unreachable⟩

theorem clone {s : Store} (h : s.Owned roots) (ha : a ∈ s.heap.objects) (ho : s.memory a = some o)
    (hmax : o.strong ≤ maxRefcount) :
    (s.write a (some { o with strong := o.strong + 1 })).Owned (a :: roots) := by
  have hm : (2 : Nat) ^ 63 - 1 + 1 < 2 ^ 64 := by decide
  apply h.write (Nat.lt_of_le_of_lt (Nat.succ_le_succ hmax) hm)
  apply h.counted.addRoot ha
  · exact fun b _ => graph_refs_write ho (by rfl) b
  · rw [graph_count ho, graph_count (memory_write_self ..)]
  · exact fun b _ hba => (graph_of_memory (memory_write_ne s _ hba)).2

/-- A reference to an object that others refer to is dropped. -/
theorem release {s : Store} (h : s.Owned (a :: roots)) (ho : s.memory a = some o) :
    (s.write a (some { o with strong := o.strong - 1 })).Owned roots := by
  have ha := h.counted.root_mem a List.mem_cons_self
  obtain ⟨_, o', ho', hlt⟩ := h.allocated a ha
  cases ho.symm.trans ho'
  have h2 := h.two_le_strong ho
  apply h.write (Nat.lt_of_le_of_lt (Nat.sub_le ..) hlt)
  apply h.counted.dropRoot
  · exact fun b _ => graph_refs_write ho (by rfl) b
  · rw [graph_count ho, graph_count (memory_write_self ..)]
    exact Nat.sub_add_cancel (Nat.le_of_succ_le h2)
  · exact fun b _ hba => (graph_of_memory (memory_write_ne s _ hba)).2

theorem alloc {s s' : Store} (h : s.Owned (refs o.data ++ roots)) (hn : s.memory a = none)
    (hf : a.Fits) (h2 : o.strong = 2) (hm : s'.memory = (s.write a (some o)).memory)
    (ho : s'.heap.objects = s.heap.objects ++ [a])
    (hu : s'.heap.unreachable = s.heap.unreachable) : s'.Owned (a :: roots) := by
  have hfresh : a ∉ s.heap.objects := by
    intro ha
    obtain ⟨o, ho⟩ := h.allocated.get ha
    rw [hn] at ho
    cases ho
  have hself : s'.memory a = some o := by
    rw [hm]
    exact memory_write_self ..
  have hother : ∀ b ∈ s.heap.objects, s'.memory b = s.memory b := by
    intro b hb
    rw [hm]
    exact memory_write_ne s _ fun hba => hfresh (hba ▸ hb)
  refine ⟨?_, ?_, hu.trans h.unreachable⟩
  · rw [ho]
    have hi : Counted ⟨s'.graph.refs, fun b => if b = a then 1 else s'.graph.count b⟩ heapOwner
        (s.heap.objects ++ [a]) roots := by
      refine Counted.insert (g := s.graph) ?_ hfresh (if_pos rfl) fun b hb => ?_
      · change Counted _ _ _ (s'.graph.refs a ++ roots)
        rw [graph_refs hself]
        exact h.counted
      · obtain ⟨hr, hc⟩ := graph_of_memory (hother b hb)
        exact ⟨hr, (if_neg fun (hba : b = a) => hfresh (hba ▸ hb)).trans hc⟩
    refine hi.addRoot (List.mem_append_right _ (List.mem_singleton.mpr rfl)) (fun _ _ => rfl) ?_
      fun b _ (hba : b ≠ a) => (if_neg hba).symm
    rw [graph_count hself, h2]
    exact congrArg (· + 1) (if_pos rfl).symm
  · rw [ho]
    intro b hb
    rcases List.mem_append.mp hb with hb | hb
    · obtain ⟨hf, hb'⟩ := h.allocated b hb
      rw [← hother b hb] at hb'
      exact ⟨hf, hb'⟩
    · rw [List.mem_singleton.mp hb]
      exact ⟨hf, o, hself, by omega⟩

theorem exchange {s : Store} (h : s.Owned roots) (ha : a ∈ s.heap.objects)
    (ho : s.memory a = some o)
    (hp : (roots' ++ refs data).Perm (roots ++ refs o.data)) :
    (s.write a (some { o with data })).Owned roots' := by
  obtain ⟨_, o', ho', hlt⟩ := h.allocated a ha
  cases ho.symm.trans ho'
  refine h.write hlt (h.counted.exchange ha ?_ ?_ ?_)
  · rw [graph_refs ho, graph_refs (memory_write_self ..)]
    exact hp
  · intro b _
    by_cases hba : b = a
    · rw [hba, graph_count ho, graph_count (memory_write_self ..)]
    · exact (graph_of_memory (memory_write_ne s _ hba)).2
  · exact fun b _ hba => (graph_of_memory (memory_write_ne s _ hba)).1

end Owned

/-- The object is gone from the heap and from memory. -/
def free (s : Store) (a : Addr) (allocCount : Nat) : Store :=
  { s.write a none with
    heap := { s.heap with objects := s.heap.objects.erase a, allocCount }, locked := false }

/-- The last reference to an object is dropped. -/
theorem Owned.free {s : Store} (h : s.Owned (a :: roots)) (ho : s.memory a = some o)
    (h2 : o.strong = 2) (n : Nat) : (s.free a n).Owned (refs o.data ++ roots) := by
  have ha := h.counted.root_mem a List.mem_cons_self
  have hmem : ∀ b ≠ a, (s.free a n).memory b = s.memory b := fun b hba =>
    memory_write_ne s none hba
  refine ⟨?_, ?_, h.unreachable⟩
  · rw [← graph_refs ho]
    refine h.counted.free ?_ fun b _ hba => graph_of_memory (hmem b hba)
    rw [graph_count ho, h2]
    rfl
  · refine h.allocated.of_memory List.erase_subset fun b hb => hmem b ?_
    exact ((h.counted.nodup.mem_erase_iff).mp hb).1

end Store

end Janadinite
