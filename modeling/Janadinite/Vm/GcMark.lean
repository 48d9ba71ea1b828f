import Mathlib.Logic.Function.Basic
import Janadinite.Vm.HeapOps

namespace Janadinite
open RefCount Hoare
set_option autoImplicit true

namespace Store

/-- The store with other values in `gc_refs`, all that the collector changes before it sweeps. -/
def withGc (s : Store) (g : Addr → Nat) : Store :=
  { s with memory := fun a => (s.memory a).map fun o => { o with gcRefs := g a } }

theorem withGc_self (s : Store) :
    s.withGc (fun a => ((s.memory a).map Object.gcRefs).getD 0) = s := by
  cases s with
  | mk memory =>
    simp only [withGc, Store.mk.injEq, and_true]
    funext a
    cases memory a <;> rfl

theorem memory_withGc {s : Store} (h : s.memory a = some o) (g : Addr → Nat) :
    (s.withGc g).memory a = some { o with gcRefs := g a } := by
  simp only [withGc, h, Option.map_some]

theorem write_withGc (s : Store) (g : Addr → Nat) (a : Addr) (n : Nat) (h : s.memory a = some o) :
    (s.withGc g).write a (some { o with gcRefs := n }) = s.withGc (Function.update g a n) := by
  simp only [withGc, write, Store.mk.injEq, and_true]
  funext b
  by_cases hba : b = a
  · rw [if_pos hba, hba, h, Option.map_some, Function.update_self]
  · rw [if_neg hba, Function.update_of_ne hba]

/-- An object that the collector may look at. -/
def Valid (s : Store) (a : Addr) : Prop := a.Fits ∧ ∃ o, s.memory a = some o

theorem gcRefs_withGc {s : Store} (h : s.Valid a) (g : Addr → Nat) :
    gcRefs a (s.withGc g) = .ok (g a) (s.withGc g) := by
  obtain ⟨_, o, ho⟩ := h
  rw [gcRefs, bind_eq _ (deref_eq (memory_withGc ho g))]
  rfl

theorem setGcRefs_withGc {s : Store} (h : s.Valid a) (g : Addr → Nat) (n : Nat) :
    setGcRefs a n (s.withGc g) = .ok ⟨⟩ (s.withGc (Function.update g a n)) := by
  obtain ⟨_, o, ho⟩ := h
  rw [setGcRefs, bind_eq _ (deref_eq (memory_withGc ho g)), ← write_withGc s g a n ho]
  rfl

theorem Owned.valid {s : Store} (h : s.Owned roots) (ha : a ∈ s.heap.objects) : s.Valid a :=
  ⟨(h.allocated a ha).1, h.allocated.get ha⟩

theorem Owned.held_objects {s : Store} (h : s.Owned roots) (hsub : ∀ b ∈ objs, b ∈ s.heap.objects)
    (hc : c ∈ s.graph.held objs) : c ∈ s.heap.objects := by
  obtain ⟨b, hb, hbc⟩ := List.mem_flatMap.mp hc
  exact h.counted.held_mem c (List.mem_flatMap.mpr ⟨b, hsub b hb, hbc⟩)

theorem Owned.valid_held {s : Store} (h : s.Owned roots) (hsub : ∀ b ∈ objs, b ∈ s.heap.objects) :
    ∀ a ∈ objs ++ s.graph.held objs, s.Valid a := by
  intro a ha
  rcases List.mem_append.mp ha with ha | ha
  · exact h.valid (hsub a ha)
  · exact h.valid (h.held_objects hsub ha)

end Store

theorem readHeap_eq (s : Store) : readHeap s = .ok s.heap s := rfl

namespace Heap

theorem countRefs_withGc {s : Store} (p : Profile) (g : Addr → Nat)
    (h : ∀ a ∈ objs, s.Valid a ∧ 1 ≤ s.graph.count a) :
    countRefs p objs (s.withGc g) = .ok ⟨⟩ (s.withGc fun a =>
      if a ∈ objs then s.graph.count a - 1 else g a) := by
  induction objs generalizing g with
  | nil => rfl
  | cons obj objs ih =>
    obtain ⟨hv, hpos⟩ := h obj List.mem_cons_self
    obtain ⟨o, ho⟩ := hv.2
    have hsub : checked (p.sub 64 o.strong 1) (s.withGc g) = .ok (o.strong - 1) (s.withGc g) := by
      rw [← Store.graph_count ho, p.sub_eq hpos]
      rfl
    rw [countRefs, bind_eq _ (deref_eq (Store.memory_withGc ho g)), bind_eq _ hsub,
      bind_eq _ (Store.setGcRefs_withGc hv g _), ih _ fun a ha => h a (List.mem_cons_of_mem _ ha)]
    apply congrArg fun g => EStateM.Result.ok PUnit.unit (s.withGc g)
    funext a
    by_cases hobj : a = obj
    · rw [hobj, if_pos List.mem_cons_self, Function.update_self, ← Store.graph_count ho, ite_self]
    · simp only [List.mem_cons, hobj, false_or, Function.update_of_ne hobj]

theorem subtractRef_withGc {s : Store} (p : Profile) (h : s.Valid c) (hpos : 1 ≤ g c) :
    subtractRef p c (s.withGc g) = .ok ⟨⟩ (s.withGc (Function.update g c (g c - 1))) := by
  have hsub : checked (p.sub 64 (g c) 1) (s.withGc g) = .ok (g c - 1) (s.withGc g) := by
    rw [p.sub_eq hpos]
    rfl
  rw [subtractRef, bind_eq _ (Store.gcRefs_withGc h g), bind_eq _ hsub]
  exact Store.setGcRefs_withGc h g _

theorem forChildren_none (p : Profile) (f : Addr → VM Store PUnit) (h : slot.object? = none)
    (data : List JVMSlot) : forChildren p f (slot :: data) = forChildren p f data := by
  rw [forChildren, withObject_none p f h]
  rfl

theorem forChildren_some (p : Profile) (h : slot.object? = some c) (hf : c.Fits)
    (hm : f c s = .ok ⟨⟩ s') (data : List JVMSlot) :
    forChildren p f (slot :: data) s = forChildren p f data s' := by
  rw [forChildren, withObject_some p f h hf]
  exact bind_eq (fun _ => forChildren p f data) (bind_eq (fun r => pure (some r)) hm)

theorem forChildren_subtract {s : Store} (p : Profile) (g : Addr → Nat)
    (hv : ∀ c ∈ refs data, s.Valid c) (hle : ∀ c, (refs data).count c ≤ g c) :
    forChildren p (subtractRef p) data (s.withGc g) =
      .ok ⟨⟩ (s.withGc fun c => g c - (refs data).count c) := by
  induction data generalizing g with
  | nil => rfl
  | cons slot data ih =>
    rw [refs_cons] at hv hle
    cases hs : slot.object? with
    | none =>
      rw [hs] at hv hle
      rw [forChildren_none p _ hs, refs_cons, hs]
      exact ih g hv hle
    | some c =>
      rw [hs] at hv hle
      have hc := hv c List.mem_cons_self
      have hpos : 1 ≤ g c := by
        have := hle c
        rw [Option.toList_some, List.singleton_append, List.count_cons_self] at this
        omega
      rw [forChildren_some p hs hc.1 (subtractRef_withGc p hc hpos), refs_cons, hs,
        ih _ (fun a ha => hv a (List.mem_cons_of_mem _ ha))]
      · apply congrArg fun g => EStateM.Result.ok PUnit.unit (s.withGc g)
        funext a
        rw [Option.toList_some, List.singleton_append]
        by_cases hac : a = c
        · rw [hac, Function.update_self, List.count_cons_self]
          omega
        · rw [Function.update_of_ne hac, List.count_cons_of_ne (Ne.symm hac)]
      · intro a
        have ha := hle a
        rw [Option.toList_some, List.singleton_append] at ha
        by_cases hac : a = c
        · rw [hac, List.count_cons_self] at ha
          rw [hac, Function.update_self]
          omega
        · rwa [List.count_cons_of_ne (Ne.symm hac), ← Function.update_of_ne hac (g c - 1) g] at ha

theorem held_cons {s : Store} (ho : s.memory obj = some o) (objs : List Addr) :
    s.graph.held (obj :: objs) = refs o.data ++ s.graph.held objs := by
  rw [Graph.held, List.flatMap_cons, Store.graph_refs ho]
  rfl

theorem valid_cons {s : Store} (ho : s.memory obj = some o)
    (hv : ∀ a ∈ obj :: objs ++ s.graph.held (obj :: objs), s.Valid a) :
    (∀ c ∈ refs o.data, s.Valid c) ∧ ∀ a ∈ objs ++ s.graph.held objs, s.Valid a := by
  rw [held_cons ho] at hv
  constructor
  · intro c hc
    exact hv c (List.mem_append_right _ (List.mem_append_left _ hc))
  · intro a ha
    rcases List.mem_append.mp ha with ha | ha
    · exact hv a (List.mem_append_left _ (List.mem_cons_of_mem _ ha))
    · exact hv a (List.mem_append_right _ (List.mem_append_right _ ha))

theorem subtractInternal_withGc {s : Store} (p : Profile) (g : Addr → Nat)
    (hv : ∀ a ∈ objs ++ s.graph.held objs, s.Valid a)
    (hle : ∀ c, (s.graph.held objs).count c ≤ g c) :
    subtractInternal p objs (s.withGc g) =
      .ok ⟨⟩ (s.withGc fun c => g c - (s.graph.held objs).count c) := by
  induction objs generalizing g with
  | nil => rfl
  | cons obj objs ih =>
    obtain ⟨_, o, ho⟩ := hv obj List.mem_cons_self
    obtain ⟨hdata, hrest⟩ := valid_cons ho hv
    rw [held_cons ho] at hle ⊢
    simp only [List.count_append] at hle ⊢
    have hchildren := forChildren_subtract p g hdata fun c => Nat.le_of_add_right_le (hle c)
    rw [subtractInternal, bind_eq _ (deref_eq (Store.memory_withGc ho g)), bind_eq _ hchildren,
      ih _ hrest]
    · apply congrArg fun g => EStateM.Result.ok PUnit.unit (s.withGc g)
      funext c
      omega
    · intro c
      have := hle c
      omega

theorem extractUnreachable_withGc {s : Store} (g : Addr → Nat) (hn : objs.Nodup)
    (hv : ∀ a ∈ objs, s.Valid a) :
    extractUnreachable objs (s.withGc g) =
      .ok (objs.filter fun a => g a ≠ 0, objs.filter fun a => g a = 0)
        (s.withGc fun a => if a ∈ objs ∧ g a = 0 then usizeMax else g a) := by
  induction objs generalizing g with
  | nil => simp only [extractUnreachable, List.not_mem_nil, false_and, if_false]; rfl
  | cons obj objs ih =>
    obtain ⟨hobj, hn⟩ := List.nodup_cons.mp hn
    have hv₀ := hv obj List.mem_cons_self
    have hrest := fun a ha => hv a (List.mem_cons_of_mem _ ha)
    rw [extractUnreachable, bind_eq _ (Store.gcRefs_withGc hv₀ g)]
    by_cases h0 : g obj = 0
    · have hfilter : ∀ q : Nat → Bool, objs.filter (fun a => q (Function.update g obj usizeMax a)) =
          objs.filter fun a => q (g a) := by
        intro q
        apply List.filter_congr
        intro a ha
        rw [Function.update_of_ne fun hao : a = obj => hobj (hao ▸ ha)]
      rw [if_pos h0, bind_eq _ (Store.setGcRefs_withGc hv₀ g _), bind_eq _ (ih _ hn hrest),
        hfilter fun n => n ≠ 0, hfilter fun n => n = 0, List.filter_cons_of_neg (by simpa using h0),
        List.filter_cons_of_pos (by simpa using h0)]
      apply congrArg fun g => EStateM.Result.ok _ (s.withGc g)
      funext a
      by_cases hao : a = obj
      · simp only [hao, hobj, false_and, if_false, Function.update_self, List.mem_cons_self, h0,
          and_self, if_true]
      · simp only [Function.update_of_ne hao, List.mem_cons, hao, false_or]
    · rw [if_neg h0, bind_eq _ (ih g hn hrest), List.filter_cons_of_pos (by simpa using h0),
        List.filter_cons_of_neg (by simpa using h0)]
      apply congrArg fun g => EStateM.Result.ok _ (s.withGc g)
      funext a
      by_cases hao : a = obj
      · simp only [hao, hobj, h0, and_false]
      · simp only [List.mem_cons, hao, false_or]

def mark (g : Addr → Nat) (children : List Addr) : Addr → Nat := fun a =>
  if a ∈ children ∧ g a = usizeMax then 1 else g a

theorem mark_of_mem (h : a ∈ cs) (hm : g a = usizeMax) : mark g cs a = 1 := if_pos ⟨h, hm⟩

theorem mark_of_not_mem (h : a ∉ cs) (g : Addr → Nat) : mark g cs a = g a :=
  if_neg fun hc => h hc.1

theorem mark_of_ne (h : g a ≠ usizeMax) (cs : List Addr) : mark g cs a = g a :=
  if_neg fun hc => h hc.2

theorem mark_ne (h : a ∈ cs) (g : Addr → Nat) : mark g cs a ≠ usizeMax := by
  by_cases hm : g a = usizeMax
  · rw [mark_of_mem h hm]
    decide
  · rwa [mark_of_ne hm]

theorem mark_nil (g : Addr → Nat) : mark g [] = g := by
  funext a
  exact mark_of_not_mem List.not_mem_nil g

theorem mark_append (g : Addr → Nat) (cs cs' : List Addr) :
    mark (mark g cs) cs' = mark g (cs ++ cs') := by
  funext a
  by_cases hm : g a = usizeMax
  · by_cases hc : a ∈ cs
    · rw [mark_of_mem (List.mem_append_left _ hc) hm, mark_of_ne (mark_ne hc g),
        mark_of_mem hc hm]
    · by_cases hc' : a ∈ cs'
      · rw [mark_of_mem (List.mem_append_right _ hc') hm, mark_of_mem hc']
        rwa [mark_of_not_mem hc]
      · rw [mark_of_not_mem hc', mark_of_not_mem hc, mark_of_not_mem]
        exact fun h => (List.mem_append.mp h).elim hc hc'
  · rw [mark_of_ne hm, mark_of_ne, mark_of_ne hm]
    rwa [mark_of_ne hm]

def finds (g : Addr → Nat) (children : List Addr) : Bool := children.any fun c => g c = usizeMax

theorem mark_of_not_finds (h : finds g cs = false) : mark g cs = g := by
  funext a
  apply if_neg
  intro ⟨ha, hm⟩
  have hc := List.any_eq_false.mp h a ha
  exact hc (decide_eq_true hm)

theorem finds_append (g : Addr → Nat) (cs cs' : List Addr) :
    (finds g cs || finds (mark g cs) cs') = finds g (cs ++ cs') := by
  rw [finds, finds, finds, List.any_append]
  cases h : finds g cs with
  | true =>
    rw [finds] at h
    rw [h, Bool.true_or, Bool.true_or]
  | false => rw [mark_of_not_finds h]

theorem findChild_withGc {s : Store} (h : s.Valid c) (g : Addr → Nat) (found : Bool) :
    findChild c found (s.withGc g) =
      .ok (found || finds g [c]) (s.withGc (mark g [c])) := by
  rw [findChild, bind_eq _ (Store.gcRefs_withGc h g)]
  by_cases hm : g c = usizeMax
  · rw [if_pos hm, bind_eq _ (Store.setGcRefs_withGc h g 1)]
    have hmark : mark g [c] = Function.update g c 1 := by
      funext a
      by_cases hac : a = c
      · rw [hac, mark_of_mem List.mem_cons_self hm, Function.update_self]
      · rw [mark_of_not_mem (fun h => hac (List.mem_singleton.mp h)), Function.update_of_ne hac]
    simp only [hmark, finds, List.any_cons, hm, decide_true, Bool.true_or, Bool.or_true]
    rfl
  · have hno : finds g [c] = false := by
      simp only [finds, List.any_cons, List.any_nil, hm, decide_false, Bool.or_false]
    rw [if_neg hm, mark_of_not_finds hno, hno, Bool.or_false]
    rfl

theorem findChildren_withGc {s : Store} (p : Profile) (g : Addr → Nat) (found : Bool)
    (hv : ∀ c ∈ refs data, s.Valid c) :
    findChildren p data found (s.withGc g) =
      .ok (found || finds g (refs data)) (s.withGc (mark g (refs data))) := by
  induction data generalizing g found with
  | nil =>
    rw [findChildren, refs_nil, mark_nil, finds, List.any_nil, Bool.or_false]
    rfl
  | cons slot data ih =>
    rw [refs_cons] at hv
    have hrest := fun c hc => hv c (List.mem_append_right _ hc)
    rw [findChildren, refs_cons]
    cases hs : slot.object? with
    | none =>
      rw [withObject_none p _ hs]
      exact ih g found hrest
    | some c =>
      rw [hs] at hv
      have hc := hv c List.mem_cons_self
      have hw : withObject p slot (fun child => findChild child found) (s.withGc g) =
          .ok (some (found || finds g [c])) (s.withGc (mark g [c])) := by
        rw [withObject_some p _ hs hc.1, bind_eq _ (findChild_withGc hc g found)]
        rfl
      rw [bind_eq _ hw, ← finds_append, ← mark_append, ← Bool.or_assoc]
      exact ih _ _ hrest

theorem findFromRoots_withGc {s : Store} (p : Profile) (g : Addr → Nat) (found : Bool)
    (hv : ∀ a ∈ objs ++ s.graph.held objs, s.Valid a) :
    findFromRoots p objs found (s.withGc g) =
      .ok (found || finds g (s.graph.held objs)) (s.withGc (mark g (s.graph.held objs))) := by
  induction objs generalizing g found with
  | nil =>
    rw [findFromRoots, Graph.held, List.flatMap_nil, mark_nil, finds, List.any_nil, Bool.or_false]
    rfl
  | cons obj objs ih =>
    obtain ⟨_, o, ho⟩ := hv obj List.mem_cons_self
    obtain ⟨hdata, hrest⟩ := valid_cons ho hv
    rw [findFromRoots, bind_eq _ (deref_eq (Store.memory_withGc ho g)),
      bind_eq _ (findChildren_withGc p g found hdata), ih _ _ hrest, held_cons ho, ← finds_append,
      ← mark_append, ← Bool.or_assoc]

/-- What a pass over `objs` makes of `gc_refs` and of the flag: what is found was referred to by
something found before, and without a find every object found had only such children. -/
structure Spread (s : Store) (objs : List Addr) (g g' : Addr → Nat) (found found' : Bool) :
    Prop where
  kept : ∀ a, g a ≠ usizeMax → g' a = g a
  reached : ∀ P : Addr → Prop, (∀ b ∈ objs, P b → ∀ c ∈ s.graph.refs b, P c) →
    (∀ a, g a ≠ usizeMax → P a) → ∀ a, g' a ≠ usizeMax → P a
  still : found' = false → g' = g ∧ found = false ∧
    ∀ b ∈ objs, g b ≠ usizeMax → ∀ c ∈ s.graph.refs b, g c ≠ usizeMax
  progress : found' = true → found = true ∨
    ∃ c ∈ s.graph.held objs, g c = usizeMax ∧ g' c ≠ usizeMax

theorem Spread.skip (h : Spread s objs g g' found found') (ho : s.memory obj = some o)
    (hm : g obj = usizeMax) : Spread s (obj :: objs) g g' found found' where
  kept := h.kept
  reached P hnext := h.reached P fun b hb => hnext b (List.mem_cons_of_mem _ hb)
  still hf := by
    obtain ⟨hg, hff, hc⟩ := h.still hf
    refine ⟨hg, hff, fun b hb hne => ?_⟩
    rcases List.mem_cons.mp hb with rfl | hb
    · exact absurd hm hne
    · exact hc b hb hne
  progress hf := by
    rcases h.progress hf with hp | ⟨c, hc, hp⟩
    · exact .inl hp
    · rw [held_cons ho]
      exact .inr ⟨c, List.mem_append_right _ hc, hp⟩

theorem Spread.scan (h : Spread s objs (mark g (refs o.data)) g' (found || finds g (refs o.data))
      found') (ho : s.memory obj = some o) (hm : g obj ≠ usizeMax) :
    Spread s (obj :: objs) g g' found found' where
  kept a ha := by rw [h.kept a (by rwa [mark_of_ne ha]), mark_of_ne ha]
  reached P hnext hP := by
    apply h.reached P fun b hb => hnext b (List.mem_cons_of_mem _ hb)
    intro a ha
    by_cases hga : g a = usizeMax
    · by_cases hc : a ∈ refs o.data
      · rw [← Store.graph_refs ho] at hc
        exact hnext obj List.mem_cons_self (hP obj hm) a hc
      · rw [mark_of_not_mem hc] at ha
        exact absurd hga ha
    · exact hP a hga
  still hf := by
    obtain ⟨hg, hff, hc⟩ := h.still hf
    obtain ⟨hff, hno⟩ := Bool.or_eq_false_iff.mp hff
    rw [mark_of_not_finds hno] at hg hc
    refine ⟨hg, hff, fun b hb hne => ?_⟩
    rcases List.mem_cons.mp hb with rfl | hb
    · intro c hcb hcm
      rw [Store.graph_refs ho] at hcb
      exact List.any_eq_false.mp hno c hcb (decide_eq_true hcm)
    · exact hc b hb hne
  progress hf := by
    rw [held_cons ho]
    rcases h.progress hf with hp | ⟨c, hc, hcm, hcn⟩
    · rcases Bool.or_eq_true_iff.mp hp with hp | hp
      · exact .inl hp
      · obtain ⟨c, hc, hcm⟩ := List.any_eq_true.mp hp
        have hcm := of_decide_eq_true hcm
        refine .inr ⟨c, List.mem_append_left _ hc, hcm, ?_⟩
        rw [h.kept c (mark_ne hc g)]
        exact mark_ne hc g
    · refine .inr ⟨c, List.mem_append_right _ hc, ?_, hcn⟩
      apply Classical.byContradiction
      intro hne
      rw [mark_of_ne hne] at hcm
      exact hne hcm

theorem findFromFound_withGc {s : Store} (p : Profile) (g : Addr → Nat) (found : Bool)
    (hv : ∀ a ∈ objs ++ s.graph.held objs, s.Valid a) :
    ∃ g' found', findFromFound p objs found (s.withGc g) = .ok found' (s.withGc g') ∧
      Spread s objs g g' found found' := by
  induction objs generalizing g found with
  | nil =>
    refine ⟨g, found, rfl, fun _ _ => rfl, fun _ _ hP => hP, fun hf => ⟨rfl, hf, ?_⟩, .inl⟩
    exact fun b hb => absurd hb List.not_mem_nil
  | cons obj objs ih =>
    obtain ⟨_, o, ho⟩ := hv obj List.mem_cons_self
    obtain ⟨hdata, hrest⟩ := valid_cons ho hv
    rw [findFromFound, bind_eq _ (deref_eq (Store.memory_withGc ho g))]
    by_cases hm : g obj = usizeMax
    · obtain ⟨g', found', hrun, hs⟩ := ih g found hrest
      rw [if_neg (fun h : g obj ≠ usizeMax => h hm)]
      exact ⟨g', found', hrun, hs.skip ho hm⟩
    · obtain ⟨g', found', hrun, hs⟩ :=
      ih (mark g (refs o.data)) (found || finds g (refs o.data)) hrest
      rw [if_pos (show g obj ≠ usizeMax from hm),
        bind_eq _ (findChildren_withGc p g found hdata)]
      exact ⟨g', found', hrun, hs.scan ho hm⟩

theorem Spread.fewer (h : Spread s objs g g' false true)
    (hin : ∀ c ∈ s.graph.held objs, g c = usizeMax → c ∈ objs) :
    objs.countP (fun a => g' a = usizeMax) < objs.countP fun a => g a = usizeMax := by
  rcases h.progress rfl with hp | ⟨c, hc, hcm, hcn⟩
  · cases hp
  · have hmono : ∀ a, g' a = usizeMax → g a = usizeMax := by
      intro a ha
      apply Classical.byContradiction
      intro hne
      exact hne ((h.kept a hne).symm.trans ha)
    obtain ⟨front, back, rfl⟩ := List.append_of_mem (hin c hc hcm)
    have hle : ∀ l : List Addr,
        l.countP (fun a => g' a = usizeMax) ≤ l.countP fun a => g a = usizeMax := fun l =>
      List.countP_mono_left fun a _ ha => decide_eq_true (hmono a (of_decide_eq_true ha))
    have hf := hle front
    have hb := hle back
    rw [List.countP_append, List.countP_append, List.countP_cons_of_neg (by simpa using hcn),
      List.countP_cons_of_pos (by simpa using hcm)]
    omega

/-- The rounds end, when all that found objects refer to is found. -/
theorem findLoop_withGc {s : Store} (p : Profile) (g : Addr → Nat)
    (hv : ∀ a ∈ objs ++ s.graph.held objs, s.Valid a)
    (hin : ∀ c ∈ s.graph.held objs, g c = usizeMax → c ∈ objs)
    (hfuel : objs.countP (fun a => g a = usizeMax) < fuel) :
    ∃ g', findLoop p objs fuel true (s.withGc g) = .ok ⟨⟩ (s.withGc g') ∧
      (∀ a, g a ≠ usizeMax → g' a = g a) ∧
      (∀ P : Addr → Prop, (∀ b ∈ objs, P b → ∀ c ∈ s.graph.refs b, P c) →
        (∀ a, g a ≠ usizeMax → P a) → ∀ a, g' a ≠ usizeMax → P a) ∧
      ∀ b ∈ objs, g' b ≠ usizeMax → ∀ c ∈ s.graph.refs b, g' c ≠ usizeMax := by
  induction fuel generalizing g with
  | zero => omega
  | succ fuel ih =>
    obtain ⟨g₁, found, hrun, hs⟩ := findFromFound_withGc p g false hv
    rw [findLoop, bind_eq _ hrun]
    cases found with
    | false =>
      obtain ⟨rfl, _, hc⟩ := hs.still rfl
      refine ⟨g₁, ?_, hs.kept, hs.reached, hc⟩
      cases fuel <;> rfl
    | true =>
      have hlt := hs.fewer hin
      have hin₁ : ∀ c ∈ s.graph.held objs, g₁ c = usizeMax → c ∈ objs := by
        intro c hc hcm
        apply hin c hc
        apply Classical.byContradiction
        intro hne
        exact hne ((hs.kept c hne).symm.trans hcm)
      obtain ⟨g', hrun', hk, hr, hc⟩ := ih g₁ hin₁ (by omega)
      refine ⟨g', hrun', fun a ha => ?_, fun P hnext hP => hr P hnext (hs.reached P hnext hP), hc⟩
      have h₁ := hs.kept a ha
      rw [hk a (by rwa [h₁]), h₁]

/-- The heap with some of its objects moved to `unreachable`. -/
def divided (s : Store) (stay moved : List Addr) : Store :=
  { s with heap := { s.heap with objects := stay, unreachable := moved } }

def marked (s : Store) (g : Addr → Nat) (stay moved : List Addr) : Store :=
  (divided s stay moved).withGc g

theorem move_marked {s : Store} (h : s.heap.unreachable = []) (g : Addr → Nat)
    (stay moved : List Addr) : modifyHeap (fun heap => { heap with
      objects := stay, unreachable := heap.unreachable ++ moved }) (s.withGc g) =
        .ok ⟨⟩ (marked s g stay moved) := by
  have hu : s.heap.unreachable ++ moved = moved := by rw [h, List.nil_append]
  exact congrArg (fun unreachable => EStateM.Result.ok PUnit.unit
    { s.withGc g with heap := { s.heap with objects := stay, unreachable } }) hu

/-- What `gc_refs` says of the objects when marking is over. -/
structure Marked (s : Store) (roots : List Addr) (g : Addr → Nat) (stay moved : List Addr) :
    Prop where
  perm : (stay ++ moved).Perm s.heap.objects
  stay : ∀ a ∈ stay, s.graph.Reachable roots a
  moved : ∀ a ∈ moved, g a ≠ usizeMax ↔ s.graph.Reachable roots a

theorem count_external {s : Store} (h : s.Owned roots) (p : Profile) :
    ∃ s₁ g, countRefs p s.heap.objects s = .ok ⟨⟩ s₁ ∧
      subtractInternal p s.heap.objects s₁ = .ok ⟨⟩ (s.withGc g) ∧
      ∀ a ∈ s.heap.objects, g a = roots.count a := by
  have hpos : ∀ a ∈ s.heap.objects, s.Valid a ∧ 1 ≤ s.graph.count a := by
    intro a ha
    have hc := h.counted.count a ha
    rw [Store.heapOwner] at hc
    exact ⟨h.valid ha, by omega⟩
  have h₁ := countRefs_withGc p (fun a => ((s.memory a).map Object.gcRefs).getD 0) hpos
  rw [s.withGc_self] at h₁
  have hheld : ∀ c, c ∉ s.heap.objects → (s.graph.held s.heap.objects).count c = 0 := fun c hc =>
    List.count_eq_zero.mpr fun hm => hc (h.counted.held_mem c hm)
  have hstrong : ∀ c ∈ s.heap.objects, s.graph.count c - 1 =
      roots.count c + (s.graph.held s.heap.objects).count c := by
    intro c hc
    rw [h.counted.count c hc, Store.heapOwner]
    omega
  have hv := h.valid_held fun _ hb => hb
  refine ⟨_, _, h₁, subtractInternal_withGc p _ hv ?_, ?_⟩
  · intro c
    by_cases hc : c ∈ s.heap.objects
    · rw [if_pos hc, hstrong c hc]
      exact Nat.le_add_left ..
    · rw [hheld c hc]
      exact Nat.zero_le _
  · intro a ha
    rw [if_pos ha, hstrong a ha]
    exact Nat.add_sub_cancel ..

theorem root_ne_usizeMax {s : Store} (h : s.Owned roots) (ha : a ∈ s.heap.objects) :
    roots.count a ≠ usizeMax := by
  obtain ⟨_, o, ho, hlt⟩ := h.allocated a ha
  have hs := h.strong ha ho
  have hmax : usizeMax + 1 = 2 ^ 64 := by decide
  omega

/-- The objects with references from outside stay, and the others are moved away. -/
structure Divided (s : Store) (roots : List Addr) (g : Addr → Nat) (stay moved : List Addr) :
    Prop where
  perm : (stay ++ moved).Perm s.heap.objects
  stay : ∀ a ∈ stay, a ∈ roots ∧ g a ≠ usizeMax
  moved : ∀ a ∈ moved, a ∉ roots ∧ g a = usizeMax

namespace Divided

variable {s : Store} {roots stay moved : List Addr} {g g' : Addr → Nat}

theorem mem_iff (hd : Divided s roots g stay moved) (a : Addr) :
    a ∈ stay ∨ a ∈ moved ↔ a ∈ s.heap.objects :=
  List.mem_append.symm.trans hd.perm.mem_iff

theorem first_reachable (hd : Divided s roots g stay moved) (a : Addr)
    (ha : mark g (s.graph.held stay) a ≠ usizeMax) (hobj : a ∈ s.heap.objects) :
    s.graph.Reachable roots a := by
  by_cases hin : a ∈ s.graph.held stay
  · obtain ⟨b, hb, hab⟩ := List.mem_flatMap.mp hin
    exact (Graph.Reachable.root (hd.stay b hb).1).next hab
  · rw [mark_of_not_mem hin] at ha
    rcases (hd.mem_iff a).mpr hobj with hs | hm
    · exact .root (hd.stay a hs).1
    · exact absurd (hd.moved a hm).2 ha

/-- The loop marks what can be reached from there, and all that it marks holds marked objects
only. -/
theorem findLoop_marks (hd : Divided s roots g stay moved) (h : s.Owned roots) (p : Profile) :
    ∃ g', findLoop p moved (moved.length + 1) (finds g (s.graph.held stay))
      (marked s (mark g (s.graph.held stay)) stay moved) = .ok ⟨⟩ (marked s g' stay moved) ∧
      (∀ a, mark g (s.graph.held stay) a ≠ usizeMax → g' a ≠ usizeMax) ∧
      (∀ a, g' a ≠ usizeMax → a ∈ s.heap.objects → s.graph.Reachable roots a) ∧
      ∀ b ∈ moved, g' b ≠ usizeMax → ∀ c ∈ s.graph.refs b, g' c ≠ usizeMax := by
  cases hf : finds g (s.graph.held stay) with
  | false =>
    refine ⟨mark g (s.graph.held stay), rfl, fun _ ha => ha, hd.first_reachable, ?_⟩
    intro b hb hne
    rw [mark_of_not_finds hf] at hne
    exact absurd (hd.moved b hb).2 hne
  | true =>
    have hin : ∀ c ∈ s.graph.held moved, mark g (s.graph.held stay) c = usizeMax →
        c ∈ moved := by
      intro c hc hcm
      rcases (hd.mem_iff c).mpr (h.held_objects (fun b hb => (hd.mem_iff b).mp (.inr hb)) hc)
        with hs | hm
      · have hne := (hd.stay c hs).2
        exact absurd hcm (by rwa [mark_of_ne hne])
      · exact hm
    have hfuel : moved.countP (fun a => mark g (s.graph.held stay) a = usizeMax) <
        moved.length + 1 := Nat.lt_succ_of_le List.countP_le_length
    have hvalid := h.valid_held fun b hb => (hd.mem_iff b).mp (.inr hb)
    obtain ⟨g', hrun, hk, hr, hc⟩ := findLoop_withGc (s := divided s stay moved) p
      (mark g (s.graph.held stay)) hvalid hin hfuel
    refine ⟨g', hrun, fun a ha => by rwa [hk a ha], ?_, hc⟩
    refine hr _ (fun b hb hP c hc hobj => ?_) hd.first_reachable
    exact (hP ((hd.mem_iff b).mp (.inr hb))).next hc

/-- Marks that are closed under references are on all that is reachable. -/
theorem reachable_marked (hd : Divided s roots g stay moved) (h : s.Owned roots)
    (hk : ∀ a, mark g (s.graph.held stay) a ≠ usizeMax → g' a ≠ usizeMax)
    (hc : ∀ b ∈ moved, g' b ≠ usizeMax → ∀ c ∈ s.graph.refs b, g' c ≠ usizeMax)
    (hreach : s.graph.Reachable roots a) : g' a ≠ usizeMax := by
  have hall : a ∈ s.heap.objects ∧ g' a ≠ usizeMax := by
    apply hreach.closed
    · intro r hr
      have hobj := h.counted.root_mem r hr
      refine ⟨hobj, ?_⟩
      rcases (hd.mem_iff r).mpr hobj with hs | hm
      · apply hk
        rw [mark_of_ne (hd.stay r hs).2]
        exact (hd.stay r hs).2
      · exact absurd hr (hd.moved r hm).1
    · intro b ⟨hb, hne⟩ c hbc
      have hheld : c ∈ s.graph.held s.heap.objects := List.mem_flatMap.mpr ⟨b, hb, hbc⟩
      refine ⟨h.counted.held_mem c hheld, ?_⟩
      rcases (hd.mem_iff b).mpr hb with hs | hm
      · exact hk c (mark_ne (List.mem_flatMap.mpr ⟨b, hs, hbc⟩) g)
      · exact hc b hm hne c hbc
  exact hall.2

/-- Marking from the objects that stay: all that is reachable is found and nothing else. -/
theorem marks (hd : Divided s roots g stay moved) (h : s.Owned roots) (p : Profile) :
    ∃ found s₁ g', findFromRoots p stay false (marked s g stay moved) = .ok found s₁ ∧
      s₁.heap.unreachable = moved ∧
      findLoop p moved (moved.length + 1) found s₁ = .ok ⟨⟩ (marked s g' stay moved) ∧
      Marked s roots g' stay moved := by
  have hvalid := h.valid_held fun b hb => (hd.mem_iff b).mp (.inl hb)
  have hroots := findFromRoots_withGc (s := divided s stay moved) p g false hvalid
  obtain ⟨g', hrun, hk, hr, hc⟩ := hd.findLoop_marks h p
  refine ⟨_, _, g', hroots, rfl, hrun, hd.perm, fun a ha => .root (hd.stay a ha).1, ?_⟩
  intro a ha
  exact ⟨fun hne => hr a hne ((hd.mem_iff a).mp (.inr ha)), hd.reachable_marked h hk hc⟩

end Divided

theorem collect_marked {s : Store} (h : s.Owned roots) (p : Profile) :
    ∃ g stay moved, collect p s = (do
      drain p moved
      modifyHeap fun heap => { heap with allocCount := 0 } : VM Store PUnit)
        (marked s g stay moved) ∧ Marked s roots g stay moved := by
  obtain ⟨s₁, g, hcount, hsub, hg⟩ := count_external h p
  have hx := extractUnreachable_withGc g h.counted.nodup fun a ha => h.valid ha
  have hperm : ((s.heap.objects.filter fun a => g a ≠ 0) ++
      s.heap.objects.filter fun a => g a = 0).Perm s.heap.objects := by
    have hnot : (fun a => decide (g a = 0)) = fun a => !decide (g a ≠ 0) := by
      funext a
      rw [decide_not, Bool.not_not]
    rw [hnot]
    exact List.filter_append_perm ..
  have hstay : ∀ a ∈ s.heap.objects.filter fun a => g a ≠ 0, a ∈ roots ∧
      (if a ∈ s.heap.objects ∧ g a = 0 then usizeMax else g a) ≠ usizeMax := by
    intro a ha
    obtain ⟨hobj, hne⟩ := List.mem_filter.mp ha
    have hne : g a ≠ 0 := of_decide_eq_true hne
    rw [if_neg fun hc => hne hc.2, hg a hobj]
    rw [hg a hobj] at hne
    exact ⟨List.count_pos_iff.mp (Nat.pos_of_ne_zero hne), root_ne_usizeMax h hobj⟩
  have hmoved : ∀ a ∈ s.heap.objects.filter fun a => g a = 0, a ∉ roots ∧
      (if a ∈ s.heap.objects ∧ g a = 0 then usizeMax else g a) = usizeMax := by
    intro a ha
    obtain ⟨hobj, h0⟩ := List.mem_filter.mp ha
    have h0 : g a = 0 := of_decide_eq_true h0
    refine ⟨?_, if_pos ⟨hobj, h0⟩⟩
    rw [hg a hobj] at h0
    exact List.count_eq_zero.mp h0
  have hd : Divided s roots _ _ _ := ⟨hperm, hstay, hmoved⟩
  obtain ⟨found, s₂, g', hroots, hun, hloop, hM⟩ := hd.marks h p
  refine ⟨g', _, _, ?_, hM⟩
  rw [collect, bind_eq _ (readHeap_eq s), bind_eq _ hcount, bind_eq _ hsub, bind_eq _ hx]
  dsimp only
  rw [bind_eq _ (move_marked h.unreachable _ _ _), bind_eq _ hroots, bind_eq _ (readHeap_eq s₂),
    hun, bind_eq _ hloop]

end Heap

end Janadinite
