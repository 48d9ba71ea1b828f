import Mathlib.Data.List.Basic
import Mathlib.Logic.Relation
import Janadinite.Lib.Chain

namespace Janadinite.RefCount
set_option autoImplicit true

/-- What each node refers to, and the count kept for each node. -/
structure Graph (α : Type) where
  refs : α → List α
  count : α → Nat

namespace Graph

def held (g : Graph α) (nodes : List α) : List α := nodes.flatMap g.refs

theorem held_congr {g g' : Graph α} (h : ∀ a ∈ nodes, g'.refs a = g.refs a) :
    g'.held nodes = g.held nodes :=
  List.flatMap_congr h

theorem held_erase [DecidableEq α] (g : Graph α) (ha : a ∈ nodes) :
    (g.held nodes).Perm (g.refs a ++ g.held (nodes.erase a)) :=
  (List.perm_cons_erase ha).flatMap_right g.refs

/-- What can be reached from the roots. -/
def Reachable (g : Graph α) (roots : List α) (a : α) : Prop :=
  ∃ r ∈ roots, Relation.ReflTransGen (fun b c => c ∈ g.refs b) r a

theorem Reachable.root {g : Graph α} (h : a ∈ roots) : g.Reachable roots a := ⟨a, h, .refl⟩

theorem Reachable.next {g : Graph α} (h : g.Reachable roots a) (hb : b ∈ g.refs a) :
    g.Reachable roots b := by
  obtain ⟨r, hr, h⟩ := h
  exact ⟨r, hr, h.tail hb⟩

/-- What is reached is a root, or something that is reached refers to it. -/
theorem Reachable.cases {g : Graph α} (h : g.Reachable roots a) :
    a ∈ roots ∨ ∃ b, g.Reachable roots b ∧ a ∈ g.refs b := by
  obtain ⟨r, hr, h⟩ := h
  cases h with
  | refl => exact .inl hr
  | tail hb ha => exact .inr ⟨_, ⟨r, hr, hb⟩, ha⟩

/-- What holds of the roots and goes over to what is referred to holds of all that is reached. -/
theorem Reachable.closed {g : Graph α} {P : α → Prop} (h : g.Reachable roots a)
    (hroots : ∀ r ∈ roots, P r) (hnext : ∀ b, P b → ∀ c ∈ g.refs b, P c) : P a := by
  obtain ⟨r, hr, h⟩ := h
  induction h with
  | refl => exact hroots r hr
  | tail _ hc ih => exact hnext _ ih _ hc

/-- The references of the node lead back to it. -/
def Cyclic (g : Graph α) (a : α) : Prop := g.Reachable (g.refs a) a

/-- Among finitely many nodes, each a root or referred to by one of them, each is reached from a
root or from a cycle. -/
theorem reachable_or_cycle {g : Graph α} {nodes roots : List α}
    (h : ∀ a ∈ nodes, a ∈ roots ∨ ∃ b ∈ nodes, a ∈ g.refs b) (ha : a ∈ nodes) :
    g.Reachable roots a ∨ ∃ c, g.Cyclic c ∧ g.Reachable [c] a := by
  classical
  -- the chain goes from each node to one that refers to it
  let f (a : α) : Option α :=
    if hb : a ∈ nodes ∧ ∃ b ∈ nodes, a ∈ g.refs b then some hb.2.choose else none
  have hf : ∀ a b, f a = some b → a ∈ nodes ∧ b ∈ nodes ∧ a ∈ g.refs b := by
    intro a b hab
    by_cases hb : a ∈ nodes ∧ ∃ b ∈ nodes, a ∈ g.refs b
    · simp only [f, dif_pos hb, Option.some_inj] at hab
      exact ⟨hb.1, hab ▸ hb.2.choose_spec⟩
    · simp only [f, dif_neg hb] at hab
      cases hab
  have hroot : ∀ a ∈ nodes, f a = none → a ∈ roots := by
    intro a ha hn
    rcases h a ha with hr | hb
    · exact hr
    · simp only [f, dif_pos (And.intro ha hb)] at hn
      cases hn
  by_cases hends : Chain.Ends f a
  · obtain ⟨n, hn⟩ := hends
    left
    induction n generalizing a with
    | zero => cases hn
    | succ n ih =>
      rw [Chain.chain_succ] at hn
      cases hfa : f a with
      | none => exact .root (hroot a ha hfa)
      | some b =>
        obtain ⟨_, hb, href⟩ := hf a b hfa
        rw [hfa] at hn
        exact (ih hb hn).next href
  · have hrep := Chain.repeats_of_not_ends ⟨nodes, fun a b hab => (hf a b hab).1⟩ hends
    obtain ⟨c, hc, hca⟩ := hrep.cycle (R := fun b c => c ∈ g.refs b) fun a b hab => (hf a b hab).2.2
    obtain ⟨b, hb, hbc⟩ := Relation.TransGen.head'_iff.mp hc
    exact .inr ⟨c, ⟨b, hb, hbc⟩, c, List.mem_singleton_self c, hca⟩

end Graph

section
variable {α : Type} [DecidableEq α]

/-- Every node's count is the number of references to it, from the roots and from the nodes, and
those its owner has; and no reference leads out of the nodes. -/
structure Counted (g : Graph α) (owner : α → Nat) (nodes roots : List α) : Prop where
  nodup : nodes.Nodup
  count : ∀ a ∈ nodes, g.count a = owner a + (roots.count a + (g.held nodes).count a)
  root_mem : ∀ a ∈ roots, a ∈ nodes
  held_mem : ∀ a ∈ g.held nodes, a ∈ nodes

variable {g g' : Graph α} {owner owner' : α → Nat} {nodes nodes' roots roots' : List α} {a : α}

/-- Roots, owners and counts change together, and what the nodes hold does not. -/
theorem Counted.recount (h : Counted g owner nodes roots)
    (hr : ∀ b ∈ nodes, g'.refs b = g.refs b)
    (hc : ∀ b ∈ nodes,
      g'.count b + (owner b + roots.count b) = g.count b + (owner' b + roots'.count b))
    (hs : ∀ b ∈ roots', b ∈ nodes) : Counted g' owner' nodes roots' where
  nodup := h.nodup
  count b hb := by
    have h₁ := h.count b hb
    have h₂ := hc b hb
    rw [Graph.held_congr hr]
    omega
  root_mem := hs
  held_mem b hb := by
    rw [Graph.held_congr hr] at hb
    exact h.held_mem b hb

theorem Counted.perm (h : Counted g owner nodes roots) (hp : roots'.Perm roots) :
    Counted g owner nodes roots' := by
  refine h.recount (fun _ _ => rfl) ?_ fun b hb => h.root_mem b (hp.mem_iff.mp hb)
  intro b _
  rw [hp.count_eq]

theorem Counted.addRoot (h : Counted g owner nodes roots) (ha : a ∈ nodes)
    (hr : ∀ b ∈ nodes, g'.refs b = g.refs b) (hca : g'.count a = g.count a + 1)
    (hc : ∀ b ∈ nodes, b ≠ a → g'.count b = g.count b) :
    Counted g' owner nodes (a :: roots) := by
  apply h.recount hr
  · intro b hb
    by_cases hba : b = a
    · subst hba
      rw [hca, List.count_cons_self]
      omega
    · rw [hc b hb hba, List.count_cons_of_ne (Ne.symm hba)]
  · intro b hb
    rcases List.mem_cons.mp hb with rfl | hb
    · exact ha
    · exact h.root_mem b hb

theorem Counted.dropRoot (h : Counted g owner nodes (a :: roots))
    (hr : ∀ b ∈ nodes, g'.refs b = g.refs b) (hca : g'.count a + 1 = g.count a)
    (hc : ∀ b ∈ nodes, b ≠ a → g'.count b = g.count b) :
    Counted g' owner nodes roots := by
  refine h.recount hr ?_ fun b hb => h.root_mem b (List.mem_cons_of_mem a hb)
  intro b hb
  by_cases hba : b = a
  · subst hba
    rw [List.count_cons_self]
    omega
  · rw [hc b hb hba, List.count_cons_of_ne (Ne.symm hba)]

theorem Counted.disown (h : Counted g owner nodes roots)
    (hr : ∀ b ∈ nodes, g'.refs b = g.refs b) (hca : g'.count a + 1 = g.count a)
    (hoa : owner' a + 1 = owner a)
    (hc : ∀ b ∈ nodes, b ≠ a → g'.count b = g.count b ∧ owner' b = owner b) :
    Counted g' owner' nodes roots := by
  refine h.recount hr ?_ h.root_mem
  intro b hb
  by_cases hba : b = a
  · subst hba
    omega
  · obtain ⟨h₁, h₂⟩ := hc b hb hba
    rw [h₁, h₂]

/-- A node that nothing refers to goes, and what it refers to is held by the roots. -/
theorem Counted.erase (h : Counted g owner nodes roots) (ha : a ∈ nodes)
    (hz : g.count a = owner a)
    (hg : ∀ b ∈ nodes, b ≠ a → g'.refs b = g.refs b ∧ g'.count b = g.count b) :
    Counted g' owner (nodes.erase a) (g.refs a ++ roots) := by
  have hp := g.held_erase ha
  have hmem : ∀ b, b ∈ nodes.erase a → b ≠ a ∧ b ∈ nodes := fun b hb =>
    (h.nodup.mem_erase_iff).mp hb
  have hheld : g'.held (nodes.erase a) = g.held (nodes.erase a) :=
    Graph.held_congr fun b hb => (hg b (hmem b hb).2 (hmem b hb).1).1
  have hcount : ∀ b, (g.held nodes).count b =
      (g.refs a).count b + (g.held (nodes.erase a)).count b := by
    intro b
    rw [hp.count_eq, List.count_append]
  have hno := h.count a ha
  rw [hz, hcount] at hno
  have keep : ∀ b, b ∈ nodes → 0 < roots.count b + (g.held nodes).count b →
      b ∈ nodes.erase a := by
    intro b hb hpos
    refine (h.nodup.mem_erase_iff).mpr ⟨?_, hb⟩
    rintro rfl
    rw [hcount] at hpos
    omega
  refine ⟨h.nodup.erase a, ?_, ?_, ?_⟩
  · intro b hb
    obtain ⟨hba, hb⟩ := hmem b hb
    rw [hheld, (hg b hb hba).2, h.count b hb, hcount, List.count_append]
    omega
  · intro b hb
    rcases List.mem_append.mp hb with hb | hb
    · have hb' : b ∈ g.held nodes := hp.mem_iff.mpr (List.mem_append_left _ hb)
      have := List.count_pos_iff.mpr hb'
      exact keep b (h.held_mem b hb') (by omega)
    · have := List.count_pos_iff.mpr hb
      exact keep b (h.root_mem b hb) (by omega)
  · intro b hb
    rw [hheld] at hb
    have hb' : b ∈ g.held nodes := hp.mem_iff.mpr (List.mem_append_right _ hb)
    have := List.count_pos_iff.mpr hb'
    exact keep b (h.held_mem b hb') (by omega)

/-- The last reference to a node that its owner has given up too is dropped. -/
theorem Counted.free (h : Counted g owner nodes (a :: roots)) (hlast : g.count a = owner a + 1)
    (hg : ∀ b ∈ nodes, b ≠ a → g'.refs b = g.refs b ∧ g'.count b = g.count b) :
    Counted g' owner (nodes.erase a) (g.refs a ++ roots) := by
  have ha : a ∈ nodes := h.root_mem a List.mem_cons_self
  have hd : Counted ⟨g.refs, fun b => if b = a then owner a else g.count b⟩ owner nodes roots := by
    refine h.dropRoot (fun _ _ => rfl) ?_ fun b _ hba => if_neg hba
    rw [hlast]
    exact congrArg (· + 1) (if_pos rfl)
  apply hd.erase ha (if_pos rfl)
  intro b hb hba
  refine ⟨(hg b hb hba).1, (hg b hb hba).2.trans ?_⟩
  exact (if_neg hba).symm

theorem Counted.insert (h : Counted g owner nodes (g'.refs a ++ roots)) (ha : a ∉ nodes)
    (hca : g'.count a = owner a)
    (hg : ∀ b ∈ nodes, g'.refs b = g.refs b ∧ g'.count b = g.count b) :
    Counted g' owner (nodes ++ [a]) roots := by
  have hheld : g'.held (nodes ++ [a]) = g.held nodes ++ g'.refs a := by
    rw [Graph.held, List.flatMap_append, List.flatMap_singleton]
    exact congrArg (· ++ _) (Graph.held_congr fun b hb => (hg b hb).1)
  have out : ∀ b, b ∉ nodes →
      roots.count b = 0 ∧ (g'.refs a).count b = 0 ∧ (g.held nodes).count b = 0 := by
    intro b hb
    refine ⟨List.count_eq_zero.mpr fun hm => hb ?_, List.count_eq_zero.mpr fun hm => hb ?_,
      List.count_eq_zero.mpr fun hm => hb (h.held_mem b hm)⟩
    · exact h.root_mem b (List.mem_append_right _ hm)
    · exact h.root_mem b (List.mem_append_left _ hm)
  refine ⟨?_, ?_, ?_, ?_⟩
  · refine List.nodup_append.mpr ⟨h.nodup, List.pairwise_singleton _ a, ?_⟩
    intro b hb c hc hbc
    rw [List.mem_singleton.mp hc] at hbc
    exact ha (hbc ▸ hb)
  · intro b hb
    rw [hheld, List.count_append]
    rcases List.mem_append.mp hb with hb | hb
    · have h₁ := h.count b hb
      rw [List.count_append] at h₁
      rw [(hg b hb).2]
      omega
    · rw [List.mem_singleton.mp hb]
      obtain ⟨h₁, h₂, h₃⟩ := out a ha
      omega
  · intro b hb
    exact List.mem_append_left _ (h.root_mem b (List.mem_append_right _ hb))
  · intro b hb
    rw [hheld] at hb
    rcases List.mem_append.mp hb with hb | hb
    · exact List.mem_append_left _ (h.held_mem b hb)
    · exact List.mem_append_left _ (h.root_mem b (List.mem_append_left _ hb))

theorem Counted.exchange (h : Counted g owner nodes roots) (ha : a ∈ nodes)
    (hp : (roots' ++ g'.refs a).Perm (roots ++ g.refs a))
    (hc : ∀ b ∈ nodes, g'.count b = g.count b)
    (hr : ∀ b ∈ nodes, b ≠ a → g'.refs b = g.refs b) :
    Counted g' owner nodes roots' := by
  have h₁ := g.held_erase ha
  have h₂ := g'.held_erase ha
  have hrest : g'.held (nodes.erase a) = g.held (nodes.erase a) := by
    apply Graph.held_congr
    intro b hb
    obtain ⟨hba, hb⟩ := (h.nodup.mem_erase_iff).mp hb
    exact hr b hb hba
  have hall : (roots' ++ g'.held nodes).Perm (roots ++ g.held nodes) := by
    refine (h₂.append_left roots').trans (List.Perm.trans ?_ (h₁.append_left roots).symm)
    rw [hrest, ← List.append_assoc, ← List.append_assoc]
    exact hp.append_right _
  have mem : ∀ b ∈ roots ++ g.held nodes, b ∈ nodes := fun b hb =>
    (List.mem_append.mp hb).elim (h.root_mem b) (h.held_mem b)
  refine ⟨h.nodup, ?_, ?_, ?_⟩
  · intro b hb
    have hcount := hall.count_eq b
    rw [List.count_append, List.count_append] at hcount
    rw [hc b hb, h.count b hb, hcount]
  · exact fun b hb => mem b (hall.mem_iff.mp (List.mem_append_left _ hb))
  · exact fun b hb => mem b (hall.mem_iff.mp (List.mem_append_right _ hb))

theorem Counted.perm_nodes (h : Counted g owner nodes roots) (hp : nodes'.Perm nodes) :
    Counted g owner nodes' roots := by
  have hheld : (g.held nodes').Perm (g.held nodes) := hp.flatMap_right g.refs
  refine ⟨hp.nodup_iff.mpr h.nodup, ?_, ?_, ?_⟩
  · intro b hb
    rw [h.count b (hp.mem_iff.mp hb), hheld.count_eq]
  · exact fun b hb => hp.mem_iff.mpr (h.root_mem b hb)
  · exact fun b hb => hp.mem_iff.mpr (h.held_mem b (hheld.mem_iff.mp hb))

end

end Janadinite.RefCount
