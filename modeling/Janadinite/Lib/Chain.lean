import Mathlib.Data.List.Perm.Subperm
import Mathlib.Data.List.Nodup
import Mathlib.Logic.Relation
import Mathlib.Tactic.Choose

namespace Janadinite.Chain
set_option autoImplicit true

/-- What the function leads to in so many steps. -/
def chain (f : α → Option α) (x : α) : Nat → Option α
  | 0 => some x
  | n + 1 => (chain f x n).bind f

def Ends (f : α → Option α) (x : α) : Prop := ∃ n, chain f x n = none

def Repeats (f : α → Option α) (x : α) : Prop :=
  ∃ k n y, k < n ∧ chain f x k = some y ∧ chain f x n = some y

section
variable {f : α → Option α} {x y : α} {k n : Nat}

theorem chain_add (h : chain f x k = some y) (n : Nat) : chain f x (k + n) = chain f y n := by
  induction n with
  | zero => exact h
  | succ n ih => exact congrArg (·.bind f) ih

theorem chain_succ (f : α → Option α) (x : α) (n : Nat) :
    chain f x (n + 1) = (f x).bind fun y => chain f y n := by
  cases hf : f x with
  | none =>
    induction n with
    | zero => exact hf
    | succ n ih => exact congrArg (·.bind f) ih
  | some y =>
    have hone : chain f x 1 = some y := hf
    rw [Nat.add_comm]
    exact chain_add hone n

theorem chain_none (h : chain f x k = none) (hkn : k ≤ n) : chain f x n = none := by
  induction hkn with
  | refl => exact h
  | step _ ih => exact congrArg (·.bind f) ih

theorem Repeats.not_ends (h : Repeats f x) : ¬ Ends f x := by
  obtain ⟨k, n, y, hkn, hk, hn⟩ := h
  rintro ⟨m, hm⟩
  -- the part of the chain that repeats can be cut out, so a shorter chain would end too
  induction m using Nat.strongRecOn with
  | ind m ih =>
    have hnm : n < m := by
      apply Nat.lt_of_not_le
      intro hmn
      cases hn.symm.trans (chain_none hm hmn)
    have hrest : chain f y (m - n) = none := by
      rw [← chain_add hn, Nat.add_sub_cancel' (Nat.le_of_lt hnm)]
      exact hm
    apply ih (k + (m - n)) (by omega)
    rw [chain_add hk]
    exact hrest

/-- Only so many elements lead on, so a chain that does not end comes back. -/
theorem repeats_of_not_ends (hfin : ∃ l : List α, ∀ a b, f a = some b → a ∈ l)
    (h : ¬ Ends f x) : Repeats f x := by
  obtain ⟨l, hl⟩ := hfin
  have hsome : ∀ n, ∃ y, chain f x n = some y := fun n =>
    Option.ne_none_iff_exists'.mp fun hn => h ⟨n, hn⟩
  choose g hg using hsome
  have hmem : ∀ n, g n ∈ l := by
    intro n
    apply hl (g n) (g (n + 1))
    have hnext := hg (n + 1)
    rw [chain, hg n] at hnext
    exact hnext
  by_contra hrep
  have hinj : Function.Injective g := by
    intro i j hij
    rcases Nat.lt_trichotomy i j with hlt | heq | hlt
    · exact absurd ⟨i, j, g i, hlt, hg i, hij ▸ hg j⟩ hrep
    · exact heq
    · exact absurd ⟨j, i, g j, hlt, hg j, hij ▸ hg i⟩ hrep
  have hnodup : ((List.range (l.length + 1)).map g).Nodup := List.nodup_range.map hinj
  have hsub : (List.range (l.length + 1)).map g ⊆ l := by
    intro y hy
    obtain ⟨n, -, rfl⟩ := List.mem_map.mp hy
    exact hmem n
  have hlen := (List.subperm_of_subset hnodup hsub).length_le
  rw [List.length_map, List.length_range] at hlen
  exact Nat.not_succ_le_self _ hlen

/-- A relation that the function follows backwards leads from what is further along to the start. -/
theorem chain_before {R : α → α → Prop} (hf : ∀ a b, f a = some b → R b a)
    (h : chain f x (n + 1) = some y) : Relation.TransGen R y x := by
  induction n generalizing y with
  | zero => exact .single (hf x y h)
  | succ n ih =>
    obtain ⟨w, hw, hy⟩ := Option.bind_eq_some_iff.mp h
    exact .head (hf w y hy) (ih hw)

theorem Repeats.cycle {R : α → α → Prop} (hf : ∀ a b, f a = some b → R b a) (h : Repeats f x) :
    ∃ y, Relation.TransGen R y y ∧ Relation.ReflTransGen R y x := by
  obtain ⟨k, n, y, hkn, hk, hn⟩ := h
  refine ⟨y, ?_, ?_⟩
  · obtain ⟨d, rfl⟩ := Nat.exists_eq_add_of_lt hkn
    rw [Nat.add_assoc, chain_add hk] at hn
    exact chain_before hf hn
  · cases k with
    | zero =>
      cases hk
      exact .refl
    | succ k => exact (chain_before hf hk).to_reflTransGen

theorem ends_iff (hfin : ∃ l : List α, ∀ a b, f a = some b → a ∈ l) :
    Ends f x ↔ ¬ Repeats f x := by
  constructor
  · exact fun h hrep => hrep.not_ends h
  · intro h
    by_contra hends
    exact h (repeats_of_not_ends hfin hends)

end

end Janadinite.Chain
