import Janadinite.Lib.Runs

namespace Janadinite.Response
open Runs
set_option autoImplicit true

/-- An infinite run whose steps all meet the condition `Ok`. -/
structure Run (Step : σ → ε → σ → Prop) (Ok : σ → ε → Prop) (Start : σ → Prop) where
  state : Nat → σ
  event : Nat → ε
  start : Start (state 0)
  ok : ∀ i, Ok (state i) (event i)
  step : ∀ i, Step (state i) (event i) (state (i + 1))

namespace Run
variable {Step : σ → ε → σ → Prop} {Ok : σ → ε → Prop} {Start : σ → Prop} {Pending : σ → Prop}
  {Helps : σ → ε → Prop}

theorem reaches (r : Run Step Ok Start) (i : Nat) : Reaches Step Ok Start (r.state i) := by
  induction i with
  | zero => exact .start r.start
  | succ i ih => exact .next ih (r.ok i) (r.step i)

/-- As long as something is pending, a step that helps is taken sooner or later. -/
def Fair (Pending : σ → Prop) (Helps : σ → ε → Prop) (r : Run Step Ok Start) : Prop :=
  ∀ i, Pending (r.state i) → ∃ j ≥ i, Pending (r.state j) → Helps (r.state j) (r.event j)

/-- Nothing is pending forever when no step leads further away from its end, and those that help
lead closer to it. -/
theorem settles (r : Run Step Ok Start) (hfair : r.Fair Pending Helps) (rank : σ → Nat)
    (hle : ∀ i, Pending (r.state i) → Pending (r.state (i + 1)) →
      rank (r.state (i + 1)) ≤ rank (r.state i))
    (hlt : ∀ i, Pending (r.state i) → Pending (r.state (i + 1)) →
      Helps (r.state i) (r.event i) → rank (r.state (i + 1)) < rank (r.state i)) (i : Nat) :
    ∃ j ≥ i, ¬ Pending (r.state j) := by
  apply Classical.byContradiction
  intro hnone
  have hpending (j : Nat) (hj : i ≤ j) : Pending (r.state j) :=
    Classical.byContradiction fun hn => hnone ⟨j, hj, hn⟩
  have hmono (j k : Nat) (hj : i ≤ j) (hjk : j ≤ k) : rank (r.state k) ≤ rank (r.state j) := by
    induction hjk with
    | refl => exact Nat.le_refl _
    | step hjk ih =>
      have hk := Nat.le_trans hj hjk
      exact Nat.le_trans (hle _ (hpending _ hk) (hpending _ (Nat.le_succ_of_le hk))) ih
  -- however often a step has helped, another one will
  have hbelow (n : Nat) : ∃ j ≥ i, rank (r.state j) + n ≤ rank (r.state i) := by
    induction n with
    | zero => exact ⟨i, Nat.le_refl i, Nat.le_refl _⟩
    | succ n ih =>
      obtain ⟨j, hj, hn⟩ := ih
      obtain ⟨k, hk, hhelps⟩ := hfair j (hpending j hj)
      have hik := Nat.le_trans hj hk
      have hless := hlt k (hpending k hik) (hpending (k + 1) (Nat.le_succ_of_le hik))
        (hhelps (hpending k hik))
      have hbefore := hmono j k hj hk
      exact ⟨k + 1, Nat.le_succ_of_le hik, by omega⟩
  obtain ⟨j, _, hj⟩ := hbelow (rank (r.state i) + 1)
  omega

end Run

end Janadinite.Response
