namespace Janadinite.Runs
set_option autoImplicit true

/-- The states that runs reach whose steps all meet the condition `Ok`. -/
inductive Reaches (Step : σ → ε → σ → Prop) (Ok : σ → ε → Prop) (Start : σ → Prop) : σ → Prop
  | start (h : Start s) : Reaches Step Ok Start s
  | next (h : Reaches Step Ok Start s) (ok : Ok s e) (step : Step s e s') :
      Reaches Step Ok Start s'

/-- What holds at the start and is kept by every step that meets the condition holds throughout. -/
theorem Reaches.invariant {I : σ → Prop} (h : Reaches Step Ok Start s)
    (hstart : ∀ s, Start s → I s)
    (hstep : ∀ s e s', I s → Ok s e → Step s e s' → I s') : I s := by
  induction h with
  | start h => exact hstart _ h
  | next _ ok step ih => exact hstep _ _ _ ih ok step

theorem Reaches.mono {Ok Ok' : σ → ε → Prop} (h : Reaches Step Ok Start s)
    (hok : ∀ s e, Ok s e → Ok' s e) :
    Reaches Step Ok' Start s := by
  induction h with
  | start h => exact .start h
  | next _ ok step ih => exact .next ih (hok _ _ ok) step

end Janadinite.Runs
