import Janadinite.Lib.Triple

namespace Janadinite.Coupling
open Hoare
set_option autoImplicit true

/-- How one computation ends in two runs of it: with one value and states in `Q`, or with one error,
or one of the runs ends with an error in `E`, and then nothing is known of the other. -/
inductive Alike (Q : α → σ → σ → Prop) (E : ε → Prop) :
    EStateM.Result ε σ α → EStateM.Result ε σ α → Prop
  | returns (h : Q a s t) : Alike Q E (.ok a s) (.ok a t)
  | stops (e : ε) (s t : σ) : Alike Q E (.error e s) (.error e t)
  | left (he : E e) : Alike Q E (.error e s) r
  | right (he : E e) : Alike Q E r (.error e s)

/-- Runs from states that `P` relates end alike. -/
def Coupled (P : σ → σ → Prop) (m : EStateM ε σ α) (Q : α → σ → σ → Prop) (E : ε → Prop) : Prop :=
  ∀ s t, P s t → Alike Q E (m s) (m t)

section
variable {ε σ α β : Type} {P : σ → σ → Prop} {Q : α → σ → σ → Prop} {R : β → σ → σ → Prop}
  {E : ε → Prop} {m : EStateM ε σ α} {f : α → EStateM ε σ β}

theorem Alike.mono {r r' : EStateM.Result ε σ α} {Q' : α → σ → σ → Prop} (h : Alike Q E r r')
    (hq : ∀ a s t, Q a s t → Q' a s t) : Alike Q' E r r' := by
  cases h with
  | returns h => exact .returns (hq _ _ _ h)
  | stops e s t => exact .stops e s t
  | left he => exact .left he
  | right he => exact .right he

theorem Alike.bind (h : Alike Q E (m s) (m t))
    (hf : ∀ a s' t', Q a s' t' → Alike R E (f a s') (f a t')) :
    Alike R E ((m >>= f) s) ((m >>= f) t) := by
  change Alike R E (match m s with | .ok a s => f a s | .error e s => .error e s)
    (match m t with | .ok a t => f a t | .error e t => .error e t)
  generalize m s = r at h
  generalize m t = r' at h
  cases h with
  | returns h => exact hf _ _ _ h
  | stops e s t => exact .stops e s t
  | left he => exact .left he
  | right he =>
    cases r with
    | ok a s => exact .right he
    | error e s => exact .right he

theorem Coupled.pure (h : ∀ s t, P s t → Q a s t) : Coupled P (Pure.pure a) Q E :=
  fun s t hp => .returns (h s t hp)

theorem Coupled.throw (e : ε) : Coupled P (MonadExcept.throw e) Q E := fun s t _ => .stops e s t

theorem Coupled.bind (hm : Coupled P m Q E) (hf : ∀ a, Coupled (Q a) (f a) R E) :
    Coupled P (m >>= f) R E :=
  fun s t hp => (hm s t hp).bind fun a => hf a

theorem Coupled.mono {P' : σ → σ → Prop} {Q' : α → σ → σ → Prop} (h : Coupled P m Q E)
    (hp : ∀ s t, P' s t → P s t) (hq : ∀ a s t, Q a s t → Q' a s t) : Coupled P' m Q' E :=
  fun s t hs => (h s t (hp s t hs)).mono hq

/-- The state is read, and what follows does not depend on what the two states differ in. -/
theorem Coupled.reads {f : σ → EStateM ε σ β} (hf : ∀ r, Coupled P (f r) R E)
    (hview : ∀ s t, P s t → f s = f t) : Coupled P (get >>= f) R E := by
  intro s t hp
  rw [bind_get, bind_get, hview s t hp]
  exact hf t s t hp

theorem Coupled.modify {Q : PUnit → σ → σ → Prop} {g : σ → σ}
    (h : ∀ s t, P s t → Q ⟨⟩ (g s) (g t)) : Coupled P (modifyGet fun s => (⟨⟩, g s)) Q E :=
  fun s t hp => .returns (h s t hp)

/-- A computation whose two runs may go different ways: each returns `v`, if it returns, and changes
its state within `T`, which the relation of the states does not notice. -/
theorem Coupled.alone {I : σ → Prop} {T : σ → σ → Prop}
    (h : ∀ s, I s → Ends (fun a s' => a = v ∧ T s s') (fun e _ => E e) (m s))
    (hi : ∀ s t, P s t → I s ∧ I t)
    (hq : ∀ s t s' t', P s t → T s s' → T t t' → Q v s' t') : Coupled P m Q E := by
  intro s t hp
  have hs := h s (hi s t hp).1
  have ht := h t (hi s t hp).2
  cases hms : m s with
  | error e s' =>
    rw [hms] at hs
    exact .left hs
  | ok a s' =>
    rw [hms] at hs
    obtain ⟨rfl, hs⟩ := hs
    cases hmt : m t with
    | error e t' =>
      rw [hmt] at ht
      exact .right ht
    | ok b t' =>
      rw [hmt] at ht
      obtain ⟨rfl, ht⟩ := ht
      exact .returns (hq s t s' t' hp hs ht)

theorem Coupled.with {I : σ → Prop} {J : α → σ → Prop} {F : ε → σ → Prop} (h : Coupled P m Q E)
    (hi : Triple I m J F) : Coupled (fun s t => P s t ∧ I s ∧ I t) m
      (fun a s t => Q a s t ∧ J a s ∧ J a t) E := by
  intro s t ⟨hp, hs, ht⟩
  have hms := hi s hs
  have hmt := hi t ht
  have hm := h s t hp
  generalize m s = r at hms hm
  generalize m t = r' at hmt hm
  cases hm with
  | returns h => exact .returns ⟨h, hms, hmt⟩
  | stops e s t => exact .stops e s t
  | left he => exact .left he
  | right he => exact .right he

end

end Janadinite.Coupling
