namespace Janadinite.Hoare
set_option autoImplicit true

theorem exceptBind_ok {m : Except ε α} {f : α → Except ε β} (h : m >>= f = .ok b) :
    ∃ a, m = .ok a ∧ f a = .ok b := by
  cases m with
  | error e => cases h
  | ok a => exact ⟨a, rfl, h⟩

theorem exceptBind_error {m : Except ε α} {f : α → Except ε β} (h : m >>= f = .error e) :
    m = .error e ∨ ∃ a, m = .ok a ∧ f a = .error e := by
  cases m with
  | error e' =>
    cases h
    exact .inl rfl
  | ok a => exact .inr ⟨a, rfl, h⟩

/-- A traversal that succeeds has done so at each place. -/
theorem mapM_ok {f : α → Except ε β} {xs : List α} {ys : List β} (h : xs.mapM f = .ok ys) :
    xs.length = ys.length ∧ ∀ (k : Nat) x y, xs[k]? = some x → ys[k]? = some y → f x = .ok y := by
  induction xs generalizing ys with
  | nil =>
    cases h
    exact ⟨rfl, fun _ _ _ hx => by cases hx⟩
  | cons x xs ih =>
    rw [List.mapM_cons] at h
    obtain ⟨first, hf, h⟩ := exceptBind_ok h
    obtain ⟨others, ho, h⟩ := exceptBind_ok h
    cases h
    obtain ⟨hlen, hat⟩ := ih ho
    refine ⟨congrArg Nat.succ hlen, ?_⟩
    intro k x' y hx hy
    cases k with
    | zero =>
      cases hx
      cases hy
      exact hf
    | succ k => exact hat k x' y hx hy

theorem mapM_error {f : α → Except ε β} {xs : List α} (h : xs.mapM f = .error e) :
    ∃ x ∈ xs, f x = .error e := by
  induction xs with
  | nil => cases h
  | cons x xs ih =>
    rw [List.mapM_cons] at h
    rcases exceptBind_error h with hx | ⟨_, _, h⟩
    · exact ⟨x, List.mem_cons_self, hx⟩
    · rcases exceptBind_error h with hxs | ⟨_, _, h⟩
      · obtain ⟨y, hy, he⟩ := ih hxs
        exact ⟨y, List.mem_cons_of_mem x hy, he⟩
      · cases h

theorem bind_ok {m : EStateM ε σ α} {f : α → EStateM ε σ β} (h : (m >>= f) s = .ok b s'') :
    ∃ a s', m s = .ok a s' ∧ f a s' = .ok b s'' := by
  change (match m s with | .ok a s' => f a s' | .error e s' => .error e s') = _ at h
  cases hm : m s with
  | error e s' =>
    rw [hm] at h
    cases h
  | ok a s' =>
    rw [hm] at h
    exact ⟨a, s', rfl, h⟩

theorem bind_eq {m : EStateM ε σ α} (f : α → EStateM ε σ β) (h : m s = .ok a s') :
    (m >>= f) s = f a s' := by
  change (match m s with | .ok a s' => f a s' | .error e s' => .error e s') = _
  rw [h]

/-- A call goes on in the same way after beginnings with the same result. -/
theorem bind_from {m m' : EStateM ε σ α} (f : α → EStateM ε σ β) (h : m s = m' s') :
    (m >>= f) s = (m' >>= f) s' := by
  change (match m s with | .ok a s => f a s | .error e s => .error e s) =
    (match m' s' with | .ok a s => f a s | .error e s => .error e s)
  rw [h]

/-- Two calls that begin in the same way end in the same way when they go on alike. -/
theorem bind_alike {m : EStateM ε σ α} {f g : α → EStateM ε σ β}
    (h : ∀ a s', m s = .ok a s' → f a s' = g a s') : (m >>= f) s = (m >>= g) s := by
  change (match m s with | .ok a s' => f a s' | .error e s' => .error e s') =
    (match m s with | .ok a s' => g a s' | .error e s' => .error e s')
  cases hm : m s with
  | ok a s' => exact h a s' hm
  | error e s' => rfl

theorem bind_get (f : σ → EStateM ε σ β) (s : σ) : (get >>= f) s = f s s := rfl

theorem bind_error {m : EStateM ε σ α} (f : α → EStateM ε σ β) (h : m s = .error e s') :
    (m >>= f) s = .error e s' := by
  change (match m s with | .ok a s' => f a s' | .error e s' => .error e s') = _
  rw [h]

/-- The result satisfies `Q` when it is a value and `E` when it is an error. -/
def Ends (Q : α → σ → Prop) (E : ε → σ → Prop) : EStateM.Result ε σ α → Prop
  | .ok a s => Q a s
  | .error e s => E e s

instance {Q : α → σ → Prop} {E : ε → σ → Prop} [∀ a s, Decidable (Q a s)]
    [∀ e s, Decidable (E e s)] : (r : EStateM.Result ε σ α) → Decidable (Ends Q E r)
  | .ok a s => inferInstanceAs (Decidable (Q a s))
  | .error e s => inferInstanceAs (Decidable (E e s))

theorem Ends.returns (h : Ends Q (fun _ _ => False) r) : ∃ a s, r = .ok a s ∧ Q a s := by
  cases r with
  | ok a s => exact ⟨a, s, rfl, h⟩
  | error e s => exact h.elim

/-- From a state with `P` a call that returns ends with `Q`, and one that does not ends with `E`. -/
def Triple (P : σ → Prop) (m : EStateM ε σ α) (Q : α → σ → Prop) (E : ε → σ → Prop) : Prop :=
  ∀ s, P s → Ends Q E (m s)

theorem Ends.mono {Q Q' : α → σ → Prop} {E E' : ε → σ → Prop} (h : Ends Q E r)
    (hq : ∀ a s, Q a s → Q' a s) (he : ∀ e s, E e s → E' e s) : Ends Q' E' r := by
  cases r with
  | ok a s => exact hq a s h
  | error e s => exact he e s h

/-- The rest of a call that begins with `m`, for which it is known what `m` does. -/
theorem Ends.bind {m : EStateM ε σ α} {f : α → EStateM ε σ β} (h : Ends Q E (m s))
    (hf : ∀ a s', m s = .ok a s' → Q a s' → Ends R E (f a s')) : Ends R E ((m >>= f) s) := by
  change Ends R E (match m s with | .ok a s' => f a s' | .error e s' => .error e s')
  cases hm : m s with
  | error e s' =>
    rw [hm] at h
    exact h
  | ok a s' =>
    rw [hm] at h
    exact hf a s' hm h

theorem Triple.ok (h : Triple P m Q E) (hp : P s) (hm : m s = .ok a s') : Q a s' := by
  have hq := h s hp
  rwa [hm] at hq

theorem Triple.pure {P : σ → Prop} {E : ε → σ → Prop} (h : ∀ s, P s → Q a s) :
    Triple P (Pure.pure a) Q E :=
  h

theorem Triple.bind {m : EStateM ε σ α} {f : α → EStateM ε σ β} (hm : Triple P m Q E)
    (hf : ∀ a, Triple (Q a) (f a) R E) : Triple P (m >>= f) R E := by
  intro s hp
  have hq := hm s hp
  change Ends R E (match m s with | .ok a s' => f a s' | .error e s' => .error e s')
  cases h : m s with
  | error e s' =>
    rw [h] at hq
    exact hq
  | ok a s' =>
    rw [h] at hq
    exact hf a s' hq

theorem Triple.mono (h : Triple P m Q E) (hp : ∀ s, P' s → P s) (hq : ∀ a s, Q a s → Q' a s)
    (he : ∀ e s, E e s → E' e s) : Triple P' m Q' E' :=
  fun s hs => (h s (hp s hs)).mono hq he

/-- What is known of a call from two points of view holds together. -/
theorem Triple.and (h : Triple P m Q E) (h' : Triple P' m Q' E') :
    Triple (fun s => P s ∧ P' s) m (fun a s => Q a s ∧ Q' a s) (fun e s => E e s ∧ E' e s) := by
  intro s ⟨hp, hp'⟩
  have hq := h s hp
  have hq' := h' s hp'
  cases hm : m s with
  | ok a s' =>
    rw [hm] at hq hq'
    exact ⟨hq, hq'⟩
  | error e s' =>
    rw [hm] at hq hq'
    exact ⟨hq, hq'⟩

theorem Triple.throw {P : σ → Prop} {Q : α → σ → Prop} {E : ε → σ → Prop}
    (h : ∀ s, P s → E e s) : Triple P (MonadExcept.throw e) Q E :=
  h

theorem Triple.get {P : σ → Prop} {Q : σ → σ → Prop} {E : ε → σ → Prop} (h : ∀ s, P s → Q s s) :
    Triple P MonadState.get Q E :=
  h

theorem Triple.modify {P : σ → Prop} {Q : PUnit → σ → Prop} {E : ε → σ → Prop} {f : σ → σ}
    (h : ∀ s, P s → Q ⟨⟩ (f s)) : Triple P (modifyGet fun s => (⟨⟩, f s)) Q E :=
  h

/-- However a call ends, `R` relates the state it began in to the one it leaves. -/
def Within (R : σ → σ → Prop) (m : EStateM ε σ α) : Prop :=
  ∀ s, Ends (fun _ => R s) (fun _ => R s) (m s)

namespace Within
variable {R : σ → σ → Prop} {m : EStateM ε σ α} {f : α → EStateM ε σ β}

theorem pure (hR : ∀ s, R s s) (a : α) : Within R (Pure.pure a : EStateM ε σ α) := hR

theorem bind (hR : ∀ s s' s'', R s s' → R s' s'' → R s s'') (hm : Within R m)
    (hf : ∀ a, Within R (f a)) : Within R (m >>= f) := by
  intro s
  apply (hm s).bind
  intro a s' _ h
  apply (hf a s').mono
  · exact fun _ s'' h' => hR s s' s'' h h'
  · exact fun _ s'' h' => hR s s' s'' h h'

end Within

end Janadinite.Hoare
