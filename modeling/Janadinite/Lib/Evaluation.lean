namespace Janadinite.Evaluation
set_option autoImplicit true

/-- What an evaluation gives, if it has enough fuel. -/
abbrev Eval (ε α : Type) := ExceptT ε Option α

def outOfFuel : Eval ε α := ExceptT.mk none

theorem bind_value {x : Eval ε α} {f : α → Eval ε β} (h : x >>= f = pure b) :
    ∃ a, x = pure a ∧ f a = pure b := by
  cases x with
  | none => cases h
  | some result =>
    cases result with
    | error e => cases h
    | ok a => exact ⟨a, rfl, h⟩

/-- A step may stop the machine, and it stays in a state in which it is done. -/
structure Automaton (ε σ : Type) where
  next : σ → Except ε σ
  Final : σ → Prop
  stays : ∀ s, Final s → next s = .ok s

namespace Automaton
variable {ε σ α β : Type} {M : Automaton ε σ}

def after (M : Automaton ε σ) (s : σ) : Nat → Except ε σ
  | 0 => .ok s
  | n + 1 => M.after s n >>= M.next

theorem after_succ (s : σ) (n : Nat) : M.after s (n + 1) = M.next s >>= fun t => M.after t n := by
  induction n with
  | zero => cases h : M.next s <;> exact h
  | succ n ih =>
    rw [after, ih]
    cases M.next s <;> rfl

/-- The machine has stopped or is done. -/
def Settled (M : Automaton ε σ) (r : Except ε σ) : Prop := ∀ s, r = .ok s → M.Final s

theorem after_settled (h : M.Settled (M.after s n)) (k : Nat) :
    M.after s (n + k) = M.after s n := by
  induction k with
  | zero => rfl
  | succ k ih =>
    rw [← Nat.add_assoc, after, ih]
    cases hr : M.after s n with
    | error e => rfl
    | ok t => exact M.stays t (h t hr)

theorem after_unique (h : M.Settled (M.after s m)) (h' : M.Settled (M.after s n)) :
    M.after s m = M.after s n := by
  rw [← after_settled h n, Nat.add_comm, after_settled h' m]

/-- So many steps, from states in which the machine is not done. -/
inductive Leads (M : Automaton ε σ) : Nat → Except ε σ → Except ε σ → Prop
  | here : Leads M 0 r r
  | step (hs : ¬ M.Final s) (h : Leads M n (M.next s) r) : Leads M (n + 1) (.ok s) r

theorem Leads.after (h : M.Leads n (.ok s) r) : M.after s n = r := by
  induction n generalizing s with
  | zero =>
    cases h
    rfl
  | succ n ih =>
    cases h with
    | step _ h =>
      rw [after_succ]
      cases hn : M.next s with
      | ok t =>
        rw [hn] at h
        exact ih h
      | error e =>
        rw [hn] at h
        cases h
        rfl

theorem Leads.trans (h : M.Leads m r r') (h' : M.Leads n r' r'') : M.Leads (m + n) r r'' := by
  induction h with
  | here => rwa [Nat.zero_add]
  | @step s m r hs _ ih =>
    rw [Nat.succ_add]
    exact .step hs (ih h')

theorem Leads.sooner (h : M.Leads (m + n) r (.ok t)) (ht : ¬ M.Final t) :
    ∃ s, M.Leads m r (.ok s) ∧ ¬ M.Final s := by
  induction m generalizing r with
  | zero =>
    rw [Nat.zero_add] at h
    cases h with
    | here => exact ⟨t, .here, ht⟩
    | @step s _ _ hs _ => exact ⟨s, .here, hs⟩
  | succ m ih =>
    rw [Nat.succ_add] at h
    cases h with
    | step hs h =>
      obtain ⟨t, ht, hfinal⟩ := ih h
      exact ⟨t, .step hs ht, hfinal⟩

/-- What follows `r` agrees with an evaluation: the machine gets to where `k` goes on with its
value, or stops with its error as `raise` passes it on. When there was too little fuel it makes at
least so many steps. -/
def Follows (M : Automaton ε σ) (fuel : Nat) (r : Except ε σ) (k : α → Except ε σ) (raise : ε → ε)
    (x : Eval ε α) : Prop :=
  match x.run with
  | some (.ok a) => ∃ n, M.Leads n r (k a)
  | some (.error e) => ∃ n, M.Leads n r (.error (raise e))
  | none => ∃ s, M.Leads fuel r (.ok s) ∧ ¬ M.Final s

section
variable {k : α → Except ε σ} {raise : ε → ε}

theorem Follows.value (a : α) : M.Follows fuel (k a) k raise (pure a : Eval ε α) := ⟨0, .here⟩

theorem Follows.raised (e : ε) :
    M.Follows fuel (.error (raise e)) k raise (throw e : Eval ε α) := ⟨0, .here⟩

theorem Follows.exhausted (hs : ¬ M.Final s) :
    M.Follows 0 (.ok s) k raise (outOfFuel : Eval ε α) := ⟨s, .here, hs⟩

theorem Follows.step {x : Eval ε α} (hs : ¬ M.Final s) (h : M.Follows fuel (M.next s) k raise x) :
    M.Follows (fuel + 1) (.ok s) k raise x := by
  cases x with
  | none =>
    obtain ⟨t, ht, hfinal⟩ := h
    exact ⟨t, .step hs ht, hfinal⟩
  | some result =>
    cases result with
    | ok a =>
      obtain ⟨n, h⟩ := h
      exact ⟨n + 1, .step hs h⟩
    | error e =>
      obtain ⟨n, h⟩ := h
      exact ⟨n + 1, .step hs h⟩

theorem Follows.less {x : Eval ε α} (h : M.Follows (fuel + n) r k raise x) :
    M.Follows fuel r k raise x := by
  cases x with
  | none =>
    obtain ⟨t, ht, hfinal⟩ := h
    exact ht.sooner hfinal
  | some result => cases result <;> exact h

theorem Follows.bind {x : Eval ε α} {f : α → Eval ε β} {k' : β → Except ε σ}
    (h : M.Follows fuel r k raise x) (hf : ∀ a, M.Follows fuel (k a) k' raise (f a)) :
    M.Follows fuel r k' raise (x >>= f) := by
  cases x with
  | none => exact h
  | some result =>
    cases result with
    | error e => exact h
    | ok a =>
      obtain ⟨n, h⟩ := h
      have hrest := hf a
      change M.Follows fuel r k' raise (f a)
      cases hx : f a with
      | none =>
        rw [hx] at hrest
        obtain ⟨t, ht, hfinal⟩ := hrest
        have hall := h.trans ht
        rw [Nat.add_comm] at hall
        exact hall.sooner hfinal
      | some result =>
        rw [hx] at hrest
        cases result with
        | ok b =>
          obtain ⟨n', h'⟩ := hrest
          exact ⟨n + n', h.trans h'⟩
        | error e =>
          obtain ⟨n', h'⟩ := hrest
          exact ⟨n + n', h.trans h'⟩

/-- A call that gives its errors another form. -/
theorem Follows.mapError {x : Eval ε α} (g : ε → ε)
    (h : M.Follows fuel r k (fun e => raise (g e)) x) :
    M.Follows fuel r k raise (ExceptT.adapt g x) := by
  cases x with
  | none => exact h
  | some result => cases result <;> exact h

end

theorem settled_map {fin : α → σ} (hfin : ∀ a, M.Final (fin a)) (result : Except ε α) :
    M.Settled (result.map fin) := by
  intro s h
  cases result with
  | ok a =>
    cases h
    exact hfin a
  | error e => cases h

section
variable {ev : Nat → Eval ε α} {fin : α → σ} {s : σ}

theorem Follows.result {x : Eval ε α} {result : Except ε α}
    (h : M.Follows fuel (.ok s) (fun a => .ok (fin a)) id x)
    (hx : x.run = some result) : ∃ n, M.after s n = result.map fin := by
  rw [Follows, hx] at h
  cases result with
  | ok a =>
    obtain ⟨n, hn⟩ := h
    exact ⟨n, hn.after⟩
  | error e =>
    obtain ⟨n, hn⟩ := h
    exact ⟨n, hn.after⟩

theorem Follows.unfinished {x : Eval ε α} {k : α → Except ε σ} {raise : ε → ε}
    (h : M.Follows fuel (.ok s) k raise x) (hx : x.run = none) :
    ∃ t, M.after s fuel = .ok t ∧ ¬ M.Final t := by
  rw [Follows, hx] at h
  obtain ⟨t, ht, hfinal⟩ := h
  exact ⟨t, ht.after, hfinal⟩

/-- An evaluation has a result with enough fuel exactly when the machine comes to an end with it. -/
theorem evaluates_iff (h : ∀ fuel, M.Follows fuel (.ok s) (fun a => .ok (fin a)) id (ev fuel))
    (hfin : ∀ a, M.Final (fin a)) (hinj : ∀ a b, fin a = fin b → a = b) (result : Except ε α) :
    (∃ fuel, (ev fuel).run = some result) ↔ ∃ n, M.after s n = result.map fin := by
  constructor
  · rintro ⟨fuel, hx⟩
    exact (h fuel).result hx
  · rintro ⟨n, hn⟩
    have hsettled : M.Settled (M.after s n) := hn ▸ settled_map hfin result
    refine ⟨n, ?_⟩
    cases hx : (ev n).run with
    | none =>
      obtain ⟨t, ht, hfinal⟩ := (h n).unfinished hx
      exact (hfinal (hsettled t ht)).elim
    | some x =>
      obtain ⟨m, hm⟩ := (h n).result hx
      have heq := after_unique (hm ▸ settled_map hfin x) hsettled
      rw [hm, hn] at heq
      cases x with
      | ok a =>
        cases result with
        | ok b => rw [hinj a b (Except.ok.inj heq)]
        | error e => cases heq
      | error e =>
        cases result with
        | ok b => cases heq
        | error e' =>
          cases heq
          rfl

/-- No fuel is enough exactly when the machine goes on forever. -/
theorem diverges_iff (h : ∀ fuel, M.Follows fuel (.ok s) (fun a => .ok (fin a)) id (ev fuel))
    (hfin : ∀ a, M.Final (fin a)) :
    (∀ fuel, (ev fuel).run = none) ↔ ∀ n, ∃ t, M.after s n = .ok t ∧ ¬ M.Final t := by
  constructor
  · exact fun hnone n => (h n).unfinished (hnone n)
  · intro hgoes fuel
    cases hx : (ev fuel).run with
    | none => rfl
    | some x =>
      obtain ⟨n, hn⟩ := (h fuel).result hx
      obtain ⟨t, ht, hfinal⟩ := hgoes n
      exact (hfinal (settled_map hfin x t (hn.symm.trans ht))).elim

end

end Automaton

end Janadinite.Evaluation
