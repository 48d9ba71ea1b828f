namespace Janadinite.Codec
set_option autoImplicit true

/-- On any continuation of `bs` the reader returns `a` and leaves exactly the continuation. -/
def Reads (m : StateT (List τ) (Except ε) α) (bs : List τ) (a : α) : Prop :=
  ∀ rest, m (bs ++ rest) = .ok (a, rest)

/-- The writer succeeds and appends exactly `bs` to what was written before. -/
def Writes (m : StateT (List τ) (Except ε) PUnit) (bs : List τ) : Prop :=
  ∀ out, m out = .ok (⟨⟩, out ++ bs)

theorem Reads.pure (a : α) : Reads (pure a : StateT (List τ) (Except ε) α) [] a :=
  fun _ => rfl

theorem Reads.run (h : Reads m bs a) : m bs = .ok (a, []) := by
  simpa only [List.append_nil] using h []

theorem Reads.bind {m : StateT (List τ) (Except ε) α} {f : α → StateT (List τ) (Except ε) β}
    (hm : Reads m bs a) (hf : Reads (f a) cs b) : Reads (m >>= f) (bs ++ cs) b := by
  intro rest
  change (m (bs ++ cs ++ rest) >>= fun p => f p.1 p.2) = _
  rw [List.append_assoc, hm]
  exact hf rest

theorem Reads.last {m : StateT (List τ) (Except ε) α} {f : α → StateT (List τ) (Except ε) β}
    (hm : Reads m bs a) (hf : Reads (f a) [] b) : Reads (m >>= f) bs b := by
  have hb := hm.bind hf
  rwa [List.append_nil] at hb

theorem Reads.map {m : StateT (List τ) (Except ε) α} (hm : Reads m bs a) (f : α → β) :
    Reads (m >>= fun x => Pure.pure (f x)) bs (f a) :=
  hm.last (.pure (f a))

/-- After consuming `bs` the reader goes on as `k`. -/
def Continues (m : StateT (List τ) (Except ε) α) (bs : List τ)
    (k : StateT (List τ) (Except ε) α) : Prop :=
  ∀ rest, m (bs ++ rest) = k rest

theorem Continues.refl (m : StateT (List τ) (Except ε) α) : Continues m [] m :=
  fun _ => rfl

theorem Reads.continues {m : StateT (List τ) (Except ε) α} {f : α → StateT (List τ) (Except ε) β}
    (hm : Reads m bs a) (hf : Continues (f a) cs k) : Continues (m >>= f) (bs ++ cs) k := by
  intro rest
  change (m (bs ++ cs ++ rest) >>= fun p => f p.1 p.2) = _
  rw [List.append_assoc, hm]
  exact hf rest

theorem Continues.reads (h : Continues m bs k) (hk : Reads k cs a) : Reads m (bs ++ cs) a := by
  intro rest
  rw [List.append_assoc, h]
  exact hk rest

theorem Writes.pure : Writes (pure ⟨⟩ : StateT (List τ) (Except ε) PUnit) [] := by
  intro out
  rw [List.append_nil]
  rfl

theorem Writes.bind {m : StateT (List τ) (Except ε) PUnit}
    {f : PUnit → StateT (List τ) (Except ε) PUnit} (hm : Writes m bs) (hf : Writes (f ⟨⟩) cs) :
    Writes (m >>= f) (bs ++ cs) := by
  intro out
  change (m out >>= fun p => f p.1 p.2) = _
  rw [hm]
  exact (hf _).trans (by rw [List.append_assoc])

/-- Every value the reader can return satisfies `Q`. -/
def Ensures (m : StateT σ (Except ε) α) (Q : α → Prop) : Prop :=
  ∀ s a s', m s = .ok (a, s') → Q a

theorem Ensures.pure {Q : α → Prop} (h : Q a) : Ensures (pure a : StateT σ (Except ε) α) Q := by
  intro s b s' he
  cases he
  exact h

theorem Ensures.bind {m : StateT σ (Except ε) α} {f : α → StateT σ (Except ε) β} {Q : β → Prop}
    (hf : ∀ a, Ensures (f a) Q) : Ensures (m >>= f) Q := by
  intro s b s' he
  change (m s >>= fun p => f p.1 p.2) = _ at he
  cases hm : m s with
  | error e =>
    rw [hm] at he
    cases he
  | ok p =>
    rw [hm] at he
    exact hf p.1 p.2 b s' he

/-- What a reader leaves behind by `R`, and the faults that `E` allows it. -/
structure Outcomes (R : σ → σ → Prop) (E : ε → Prop) (m : StateT σ (Except ε) α) : Prop where
  ok : ∀ s a s', m s = .ok (a, s') → R s s'
  error : ∀ s e, m s = .error e → E e

theorem Outcomes.pure {R : σ → σ → Prop} {E : ε → Prop} (hR : ∀ s, R s s) (a : α) :
    Outcomes R E (pure a : StateT σ (Except ε) α) where
  ok s b s' h := by
    cases h
    exact hR s
  error s e h := by cases h

theorem Outcomes.throw {R : σ → σ → Prop} {E : ε → Prop} {e : ε} (he : E e) :
    Outcomes R E (throw e : StateT σ (Except ε) α) where
  ok s b s' h := by cases h
  error s e' h := by
    cases h
    exact he

theorem Outcomes.bind {R : σ → σ → Prop} {E : ε → Prop} {m : StateT σ (Except ε) α}
    {f : α → StateT σ (Except ε) β} (hR : ∀ s s' s'', R s s' → R s' s'' → R s s'')
    (hm : Outcomes R E m) (hf : ∀ a, Outcomes R E (f a)) : Outcomes R E (m >>= f) where
  ok s b s' h := by
    change (m s >>= fun p => f p.1 p.2) = _ at h
    cases he : m s with
    | error e =>
      rw [he] at h
      cases h
    | ok p =>
      rw [he] at h
      exact hR s p.2 s' (hm.ok s p.1 p.2 he) ((hf p.1).ok p.2 b s' h)
  error s e h := by
    change (m s >>= fun p => f p.1 p.2) = _ at h
    cases he : m s with
    | error e' =>
      rw [he] at h
      cases h
      exact hm.error s _ he
    | ok p =>
      rw [he] at h
      exact (hf p.1).error p.2 e h

inductive ReadsAll (m : StateT σ (Except ε) α) : σ → List α → σ → Prop
  | nil : ReadsAll m s [] s
  | cons (h : m s = .ok (a, s')) (hs : ReadsAll m s' as s'') : ReadsAll m s (a :: as) s''

theorem ReadsAll.split {m : StateT σ (Except ε) α} (h : ReadsAll m s (as ++ bs) s') :
    ∃ mid, ReadsAll m s as mid ∧ ReadsAll m mid bs s' := by
  induction as generalizing s with
  | nil => exact ⟨s, .nil, h⟩
  | cons a as ih =>
    cases h with
    | cons ha hs =>
      obtain ⟨mid, has, hbs⟩ := ih hs
      exact ⟨mid, .cons ha has, hbs⟩

/-- The reader accepts what begins with the bytes of a value, and leaves what follows them. -/
def Parses (m : StateT (List τ) (Except ε) α) (G : α → List τ → Prop) : Prop :=
  ∀ input a rest, m input = .ok (a, rest) ↔ ∃ bs, G a bs ∧ input = bs ++ rest

namespace Parses
variable {m : StateT (List τ) (Except ε) α} {G : α → List τ → Prop}

theorem congr (h : Parses m G) {G' : α → List τ → Prop} (hG : ∀ a bs, G a bs ↔ G' a bs) :
    Parses m G' := by
  intro input a rest
  rw [h]
  exact exists_congr fun bs => and_congr_left fun _ => hG a bs

theorem reads (h : Parses m G) (ha : G a bs) : Reads m bs a :=
  fun rest => (h _ a rest).mpr ⟨bs, ha, rfl⟩

theorem pure (a : α) : Parses (Pure.pure a : StateT (List τ) (Except ε) α)
    (fun b bs => b = a ∧ bs = []) := by
  intro input b rest
  constructor
  · intro h
    cases h
    exact ⟨[], ⟨rfl, rfl⟩, rfl⟩
  · rintro ⟨bs, ⟨rfl, rfl⟩, rfl⟩
    rfl

theorem lift (x : Except ε α) : Parses (StateT.lift x : StateT (List τ) (Except ε) α)
    (fun a bs => x = .ok a ∧ bs = []) := by
  intro input b rest
  cases x with
  | error e =>
    constructor
    · intro h
      cases h
    · rintro ⟨bs, ⟨h, -⟩, -⟩
      cases h
  | ok a =>
    constructor
    · intro h
      cases h
      exact ⟨[], ⟨rfl, rfl⟩, rfl⟩
    · rintro ⟨bs, ⟨h, rfl⟩, rfl⟩
      cases h
      rfl

theorem bind {f : α → StateT (List τ) (Except ε) β} {H : α → β → List τ → Prop} (hm : Parses m G)
    (hf : ∀ a, Parses (f a) (H a)) :
    Parses (m >>= f) (fun b bs => ∃ a cs ds, G a cs ∧ H a b ds ∧ bs = cs ++ ds) := by
  intro input b rest
  change (m input >>= fun p => f p.1 p.2) = _ ↔ _
  constructor
  · intro h
    cases hr : m input with
    | error e =>
      rw [hr] at h
      cases h
    | ok p =>
      rw [hr] at h
      obtain ⟨cs, ha, rfl⟩ := (hm _ p.1 p.2).mp hr
      obtain ⟨ds, hb, hrest⟩ := (hf p.1 _ b rest).mp h
      rw [hrest, ← List.append_assoc]
      exact ⟨_, ⟨p.1, cs, ds, ha, hb, rfl⟩, rfl⟩
  · rintro ⟨bs, ⟨a, cs, ds, ha, hb, rfl⟩, rfl⟩
    rw [List.append_assoc, hm.reads ha]
    exact (hf a).reads hb rest

theorem map (h : Parses m G) (f : α → β) :
    Parses (m >>= fun a => Pure.pure (f a)) (fun b bs => ∃ a, b = f a ∧ G a bs) := by
  apply (h.bind fun a => .pure (f a)).congr
  intro b bs
  constructor
  · rintro ⟨a, cs, ds, ha, ⟨hb, rfl⟩, rfl⟩
    rw [List.append_nil]
    exact ⟨a, hb, ha⟩
  · rintro ⟨a, hb, ha⟩
    exact ⟨a, bs, [], ha, ⟨hb, rfl⟩, (List.append_nil bs).symm⟩

/-- Where the bytes of two values begin the same input, and leave the same, they are the same. -/
theorem unique (h : Parses m G) (ha : G a bs) (hb : G b cs) (heq : bs ++ rest = cs ++ rest') :
    a = b ∧ bs = cs ∧ rest = rest' := by
  have hr := h.reads ha rest
  rw [heq, h.reads hb] at hr
  cases hr
  exact ⟨rfl, List.append_cancel_right heq, rfl⟩

end Parses

/-- The bytes of some values, one after another. -/
inductive Concat (G : α → List τ → Prop) : List α → List τ → Prop
  | nil : Concat G [] []
  | cons (h : G a bs) (hs : Concat G as cs) : Concat G (a :: as) (bs ++ cs)

theorem Concat.get (h : Concat G as bs) (ha : a ∈ as) : ∃ cs, G a cs := by
  induction h with
  | nil => cases ha
  | cons hg _ ih =>
    rcases List.mem_cons.mp ha with rfl | ha
    · exact ⟨_, hg⟩
    · exact ih ha

theorem Concat.functional {f : α → List τ} (h : Concat G as bs) (hG : ∀ a bs, G a bs → bs = f a) :
    bs = as.flatMap f := by
  induction h with
  | nil => rfl
  | cons ha _ ih => rw [List.flatMap_cons, ← ih, hG _ _ ha]

theorem Concat.flatMap {G : α → List τ → Prop} {f : α → List τ} (hG : ∀ a, G a (f a))
    (as : List α) : Concat G as (as.flatMap f) := by
  induction as with
  | nil => exact .nil
  | cons a as ih => exact .cons (hG a) ih

end Janadinite.Codec
