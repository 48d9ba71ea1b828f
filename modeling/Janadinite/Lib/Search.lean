import Mathlib.Data.List.Basic

namespace Janadinite.Search
set_option autoImplicit true

/-- The element at `i` passes the test and none before it does. -/
structure FirstAt (test : α → Bool) (xs : List α) (i : Nat) (x : α) : Prop where
  here : xs[i]? = some x
  passes : test x = true
  before : ∀ (j : Nat) (y : α), j < i → xs[j]? = some y → test y = false

section
variable {test : α → Bool} {xs ys : List α} {x y : α} {i j : Nat}

theorem FirstAt.zero (h : test x = true) : FirstAt test (x :: xs) 0 x :=
  ⟨rfl, h, fun _ _ hj => absurd hj (Nat.not_lt_zero _)⟩

theorem FirstAt.succ (h : FirstAt test xs i x) (hy : test y = false) :
    FirstAt test (y :: xs) (i + 1) x := by
  refine ⟨h.here, h.passes, ?_⟩
  intro j z hj hz
  cases j with
  | zero =>
    cases hz
    exact hy
  | succ j => exact h.before j z (Nat.lt_of_succ_lt_succ hj) hz

theorem FirstAt.find? (h : FirstAt test xs i x) : xs.find? test = some x := by
  induction xs generalizing i with
  | nil => cases h.here
  | cons y xs ih =>
    cases i with
    | zero =>
      cases h.here
      exact List.find?_cons_of_pos h.passes
    | succ i =>
      have hy := h.before 0 y (Nat.succ_pos i) rfl
      rw [List.find?_cons_of_neg (by rw [hy]; exact Bool.false_ne_true)]
      exact ih ⟨h.here, h.passes, fun j z hj hz => h.before (j + 1) z (Nat.succ_lt_succ hj) hz⟩

theorem find?_firstAt (h : xs.find? test = some x) : ∃ i, FirstAt test xs i x := by
  induction xs with
  | nil => cases h
  | cons y xs ih =>
    cases hy : test y with
    | true =>
      rw [List.find?_cons_of_pos hy] at h
      cases h
      exact ⟨0, .zero hy⟩
    | false =>
      rw [List.find?_cons_of_neg (by rw [hy]; exact Bool.false_ne_true)] at h
      obtain ⟨i, hi⟩ := ih h
      exact ⟨i + 1, hi.succ hy⟩

theorem FirstAt.unique (h : FirstAt test xs i x) (h' : FirstAt test xs j y) : i = j := by
  rcases Nat.lt_trichotomy i j with hlt | heq | hgt
  · have hx := h'.before i x hlt h.here
    rw [h.passes] at hx
    cases hx
  · exact heq
  · have hy := h.before j y hgt h'.here
    rw [h'.passes] at hy
    cases hy

theorem FirstAt.set (h : FirstAt test xs i x) (hy : test y = true) :
    FirstAt test (xs.set i y) i y := by
  have hi := (List.getElem?_eq_some_iff.mp h.here).1
  refine ⟨List.getElem?_set_self hi, hy, ?_⟩
  intro j z hj hz
  rw [List.getElem?_set_ne (Nat.ne_of_gt hj)] at hz
  exact h.before j z hj hz

theorem find?_set_skipped (hi : xs[i]? = some x) (hx : test x = false) (hy : test y = false) :
    (xs.set i y).find? test = xs.find? test := by
  induction xs generalizing i with
  | nil => rfl
  | cons z xs ih =>
    have hskip {w : α} (hw : test w = false) : ¬ test w = true := ne_true_of_eq_false hw
    cases i with
    | zero =>
      cases hi
      rw [List.set_cons_zero, List.find?_cons_of_neg (hskip hy), List.find?_cons_of_neg (hskip hx)]
    | succ i => rw [List.set_cons_succ, List.find?_cons, List.find?_cons, ih hi]

/-- A first match that passes a narrower test is the first to pass that too. -/
theorem find?_narrow {test' : α → Bool} (h : xs.find? test = some x) (hx : test' x = true)
    (hn : ∀ y, test' y = true → test y = true) : xs.find? test' = some x := by
  obtain ⟨i, hi⟩ := find?_firstAt h
  refine FirstAt.find? (i := i) ⟨hi.here, hx, ?_⟩
  intro j y hj hy
  have hf := hi.before j y hj hy
  cases ht : test' y with
  | false => rfl
  | true =>
    rw [hn y ht] at hf
    cases hf

theorem FirstAt.aligned {f : α → γ} {g : β → γ} {test : γ → Bool} {xs : List α} {ys : List β}
    (h : FirstAt (fun x => test (f x)) xs i x) (hmap : xs.map f = ys.map g) :
    ∃ y, FirstAt (fun y => test (g y)) ys i y ∧ g y = f x := by
  have hat (k : Nat) : (xs[k]?).map f = (ys[k]?).map g := by
    rw [← List.getElem?_map, hmap, List.getElem?_map]
  have hi := hat i
  rw [h.here] at hi
  obtain ⟨y, hy, hgy⟩ := Option.map_eq_some_iff.mp hi.symm
  refine ⟨y, ⟨hy, ?_, ?_⟩, hgy⟩
  · rw [hgy]
    exact h.passes
  · intro k z hk hz
    have hz' := hat k
    rw [hz] at hz'
    obtain ⟨w, hw, hfw⟩ := Option.map_eq_some_iff.mp hz'
    rw [← hfw]
    exact h.before k w hk hw

/-- In a list ordered by `R`, the first match is the one that no other match is before. -/
theorem find?_ordered {R : α → α → Prop} (hp : xs.Pairwise R) (hasymm : ∀ a b, R a b → ¬ R b a) :
    xs.find? test = some x ↔ x ∈ xs ∧ test x = true ∧ ∀ y ∈ xs, test y = true → ¬ R y x := by
  induction xs with
  | nil => simp
  | cons z xs ih =>
    obtain ⟨hz, hp⟩ := List.pairwise_cons.mp hp
    cases ht : test z with
    | true =>
      rw [List.find?_cons_of_pos ht, Option.some.injEq]
      constructor
      · rintro rfl
        refine ⟨List.mem_cons_self, ht, ?_⟩
        intro y hy _ hyz
        rcases List.mem_cons.mp hy with rfl | hy
        · exact hasymm _ _ hyz hyz
        · exact hasymm _ _ (hz y hy) hyz
      · rintro ⟨hx, _, hfirst⟩
        rcases List.mem_cons.mp hx with rfl | hx
        · rfl
        · exact absurd (hz x hx) (hfirst z List.mem_cons_self ht)
    | false =>
      rw [List.find?_cons_of_neg (by rw [ht]; exact Bool.false_ne_true), ih hp]
      constructor
      · rintro ⟨hx, hpass, hfirst⟩
        refine ⟨List.mem_cons_of_mem _ hx, hpass, ?_⟩
        intro y hy hty
        rcases List.mem_cons.mp hy with rfl | hy
        · rw [ht] at hty
          cases hty
        · exact hfirst y hy hty
      · rintro ⟨hx, hpass, hfirst⟩
        rcases List.mem_cons.mp hx with rfl | hx
        · rw [ht] at hpass
          cases hpass
        · exact ⟨hx, hpass, fun y hy => hfirst y (List.mem_cons_of_mem _ hy)⟩

end

end Janadinite.Search
