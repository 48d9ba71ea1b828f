import Mathlib.Data.List.Nodup

namespace Janadinite.Paths
set_option autoImplicit true

def follow (step : α → Nat → Option α) : α → List Nat → Option α
  | a, [] => some a
  | a, i :: path => (step a i).bind fun b => follow step b path

/-- Different paths lead to different nodes. -/
def Unique (step : α → Nat → Option α) (a : α) : Prop :=
  ∀ path path' b, follow step a path = some b → follow step a path' = some b → path = path'

/-- The nodes of a level have the same children: the nodes of the next level, in order. -/
def Layered (step : α → Nat → Option α) : List (List α) → Prop
  | [] => True
  | level :: levels =>
    (∀ a ∈ level, ∀ i, step a i = (levels.headD [])[i]?) ∧ Layered step levels

theorem follow_cons {step : α → Nat → Option α} (h : follow step a (i :: path) = some c) :
    ∃ b, step a i = some b ∧ follow step b path = some c :=
  Option.bind_eq_some_iff.mp h

theorem follow_step {step : α → Nat → Option α} (h : step a i = some b) (path : List Nat) :
    follow step a (i :: path) = follow step b path := by
  rw [follow, h, Option.bind_some]

/-- The paths that begin with one index are the paths of the child there. -/
theorem Unique.child {step : α → Nat → Option α} (h : Unique step a) (hb : step a i = some b) :
    Unique step b := by
  intro path path' c hc hc'
  rw [← follow_step hb] at hc hc'
  exact (List.cons.inj (h _ _ _ hc hc')).2

/-- Two children that have a child in common are one child. -/
theorem Unique.common {step : α → Nat → Option α} (h : Unique step a) (hb : step a i = some b)
    (hb' : step a j = some b') (hc : step b k = some c) (hc' : step b' k = some c) : i = j := by
  have hp : follow step a [i, k] = some c := by
    rw [follow_step hb, follow_step hc, follow]
  have hp' : follow step a [j, k] = some c := by
    rw [follow_step hb', follow_step hc', follow]
  exact (List.cons.inj (h _ _ _ hp hp')).1

namespace Layered

theorem step_none {step : α → Nat → Option α} (h : Layered step [level]) (ha : a ∈ level)
    (i : Nat) : step a i = none := by
  rw [h.1 a ha i]
  rfl

theorem step_eq {step : α → Nat → Option α} (h : Layered step (level :: next :: levels))
    (ha : a ∈ level) (i : Nat) : step a i = next[i]? :=
  h.1 a ha i

/-- From the nodes of the last level no path goes on. -/
theorem follow_last {step : α → Nat → Option α} (h : Layered step [level]) (ha : a ∈ level)
    (hf : follow step a path = some b) : path = [] := by
  cases path with
  | nil => rfl
  | cons i path =>
    obtain ⟨c, hc, _⟩ := follow_cons hf
    rw [h.step_none ha i] at hc
    cases hc

theorem follow_mem {step : α → Nat → Option α} (h : Layered step (level :: levels))
    (ha : a ∈ level) (hf : follow step a path = some b) : b ∈ level ++ levels.flatten := by
  induction levels generalizing level a path with
  | nil =>
    cases h.follow_last ha hf
    cases hf
    exact List.mem_append_left _ ha
  | cons next levels ih =>
    cases path with
    | nil =>
      cases hf
      exact List.mem_append_left _ ha
    | cons i path =>
      obtain ⟨c, hc, hf⟩ := follow_cons hf
      rw [h.step_eq ha i] at hc
      rw [List.flatten_cons]
      exact List.mem_append_right _ (ih h.2 (List.mem_of_getElem? hc) hf)

/-- A path that goes on does not come back to where it began. -/
theorem follow_ne {step : α → Nat → Option α} (h : Layered step (level :: levels))
    (hn : (level ++ levels.flatten).Nodup) (ha : a ∈ level) :
    follow step a (i :: path) ≠ some a := by
  intro hf
  obtain ⟨c, hc, hf⟩ := follow_cons hf
  cases levels with
  | nil =>
    rw [h.step_none ha i] at hc
    cases hc
  | cons next levels =>
    rw [h.step_eq ha i] at hc
    have hmem := h.2.follow_mem (List.mem_of_getElem? hc) hf
    rw [← List.flatten_cons] at hmem
    exact List.disjoint_of_nodup_append hn ha hmem

/-- Two ways from a level to one node begin with one node when no level has more, or it is the
last. -/
theorem index_eq {step : α → Nat → Option α} {i j : Nat} (h : Layered step (level :: levels))
    (hn : level.Nodup) (hone : ∀ l ∈ (level :: levels).dropLast, l.length ≤ 1)
    (hc : level[i]? = some c) (hc' : level[j]? = some c') (hf : follow step c path = some b)
    (hf' : follow step c' path' = some b) : i = j := by
  have hi := (List.getElem?_eq_some_iff.mp hc).1
  have hj := (List.getElem?_eq_some_iff.mp hc').1
  cases levels with
  | nil =>
    cases h.follow_last (List.mem_of_getElem? hc) hf
    cases h.follow_last (List.mem_of_getElem? hc') hf'
    cases hf
    cases hf'
    exact (List.getElem?_inj hi hn).mp (hc.trans hc'.symm)
  | cons below levels =>
    have hle := hone level List.mem_cons_self
    omega

/-- Where each level above the last has at most one node, different paths part at the last. -/
theorem unique {step : α → Nat → Option α} (h : Layered step (level :: levels))
    (hn : (level ++ levels.flatten).Nodup)
    (hone : ∀ level ∈ levels.dropLast, level.length ≤ 1) (ha : a ∈ level) : Unique step a := by
  induction levels generalizing level a with
  | nil =>
    intro path path' b hf hf'
    rw [h.follow_last ha hf, h.follow_last ha hf']
  | cons next levels ih =>
    have hn' : (next ++ levels.flatten).Nodup := (List.nodup_append.mp hn).2.1
    intro path path' b hf hf'
    cases path with
    | nil =>
      cases path' with
      | nil => rfl
      | cons j path' =>
        cases hf
        exact absurd hf' (h.follow_ne hn ha)
    | cons i path =>
      cases path' with
      | nil =>
        cases hf'
        exact absurd hf (h.follow_ne hn ha)
      | cons j path' =>
        obtain ⟨c, hc, hf⟩ := follow_cons hf
        obtain ⟨c', hc', hf'⟩ := follow_cons hf'
        rw [h.step_eq ha] at hc hc'
        have hmem := List.mem_of_getElem? hc
        cases h.2.index_eq (List.nodup_append.mp hn').1 hone hc hc' hf hf'
        cases hc.symm.trans hc'
        have hone' : ∀ level ∈ levels.dropLast, level.length ≤ 1 := by
          intro l hl
          cases levels with
          | nil => cases hl
          | cons below levels => exact hone l (List.mem_cons_of_mem _ hl)
        rw [ih h.2 hn' hone' hmem path path' b hf hf']

theorem thin {step : α → Nat → Option α} (h : Layered step (level :: levels))
    (hne : ∀ level ∈ levels, level ≠ []) (ha : a ∈ level) (hu : Unique step a) :
    ∀ level ∈ levels.dropLast, level.length ≤ 1 := by
  induction levels generalizing level a with
  | nil =>
    intro l hl
    cases hl
  | cons next levels ih =>
    cases levels with
    | nil =>
      intro l hl
      cases hl
    | cons below levels =>
      have hnext := hne next List.mem_cons_self
      have hbelow := hne below (List.mem_cons_of_mem _ List.mem_cons_self)
      obtain ⟨x, xs, rfl⟩ := List.exists_cons_of_ne_nil hnext
      obtain ⟨z, zs, rfl⟩ := List.exists_cons_of_ne_nil hbelow
      have hx : step a 0 = some x := h.step_eq ha 0
      intro l hl
      rcases List.mem_cons.mp hl with rfl | hl
      · cases xs with
        | nil => exact Nat.le_refl _
        | cons y xs =>
          have hy : step a 1 = some y := h.step_eq ha 1
          have hxz : step x 0 = some z := h.2.step_eq List.mem_cons_self 0
          have hyz : step y 0 = some z := h.2.step_eq (List.mem_cons_of_mem _ List.mem_cons_self) 0
          cases hu.common hx hy hxz hyz
      · exact ih h.2 (fun l hl => hne l (List.mem_cons_of_mem _ hl)) List.mem_cons_self
          (hu.child hx) l hl

theorem unique_iff {step : α → Nat → Option α} (h : Layered step ([a] :: levels))
    (hn : (a :: levels.flatten).Nodup) (hne : ∀ level ∈ levels, level ≠ []) :
    Unique step a ↔ ∀ level ∈ levels.dropLast, level.length ≤ 1 :=
  ⟨h.thin hne List.mem_cons_self, fun hone => h.unique hn hone List.mem_cons_self⟩

end Layered

end Janadinite.Paths
