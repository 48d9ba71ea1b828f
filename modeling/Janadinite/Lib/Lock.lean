import Mathlib.Data.List.Basic

namespace Janadinite.Lock
set_option autoImplicit true

/-- `writer` is the one thread whose state says that it holds the guard. -/
def Guarded (holds : σ → Bool) (writer : Option Nat) (threads : List σ) : Prop :=
  ∀ t, writer = some t ↔ ∃ s, threads[t]? = some s ∧ holds s = true

namespace Guarded
variable {holds : σ → Bool} {threads : List σ} {s s' : σ} {writer : Option Nat} {t t' : Nat}

theorem start : Guarded holds none [] := by
  intro t
  simp

theorem holder (h : Guarded holds writer threads) (ht : threads[t]? = some s)
    (hs : holds s = true) : writer = some t :=
  (h t).mpr ⟨s, ht, hs⟩

theorem exclusive (h : Guarded holds writer threads) (ht : threads[t]? = some s)
    (hs : holds s = true) (ht' : threads[t']? = some s') (hs' : holds s' = true) : t = t' :=
  Option.some.inj ((h.holder ht hs).symm.trans (h.holder ht' hs'))

theorem free (h : Guarded holds none threads) (ht : threads[t]? = some s) : holds s = false := by
  cases hs : holds s with
  | false => rfl
  | true => cases h.holder ht hs

theorem spawn (h : Guarded holds writer threads) (hs : holds s = false) :
    Guarded holds writer (threads ++ [s]) := by
  intro t
  rw [h t]
  constructor
  · rintro ⟨r, hr, hh⟩
    exact ⟨r, List.getElem?_append_left (List.getElem?_eq_some_iff.mp hr).1 ▸ hr, hh⟩
  · rintro ⟨r, hr, hh⟩
    rw [List.getElem?_append] at hr
    split at hr
    · exact ⟨r, hr, hh⟩
    · have hmem := List.mem_of_getElem? hr
      rw [List.mem_singleton.mp hmem, hs] at hh
      cases hh

theorem acquire (h : Guarded holds none threads) (ht : threads[t]? = some s)
    (hs : holds s' = true) : Guarded holds (some t) (threads.set t s') := by
  intro u
  rw [List.getElem?_set]
  by_cases htu : t = u
  · subst htu
    have hlt := (List.getElem?_eq_some_iff.mp ht).1
    simp [hlt, hs]
  · simp only [htu, if_false, Option.some.injEq, false_iff]
    rintro ⟨r, hr, hh⟩
    rw [h.free hr] at hh
    cases hh

/-- A thread goes on in a state that does not hold the guard, and so gives it back if it held it. -/
theorem leave (h : Guarded holds writer threads) (ht : threads[t]? = some s)
    (hs : holds s' = false) :
    Guarded holds (if holds s then none else writer) (threads.set t s') := by
  intro u
  rw [List.getElem?_set]
  by_cases htu : t = u
  · subst htu
    have hlt := (List.getElem?_eq_some_iff.mp ht).1
    have hfree : holds s = false → writer ≠ some t := by
      intro hh hw
      obtain ⟨r, hr, hrs⟩ := (h t).mp hw
      cases ht.symm.trans hr
      rw [hh] at hrs
      cases hrs
    cases hh : holds s <;> simp [hlt, hs, hfree, hh]
  · simp only [htu, if_false]
    cases hh : holds s with
    | false => exact h u
    | true =>
      simp only [if_true]
      constructor
      · exact nofun
      · rintro ⟨r, hr, hrs⟩
        exact absurd (h.exclusive ht hh hr hrs) htu

theorem keep (h : Guarded holds writer threads) (ht : threads[t]? = some s)
    (hs : holds s = true) (hs' : holds s' = true) : Guarded holds writer (threads.set t s') := by
  intro u
  rw [List.getElem?_set]
  by_cases htu : t = u
  · subst htu
    have hlt := (List.getElem?_eq_some_iff.mp ht).1
    simp [hlt, hs', h.holder ht hs]
  · simp only [htu, if_false]
    exact h u

end Guarded

end Janadinite.Lock
