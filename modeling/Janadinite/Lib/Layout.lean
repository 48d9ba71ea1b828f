import Mathlib.Algebra.Ring.Nat

namespace Janadinite.Layout
set_option autoImplicit true

/-- Where the `i`th block begins when blocks of these sizes follow one another. -/
def start (sizes : List Nat) (i : Nat) : Nat := (sizes.take i).sum

/-- The place `n` is in a block of this size that begins at `off`. -/
def Within (off size n : Nat) : Prop := off ≤ n ∧ n < off + size

theorem start_succ {sizes : List Nat} (h : sizes[i]? = some n) :
    start sizes (i + 1) = start sizes i + n := by
  rw [start, List.take_add_one, h, List.sum_append]
  rfl

theorem start_cons (n : Nat) (sizes : List Nat) (i : Nat) :
    start (n :: sizes) (i + 1) = n + start sizes i := by
  rw [start, List.take_succ_cons, List.sum_cons]
  rfl

theorem start_append {sizes : List Nat} (h : i ≤ sizes.length) (rest : List Nat) :
    start (sizes ++ rest) i = start sizes i := by
  rw [start, List.take_append_of_le_length h]
  rfl

theorem start_append_right {sizes : List Nat} (h : sizes.length ≤ i) (rest : List Nat) :
    start (sizes ++ rest) i = sizes.sum + start rest (i - sizes.length) := by
  rw [start, List.take_append, List.sum_append, List.take_of_length_le h]
  rfl

theorem start_le_sum (sizes : List Nat) (i : Nat) : start sizes i ≤ sizes.sum := by
  have h := congrArg List.sum (List.take_append_drop i sizes)
  rw [List.sum_append] at h
  exact Nat.le.intro h

theorem start_add_le {sizes : List Nat} (h : sizes[i]? = some n) (hij : i < j) :
    start sizes i + n ≤ start sizes j := by
  rw [← start_succ h]
  have ht := start_le_sum (sizes.take j) (i + 1)
  rwa [start, List.take_take, Nat.min_eq_left hij] at ht

theorem end_le_sum {sizes : List Nat} (h : sizes[i]? = some n) :
    start sizes i + n ≤ sizes.sum := by
  rw [← start_succ h]
  exact start_le_sum sizes (i + 1)

/-- Blocks that follow one another do not overlap. -/
theorem within_inj {sizes : List Nat} (hi : sizes[i]? = some n) (hj : sizes[j]? = some m)
    (hki : Within (start sizes i) n k) (hkj : Within (start sizes j) m k) : i = j := by
  obtain ⟨hi₁, hi₂⟩ := hki
  obtain ⟨hj₁, hj₂⟩ := hkj
  rcases Nat.lt_trichotomy i j with hlt | heq | hgt
  · have hle := start_add_le hi hlt
    omega
  · exact heq
  · have hle := start_add_le hj hgt
    omega

/-- They leave no gaps. -/
theorem exists_within {sizes : List Nat} (h : k < start sizes j) :
    ∃ i n, i < j ∧ sizes[i]? = some n ∧ Within (start sizes i) n k := by
  induction j with
  | zero => exact absurd h (Nat.not_lt_zero k)
  | succ j ih =>
    rcases Nat.lt_or_ge k (start sizes j) with hlt | hge
    · obtain ⟨i, n, hij, hi⟩ := ih hlt
      exact ⟨i, n, Nat.lt_succ_of_lt hij, hi⟩
    · cases hj : sizes[j]? with
      | some n =>
        rw [start_succ hj] at h
        exact ⟨j, n, Nat.lt_succ_self j, hj, hge, h⟩
      | none =>
        have hlen := List.getElem?_eq_none_iff.mp hj
        rw [start, List.take_of_length_le (Nat.le_succ_of_le hlen)] at h
        rw [start, List.take_of_length_le hlen] at hge
        exact absurd h (Nat.not_lt_of_le hge)

/-- Values in place of others. -/
def overwrite (data : List α) (off : Nat) (values : List α) : List α :=
  data.take off ++ values ++ data.drop (off + values.length)

/-- What is in a place. -/
def slice (data : List α) (off size : Nat) : List α := (data.drop off).take size

theorem slice_overwrite {data values : List α} (h : off + values.length ≤ data.length) :
    slice (overwrite data off values) off values.length = values := by
  have hoff : (data.take off).length = off := List.length_take_of_le (by omega)
  rw [slice, overwrite, List.append_assoc, List.drop_left' hoff, List.take_left]

theorem length_overwrite {data values : List α} (h : off + values.length ≤ data.length) :
    (overwrite data off values).length = data.length := by
  simp only [overwrite, List.length_append, List.length_take, List.length_drop]
  omega

theorem overwrite_other {data values : List α} (h : off + values.length ≤ data.length)
    (hi : ¬ Within off values.length i) : (overwrite data off values)[i]? = data[i]? := by
  have hoff : (data.take off).length = off := List.length_take_of_le (by omega)
  rw [overwrite, List.append_assoc]
  by_cases hlt : i < off
  · rw [List.getElem?_append_left (by omega), List.getElem?_take_of_lt hlt]
  · have hge : off + values.length ≤ i := by
      apply Classical.byContradiction
      intro hin
      exact hi ⟨Nat.le_of_not_lt hlt, by omega⟩
    rw [List.getElem?_append_right (by omega), List.getElem?_append_right (by omega),
      List.getElem?_drop, hoff]
    congr 1
    omega

theorem overwrite_inside {data values : List α} (h : off + values.length ≤ data.length)
    (hk : k < values.length) : (overwrite data off values)[off + k]? = values[k]? := by
  have hoff : (data.take off).length = off := List.length_take_of_le (by omega)
  rw [overwrite, List.append_assoc, List.getElem?_append_right (by omega), hoff,
    Nat.add_sub_cancel_left, List.getElem?_append_left hk]

theorem overwrite_next {data values : List α} (h : off + values.length ≤ data.length)
    (values' : List α) : overwrite (overwrite data off values) (off + values.length) values' =
      overwrite data off (values ++ values') := by
  have hlen : (data.take off ++ values).length = off + values.length := by
    rw [List.length_append, List.length_take_of_le (by omega)]
  have hdrop : (overwrite data off values).drop (off + values.length + values'.length) =
      data.drop (off + (values ++ values').length) := by
    rw [overwrite, ← List.drop_drop, List.drop_left' hlen, List.drop_drop, List.length_append,
      Nat.add_assoc]
  rw [overwrite, hdrop, overwrite, List.take_left' hlen, overwrite, List.append_assoc _ values]

theorem overwrite_nil (data : List α) (off : Nat) : overwrite data off [] = data := by
  rw [overwrite, List.append_nil]
  exact List.take_append_drop off data

theorem overwrite_slice {data : List α} (h : off + size ≤ data.length) :
    overwrite data off (slice data off size) = data := by
  have hlen : (slice data off size).length = size := by
    rw [slice, List.length_take_of_le]
    rw [List.length_drop]
    omega
  rw [overwrite, hlen, slice, List.append_assoc, ← List.drop_drop, List.take_append_drop,
    List.take_append_drop]

theorem slice_succ {data : List α} (h : data[off]? = some x) (size : Nat) :
    slice data off (size + 1) = x :: slice data (off + 1) size := by
  obtain ⟨hlt, rfl⟩ := List.getElem?_eq_some_iff.mp h
  rw [slice, List.drop_eq_getElem_cons hlt]
  rfl

theorem set_eq_overwrite {data : List α} (h : off < data.length) (value : α) :
    data.set off value = overwrite data off [value] := by
  rw [List.set_eq_take_append_cons_drop, if_pos h, overwrite, List.append_assoc]
  rfl

theorem overwrite_set {data values : List α} (h : off + values.length < data.length) (value : α) :
    overwrite (data.set (off + values.length) value) off values =
      overwrite data off (values ++ [value]) := by
  have htake : (data.set (off + values.length) value).take off = data.take off :=
    List.take_set_of_le (Nat.le_add_right off _)
  have hdrop : (data.set (off + values.length) value).drop (off + values.length) =
      value :: data.drop (off + values.length + 1) := by
    have hset : off + values.length < (data.set (off + values.length) value).length := by
      rwa [List.length_set]
    rw [List.drop_eq_getElem_cons hset, List.getElem_set_self,
      List.drop_set_of_lt (Nat.lt_succ_self _)]
  rw [overwrite, htake, hdrop, overwrite, List.length_append, List.length_singleton,
    List.append_assoc, List.append_assoc, List.append_assoc, Nat.add_assoc]
  rfl

theorem slice_concat {data : List α} (h : data[off + size]? = some x) :
    slice data off (size + 1) = slice data off size ++ [x] := by
  rw [slice, List.take_add_one, List.getElem?_drop, h]
  rfl

end Janadinite.Layout
