import Mathlib.Tactic.Choose

namespace Janadinite.Reading
set_option autoImplicit true

/-- What a reader of a stream does: it asks for so many elements and goes on with those it gets.
What it fails with itself is not the failure at the end of the stream. -/
inductive Script (τ : Type) {ε : Type} (eof : ε) (α : Type) where
  | done (a : α)
  | fail (e : ε) (h : e ≠ eof)
  | read (n : Nat) (k : List τ → Script τ eof α)

namespace Script
variable {τ ε σ : Type} {eof : ε}

def run (exact : Nat → StateT σ (Except ε) (List τ)) : Script τ eof α → StateT σ (Except ε) α
  | done a => pure a
  | fail e _ => throw e
  | read n k => exact n >>= fun buf => (k buf).run exact

def bind (script : Script τ eof α) (f : α → Script τ eof β) : Script τ eof β :=
  match script with
  | done a => f a
  | fail e h => .fail e h
  | read n k => .read n fun buf => (k buf).bind f

theorem run_bind (exact : Nat → StateT σ (Except ε) (List τ)) (script : Script τ eof α)
    (f : α → Script τ eof β) :
    (script.bind f).run exact = script.run exact >>= fun a => (f a).run exact := by
  induction script with
  | done a => exact (pure_bind a fun a => (f a).run exact).symm
  | fail e h => rfl
  | read n k ih =>
    rw [bind, run, run, bind_assoc]
    congr 1
    funext buf
    exact ih buf

/-- Somewhere the script asks for more elements than there are left. -/
def Cut : Script τ eof α → List τ → Prop
  | done _, _ => False
  | fail _ _, _ => False
  | read n k, input => input.length < n ∨ (k (input.take n)).Cut (input.drop n)

def Filled (next : Nat → StateT σ (Except ε) (List τ)) : Script τ eof α → σ → Prop
  | done _, _ => True
  | fail _ _, _ => True
  | read n k, s => ∀ buf s', next n s = .ok (buf, s') → buf.length = n ∧ (k buf).Filled next s'

end Script

/-- One call is to fill the buffer; when it does not, the stream is taken to have ended. -/
def once (next : Nat → StateT σ (Except ε) (List τ)) (eof : ε) (n : Nat) :
    StateT σ (Except ε) (List τ) := do
  let buf ← next n
  if buf.length < n then throw eof
  pure buf

/-- A stream of which `left` has not been read. Each call takes some elements from its front, as
many as the buffer holds or fewer. -/
structure Delivers (next : Nat → StateT σ (Except ε) (List τ)) (left : σ → List τ) : Prop where
  call : ∀ n s, ∃ buf s', next n s = .ok (buf, s') ∧ left s = buf ++ left s' ∧ buf.length ≤ n ∧
    (0 < n → left s ≠ [] → buf ≠ [])

/-- The same failure, or the same value with the same elements left. -/
inductive Same (left : σ → List τ) : Except ε (α × σ) → Except ε (α × List τ) → Prop
  | ok (a : α) (s : σ) : Same left (.ok (a, s)) (.ok (a, left s))
  | error (e : ε) : Same left (.error e) (.error e)

/-- What is computed from the value afterwards reads nothing. -/
theorem Same.andThen {α β σ τ ε : Type} {left : σ → List τ} {x : Except ε (α × σ)}
    {y : Except ε (α × List τ)} (h : Same left x y) (f : α → Except ε β) :
    Same left (x >>= fun p => f p.1 >>= fun b => .ok (b, p.2))
      (y >>= fun p => f p.1 >>= fun b => .ok (b, p.2)) := by
  cases h with
  | ok a s =>
    change Same left (f a >>= fun b => .ok (b, s)) (f a >>= fun b => .ok (b, left s))
    cases f a with
    | ok b => exact .ok b s
    | error e => exact .error e
  | error e => exact .error e

def whole (n : Nat) : StateT (List τ) (Except ε) (List τ) := fun input =>
  .ok (input.take n, input.drop n)

section
variable {τ ε σ : Type} {eof : ε} {next : Nat → StateT σ (Except ε) (List τ)} {left : σ → List τ}

theorem once_eq {s : σ} (h : next n s = .ok (buf, s')) : once next eof n s =
    if buf.length < n then .error eof else .ok (buf, s') := by
  simp only [once, Bind.bind, StateT.bind, Except.bind, h]
  split <;> rfl

theorem run_read {s : σ} (k : List τ → Script τ eof α) (h : next n s = .ok (buf, s')) :
    (Script.read n k).run (once next eof) s =
      if buf.length < n then .error eof else (k buf).run (once next eof) s' := by
  change (once next eof n s >>= fun p => (k p.1).run (once next eof) p.2) = _
  rw [once_eq h]
  split <;> rfl

theorem run_whole (n : Nat) (k : List τ → Script τ eof α) (input : List τ) :
    (Script.read n k).run (once whole eof) input =
      if input.length < n then .error eof
      else (k (input.take n)).run (once whole eof) (input.drop n) := by
  rw [run_read k rfl, List.length_take]
  congr 1
  apply propext
  omega

/-- With the whole input there the script fails at the end of the stream exactly where it is cut. -/
theorem run_eof_iff (script : Script τ eof α) (input : List τ) :
    script.run (once whole eof) input = .error eof ↔ script.Cut input := by
  induction script generalizing input with
  | done a => exact iff_of_false (fun h => by cases h) id
  | fail e h => exact iff_of_false (fun he => h (Except.error.inj he)) id
  | read n k ih =>
    rw [run_whole, Script.Cut]
    by_cases hlt : input.length < n
    · rw [if_pos hlt]
      exact iff_of_true rfl (.inl hlt)
    · rw [if_neg hlt, ih]
      exact (or_iff_right hlt).symm

/-- The stream in pieces is read as the whole input is, and is taken to have ended only where it
has, exactly when each call fills its buffer or the input is cut. -/
theorem same_iff (hd : Delivers next left) (script : Script τ eof α) (s : σ) :
    (Same left (script.run (once next eof) s) (script.run (once whole eof) (left s)) ∧
      (script.run (once next eof) s = .error eof → script.Cut (left s))) ↔
    script.Filled next s ∨ script.Cut (left s) := by
  induction script generalizing s with
  | done a => exact iff_of_true ⟨.ok a s, fun h => by cases h⟩ (.inl trivial)
  | fail e h =>
    exact iff_of_true ⟨.error e, fun he => (h (Except.error.inj he)).elim⟩ (.inl trivial)
  | read n k ih =>
    obtain ⟨buf, s', hnext, hleft, hle, -⟩ := hd.call n s
    rw [run_read k hnext]
    by_cases hlt : buf.length < n
    · rw [if_pos hlt]
      constructor
      · exact fun h => .inr (h.2 rfl)
      · rintro (hfilled | hcut)
        · exact absurd (hfilled buf s' hnext).1 (Nat.ne_of_lt hlt)
        · refine ⟨?_, fun _ => hcut⟩
          rw [(run_eof_iff _ _).mpr hcut]
          exact .error eof
    · obtain rfl : buf.length = n := Nat.le_antisymm hle (Nat.le_of_not_lt hlt)
      have hlen : ¬ (left s).length < buf.length := by
        rw [hleft, List.length_append]
        omega
      have hfilled : (Script.read buf.length k).Filled next s ↔ (k buf).Filled next s' := by
        constructor
        · exact fun h => (h buf s' hnext).2
        · intro h b t hbt
          cases hnext.symm.trans hbt
          exact ⟨rfl, h⟩
      have hcut : (Script.read buf.length k).Cut (left s) ↔ (k buf).Cut (left s') := by
        rw [Script.Cut, or_iff_right hlen, hleft, List.take_left, List.drop_left]
      rw [if_neg hlt, run_whole, if_neg hlen, hfilled, hcut, hleft, List.take_left, List.drop_left]
      exact ih buf s'

end

end Janadinite.Reading
