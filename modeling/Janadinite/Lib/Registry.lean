import Mathlib.Data.List.Nodup

namespace Janadinite.Registry
set_option autoImplicit true

/-- Whether a thread gets a value that it finds, or the value that it has made itself. -/
inductive Via where
  | found
  | made
  deriving DecidableEq, Repr

/-- What is done to a registry. The initialisation of a value begins and is done; a plain value has
none. -/
inductive Entry (κ α : Type) where
  | put (key : κ) (value : α)
  | plain (value : α)
  | begun (value : α)
  | done (value : α)
  | got (thread : Nat) (via : Via) (key : κ) (value : α)
  deriving DecidableEq, Repr

/-- The histories of a registry, newest entry first. -/
inductive History {κ α : Type} : List (Entry κ α) → Prop
  | start : History []
  | put (h : History log) (hkey : ∀ v, Entry.put key v ∉ log)
      (hvalue : ∀ k, Entry.put k value ∉ log) :
      History (.put key value :: log)
  | plain (h : History log) (hput : .put key value ∈ log) (hnew : .begun value ∉ log) :
      History (.plain value :: log)
  | begun (h : History log) (hput : .put key value ∈ log) (hplain : .plain value ∉ log)
      (hnew : .begun value ∉ log) : History (.begun value :: log)
  | done (h : History log) (hbegun : .begun value ∈ log) : History (.done value :: log)
  | found (h : History log) (hput : .put key value ∈ log) :
      History (.got t .found key value :: log)
  | made (h : History log) (hput : .put key value ∈ log)
      (hready : .plain value ∈ log ∨ .done value ∈ log) : History (.got t .made key value :: log)

/-- The keys under which something was put. -/
def keys (log : List (Entry κ α)) : List κ :=
  log.filterMap fun
    | .put key _ => some key
    | _ => none

def started (log : List (Entry κ α)) : List α :=
  log.filterMap fun
    | .begun value => some value
    | _ => none

theorem mem_keys {log : List (Entry κ α)} : key ∈ keys log ↔ ∃ v, .put key v ∈ log := by
  simp only [keys, List.mem_filterMap]
  constructor
  · rintro ⟨e, he, hk⟩
    split at hk
    · cases hk
      exact ⟨_, he⟩
    · cases hk
  · rintro ⟨v, hv⟩
    exact ⟨_, hv, rfl⟩

theorem mem_started {log : List (Entry κ α)} : value ∈ started log ↔ .begun value ∈ log := by
  simp only [started, List.mem_filterMap]
  constructor
  · rintro ⟨e, he, hk⟩
    split at hk
    · cases hk
      exact he
    · cases hk
  · intro hv
    exact ⟨_, hv, rfl⟩

namespace History
variable {log : List (Entry κ α)}

theorem keys_nodup (h : History log) : (keys log).Nodup := by
  induction h with
  | start => exact List.nodup_nil
  | put h hkey hvalue ih =>
    have hnew := fun hk => (mem_keys.mp hk).elim hkey
    exact List.nodup_cons.mpr ⟨hnew, ih⟩
  | plain h hput hnew ih => exact ih
  | begun h hput hplain hnew ih => exact ih
  | done h hbegun ih => exact ih
  | found h hput ih => exact ih
  | made h hput hready ih => exact ih

theorem started_nodup (h : History log) : (started log).Nodup := by
  induction h with
  | start => exact List.nodup_nil
  | put h hkey hvalue ih => exact ih
  | plain h hput hnew ih => exact ih
  | begun h hput hplain hnew ih =>
    exact List.nodup_cons.mpr ⟨fun hb => hnew (mem_started.mp hb), ih⟩
  | done h hbegun ih => exact ih
  | found h hput ih => exact ih
  | made h hput hready ih => exact ih

theorem tail (h : History (e :: log)) : History log := by
  cases h <;> assumption

theorem suffix (h : History (post ++ log)) : History log := by
  induction post with
  | nil => exact h
  | cons e post ih => exact ih h.tail

theorem plain_put (h : History log) (hv : .plain value ∈ log) : ∃ key, .put key value ∈ log := by
  induction h with
  | plain h hput hnew ih =>
    rcases List.mem_cons.mp hv with e | m
    · cases e
      exact ⟨_, .tail _ hput⟩
    · exact (ih m).imp fun _ hk => .tail _ hk
  | start => cases hv
  | _ =>
    rename_i ih
    simp only [List.mem_cons, reduceCtorEq, false_or] at hv
    exact (ih hv).imp fun _ hk => .tail _ hk

theorem begun_put (h : History log) (hv : .begun value ∈ log) : ∃ key, .put key value ∈ log := by
  induction h with
  | begun h hput hplain hnew ih =>
    rcases List.mem_cons.mp hv with e | m
    · cases e
      exact ⟨_, .tail _ hput⟩
    · exact (ih m).imp fun _ hk => .tail _ hk
  | start => cases hv
  | _ =>
    rename_i ih
    simp only [List.mem_cons, reduceCtorEq, false_or] at hv
    exact (ih hv).imp fun _ hk => .tail _ hk

theorem got_put (h : History (post ++ .got t via key value :: log)) : .put key value ∈ log := by
  cases h.suffix <;> assumption

/-- What a thread has made it gets only when its initialisation, if it has one, is done. -/
theorem made_ready (h : History (post ++ .got t .made key value :: log)) :
    .plain value ∈ log ∨ .done value ∈ log := by
  cases h.suffix
  assumption

end History

end Janadinite.Registry
