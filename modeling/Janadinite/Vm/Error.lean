import Janadinite.Vm.Class

namespace Janadinite
set_option autoImplicit true

inductive VMError where
  | stackUnderflow
  | invalidLocal (index : UInt16)
  | invalidMain (msg : String)
  | invalidConstantPoolEntry (index : UInt16)
  | noSuchMethodInClass (name : String)
  | noSuchFieldInClass (name : String)
  | notStatic (name : String)
  | isAStatic (name : String)
  | noSuchClass (name : String)
  | corrupted (msg : String)
  | notAnObject
  | notAnArray
  | indexOutOfBounds (index : Int32)
  deriving DecidableEq, Repr

/-- Why a call does not return `Ok`. `abort` ends the process (no memory, too many references),
`deadlock` waits for a lock that the same thread holds, `undefined` follows a dangling pointer,
`outOfFuel` is a bound of this model that was too small, and `load` stands for a class that has to
be loaded before the instruction can go on. -/
inductive Stop where
  | error (e : VMError)
  | panic (msg : String)
  | abort
  | deadlock
  | undefined
  | outOfFuel
  | load (name : String)
  deriving DecidableEq, Repr

abbrev VM (σ : Type) := EStateM Stop σ

def fail (e : VMError) : VM σ α := throw (.error e)

def panicWith (msg : String) : VM σ α := throw (.panic msg)

def okOr (e : VMError) : Option α → VM σ α
  | some a => pure a
  | none => fail e

def expect (msg : String) : Option α → VM σ α
  | some a => pure a
  | none => panicWith msg

def unwrap (o : Option α) : VM σ α := expect "called `Option::unwrap()` on a `None` value" o

/-- Arithmetic under a profile, which may panic. -/
def checked (r : Except String α) : VM σ α :=
  match r with
  | .ok a => pure a
  | .error msg => panicWith msg

theorem okOr_ok {s s' : σ} (h : okOr e o s = .ok a s') : o = some a ∧ s' = s := by
  cases o with
  | none => cases h
  | some b =>
    cases h
    exact ⟨rfl, rfl⟩

theorem expect_ok {s s' : σ} (h : expect msg o s = .ok a s') : o = some a ∧ s' = s := by
  cases o with
  | none => cases h
  | some b =>
    cases h
    exact ⟨rfl, rfl⟩

theorem checked_ok {s s' : σ} (h : checked r s = .ok a s') : r = .ok a ∧ s' = s := by
  cases r with
  | error msg => cases h
  | ok b =>
    cases h
    exact ⟨rfl, rfl⟩

end Janadinite
