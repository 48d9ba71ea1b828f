import Janadinite.Vm.Composed
import Janadinite.Vm.MachineOwned
import Janadinite.Vm.TableGrowth

namespace Janadinite
open Hoare Relation Runs
set_option autoImplicit true

/-- Whenever the computation returns it has only used the table. -/
def UsesTable (α : Type) (m : VM Runtime α) : Prop :=
  ∀ r a r', m r = .ok a r' → ReflTransGen ClassTable.Uses r.table r'.table

theorem onTable_uses {m : VM ClassTable α} (h : ∀ t a t', m t = .ok a t' → t.Uses t') :
    UsesTable α (onTable m) := by
  intro r a r' hr
  obtain ⟨t, ht, rfl⟩ := onTable_ok hr
  exact .single (h r.table a t ht)

theorem usesTable_composes : Composes (fun _ _ => True) UsesTable where
  pure a r a' r' h := by
    cases h
    exact .refl
  bind hm hf r b r' h := by
    obtain ⟨a, r₁, h₁, h₂⟩ := bind_ok h
    exact (hm r a r₁ h₁).trans (hf a r₁ b r' h₂)
  reads hf _ r b r' h := hf r r b r' h
  looks a _ hf _ r b r' h := by
    obtain ⟨o, r₁, h₁, h₂⟩ := bind_ok h
    obtain ⟨s, _, rfl⟩ := onStore_ok h₁
    exact hf o { r with store := s } b r' h₂
  context f r a r' h := by
    cases h
    exact .refl
  fail e r a r' h := by cases h
  panics msg _ r a r' h := by cases h
  onStore _ r a r' h := by
    obtain ⟨s, _, rfl⟩ := onStore_ok h
    exact .refl
  classRef cls refIdx := onTable_uses fun _ _ _ h => .class h
  arrayRef cls refIdx := onTable_uses fun _ _ _ h => .classOrArray h
  methodRef cls refIdx := onTable_uses fun _ _ _ h => .method h
  fieldRef cls refIdx := onTable_uses fun _ _ _ h => .field h
  setStatic cls off k slot r a r' h := by
    cases h
    exact .single (.static cls off k slot)

/-- An instruction that returns has only used the table. -/
theorem execute_uses [FloatArith] {r r' : Runtime} (h : execute p cls lastPc op r = .ok o r') :
    ReflTransGen ClassTable.Uses r.table r'.table := by
  have hs : StoreParts p fun _ _ => True := by constructor <;> intros <;> trivial
  have harrays : ArrayParts p fun _ _ => True := by constructor <;> intros <;> trivial
  have ha : AllocationParts p fun _ _ => True := by
    refine ⟨harrays, ?_, ?_, ?_⟩ <;> intros <;> trivial
  exact usesTable_composes.execute hs (fun _ => ha) cls lastPc r o r' h

namespace ClassTable

theorem Grown.used {t t' : ClassTable} (h : Grown p t) (hu : ReflTransGen Uses t t') :
    Grown p t' := by
  induction hu with
  | refl => exact h
  | tail _ hu ih => exact .tail ih (.used hu)

theorem uses_length {t t' : ClassTable} (h : ReflTransGen Uses t t') :
    t'.classes.length = t.classes.length := by
  induction h with
  | refl => rfl
  | tail _ hu ih => exact hu.keeps.length.trans ih

end ClassTable

mutual

def CodeCaller.initialising : CodeCaller → List ClassRef
  | .main => []
  | .invoke _ caller => caller.initialising
  | .clinit cls caller => cls :: caller.initialising

def LoadCaller.initialising : LoadCaller → List ClassRef
  | .open => []
  | .perform _ _ _ caller => caller.initialising
  | .superClass _ _ caller => caller.initialising

end

/-- The classes that are returned to who asked for them, now or after their `<clinit>`. -/
def Control.returning : Control → List ClassRef
  | .run _ _ caller => caller.initialising
  | .perform _ _ _ caller => caller.initialising
  | .load _ caller => caller.initialising
  | .loaded cls caller => cls :: caller.initialising
  | .finished _ => []

namespace Machine
open ClassTable

/-- The table has come about by what `Evolves` lists, and holds the classes that are returned. -/
structure Grows (p : Profile) (m : Machine) : Prop where
  grown : Grown p m.table
  returning : ∀ c ∈ m.control.returning, c < m.table.classes.length

section
variable {p : Profile} {path : ClassPath} {m : Machine}

theorem Grows.used {t : ClassTable} {s : Store} {next : Control} (h : m.Grows p)
    (hu : ReflTransGen Uses m.table t)
    (hc : ∀ c ∈ next.returning, c ∈ m.control.returning) :
    Grows p { m with table := t, store := s, control := next } where
  grown := h.grown.used hu
  returning c hmem := uses_length hu ▸ h.returning c (hc c hmem)

theorem Grows.made {superClass : Option ClassRef} {next : Control} (h : m.Grows p)
    (hmk : Making path m name cls superClass caller)
    (hv : VMClass.create p cls (superClass.map fun c => (c, m.table.get c)) = .ok v)
    (hc : ∀ c ∈ next.returning, c = m.table.classes.length ∨ c ∈ caller.initialising) :
    (m.withClass name cls v next).Grows p := by
  have hlength : (m.table.classes ++ [v]).length = m.table.classes.length + 1 :=
    List.length_append
  have hparts : m.table.lookup name = none ∧
      (∀ s, superClass = some s → s < m.table.classes.length) ∧
      ∀ c ∈ caller.initialising, c < m.table.classes.length := by
    cases hmk with
    | root hm hl =>
      have hr := h.returning
      rw [hm, Control.returning] at hr
      refine ⟨hl, ?_, hr⟩
      intro s hs
      cases hs
    | derived hm hl =>
      have hr := h.returning
      rw [hm, Control.returning, LoadCaller.initialising] at hr
      refine ⟨hl, ?_, fun c hmem => hr c (List.mem_cons_of_mem _ hmem)⟩
      intro s hs
      cases hs
      exact hr _ List.mem_cons_self
  obtain ⟨hnone, hs, hr⟩ := hparts
  constructor
  · exact .tail h.grown (.added hnone hs hv)
  · intro c hmem
    change c < (m.table.classes ++ [v]).length
    rw [hlength]
    rcases hc c hmem with rfl | hmem
    · exact Nat.lt_add_one _
    · exact Nat.lt_succ_of_lt (hr c hmem)

end

section
variable [FloatArith] {p : Profile} {path : ClassPath} {m m' : Machine}

theorem Returning.uses {r : Runtime} (h : Returning p m result r caller) :
    ReflTransGen Uses m.table r.table := by
  cases h with
  | codeEnds _ _ ht =>
    rw [ht]
  | instruction _ hx => exact execute_uses hx

theorem Returning.initialising {r : Runtime} (h : Returning p m result r caller) :
    m.control.returning = caller.initialising := by
  cases h with
  | codeEnds hm => rw [hm, Control.returning]
  | instruction hm => rw [hm, Control.returning]

theorem advances_grows (h : m.Grows p) (ha : Advances p path m m') : m'.Grows p := by
  have hr := h.returning
  cases ha with
  | fetch hm hop hs =>
    apply h.used .refl
    rw [hm]
    exact fun _ hc => hc
  | next hm hx | jump hm hx | call hm hx =>
    apply h.used (execute_uses hx)
    rw [hm]
    exact fun _ hc => hc
  | needs hm hx =>
    apply h.used .refl
    rw [hm]
    exact fun _ hc => hc
  | finish hret hd =>
    apply h.used hret.uses
    intro c hc
    cases hc
  | leave hret hl =>
    rw [(leaveFrame_ok hl).1]
    apply h.used hret.uses
    rw [hret.initialising]
    exact fun _ hc => hc
  | endClinit hret hd =>
    apply h.used hret.uses
    rw [hret.initialising]
    exact fun _ hc => hc
  | found hm hl =>
    refine ⟨h.grown, ?_⟩
    rw [hm] at hr
    intro c hc
    rcases List.mem_cons.mp hc with rfl | hc
    · exact h.grown.sound.lookup _ c hl
    · exact hr c hc
  | superclass hm hl hp hs =>
    apply h.used .refl
    rw [hm]
    exact fun _ hc => hc
  | create hmk hv hc =>
    apply h.made hmk hv
    exact fun _ hmem => List.mem_cons.mp hmem
  | startClinit hmk hv hc hcode =>
    apply h.made hmk hv
    exact fun _ hmem => List.mem_cons.mp hmem
  | startMain hm hmain hs hcode =>
    apply h.used .refl
    intro c hc
    cases hc
  | resume hm =>
    apply h.used .refl
    rw [hm]
    exact fun _ hc => List.mem_cons_of_mem _ hc
  | superFound hm hl =>
    refine ⟨h.grown, ?_⟩
    rw [hm] at hr
    intro c hc
    rcases List.mem_cons.mp hc with rfl | hc
    · exact h.grown.sound.lookup _ c hl
    · exact hr c (List.mem_cons_of_mem _ hc)
  | idle hm => exact h

omit [FloatArith] in
theorem opened_grows (h : Opened m) : m.Grows p := by
  cases h
  refine ⟨.refl, ?_⟩
  intro c hc
  cases hc

theorem step_grows (h : m.Grows p) (hs : Step p path m e m') : m'.Grows p := by
  cases e with
  | main => exact advances_grows h (next_advances hs)
  | gcThread =>
    obtain ⟨hcontrol, _, htable⟩ := wakeGc_keeps hs
    constructor
    · rw [htable]
      exact h.grown
    · rw [hcontrol, htable]
      exact h.returning

/-- Whatever is done by a virtual machine, its table comes about by what `Evolves` lists. -/
theorem reaches_grows (h : Reaches (Step p path) Ok Opened m) : m.Grows p :=
  h.invariant (fun _ => opened_grows) fun _ _ _ hi _ hs => step_grows hi hs

end

end Machine

end Janadinite
