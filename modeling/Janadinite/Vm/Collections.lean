import Janadinite.Vm.Agreement
import Janadinite.Vm.Reclaimed

namespace Janadinite
open Coupling Runs Hoare ThreadContext
set_option autoImplicit true

structure Runtime.Agrees (r r' : Runtime) : Prop where
  table : r'.table = r.table
  context : r'.context = r.context
  store : r.store.Agrees r'.store

abbrev Runtime.Alike (m : VM Runtime α) : Prop :=
  Coupled Runtime.Agrees m (fun _ => Runtime.Agrees) Stop.Fault

/-- Two states in the middle of an instruction that may collect. -/
def Outset.Agrees (b : Outset) (temps : List Addr) (r r' : Runtime) : Prop :=
  r.Agrees r' ∧ (Framed b temps r ∧ r.Listed) ∧ Framed b temps r' ∧ r'.Listed

section
variable (p : Profile) {b : Outset}

end

namespace Machine

/-- Two runs of a program are at the same place, with stores that agree. -/
structure Agrees (m m' : Machine) : Prop where
  table : m'.table = m.table
  files : m'.files = m.files
  control : m'.control = m.control
  store : m.store.Agrees m'.store

/-- Two steps end alike: at one place, with one error, or one of them with a fault. -/
inductive Alike : Except Stop Machine → Except Stop Machine → Prop
  | steps (h : m.Agrees m') : Alike (.ok m) (.ok m')
  | stops (e : Stop) : Alike (.error e) (.error e)
  | left (he : e.Fault) : Alike (.error e) r
  | right (he : e.Fault) : Alike r (.error e)

def Sound (m : Machine) : Prop := m.Owned ∧ m.store.Listed

theorem Agrees.live {m m' : Machine} (h : m.Agrees m') : m'.live = m.live := by
  rw [Machine.live, Machine.live, h.control, h.table]

theorem Agrees.sound {m m' : Machine} (h : m.Agrees m') (hs : m.Sound) (hs' : m'.Sound) :
    m.store.Agrees m'.store ∧ m.store.Sound (refs m.live) ∧ m'.store.Sound (refs m.live) :=
  ⟨h.store, hs, h.live ▸ hs'.1, hs'.2⟩

/-- A run in which `main` makes so many steps. Between any two of them the GC thread may have woken
up, and there may have been a collection. -/
inductive Interspersed [FloatArith] (p : Profile) (path : ClassPath) (start : Machine) :
    Nat → Machine → Prop
  | start : Interspersed p path start 0 start
  | main (h : Interspersed p path start n m) (hn : m.next p path = .ok m') :
      Interspersed p path start (n + 1) m'
  | gcThread (h : Interspersed p path start n m) (hw : m.wakeGc p = some m') :
      Interspersed p path start n m'
  | collect (h : Interspersed p path start n m) (hc : Heap.collect p m.store = .ok ⟨⟩ s) :
      Interspersed p path start n { m with store := s }

/-- Nothing but the store has changed, and it only in what collections change. -/
structure Settled (m m' : Machine) : Prop where
  table : m'.table = m.table
  files : m'.files = m.files
  control : m'.control = m.control
  store : m.store.Settles m'.store

theorem Settled.trans {m m' m'' : Machine} (h : m.Settled m') (h' : m'.Settled m'') :
    m.Settled m'' :=
  ⟨h'.table.trans h.table, h'.files.trans h.files, h'.control.trans h.control,
    h.store.trans h'.store⟩

theorem Agrees.settle {m m' m₁ m₁' : Machine} (h : m.Agrees m') (hs : m.Settled m₁)
    (hs' : m'.Settled m₁') : m₁.Agrees m₁' where
  table := hs'.table.trans (h.table.trans hs.table.symm)
  files := hs'.files.trans (h.files.trans hs.files.symm)
  control := hs'.control.trans (h.control.trans hs.control.symm)
  store := h.store.settle hs.store hs'.store

theorem wakeGc_settled {m m' : Machine} (h : m.Sound) (hw : m.wakeGc p = some m') :
    m.Settled m' := by
  obtain ⟨hc, hf, ht⟩ := wakeGc_keeps hw
  refine ⟨ht, hf, hc, ?_⟩
  have hgc := tryGc_settles p (refs m.live) m.store h
  unfold wakeGc at hw
  split at hw
  · cases hrun : Heap.tryGc p m.store with
    | ok _ store =>
      rw [hrun] at hw hgc
      cases hw
      exact hgc.trans (.of_eq rfl rfl rfl)
    | error e store =>
      rw [hrun] at hw
      cases hw
      cases tryGc_error p h.1 hrun
      exact .of_eq rfl rfl rfl
  · cases hw

theorem Agrees.object {m m' : Machine} (h : m.Agrees m') (hs : m.Owned) (hs' : m'.Owned)
    (ha : a ∈ m.store.heap.objects) (ha' : a ∈ m'.store.heap.objects) :
    ∃ o o', m.store.memory a = some o ∧ m'.store.memory a = some o' ∧
      o'.kind = o.kind ∧ o'.data = o.data := by
  obtain ⟨o, ho⟩ := hs.allocated.get ha
  obtain ⟨o', ho'⟩ := hs'.allocated.get ha'
  exact ⟨o, o', ho, ho', h.store.objects a o o' ho ho'⟩

section
variable [FloatArith] {p : Profile} {path : ClassPath} {start : Machine}

theorem Interspersed.sound (h : Interspersed p path start n m) (hstart : start.Sound) :
    m.Sound := by
  induction h with
  | start => exact hstart
  | main _ hn ih =>
    have hl := next_listed p path ih.1 ih.2
    rw [hn] at hl
    exact ⟨step_owned (e := .main) ih.1 hn, hl⟩
  | gcThread _ hw ih => exact ⟨wakeGc_owned p ih.1 hw, wakeGc_listed p ih.1 ih.2 hw⟩
  | collect _ hc ih =>
    obtain ⟨s', hrun, _, hs'⟩ := collect_settles p _ ih
    cases hrun.symm.trans hc
    exact hs'

/-- The last step of `main`, after which there were only collections. -/
theorem Interspersed.last (h : Interspersed p path start n m) (hstart : start.Sound) :
    (n = 0 ∧ start.Settled m) ∨ ∃ k m₀ m₁, n = k + 1 ∧ Interspersed p path start k m₀ ∧
      m₀.next p path = .ok m₁ ∧ m₁.Settled m := by
  have step {n : Nat} {m m' : Machine} (hs : m.Settled m')
      (ih : (n = 0 ∧ start.Settled m) ∨ ∃ k m₀ m₁, n = k + 1 ∧ Interspersed p path start k m₀ ∧
        m₀.next p path = .ok m₁ ∧ m₁.Settled m) :
      (n = 0 ∧ start.Settled m') ∨ ∃ k m₀ m₁, n = k + 1 ∧ Interspersed p path start k m₀ ∧
        m₀.next p path = .ok m₁ ∧ m₁.Settled m' := by
    rcases ih with ⟨rfl, h⟩ | ⟨k, m₀, m₁, rfl, h₀, hn, h⟩
    · exact .inl ⟨rfl, h.trans hs⟩
    · exact .inr ⟨k, m₀, m₁, rfl, h₀, hn, h.trans hs⟩
  induction h with
  | start => exact .inl ⟨rfl, rfl, rfl, rfl, .refl _⟩
  | main h hn => exact .inr ⟨_, _, _, rfl, h, hn, rfl, rfl, rfl, .refl _⟩
  | gcThread h hw ih => exact step (wakeGc_settled (h.sound hstart) hw) ih
  | collect h hc ih =>
    obtain ⟨s', hrun, hs, _⟩ := collect_settles p _ (h.sound hstart)
    cases hrun.symm.trans hc
    apply step _ ih
    exact ⟨rfl, rfl, rfl, hs⟩

end

end Machine

end Janadinite
