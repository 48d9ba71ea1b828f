import Janadinite.Vm.Built
import Janadinite.Vm.ClassLoading

namespace Janadinite.ClassLoading
open Runs Registry Lock
set_option autoImplicit true

abbrev Log := List (Entry String ClassRef)

/-- `superClass` is the class registered under the name, if there is a name. -/
def SuperRegistered (log : Log) (superName : String) : Option ClassRef → Prop
  | none => superName = ""
  | some s => superName ≠ "" ∧ .put superName s ∈ log

/-- A class was made from the file of its name and the class registered as its superclass. -/
def MadeFrom (path : ClassPath) (log : Log) (name : String) (v : VMClass) : Prop :=
  (name = VMClass.javaLangObject.name ∧ v = .javaLangObject) ∨
    ∃ cls, path name = some (.ok cls) ∧ SuperRegistered log cls.superName v.superClass

mutual

/-- The code of a `<clinit>` runs for the class that was put under the name asked for. -/
def CodeCaller.Sound (path : ClassPath) (log : Log) : CodeCaller → Prop
  | .thread => True
  | .clinit c caller => .put caller.name c ∈ log ∧ .begun c ∈ log ∧ caller.Sound path log

def LoadCaller.Sound (path : ClassPath) (log : Log) : LoadCaller → Prop
  | .request _ caller => caller.Sound path log
  | .superClass cls caller =>
    path caller.name = some (.ok cls) ∧ cls.superName ≠ "" ∧ caller.Sound path log

end

def Thread.Sound (path : ClassPath) (log : Log) : Thread → Prop
  | .running caller => caller.Sound path log
  | .looking _ caller => caller.Sound path log
  | .missed _ caller => caller.Sound path log
  | .loading caller => caller.Sound path log
  | .creating cls superClass caller =>
    path caller.name = some (.ok cls) ∧ SuperRegistered log cls.superName superClass ∧
      caller.Sound path log
  | .superLoaded superClass cls caller =>
    path caller.name = some (.ok cls) ∧ cls.superName ≠ "" ∧
      .put cls.superName superClass ∈ log ∧ caller.Sound path log
  | .died => True

theorem SuperRegistered.mono (h : SuperRegistered log superName superClass) (hl : log ⊆ log') :
    SuperRegistered log' superName superClass := by
  cases superClass with
  | none => exact h
  | some s => exact ⟨h.1, hl h.2⟩

theorem MadeFrom.mono (h : MadeFrom path log name v) (hl : log ⊆ log') :
    MadeFrom path log' name v := by
  rcases h with h | ⟨cls, hfile, hsuper⟩
  · exact .inl h
  · exact .inr ⟨cls, hfile, hsuper.mono hl⟩

mutual

theorem CodeCaller.Sound.mono {caller : CodeCaller} (h : caller.Sound path log)
    (hl : log ⊆ log') : caller.Sound path log' := by
  cases caller with
  | thread => trivial
  | clinit c caller =>
    obtain ⟨hput, hbegun, hs⟩ := h
    exact ⟨hl hput, hl hbegun, LoadCaller.Sound.mono hs hl⟩

theorem LoadCaller.Sound.mono {caller : LoadCaller} (h : caller.Sound path log)
    (hl : log ⊆ log') : caller.Sound path log' := by
  cases caller with
  | request name caller =>
    have hs : caller.Sound path log := h
    exact CodeCaller.Sound.mono hs hl
  | superClass cls caller =>
    obtain ⟨hfile, hname, hs⟩ := h
    exact ⟨hfile, hname, LoadCaller.Sound.mono hs hl⟩

end

theorem Thread.Sound.mono {s : Thread} (h : s.Sound path log) (hl : log ⊆ log') :
    s.Sound path log' := by
  cases s with
  | running caller =>
    have hs : caller.Sound path log := h
    exact hs.mono hl
  | looking name caller =>
    have hs : caller.Sound path log := h
    exact hs.mono hl
  | missed name caller =>
    have hs : caller.Sound path log := h
    exact hs.mono hl
  | loading caller =>
    have hs : caller.Sound path log := h
    exact hs.mono hl
  | creating cls superClass caller =>
    obtain ⟨hfile, hsuper, hs⟩ := h
    exact ⟨hfile, hsuper.mono hl, hs.mono hl⟩
  | superLoaded superClass cls caller =>
    obtain ⟨hfile, hname, hput, hs⟩ := h
    exact ⟨hfile, hname, hl hput, hs.mono hl⟩
  | died => trivial

/-- The map holds exactly what was put into it, and only the thread that has the write guard relies
on a name not being there. -/
structure Inv (path : ClassPath) (w : World) : Prop where
  history : History w.log
  table : ∀ name c, w.table.lookup name = some c ↔ .put name c ∈ w.log
  bound : ∀ name c, .put name c ∈ w.log → c < w.table.classes.length
  made : ∀ name c, .put name c ∈ w.log → MadeFrom path w.log name (w.table.get c)
  plain : ∀ c, .plain c ∈ w.log →
    (w.table.get c).methodByName "<clinit>" (some "()V") = none
  guarded : Guarded Thread.holds w.writer w.threads
  threads : ∀ (t : Nat) s, w.threads[t]? = some s → s.Sound path w.log
  fresh : ∀ (t : Nat) cls superClass caller,
    w.threads[t]? = some (.creating cls superClass caller) →
      w.table.lookup caller.name = none

theorem Inv.initial : Inv path .initial where
  history := .plain (.put .start nofun nofun) (.head _) nofun
  table name c := by
    simp only [World.initial, ClassTable.fromClassPath, ClassTable.lookup, List.lookup_cons,
      List.lookup_nil]
    by_cases hn : name = VMClass.javaLangObject.name
    · subst hn
      simp [eq_comm]
    · simp [hn, beq_false_of_ne hn]
  bound name c h := by
    simp only [World.initial, List.mem_cons, reduceCtorEq, false_or, Entry.put.injEq,
      List.not_mem_nil, or_false] at h
    exact h.2 ▸ Nat.zero_lt_one
  made name c h := by
    simp only [World.initial, List.mem_cons, reduceCtorEq, false_or, Entry.put.injEq,
      List.not_mem_nil, or_false] at h
    obtain ⟨rfl, rfl⟩ := h
    exact .inl ⟨rfl, rfl⟩
  plain c h := by
    simp only [World.initial, List.mem_cons, reduceCtorEq, or_false, Entry.plain.injEq,
      List.not_mem_nil] at h
    subst h
    decide
  guarded := .start
  threads := nofun
  fresh := nofun

theorem World.setThread_setThread (w : World) (s : Thread) :
    (w.setThread t s).setThread t s' = w.setThread t s' := by
  simp only [World.setThread, List.set_set]

theorem World.deliver_setThread (w : World) (s : Thread) :
    (w.setThread t s).deliver t via c caller = w.deliver t via c caller := by
  cases caller <;> exact World.setThread_setThread (w.record (.got t via _ c)) s

theorem World.setThread_get {w : World} {t u : Nat} {s r : Thread}
    (hr : (w.setThread t s).threads[u]? = some r) :
    u = t ∧ r = s ∨ u ≠ t ∧ w.threads[u]? = some r := by
  simp only [World.setThread, List.getElem?_set] at hr
  split at hr
  · rename_i htu
    split at hr <;> cases hr
    exact .inl ⟨htu.symm, rfl⟩
  · rename_i htu
    exact .inr ⟨Ne.symm htu, hr⟩

theorem World.insert_get_old {w : World} (name : String) (v : VMClass)
    (hc : c < w.table.classes.length) : (w.insert name v).table.get c = w.table.get c := by
  simp only [World.insert, ClassTable.get, List.getD_eq_getElem?_getD,
    List.getElem?_append_left hc]

theorem World.insert_get_new (w : World) (name : String) (v : VMClass) :
    (w.insert name v).table.get w.table.classes.length = v := by
  simp [World.insert, ClassTable.get, List.getD_eq_getElem?_getD]

theorem World.put_mem_insert {w : World} {name : String} (v : VMClass) :
    .put name' c ∈ (w.insert name v).log ↔
      (name' = name ∧ c = w.table.classes.length) ∨ .put name' c ∈ w.log := by
  simp only [World.insert, World.record, World.release, List.mem_cons, Entry.put.injEq]

namespace Inv
variable {w : World} {t : Nat} {s s' : Thread} {caller : LoadCaller} {c : ClassRef}

theorem set (h : Inv path w) (hg : Guarded Thread.holds writer (w.threads.set t s'))
    (hs : s'.Sound path w.log)
    (hf : ∀ cls superClass caller, s' = .creating cls superClass caller →
      w.table.lookup caller.name = none) :
    Inv path ({ w with writer }.setThread t s') where
  history := h.history
  table := h.table
  bound := h.bound
  made := h.made
  plain := h.plain
  guarded := hg
  threads u r hr := by
    rcases World.setThread_get hr with ⟨-, rfl⟩ | ⟨-, hr⟩
    · exact hs
    · exact h.threads u r hr
  fresh u cls superClass caller hr := by
    rcases World.setThread_get hr with ⟨-, he⟩ | ⟨-, hr⟩
    · exact hf _ _ _ he.symm
    · exact h.fresh u cls superClass caller hr

/-- A thread goes on without the write guard, which it drops if it has it. -/
theorem leave (h : Inv path w) (ht : w.threads[t]? = some s) (hh : s'.holds = false)
    (hs : s'.Sound path w.log) :
    Inv path ({ w with writer := if s.holds then none else w.writer }.setThread t s') := by
  apply h.set (h.guarded.leave ht hh) hs
  rintro cls superClass caller rfl
  cases hh

theorem acquire (h : Inv path w) (hw : w.writer = none) (ht : w.threads[t]? = some s)
    (hh : s'.holds = true) (hs : s'.Sound path w.log)
    (hf : ∀ cls superClass caller, s' = .creating cls superClass caller →
      w.table.lookup caller.name = none) :
    Inv path ({ w with writer := some t }.setThread t s') := by
  have hg := h.guarded
  rw [hw] at hg
  exact h.set (hg.acquire ht hh) hs hf

theorem keep (h : Inv path w) (ht : w.threads[t]? = some s) (hh : s.holds = true)
    (hh' : s'.holds = true) (hs : s'.Sound path w.log)
    (hf : ∀ cls superClass caller, s' = .creating cls superClass caller →
      w.table.lookup caller.name = none) : Inv path (w.setThread t s') :=
  h.set (h.guarded.keep ht hh hh') hs hf

theorem record (h : Inv path w) (hh : History (e :: w.log))
    (hput : ∀ name c, e ≠ .put name c)
    (hplain : ∀ c, e = .plain c →
      (w.table.get c).methodByName "<clinit>" (some "()V") = none) :
    Inv path (w.record e) where
  history := hh
  table name c := by
    have hne := (hput name c).symm
    simp only [World.record, List.mem_cons, hne, false_or]
    exact h.table name c
  bound name c hm := by
    have hold := List.mem_of_ne_of_mem (hput name c).symm hm
    exact h.bound name c hold
  made name c hm := by
    have hold := List.mem_of_ne_of_mem (hput name c).symm hm
    exact (h.made name c hold).mono (List.subset_cons_self _ _)
  plain c hm := by
    rcases List.mem_cons.mp hm with he | hold
    · exact hplain c he.symm
    · exact h.plain c hold
  guarded := h.guarded
  threads u r hr := (h.threads u r hr).mono (List.subset_cons_self _ _)
  fresh := h.fresh

theorem deliver (h : Inv path w) (ht : w.threads[t]? = some s)
    (hput : .put caller.name c ∈ w.log)
    (hready : via = .made → .plain c ∈ w.log ∨ .done c ∈ w.log) (hs : caller.Sound path w.log) :
    Inv path ({ w with writer := if s.holds then none else w.writer }.deliver t via c caller) := by
  have hh : History (.got t via caller.name c :: w.log) := by
    cases via with
    | found => exact .found h.history hput
    | made => exact .made h.history hput (hready rfl)
  have hrec := h.record hh (by simp) (by simp)
  have hsub : w.log ⊆ .got t via caller.name c :: w.log := List.subset_cons_self _ _
  cases caller with
  | request name caller =>
    have hs : caller.Sound path w.log := hs
    have hrun : (Thread.running caller).Sound path (.got t via name c :: w.log) := hs.mono hsub
    exact hrec.leave ht rfl hrun
  | superClass cls caller =>
    obtain ⟨hfile, hname, hs⟩ := hs
    have hwait :
      (Thread.superLoaded c cls caller).Sound path (.got t via cls.superName c :: w.log) :=
      ⟨hfile, hname, hsub hput, hs.mono hsub⟩
    exact hrec.leave ht rfl hwait

theorem fail (h : Inv path w) (ht : w.threads[t]? = some s) : ∀ caller,
    Inv path ({ w with writer := if s.holds then none else w.writer }.fail t caller)
  | .request _ .thread => h.leave ht rfl trivial
  | .request _ (.clinit ..) => h.leave ht rfl trivial
  | .superClass _ caller => fail h ht caller

theorem died (h : Inv path w) (ht : w.threads[t]? = some s) :
    Inv path ({ w with writer := if s.holds then none else w.writer }.setThread t .died) :=
  h.leave ht rfl trivial

theorem poison (h : Inv path w) (ht : w.threads[t]? = some s) (hh : s.holds = true) :
    Inv path (w.poison t) := by
  have hdied := h.died ht
  rw [if_pos hh] at hdied
  exact ⟨hdied.history, hdied.table, hdied.bound, hdied.made, hdied.plain, hdied.guarded,
    hdied.threads, hdied.fresh⟩

theorem not_put (h : Inv path w) (hnone : w.table.lookup name = none) (c : ClassRef) :
    .put name c ∉ w.log := by
  intro hm
  rw [(h.table name c).mpr hm] at hnone
  cases hnone

theorem insert_table (h : Inv path w) (hnone : w.table.lookup name' = none) (v : VMClass)
    (name : String) (c : ClassRef) :
    (w.insert name' v).table.lookup name = some c ↔ .put name c ∈ (w.insert name' v).log := by
  change List.lookup name ((name', w.table.classes.length) :: w.table.loaded) = some c ↔ _
  rw [World.put_mem_insert, List.lookup_cons]
  by_cases hn : name = name'
  · subst hn
    simp [h.not_put hnone, eq_comm]
  · rw [beq_false_of_ne hn]
    simp only [hn, false_and, false_or]
    exact h.table name c

theorem insert (h : Inv path w) (ht : w.threads[t]? = some (.creating cls superClass caller))
    (hv : v.superClass = superClass) :
    Inv path ((w.insert caller.name v).setThread t .died) := by
  obtain ⟨hfile, hsuper, hs⟩ := h.threads t _ ht
  have hnone := h.fresh t cls superClass caller ht
  have hsub : w.log ⊆ .put caller.name w.table.classes.length :: w.log :=
    List.subset_cons_self _ _
  refine ⟨?_, h.insert_table hnone v, ?_, ?_, ?_, ?_, ?_, ?_⟩
  · apply h.history.put (h.not_put hnone)
    exact fun name hm => Nat.lt_irrefl _ (h.bound name _ hm)
  · intro name c hm
    change c < (w.table.classes ++ [v]).length
    rw [List.length_append]
    rcases (World.put_mem_insert v).mp hm with ⟨-, rfl⟩ | hm
    · exact Nat.lt_succ_self _
    · exact Nat.lt_succ_of_lt (h.bound name c hm)
  · intro name c hm
    change MadeFrom path _ name ((w.insert caller.name v).table.get c)
    rcases (World.put_mem_insert v).mp hm with ⟨rfl, rfl⟩ | hm
    · rw [World.insert_get_new]
      exact .inr ⟨cls, hfile, hv ▸ hsuper.mono hsub⟩
    · rw [World.insert_get_old _ v (h.bound name c hm)]
      exact (h.made name c hm).mono hsub
  · intro c hm
    have hm : .plain c ∈ w.log := List.mem_of_ne_of_mem (by simp) hm
    obtain ⟨name, hput⟩ := h.history.plain_put hm
    change ((w.insert caller.name v).table.get c).methodByName _ _ = none
    rw [World.insert_get_old _ v (h.bound name c hput)]
    exact h.plain c hm
  · have hg : Guarded Thread.holds none (w.threads.set t .died) := h.guarded.leave ht rfl
    exact hg
  · intro u r hr
    rcases World.setThread_get hr with ⟨-, rfl⟩ | ⟨-, hr⟩
    · trivial
    · exact (h.threads u r hr).mono hsub
  · intro u cls' superClass' caller' hr
    rcases World.setThread_get hr with ⟨-, he⟩ | ⟨htu, hr⟩
    · cases he
    · exact absurd (h.guarded.exclusive ht rfl hr rfl) htu.symm

theorem lookUp (h : Inv path w) (ht : w.threads[t]? = some (.looking name code)) :
    Inv path (w.lookUp t name code) := by
  have hs : code.Sound path w.log := h.threads t _ ht
  unfold World.lookUp
  split
  · exact h.died ht
  · split
    · rename_i c hc
      have hput := (h.table name c).mp hc
      exact h.deliver ht hput nofun hs
    · exact h.leave ht rfl hs

theorem lookAgain (h : Inv path w) (hw : w.writer = none)
    (ht : w.threads[t]? = some (.missed name code)) : Inv path (w.lookAgain t name code) := by
  have hs : code.Sound path w.log := h.threads t _ ht
  unfold World.lookAgain
  split
  · exact h.died ht
  · split
    · rename_i c hc
      have hput := (h.table name c).mp hc
      exact h.deliver ht hput nofun hs
    · exact h.acquire hw ht rfl hs nofun

theorem load (h : Inv path w) (ht : w.threads[t]? = some (.loading caller)) :
    Inv path (w.load path t caller) := by
  have hs : caller.Sound path w.log := h.threads t _ ht
  unfold World.load
  cases hc : w.table.lookup caller.name with
  | some c =>
    have hput := (h.table _ c).mp hc
    exact h.deliver ht hput nofun hs
  | none =>
    cases hp : path caller.name with
    | none => exact h.fail ht caller
    | some file =>
      rcases file with (e | msg) | cls
      · exact h.fail ht caller
      · exact h.poison ht rfl
      · dsimp only
        split
        · rename_i hname
          have hcreate : (Thread.creating cls none caller).Sound path w.log := ⟨hp, hname, hs⟩
          apply h.keep ht rfl rfl hcreate
          intro cls superClass caller heq
          cases heq
          exact hc
        · rename_i hname
          have hload : (Thread.loading (.superClass cls caller)).Sound path w.log :=
            ⟨hp, hname, hs⟩
          exact h.keep ht rfl rfl hload nofun

theorem relock (h : Inv path w) (hw : w.writer = none)
    (ht : w.threads[t]? = some (.superLoaded superClass cls caller)) :
    Inv path (w.relock t superClass cls caller) := by
  obtain ⟨hfile, hname, hput, hs⟩ := h.threads t _ ht
  unfold World.relock
  split
  · exact h.died ht
  · cases hc : w.table.lookup caller.name with
    | some c =>
      have hput := (h.table _ c).mp hc
      exact h.deliver ht hput nofun hs
    | none =>
      have hcreate : (Thread.creating cls (some superClass) caller).Sound path w.log :=
        ⟨hfile, ⟨hname, hput⟩, hs⟩
      apply h.acquire hw ht rfl hcreate
      intro cls superClass caller heq
      cases heq
      exact hc

theorem create (h : Inv path w) (ht : w.threads[t]? = some (.creating cls superClass caller)) :
    Inv path (w.create p t cls superClass caller) := by
  obtain ⟨-, -, hs⟩ := h.threads t _ ht
  unfold World.create
  cases hv : VMClass.create p cls (superClass.map fun c => (c, w.table.get c)) with
  | error e =>
    cases e with
    | error e => exact h.fail ht caller
    | panic msg => exact h.poison ht rfl
  | ok v =>
    obtain ⟨_, _, _, hparts⟩ := create_parts hv
    have hsuper : v.superClass = superClass := by
      rw [hparts.superClass, Option.map_map]
      exact Option.map_id'
    have hins := h.insert ht hsuper
    have hdied : ((w.insert caller.name v).setThread t .died).threads[t]? = some .died := by
      have hlt := (List.getElem?_eq_some_iff.mp ht).1
      exact List.getElem?_set_self hlt
    have hput : .put caller.name w.table.classes.length ∈ (w.insert caller.name v).log := .head _
    have hs' := hs.mono (List.subset_cons_self (.put caller.name w.table.classes.length) w.log)
    have hbegun : .begun w.table.classes.length ∉ (w.insert caller.name v).log := by
      intro hm
      obtain ⟨name, hold⟩ := h.history.begun_put (List.mem_of_ne_of_mem (by simp) hm)
      exact Nat.lt_irrefl _ (h.bound name _ hold)
    have hplain : .plain w.table.classes.length ∉ (w.insert caller.name v).log := by
      intro hm
      obtain ⟨name, hold⟩ := h.history.plain_put (List.mem_of_ne_of_mem (by simp) hm)
      exact Nat.lt_irrefl _ (h.bound name _ hold)
    dsimp only
    cases hm : v.methodByName "<clinit>" (some "()V") with
    | none =>
      have hh := History.plain hins.history hput hbegun
      have hrec := hins.record hh (by simp) fun c hc => by
        cases hc
        exact (World.insert_get_new w caller.name v).symm ▸ hm
      have hs'' := hs'.mono (List.subset_cons_self (.plain w.table.classes.length) _)
      rw [← World.deliver_setThread _ .died]
      exact hrec.deliver hdied (.tail _ hput) (fun _ => .inl (.head _)) hs''
    | some clinit =>
      dsimp only
      cases hcode : clinit.method.code with
      | none => exact hins
      | some code =>
        have hh := History.begun hins.history hput hplain hbegun
        have hrec := hins.record hh (by simp) (by simp)
        have hs'' := hs'.mono (List.subset_cons_self (.begun w.table.classes.length) _)
        have hclinit : (Thread.running (.clinit w.table.classes.length caller)).Sound path
            (.begun w.table.classes.length :: (w.insert caller.name v).log) :=
          ⟨.tail _ hput, .head _, hs''⟩
        dsimp only
        rw [← World.setThread_setThread _ .died]
        exact hrec.leave hdied rfl hclinit

theorem continues (h : Inv path w) (ht : w.threads[t]? = some s)
    (hc : w.continues p path t s = some w') : Inv path w' := by
  cases s with
  | running caller => cases hc
  | looking name code =>
    simp only [World.continues] at hc
    split at hc <;> cases hc
    exact h.lookUp ht
  | missed name code =>
    simp only [World.continues] at hc
    split at hc <;> cases hc
    rename_i hw
    exact h.lookAgain (Option.not_isSome_iff_eq_none.mp hw) ht
  | loading caller =>
    cases hc
    exact h.load ht
  | creating cls superClass caller =>
    cases hc
    exact h.create ht
  | superLoaded superClass cls caller =>
    simp only [World.continues] at hc
    split at hc <;> cases hc
    rename_i hw
    exact h.relock (Option.not_isSome_iff_eq_none.mp hw) ht
  | died => cases hc

theorem spawn (h : Inv path w) :
    Inv path { w with threads := w.threads ++ [.running .thread] } := by
  have hs : ∀ (u : Nat) r, (w.threads ++ [.running .thread])[u]? = some r →
      w.threads[u]? = some r ∨ r = .running .thread := by
    intro u r hr
    rw [List.getElem?_append] at hr
    split at hr
    · exact .inl hr
    · exact .inr (List.mem_singleton.mp (List.mem_of_getElem? hr))
  refine ⟨h.history, h.table, h.bound, h.made, h.plain, h.guarded.spawn rfl, ?_, ?_⟩
  · intro u r hr
    rcases hs u r hr with hold | rfl
    · exact h.threads u r hold
    · trivial
  · intro u cls superClass caller hr
    rcases hs u _ hr with hold | he
    · exact h.fresh u cls superClass caller hold
    · cases he

theorem step (h : Inv path w) (hstep : Step p path w e w') : Inv path w' := by
  cases e with
  | spawn =>
    cases hstep
    exact h.spawn
  | request t name =>
    simp only [Step, next] at hstep
    split at hstep <;> cases hstep
    rename_i code ht
    have hs : code.Sound path w.log := h.threads t _ ht
    exact h.leave ht rfl hs
  | continues t =>
    obtain ⟨s, ht, hc⟩ := Option.bind_eq_some_iff.mp hstep
    exact h.continues ht hc
  | returns t =>
    simp only [Step, next] at hstep
    split at hstep <;> cases hstep
    rename_i c caller ht
    obtain ⟨hput, hbegun, hs⟩ := h.threads t _ ht
    have hrec := h.record (.done h.history hbegun) (by simp) (by simp)
    have hs' := hs.mono (List.subset_cons_self (.done c) w.log)
    exact hrec.deliver ht (.tail _ hput) (fun _ => .inr (.head _)) hs'
  | panics t =>
    simp only [Step, next] at hstep
    split at hstep <;> cases hstep
    rename_i code ht
    exact h.died ht

end Inv

theorem reachable_inv (h : Reachable p path w) : Inv path w := by
  apply h.invariant
  · rintro w rfl
    exact .initial
  · intro w e w' hw _ hstep
    exact hw.step hstep

@[simp] theorem setThread_log (w : World) : (w.setThread t s).log = w.log := rfl

@[simp] theorem release_log (w : World) : w.release.log = w.log := rfl

@[simp] theorem record_log (w : World) : (w.record e).log = e :: w.log := rfl

@[simp] theorem poison_log (w : World) : (w.poison t).log = w.log := rfl

@[simp] theorem insert_log (w : World) :
    (w.insert name v).log = .put name w.table.classes.length :: w.log := rfl

@[simp] theorem deliver_log (w : World) :
    (w.deliver t via c caller).log = .got t via caller.name c :: w.log := by
  cases caller <;> rfl

@[simp] theorem fail_log (w : World) : ∀ caller, (w.fail t caller).log = w.log
  | .request _ .thread => rfl
  | .request _ (.clinit ..) => rfl
  | .superClass _ caller => fail_log w caller

theorem lookUp_log (w : World) : w.log ⊆ (w.lookUp t name code).log := by
  unfold World.lookUp
  repeat' split
  all_goals simp

theorem lookAgain_log (w : World) : w.log ⊆ (w.lookAgain t name code).log := by
  unfold World.lookAgain
  repeat' split
  all_goals simp

theorem load_log (w : World) : w.log ⊆ (w.load path t caller).log := by
  unfold World.load
  repeat' split
  all_goals simp

theorem relock_log (w : World) : w.log ⊆ (w.relock t superClass cls caller).log := by
  unfold World.relock
  repeat' split
  all_goals simp

theorem create_log (w : World) : w.log ⊆ (w.create p t cls superClass caller).log := by
  unfold World.create
  repeat' split
  all_goals
    intro e he
    simp [he]

/-- What was done is never undone. -/
theorem step_log (h : Step p path w e w') : w.log ⊆ w'.log := by
  cases e with
  | spawn =>
    cases h
    exact List.Subset.refl _
  | request t name =>
    simp only [Step, next] at h
    split at h <;> cases h
    exact List.Subset.refl _
  | continues t =>
    obtain ⟨s, -, hc⟩ := Option.bind_eq_some_iff.mp h
    cases s <;> simp only [World.continues] at hc
    case running => cases hc
    case died => cases hc
    case loading =>
      cases hc
      exact load_log w
    case creating =>
      cases hc
      exact create_log w
    all_goals split at hc <;> cases hc
    · exact lookUp_log w
    · exact lookAgain_log w
    · exact relock_log w
  | returns t =>
    simp only [Step, next] at h
    split at h <;> cases h
    intro e he
    simp [he]
  | panics t =>
    simp only [Step, next] at h
    split at h <;> cases h
    exact List.Subset.refl _

theorem later_log (h : Later p path w w') : w.log ⊆ w'.log := by
  apply h.invariant
  · rintro s rfl
    exact List.Subset.refl _
  · intro s e s' hs _ hstep
    exact List.Subset.trans hs (step_log hstep)

theorem Reachable.later (h : Reachable p path w) (hl : Later p path w w') :
    Reachable p path w' := by
  apply hl.invariant
  · rintro s rfl
    exact h
  · intro s e s' hs ok hstep
    exact hs.next ok hstep

/-- Under each name at most one class is ever inserted, and its `<clinit>` started at most once;
the entry stays; whoever gets a class for the name gets that one; and its superclass is the class
registered under the name that its file gives. -/
theorem loaded_once (h : Reachable p path w) :
    (keys w.log).Nodup ∧ (started w.log).Nodup ∧
    (∀ w', Later p path w w' → ∀ name c, w.table.lookup name = some c →
      w'.table.lookup name = some c) ∧
    (∀ t via name c, .got t via name c ∈ w.log →
      .put name c ∈ w.log ∧ w.table.lookup name = some c) ∧
    ∀ name c, .put name c ∈ w.log →
      (name = VMClass.javaLangObject.name ∧ w.table.get c = .javaLangObject) ∨
      ∃ cls, path name = some (.ok cls) ∧
        (cls.superName = "" → (w.table.get c).superClass = none) ∧
        (cls.superName ≠ "" → ∃ s, (w.table.get c).superClass = some s ∧
          w.table.lookup cls.superName = some s) := by
  have hinv := reachable_inv h
  refine ⟨hinv.history.keys_nodup, hinv.history.started_nodup, ?_, ?_, ?_⟩
  · intro w' hl name c hc
    have hput := later_log hl ((hinv.table name c).mp hc)
    exact ((reachable_inv (h.later hl)).table name c).mpr hput
  · intro t via name c hgot
    obtain ⟨post, pre, hlog⟩ := List.append_of_mem hgot
    have hh := hinv.history
    rw [hlog] at hh
    have hput : .put name c ∈ w.log := by
      rw [hlog]
      exact List.mem_append_right _ (.tail _ hh.got_put)
    exact ⟨hput, (hinv.table name c).mpr hput⟩
  · intro name c hput
    rcases hinv.made name c hput with hobject | ⟨cls, hfile, hsuper⟩
    · exact .inl hobject
    · refine .inr ⟨cls, hfile, ?_⟩
      cases hs : (w.table.get c).superClass with
      | none =>
        rw [hs] at hsuper
        exact ⟨fun _ => rfl, fun hne => absurd hsuper hne⟩
      | some s =>
        rw [hs] at hsuper
        obtain ⟨hne, hput⟩ := hsuper
        exact ⟨fun he => absurd he hne, fun _ => ⟨s, rfl, (hinv.table _ s).mpr hput⟩⟩

/-- The files of two classes, the superclass with a `<clinit>` that returns at once. -/
def twoFiles : ClassPath :=
  let clinit : JVMCode := ⟨0, 0, [0xb1], [], []⟩
  .ofClasses [staticMethods "Base" [] [("<clinit>", "()V", clinit)],
    { staticMethods "Derived" [] [] with superName := "Base" }]

def after (p : Profile) (path : ClassPath) (w : World) : List Event → Option World
  | [] => some w
  | e :: events => (next p path w e).bind fun w => after p path w events

theorem Reachable.after (h : Reachable p path w) (hafter : after p path w events = some w') :
    Reachable p path w' := by
  induction events generalizing w with
  | nil =>
    cases hafter
    exact h
  | cons e events ih =>
    obtain ⟨s, hs, hafter⟩ := Option.bind_eq_some_iff.mp hafter
    exact ih (h.next trivial hs) hafter

/-- Two threads load `Derived`. Each decodes both files, the first inserts `Base`, and while it runs
the `<clinit>` of that, the second inserts `Derived`. -/
def twoLoads : List Event :=
  [.spawn, .spawn, .request 0 "Derived", .request 1 "Derived", .continues 0, .continues 1,
    .continues 0, .continues 0, .continues 0, .continues 0, .continues 1, .continues 1,
    .continues 1, .continues 1, .continues 0, .continues 0, .continues 1, .continues 1,
    .continues 1, .returns 0, .continues 0]

theorem after_check (events : List Event) (check : World → Bool)
    (h : (after ⟨true⟩ twoFiles .initial events).any check = true) :
    ∃ w, Reachable ⟨true⟩ twoFiles w ∧ check w = true := by
  cases hw : after ⟨true⟩ twoFiles .initial events with
  | none =>
    rw [hw] at h
    cases h
  | some w =>
    rw [hw] at h
    exact ⟨w, Reachable.after (.start rfl) hw, h⟩

theorem twoLoads_once : ∃ w : World, .got 0 .found "Derived" 2 ∈ w.log ∧
    .got 1 .made "Derived" 2 ∈ w.log ∧ w.table.lookup "Derived" = some 2 ∧ (keys w.log).Nodup := by
  obtain ⟨w, hw, hc⟩ := after_check twoLoads
    (fun w => decide (.got 0 .found "Derived" 2 ∈ w.log ∧ .got 1 .made "Derived" 2 ∈ w.log))
    (by decide +kernel)
  obtain ⟨h₀, h₁⟩ := of_decide_eq_true hc
  obtain ⟨hkeys, -, -, hgot, -⟩ := loaded_once hw
  exact ⟨w, h₀, h₁, (hgot 1 .made "Derived" 2 h₁).2, hkeys⟩

/-- The thread is about to look for the class under the read lock or under the write lock. -/
inductive Thread.Asks (name : String) : Thread → Prop
  | looking : Asks name (.looking name caller)
  | missed : Asks name (.missed name caller)

theorem Inv.served (h : Inv path w) (hput : .put name c ∈ w.log) (ht : w.threads[t]? = some s)
    (hs : s.Asks name) (hw : w.writer = none) (hp : w.poisoned = false) :
    ∃ w', Step p path w (.continues t) w' ∧ .got t .found name c ∈ w'.log := by
  have hc := (h.table name c).mpr hput
  cases hs with
  | @looking caller =>
    refine ⟨w.deliver t .found c (.request name caller), ?_, .head _⟩
    simp [Step, next, ht, World.continues, hw, World.lookUp, hp, hc]
  | @missed caller =>
    refine ⟨w.deliver t .found c (.request name caller), ?_, .head _⟩
    simp [Step, next, ht, World.continues, hw, World.lookAgain, hp, hc]

/-- A thread gets a class only after it was inserted, and the call that has inserted it returns it
only after its `<clinit>` has returned. While that runs, the class is in the map and the write lock
is dropped, so that any other thread finds the class. -/
theorem got_after_insertion (h : Reachable p path w) :
    (∀ post t via name c pre, w.log = post ++ .got t via name c :: pre →
      .put name c ∈ pre ∧
      (via = .made → (w.table.get c).methodByName "<clinit>" (some "()V") ≠ none →
        .done c ∈ pre)) ∧
    ∀ (t : Nat) c caller, w.threads[t]? = some (.running (.clinit c caller)) →
      .put caller.name c ∈ w.log ∧ w.writer ≠ some t ∧
      ∀ (t' : Nat) s, w.threads[t']? = some s → s.Asks caller.name → w.writer = none →
        w.poisoned = false →
          ∃ w', Step p path w (.continues t') w' ∧ .got t' .found caller.name c ∈ w'.log := by
  have hinv := reachable_inv h
  constructor
  · intro post t via name c pre hlog
    have hh := hinv.history
    rw [hlog] at hh
    refine ⟨hh.got_put, ?_⟩
    rintro rfl hclinit
    rcases hh.made_ready with hplain | hdone
    · have hmem : .plain c ∈ w.log := by
        rw [hlog]
        exact List.mem_append_right _ (.tail _ hplain)
      exact absurd (hinv.plain c hmem) hclinit
    · exact hdone
  · intro t c caller ht
    obtain ⟨hput, -, -⟩ := hinv.threads t _ ht
    refine ⟨hput, ?_, fun t' s ht' hs hw hp => hinv.served hput ht' hs hw hp⟩
    intro hw
    obtain ⟨s, hs, hholds⟩ := (hinv.guarded t).mp hw
    rw [ht] at hs
    cases hs
    cases hholds

def oneLoad : List Event :=
  [.spawn, .spawn, .request 0 "Base", .continues 0, .continues 0, .continues 0, .continues 0,
    .continues 0, .continues 0, .request 1 "Base", .continues 1]

def Thread.initialises (c : ClassRef) : Thread → Bool
  | .running (.clinit d _) => d == c
  | _ => false

/-- A class is got by a thread while another runs its `<clinit>`. -/
theorem got_during_clinit :
    ¬ ∀ (p : Profile) (path : ClassPath) (w : World) (t t' : Nat) (s : Thread)
    (via : Via) (name : String) (c : ClassRef), Reachable p path w → w.threads[t]? = some s →
    s.initialises c = true → t' ≠ t → .got t' via name c ∉ w.log := by
  intro h
  obtain ⟨w, hw, hc⟩ := after_check oneLoad (fun w =>
    w.threads[0]?.any (·.initialises 1) && decide (.got 1 .found "Base" 1 ∈ w.log))
    (by decide +kernel)
  obtain ⟨hinit, hgot⟩ := Bool.and_eq_true_iff.mp hc
  cases ht : w.threads[0]? with
  | none =>
    rw [ht] at hinit
    cases hinit
  | some s =>
    rw [ht] at hinit
    exact h _ _ w 0 1 s .found "Base" 1 hw ht hinit Nat.one_ne_zero (of_decide_eq_true hgot)

/-- Once the `<clinit>` of `Base` has returned, the thread that has loaded it has it too. -/
theorem base_got_after_insertion : ∃ w : World, ∃ post pre,
    w.log = post ++ .got 0 .made "Base" 1 :: pre ∧ .put "Base" 1 ∈ pre ∧ .done 1 ∈ pre := by
  obtain ⟨w, hw, hc⟩ := after_check (oneLoad ++ [.returns 0]) (fun w =>
    decide (.got 0 .made "Base" 1 ∈ w.log) &&
      ((w.table.get 1).methodByName "<clinit>" (some "()V")).isSome) (by decide +kernel)
  obtain ⟨hgot, hclinit⟩ := Bool.and_eq_true_iff.mp hc
  obtain ⟨post, pre, hlog⟩ := List.append_of_mem (of_decide_eq_true hgot)
  obtain ⟨hput, hdone⟩ := (got_after_insertion hw).1 _ _ _ _ _ _ hlog
  exact ⟨w, post, pre, hlog, hput, hdone rfl (Option.isSome_iff_ne_none.mp hclinit)⟩

end Janadinite.ClassLoading
