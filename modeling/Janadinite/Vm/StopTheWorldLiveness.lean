import Janadinite.Lib.Response
import Janadinite.Vm.StopTheWorldSafety

namespace Janadinite.StopTheWorld
open Runs Response
set_option autoImplicit true

namespace Status

/-- The thread has not panicked, and does not wait for itself. -/
def Living : Status → Prop
  | .deadlocked => False
  | .diedUnregistered => False
  | .diedRunning => False
  | .diedParked => False
  | _ => True

end Status

def GcThread.toRun : GcThread → Nat
  | .unspawned => 1
  | _ => 0

/-- What thread a step is of, and how it leaves it, depending on whether a stop is requested. -/
def Event.leaves (stop : Bool) : Event → Option (Nat × Status)
  | .register t => some (t, if stop then .parked .register else .running)
  | .unregister t => some (t, .unregistered)
  | .allocate t n ending => some (t, if stop then .parked (.allocate n ending) else .running)
  | .safepointLoad t => some (t, if stop then .stopping else .running)
  | .safepointLock t => some (t, if stop then .parked .safepoint else .running)
  | .wake t resume => some (t, if stop then .parked resume else .running)
  | _ => none

/-- A step by which a stop that is requested comes about: of a thread that reaches a place where it
sees the request, or of the GC thread, which is not woken without a notification. -/
def Answers : Event → Prop
  | .unregister _ => True
  | .allocate .. => True
  | .safepointLoad _ => True
  | .safepointLock _ => True
  | .gcSpawn => True
  | .gcFirst => True
  | .gcWake notified => notified = true
  | _ => False

/-- No unprompted pass comes too early, and no thread panics or waits for itself with the heap
locked. -/
structure Undisturbed (p : Profile) (w : World) (e : Event) : Prop where
  pass : UnpromptedPassOk w e
  sound : (next p w e).poisoned = false
  free : .deadlocked ∉ (next p w e).threads

instance (p : Profile) (w : World) (e : Event) : Decidable (Undisturbed p w e) :=
  decidable_of_iff (UnpromptedPassOk w e ∧ (next p w e).poisoned = false ∧
      .deadlocked ∉ (next p w e).threads)
    ⟨fun ⟨hpass, hs, hf⟩ => ⟨hpass, hs, hf⟩, fun ⟨hpass, hs, hf⟩ => ⟨hpass, hs, hf⟩⟩

section
variable {p : Profile} {w : World} {e : Event} {t : Nat} {s : Status}

theorem notifyGc_stop (w : World) : w.notifyGc.shouldStopTheWorld = w.shouldStopTheWorld := by
  rw [World.notifyGc]
  split <;> rfl

theorem notifyGc_toRun (w : World) : w.notifyGc.gc.toRun = w.gc.toRun := by
  rw [World.notifyGc]
  split
  · rename_i hg
    rw [hg]
    rfl
  · rfl

theorem notifyGc_alive (w : World) : w.notifyGc.gc = .died → w.gc = .died := by
  rw [World.notifyGc]
  split
  · intro h
    cases h
  · exact id

/-- What a section does to the threads and to the GC thread. -/
structure Leaves (w w' : World) (t : Nat) (s : Status) : Prop where
  threads : w'.threads = w.threads.set t s
  gc : w'.gc.toRun = w.gc.toRun
  alive : w'.gc = .died → w.gc = .died

theorem mem_set_self {threads : List Status} (ht : threads[t]? = some old) (s : Status) :
    s ∈ threads.set t s :=
  List.mem_of_getElem? (List.getElem?_set_self (List.getElem?_eq_some_iff.mp ht).1)

theorem allocateObjects_leaves (ht : w.threads[t]? = some old) (ending : Ending) (n : Nat)
    (hs : (w.allocateObjects p t ending n).poisoned = false)
    (hf : .deadlocked ∉ (w.allocateObjects p t ending n).threads) :
    Leaves w (w.allocateObjects p t ending n) t .running := by
  induction n generalizing w with
  | zero =>
    cases ending with
    | returns => exact ⟨rfl, rfl, id⟩
    | panics => cases hs
    | deadlocks => exact absurd (mem_set_self ht .deadlocked) hf
  | succ n ih =>
    rw [World.allocateObjects] at hs hf ⊢
    cases hadd : p.add 64 w.allocCount 1 with
    | error msg =>
      rw [hadd] at hs
      cases hs
    | ok allocCount =>
      rw [hadd] at hs hf
      have hgc : (World.setGcFlags { w with allocCount }).gc = w.gc := by
        rcases setGcFlags_cases { w with allocCount } with hc | hc <;> rw [hc]
      have ht' : (World.setGcFlags { w with allocCount }).threads[t]? = some old := by
        rw [setGcFlags_threads]
        exact ht
      obtain ⟨hthreads, hrun, hdied⟩ := ih ht' hs hf
      rw [setGcFlags_threads] at hthreads
      rw [hgc] at hrun hdied
      exact ⟨hthreads, hrun, hdied⟩

theorem finish_leaves (ht : w.threads[t]? = some old) (resume : Resume)
    (hs : (w.finish p t resume).poisoned = false)
    (hf : .deadlocked ∉ (w.finish p t resume).threads) :
    Leaves w (w.finish p t resume) t .running := by
  cases resume with
  | register | safepoint => exact ⟨rfl, rfl, id⟩
  | allocate n ending => exact allocateObjects_leaves ht ending n hs hf

theorem waitParked_leaves (ht : w.threads[t]? = some old) (resume : Resume)
    (hs : (w.waitParked p t resume).poisoned = false)
    (hf : .deadlocked ∉ (w.waitParked p t resume).threads) :
    Leaves w (w.waitParked p t resume) t
      (if w.shouldStopTheWorld then .parked resume else .running) := by
  rw [World.waitParked] at hs hf ⊢
  split
  · exact ⟨rfl, rfl, id⟩
  · rename_i hstop
    rw [if_neg hstop] at hs hf
    obtain ⟨ht, hg, ha⟩ :=
      finish_leaves (w := w.setParkedThreads (w.parkedThreads - 1)) ht resume hs hf
    exact ⟨ht, hg, ha⟩

theorem stopTheWorldInner_leaves (ht : w.threads[t]? = some old) (resume : Resume)
    (hs : (w.stopTheWorldInner p t resume).poisoned = false)
    (hf : .deadlocked ∉ (w.stopTheWorldInner p t resume).threads) :
    Leaves w (w.stopTheWorldInner p t resume) t
      (if w.shouldStopTheWorld then .parked resume else .running) := by
  rw [World.stopTheWorldInner] at hs hf ⊢
  split
  · rename_i hge
    rw [if_pos hge] at hs hf
    have ht' : (w.setParkedThreads (w.parkedThreads + 1)).notifyGc.threads[t]? = some old := by
      rw [notifyGc_threads]
      exact ht
    obtain ⟨ht, hg, ha⟩ := waitParked_leaves ht' resume hs hf
    rw [notifyGc_threads, notifyGc_stop] at ht
    rw [notifyGc_toRun] at hg
    exact ⟨ht, hg, fun hd => notifyGc_alive (w.setParkedThreads (w.parkedThreads + 1)) (ha hd)⟩
  · rename_i hlt
    rw [if_neg hlt] at hs hf
    obtain ⟨ht, hg, ha⟩ :=
      waitParked_leaves (w := w.setParkedThreads (w.parkedThreads + 1)) ht resume hs hf
    exact ⟨ht, hg, ha⟩

theorem unregisterThread_leaves (w : World) (t : Nat) :
    Leaves w (w.unregisterThread t) t .unregistered := by
  rw [World.unregisterThread]
  split
  · have ht := notifyGc_threads (w.setHeapThreads (w.heapThreads - 1))
    exact ⟨congrArg (·.set t .unregistered) ht, notifyGc_toRun _, notifyGc_alive _⟩
  · exact ⟨rfl, rfl, id⟩

theorem next_leaves (hp : w.poisoned = false) (he : Enabled w e) (hok : Undisturbed p w e)
    (hl : e.leaves w.shouldStopTheWorld = some (t, s)) : Leaves w (next p w e) t s := by
  obtain ⟨hd, -⟩ := he
  obtain ⟨-, hs, hf⟩ := hok
  cases e with
  | register t =>
    cases hl
    rw [next, locked_eq hp, World.registerThread] at hs hf ⊢
    split
    · rename_i hstop
      rw [if_pos hstop] at hs hf
      have hinner := stopTheWorldInner_leaves (w := w.setHeapThreads (w.heapThreads + 1)) hd
        .register hs hf
      exact ⟨hinner.threads, hinner.gc, hinner.alive⟩
    · rename_i hstop
      exact ⟨congrArg (w.threads.set t ·) (if_neg hstop).symm, rfl, id⟩
  | unregister t =>
    cases hl
    rw [next, locked_eq hp]
    exact unregisterThread_leaves w t
  | allocate t objects ending =>
    cases hl
    rw [next, locked_eq hp, World.allocateInner] at hs hf ⊢
    split
    · rename_i hstop
      rw [if_pos hstop] at hs hf
      have hinner := stopTheWorldInner_leaves hd (.allocate objects ending) hs hf
      rwa [if_pos hstop] at hinner
    · rename_i hstop
      rw [if_neg hstop] at hs hf
      exact finish_leaves hd (.allocate objects ending) hs hf
  | safepointLoad t =>
    cases hl
    rw [next, World.safepointLoad]
    split
    · exact ⟨rfl, rfl, id⟩
    · refine ⟨?_, rfl, id⟩
      obtain ⟨hlt, ht⟩ := List.getElem?_eq_some_iff.mp hd
      rw [← ht, List.set_getElem_self]
  | safepointLock t =>
    cases hl
    rw [next, locked_eq hp] at hs hf ⊢
    exact stopTheWorldInner_leaves hd .safepoint hs hf
  | wake t resume =>
    cases hl
    rw [next, locked_eq hp] at hs hf ⊢
    exact waitParked_leaves hd resume hs hf
  | _ => cases hl

/-- A pass of the GC thread that is allowed to collect serves the request. -/
theorem gcPass_serves (hp : w.poisoned = false)
    (hok : w.shouldStopTheWorld = false ∨ w.parkedThreads = w.heapThreads) :
    w.gcPass.shouldStopTheWorld = false := by
  cases hf : w.shouldStopTheWorld with
  | false =>
    rw [gcPass_idle hp hf]
    exact hf
  | true =>
    have he := hok.resolve_left (Bool.not_eq_false _ ▸ hf)
    obtain ⟨n, hn⟩ := gcPass_collect hf hp he
    rw [hn]

/-- The GC thread may collect, whatever it was woken by. -/
theorem Handshake.gcWake_allowed (h : Handshake w) {notified : Bool} (he : w.gc = .waiting notified)
    (hok : UnpromptedPassOk w (.gcWake notified)) :
    w.shouldStopTheWorld = false ∨ w.parkedThreads = w.heapThreads := by
  cases notified with
  | true => exact .inr (h.notified he).2
  | false => exact hok (.inr rfl)

theorem reclaim_eq (hs : (w.reclaim p t).poisoned = false) :
    ∃ allocCount, w.reclaim p t = { w with allocCount } := by
  rw [World.reclaim] at hs ⊢
  split
  · exact ⟨_, rfl⟩
  · rename_i hn
    rw [hn] at hs
    cases hs

/-- What holds besides the handshake: a request that all threads have answered has reached the GC
thread, and no thread has panicked or waits for itself. -/
structure Heard (w : World) : Prop where
  heard : w.shouldStopTheWorld = true → w.parkedThreads = w.heapThreads → w.gc ≠ .waiting false
  living : ∀ s ∈ w.threads, s.Living
  sound : w.poisoned = false
  alive : w.gc ≠ .died

theorem notifyGc_heard (w : World) : w.notifyGc.gc ≠ .waiting false := by
  rw [World.notifyGc]
  split
  · intro h
    cases h
  · rename_i hg
    exact hg false

theorem waitParked_requested (hf : w.shouldStopTheWorld = true) (t : Nat) (resume : Resume) :
    w.waitParked p t resume = w.setStatus t (.parked resume) :=
  if_pos hf

theorem stopTheWorldInner_heard (hf : w.shouldStopTheWorld = true) (resume : Resume)
    (he : (w.stopTheWorldInner p t resume).parkedThreads =
      (w.stopTheWorldInner p t resume).heapThreads) :
    (w.stopTheWorldInner p t resume).gc ≠ .waiting false := by
  rw [World.stopTheWorldInner] at he ⊢
  split at he
  · rename_i hge
    have hnotified : (w.setParkedThreads (w.parkedThreads + 1)).notifyGc.shouldStopTheWorld =
        true := (notifyGc_stop _).trans hf
    rw [if_pos hge, waitParked_requested hnotified]
    exact notifyGc_heard _
  · rename_i hlt
    have hpark := waitParked_requested (p := p)
      (w := w.setParkedThreads (w.parkedThreads + 1)) hf t resume
    rw [hpark] at he
    exact (hlt (Nat.le_of_eq he.symm)).elim

theorem unregisterThread_stop (w : World) (t : Nat) :
    (w.unregisterThread t).shouldStopTheWorld = w.shouldStopTheWorld := by
  rw [World.unregisterThread]
  split
  · exact notifyGc_stop _
  · rfl

theorem unregisterThread_heard (hf : w.shouldStopTheWorld = true)
    (he : (w.unregisterThread t).parkedThreads = (w.unregisterThread t).heapThreads) :
    (w.unregisterThread t).gc ≠ .waiting false := by
  rw [World.unregisterThread] at he ⊢
  split at he
  · rename_i hc
    rw [if_pos hc]
    exact notifyGc_heard _
  · rename_i hc
    rw [Bool.and_eq_true, decide_eq_true_eq] at hc
    exact (hc ⟨hf, Nat.le_of_eq he.symm⟩).elim

theorem leaves_living {stop : Bool} (hl : e.leaves stop = some (t, s)) : s.Living := by
  cases stop with
  | false => cases e <;> cases hl <;> trivial
  | true => cases e <;> cases hl <;> trivial

theorem leaves_getElem? (he : Enabled w e) (hl : e.leaves w.shouldStopTheWorld = some (t, s)) :
    (w.threads.set t s)[t]? = some s := by
  have hlt : t < w.threads.length := by
    cases e with
    | register | unregister | allocate | safepointLoad | safepointLock | wake =>
      cases hl
      exact (List.getElem?_eq_some_iff.mp he.1).1
    | _ => cases hl
  exact List.getElem?_set_self hlt

/-- A thread does not answer a request as the last one without the GC thread hearing of it. -/
theorem leaves_heard (h : Handshake w) (hh : Heard w) (he : Enabled w e)
    (hok : Undisturbed p w e) (hl : e.leaves w.shouldStopTheWorld = some (t, s))
    (hf' : (next p w e).shouldStopTheWorld = true)
    (heq : (next p w e).parkedThreads = (next p w e).heapThreads) :
    (next p w e).gc ≠ .waiting false := by
  -- a thread that is left running keeps the counts apart
  have hinside (hr : s.registered = true) : s.inside = true := by
    apply (h.next hh.sound he hok.pass).all_inside heq _ hr
    rw [(next_leaves hh.sound he hok hl).threads]
    exact List.mem_of_getElem? (leaves_getElem? he hl)
  cases hf : w.shouldStopTheWorld with
  | false =>
    rw [hf] at hl
    cases e with
    | unregister t =>
      rw [next, locked_eq hh.sound, unregisterThread_stop, hf] at hf'
      cases hf'
    | register | allocate | safepointLoad | safepointLock | wake =>
      cases hl
      cases hinside rfl
    | _ => cases hl
  | true =>
    rw [hf] at hl
    cases e with
    | unregister t =>
      rw [next, locked_eq hh.sound] at heq ⊢
      exact unregisterThread_heard hf heq
    | register t =>
      rw [next, locked_eq hh.sound, World.registerThread] at heq ⊢
      have hreg : (w.setHeapThreads (w.heapThreads + 1)).shouldStopTheWorld = true := hf
      rw [if_pos hreg] at heq ⊢
      exact stopTheWorldInner_heard hreg .register heq
    | allocate t objects ending =>
      rw [next, locked_eq hh.sound, World.allocateInner, if_pos hf] at heq ⊢
      exact stopTheWorldInner_heard hf _ heq
    | safepointLoad t =>
      cases hl
      cases hinside rfl
    | safepointLock t =>
      rw [next, locked_eq hh.sound] at heq ⊢
      exact stopTheWorldInner_heard hf .safepoint heq
    | wake t resume =>
      rw [next, locked_eq hh.sound, waitParked_requested hf] at heq ⊢
      exact hh.heard hf heq
    | _ => cases hl

theorem gcPass_keeps (hp : w.poisoned = false)
    (hok : w.shouldStopTheWorld = false ∨ w.parkedThreads = w.heapThreads) :
    w.gcPass.threads = w.threads ∧ w.gcPass.poisoned = false ∧ w.gcPass.gc ≠ .died := by
  cases hf : w.shouldStopTheWorld with
  | false =>
    rw [gcPass_idle hp hf]
    exact ⟨rfl, hp, nofun⟩
  | true =>
    obtain ⟨n, hn⟩ := gcPass_collect hf hp (hok.resolve_left (Bool.not_eq_false _ ▸ hf))
    rw [hn]
    exact ⟨rfl, hp, nofun⟩

theorem Heard.gcPass (hh : Heard w)
    (hok : w.shouldStopTheWorld = false ∨ w.parkedThreads = w.heapThreads) : Heard w.gcPass := by
  obtain ⟨hthreads, hp, ha⟩ := gcPass_keeps hh.sound hok
  refine ⟨?_, ?_, hp, ha⟩
  · intro hf'
    rw [gcPass_serves hh.sound hok] at hf'
    cases hf'
  · rw [hthreads]
    exact hh.living

theorem Heard.next (hh : Heard w) (h : Handshake w) (he : Enabled w e)
    (hok : Undisturbed p w e) : Heard (next p w e) := by
  cases hl : e.leaves w.shouldStopTheWorld with
  | some l =>
    obtain ⟨t, s⟩ := l
    obtain ⟨ht, -, ha⟩ := next_leaves hh.sound he hok hl
    refine ⟨leaves_heard h hh he hok hl, ?_, hok.sound, fun hd => hh.alive (ha hd)⟩
    intro s' hs'
    rw [ht] at hs'
    rcases List.mem_or_eq_of_mem_set hs' with hs' | rfl
    · exact hh.living s' hs'
    · exact leaves_living hl
  | none =>
    cases e with
    | spawn =>
      refine ⟨hh.heard, ?_, hh.sound, hh.alive⟩
      intro s hs
      rcases List.mem_append.mp hs with hs | hs
      · exact hh.living s hs
      · cases List.mem_singleton.mp hs
        trivial
    | reclaim t =>
      have hs := hok.sound
      rw [StopTheWorld.next, locked_eq hh.sound] at hs ⊢
      obtain ⟨allocCount, hreclaim⟩ := reclaim_eq hs
      rw [hreclaim]
      exact ⟨hh.heard, hh.living, hh.sound, hh.alive⟩
    | gcSpawn =>
      refine ⟨?_, hh.living, hh.sound, ?_⟩
      · intro _ _ hgc
        cases hgc
      · intro hgc
        cases hgc
    | gcFirst => exact hh.gcPass (hok.pass (.inl rfl))
    | gcWake notified => exact hh.gcPass (h.gcWake_allowed he.1 hok.pass)
    | _ => cases hl

theorem Heard.free (hh : Heard w) : .deadlocked ∉ w.threads := fun hm => hh.living _ hm

theorem Heard.free_set (hh : Heard w) (hs : s.Living) : .deadlocked ∉ w.threads.set t s := by
  intro hm
  rcases List.mem_or_eq_of_mem_set hm with hm | rfl
  · exact hh.free hm
  · exact hs

theorem Heard.load (hh : Heard w) (t : Nat) : Undisturbed p w (.safepointLoad t) := by
  refine ⟨nofun, ?_, ?_⟩
  · rw [StopTheWorld.next, World.safepointLoad]
    split <;> exact hh.sound
  · rw [StopTheWorld.next, World.safepointLoad]
    split
    · exact hh.free_set trivial
    · exact hh.free

theorem Heard.pass (hh : Heard w) (heq : w.parkedThreads = w.heapThreads)
    (he : StopTheWorld.next p w e = w.gcPass) : Undisturbed p w e := by
  obtain ⟨ht, hp, -⟩ := gcPass_keeps hh.sound (.inr heq)
  refine ⟨fun _ => .inr heq, ?_, ?_⟩
  · rw [he, hp]
  · rw [he, ht]
    exact hh.free

end

end Janadinite.StopTheWorld
