import Janadinite.Vm.StopTheWorld

namespace Janadinite.StopTheWorld
open Runs
set_option autoImplicit true

/-- The shared counts, when thread `t`, listed as `old`, is to be counted as given instead. -/
structure Counts (w : World) (old : Status) (inside registered : Bool) : Prop where
  parked : w.parkedThreads + old.inside.toNat = w.threads.countP Status.inside + inside.toNat
  heap : w.heapThreads + old.registered.toNat =
    w.threads.countP Status.registered + registered.toNat

/-- A request that all registered threads have answered has been passed on to the sleeping GC
thread. -/
def Signal (w : World) : Prop :=
  w.shouldStopTheWorld = true → w.parkedThreads = w.heapThreads → ∀ n, w.gc = .waiting n →
    w.signalled = true

structure Inv (w : World) : Prop where
  parked : w.parkedThreads = w.threads.countP Status.inside
  heap : w.heapThreads = w.threads.countP Status.registered
  signal : Signal w

theorem countP_inside_le (threads : List Status) :
    threads.countP Status.inside ≤ threads.countP Status.registered :=
  List.countP_mono_left fun _ _ h => Status.registered_of_inside h

theorem countP_inside_lt {threads : List Status} (hs : s ∈ threads) (hr : s.registered = true)
    (hi : s.inside = false) : threads.countP Status.inside < threads.countP Status.registered := by
  obtain ⟨front, back, rfl⟩ := List.append_of_mem hs
  have hf := countP_inside_le front
  have hb := countP_inside_le back
  rw [List.countP_append, List.countP_append, List.countP_cons_of_pos hr,
    List.countP_cons_of_neg (by rw [hi]; exact Bool.false_ne_true)]
  omega

theorem countP_set_add {p : Status → Bool} {threads : List Status} (h : threads[t]? = some old) :
    (threads.set t s).countP p + (p old).toNat = threads.countP p + (p s).toNat := by
  obtain ⟨hlt, hold⟩ := List.getElem?_eq_some_iff.1 h
  have hmem : (p old).toNat ≤ threads.countP p := by
    cases hp : p old with
    | false => exact Nat.zero_le _
    | true => exact List.countP_pos_iff.2 ⟨old, List.mem_of_getElem? h, hp⟩
  rw [List.countP_set hlt, hold]
  cases hp : p old <;> cases hs : p s <;>
    simp only [hp, Bool.toNat_true, Bool.toNat_false, reduceIte, Bool.false_eq_true] at hmem ⊢ <;>
    omega

/-- A registered thread that is not parked keeps the counts apart. -/
theorem Inv.apart {w : World} {s : Status} {t : Nat}
    (hp : w.parkedThreads = w.threads.countP Status.inside)
    (hh : w.heapThreads = w.threads.countP Status.registered) (ht : w.threads[t]? = some s)
    (hr : s.registered = true) (hi : s.inside = false) : w.parkedThreads < w.heapThreads := by
  rw [hp, hh]
  exact countP_inside_lt (List.mem_of_getElem? ht) hr hi

theorem Inv.counts (h : Inv w) (old : Status) : Counts w old old.inside old.registered :=
  ⟨congrArg (· + _) h.parked, congrArg (· + _) h.heap⟩

theorem Counts.settle (h : Counts w old s.inside s.registered) (ht : w.threads[t]? = some old) :
    (w.setStatus t s).parkedThreads = (w.setStatus t s).threads.countP Status.inside ∧
      (w.setStatus t s).heapThreads = (w.setStatus t s).threads.countP Status.registered := by
  have hp := h.parked
  have hh := h.heap
  have hip := countP_set_add (p := Status.inside) (s := s) ht
  have hrp := countP_set_add (p := Status.registered) (s := s) ht
  constructor
  · change w.parkedThreads = (w.threads.set t s).countP Status.inside
    omega
  · change w.heapThreads = (w.threads.set t s).countP Status.registered
    omega

theorem Counts.setStatus (h : Counts w old s.inside s.registered) (ht : w.threads[t]? = some old)
    (hs : Signal w) : Inv (w.setStatus t s) :=
  ⟨(h.settle ht).1, (h.settle ht).2, hs⟩

theorem Counts.settleOutside (h : Counts w old false true) (ht : w.threads[t]? = some old)
    (hr : s.registered = true) (hi : s.inside = false) : Inv (w.setStatus t s) := by
  have hc : (w.setStatus t s).threads[t]? = some s :=
    List.getElem?_set_self (List.getElem?_eq_some_iff.1 ht).1
  obtain ⟨hp, hh⟩ := Counts.settle (s := s) (by rw [hi, hr]; exact h) ht
  refine ⟨hp, hh, fun _ he => ?_⟩
  have hlt := Inv.apart hp hh hc hr hi
  exact absurd he (Nat.ne_of_lt hlt)

theorem setGcFlags_cases (w : World) :
    w.setGcFlags = w ∨ w.setGcFlags = { w with shouldStopTheWorld := true } := by
  rw [World.setGcFlags]
  split
  · exact .inr rfl
  · exact .inl rfl

theorem Counts.panic (h : Counts w old false true) (ht : w.threads[t]? = some old) :
    Inv (w.panic t) := by
  obtain ⟨hp, hh, hs⟩ := h.settleOutside (s := .diedRunning) ht rfl rfl
  exact ⟨hp, hh, hs⟩

theorem Counts.setGcFlags (h : Counts w old inside registered) :
    Counts w.setGcFlags old inside registered := by
  rcases setGcFlags_cases w with hc | hc
  · rwa [hc]
  · rw [hc]
    exact ⟨h.parked, h.heap⟩

theorem setGcFlags_threads (w : World) : w.setGcFlags.threads = w.threads := by
  rcases setGcFlags_cases w with hc | hc <;> rw [hc]

theorem Counts.allocateObjects {w : World} (h : Counts w old false true)
    (ht : w.threads[t]? = some old) (ending : Ending) (n : Nat) :
    Inv (w.allocateObjects p t ending n) := by
  induction n generalizing w with
  | zero =>
    cases ending with
    | returns => exact h.settleOutside ht rfl rfl
    | panics => exact h.panic ht
    | deadlocks => exact h.settleOutside ht rfl rfl
  | succ n ih =>
    rw [World.allocateObjects]
    split
    · rename_i allocCount _
      have hc : Counts { w with allocCount } old false true := ⟨h.parked, h.heap⟩
      apply ih hc.setGcFlags
      rw [setGcFlags_threads]
      exact ht
    · exact h.panic ht

theorem Counts.finish (h : Counts w old false true) (ht : w.threads[t]? = some old)
    (resume : Resume) : Inv (w.finish p t resume) := by
  cases resume with
  | register => exact h.settleOutside ht rfl rfl
  | safepoint => exact h.settleOutside ht rfl rfl
  | allocate n ending => exact h.allocateObjects ht ending n

theorem Counts.waitParked (h : Counts w old true true) (ht : w.threads[t]? = some old)
    (hs : Signal w) (resume : Resume) : Inv (w.waitParked p t resume) := by
  rw [World.waitParked]
  split
  · exact Counts.setStatus (s := .parked resume) h ht hs
  · have hp := h.parked
    have hold := countP_set_add (p := Status.inside) (s := .running) ht
    have hc : Counts (w.setParkedThreads (w.parkedThreads - 1)) old false true := by
      refine ⟨?_, h.heap⟩
      change w.parkedThreads - 1 + old.inside.toNat = w.threads.countP Status.inside + 0
      change _ = _ + 0 at hold
      simp only [Bool.toNat_true] at hp
      omega
    exact hc.finish ht resume

theorem Counts.notifyGc (h : Counts w old inside registered) :
    Counts w.notifyGc old inside registered := by
  rw [World.notifyGc]
  split
  · exact ⟨h.parked, h.heap⟩
  · exact h

theorem notifyGc_threads (w : World) : w.notifyGc.threads = w.threads := by
  rw [World.notifyGc]
  split <;> rfl

theorem signal_notifyGc (w : World) : Signal w.notifyGc := by
  intro _ _ n
  rw [World.notifyGc]
  split
  · exact fun _ => rfl
  · rename_i hw
    exact fun hn => absurd hn (hw n)

theorem Counts.stopTheWorldInner (h : Counts w old false true) (ht : w.threads[t]? = some old)
    (resume : Resume) : Inv (w.stopTheWorldInner p t resume) := by
  rw [World.stopTheWorldInner]
  have hc : Counts (w.setParkedThreads (w.parkedThreads + 1)) old true true := by
    refine ⟨?_, h.heap⟩
    have hp := h.parked
    change w.parkedThreads + 1 + old.inside.toNat = w.threads.countP Status.inside + 1
    simp only [Bool.toNat_false] at hp
    omega
  split
  · refine hc.notifyGc.waitParked ?_ (signal_notifyGc _) resume
    rw [notifyGc_threads]
    exact ht
  · rename_i hlt
    refine hc.waitParked ht (fun _ he => ?_) resume
    omega

theorem Inv.registerThread (h : Inv w) (ht : w.threads[t]? = some .unregistered) :
    Inv (w.registerThread p t) := by
  have hc : Counts (w.setHeapThreads (w.heapThreads + 1)) .unregistered false true :=
    ⟨(h.counts .unregistered).parked, congrArg (· + 1) h.heap⟩
  rw [World.registerThread]
  split
  · exact hc.stopTheWorldInner ht _
  · exact hc.settleOutside ht rfl rfl

theorem Inv.unregisterThread (h : Inv w) (ht : w.threads[t]? = some .running) :
    Inv (w.unregisterThread t) := by
  have hlt := Inv.apart h.parked h.heap ht rfl rfl
  have hc : Counts (w.setHeapThreads (w.heapThreads - 1)) .running false false := by
    refine ⟨(h.counts .running).parked, ?_⟩
    have hh := h.heap
    change w.heapThreads - 1 + 1 = w.threads.countP Status.registered + 0
    omega
  rw [World.unregisterThread]
  split
  · refine Counts.setStatus (s := .unregistered) hc.notifyGc ?_ (signal_notifyGc _)
    rw [notifyGc_threads]
    exact ht
  · rename_i hn
    apply Counts.setStatus (s := .unregistered) hc ht
    intro hs he
    rw [Bool.and_eq_true, decide_eq_true_eq] at hn
    exact absurd ⟨hs, Nat.le_of_eq he.symm⟩ hn

theorem Inv.allocateInner (h : Inv w) (ht : w.threads[t]? = some .running) (objects : Nat)
    (ending : Ending) : Inv (w.allocateInner p t objects ending) := by
  rw [World.allocateInner]
  split
  · exact (h.counts .running).stopTheWorldInner ht _
  · exact (h.counts .running).finish ht _

theorem Inv.reclaim (h : Inv w) (ht : w.threads[t]? = some .running) : Inv (w.reclaim p t) := by
  rw [World.reclaim]
  split
  · exact ⟨h.parked, h.heap, h.signal⟩
  · exact (h.counts .running).panic ht

theorem Inv.safepointLoad (h : Inv w) (ht : w.threads[t]? = some .running) :
    Inv (w.safepointLoad t) := by
  rw [World.safepointLoad]
  split
  · exact Counts.setStatus (s := .stopping) (h.counts .running) ht h.signal
  · exact h

theorem Inv.gcPass (h : Inv w) : Inv w.gcPass := by
  rw [World.gcPass]
  split
  · exact ⟨h.parked, h.heap, fun _ _ _ hn => nomatch hn⟩
  · split
    · simp only [World.tryGc]
      split
      · rw [if_pos rfl]
        exact ⟨h.parked, h.heap, fun _ _ _ hn => nomatch hn⟩
      · split <;> exact ⟨h.parked, h.heap, fun hs => nomatch hs⟩
    · rename_i hs
      exact ⟨h.parked, h.heap, fun hs' => absurd hs' hs⟩

/-- A thread that was not parked may die on the poisoned lock. -/
theorem Inv.locked {section_ : World → World} (h : Inv w) (ht : w.threads[t]? = some s)
    (hi : w.poisoned = true → s.inside = false) (hsec : Inv (section_ w)) :
    Inv (w.locked t section_) := by
  rw [World.locked]
  split
  · rename_i hp
    have hd : w.threads.getD t .unregistered = s := by
      rw [List.getD_eq_getElem?_getD, ht]
      rfl
    rw [hd]
    have hc : Counts w s s.die.inside s.die.registered := by
      rw [Status.inside_die, Status.registered_die, ← hi hp]
      exact h.counts s
    exact hc.setStatus ht h.signal
  · exact hsec

/-- No wait in `stop_the_world_inner` returns after a panic under the lock. -/
def WaitsUnpoisoned (w : World) (e : Event) : Prop :=
  ∀ t resume, e = .wake t resume → w.poisoned = false

theorem Inv.next (h : Inv w) (he : Enabled w e) (hok : WaitsUnpoisoned w e) :
    Inv (next p w e) := by
  have ht := he.1
  cases e with
  | spawn =>
    refine ⟨?_, ?_, h.signal⟩
    · change w.parkedThreads = (w.threads ++ [Status.unregistered]).countP Status.inside
      rw [List.countP_append, h.parked]
      rfl
    · change w.heapThreads = (w.threads ++ [Status.unregistered]).countP Status.registered
      rw [List.countP_append, h.heap]
      rfl
  | register t =>
    rw [StopTheWorld.next]
    apply h.locked ht fun _ => rfl
    exact h.registerThread ht
  | unregister t =>
    rw [StopTheWorld.next]
    apply h.locked ht fun _ => rfl
    exact h.unregisterThread ht
  | allocate t objects ending =>
    rw [StopTheWorld.next]
    apply h.locked ht fun _ => rfl
    exact h.allocateInner ht objects ending
  | reclaim t =>
    rw [StopTheWorld.next]
    apply h.locked ht fun _ => rfl
    exact h.reclaim ht
  | safepointLoad t => exact h.safepointLoad ht
  | safepointLock t =>
    rw [StopTheWorld.next]
    apply h.locked ht fun _ => rfl
    exact (h.counts .stopping).stopTheWorldInner ht .safepoint
  | wake t resume =>
    rw [StopTheWorld.next]
    apply h.locked ht
    · intro hp
      rw [hok t resume rfl] at hp
      cases hp
    · exact Counts.waitParked (h.counts (.parked resume)) ht h.signal resume
  | gcSpawn =>
    refine ⟨h.parked, h.heap, fun _ _ _ hn => ?_⟩
    cases hn
  | gcFirst => exact h.gcPass
  | gcWake notified => exact h.gcPass

theorem Inv.initial : Inv World.initial := ⟨rfl, rfl, fun hs => nomatch hs⟩

/-- The count of parked threads is right, and a request that all have answered is not lost. -/
structure Answered (w : World) : Prop where
  parked : w.parkedThreads = w.threads.countP Status.inside
  le : w.parkedThreads ≤ w.heapThreads
  heard : ¬ (w.shouldStopTheWorld = true ∧ w.parkedThreads = w.heapThreads ∧
    (∃ notified, w.gc = .waiting notified) ∧ w.signalled = false)

theorem Inv.answered (h : Inv w) : Answered w := by
  refine ⟨h.parked, ?_, ?_⟩
  · rw [h.parked, h.heap]
    exact countP_inside_le _
  · rintro ⟨hs, he, ⟨n, hn⟩, hf⟩
    rw [h.signal hs he n hn] at hf
    cases hf

/-- A wait that returns after a panic under the lock ends in a panic itself, and the thread is
counted as parked from then on. -/
theorem Inv.wake_poisoned (h : Inv w) (ht : w.threads[t]? = some (.parked resume))
    (hp : w.poisoned = true) : ¬ Answered (StopTheWorld.next p w (.wake t resume)) := by
  have hd : w.threads.getD t .unregistered = .parked resume := by
    rw [List.getD_eq_getElem?_getD, ht]
    rfl
  have hcount := countP_set_add (p := Status.inside) (s := .diedParked) ht
  rw [StopTheWorld.next, World.locked, if_pos hp, hd]
  rintro ⟨hparked, -, -⟩
  change w.parkedThreads = (w.threads.set t .diedParked).countP Status.inside at hparked
  rw [h.parked] at hparked
  change _ + 1 = _ + 0 at hcount
  omega

/-- As long as no wait in `stop_the_world_inner` returns after a panic under the lock, the counts
are right and no wake-up is lost; after one that does they are not. -/
theorem parked_counted_and_signalled
    (h : Reaches (Step p) WaitsUnpoisoned (· = World.initial) w) :
    Answered w ∧ ∀ e, Enabled w e → (Answered (next p w e) ↔ WaitsUnpoisoned w e) := by
  have hi : Inv w := by
    apply h.invariant
    · intro w hw
      rw [hw]
      exact .initial
    · rintro w e w' hi hok ⟨he, rfl⟩
      exact hi.next he hok
  refine ⟨hi.answered, ?_⟩
  intro e he
  constructor
  · rintro ha t resume rfl
    apply Bool.eq_false_iff.mpr
    exact fun hp => hi.wake_poisoned he.1 hp ha
  · exact fun hok => (hi.next he hok).answered

/-- The GC thread passes the test of its wait without having been notified, at its start or by a
spurious wake-up, only while no stop is requested or every registered thread is parked. -/
def UnpromptedPassOk (w : World) (e : Event) : Prop :=
  e = .gcFirst ∨ e = .gcWake false →
    w.shouldStopTheWorld = false ∨ w.parkedThreads = w.heapThreads

/-- The GC thread takes the lock for the first time while no stop is requested, and while one is it
is not woken without a notification. -/
def PassesPrompted (w : World) (e : Event) : Prop :=
  e = .gcFirst ∨ e = .gcWake false → w.shouldStopTheWorld = false

theorem PassesPrompted.allowed (h : PassesPrompted w e) : UnpromptedPassOk w e :=
  fun he => .inl (h he)

def EntersTryGc (w : World) (e : Event) : Prop :=
  (e = .gcFirst ∨ ∃ notified, e = .gcWake notified) ∧
    w.poisoned = false ∧ w.shouldStopTheWorld = true

instance (w : World) (e : Event) : Decidable (EntersTryGc w e) :=
  decidable_of_iff ((e = .gcFirst ∨ e = .gcWake false ∨ e = .gcWake true) ∧
      w.poisoned = false ∧ w.shouldStopTheWorld = true) <| by
    simp [EntersTryGc]

/-- What holds until the lock is poisoned. -/
structure Handshake (w : World) : Prop where
  inv : Inv w
  notified : w.gc = .waiting true →
    w.shouldStopTheWorld = true ∧ w.parkedThreads = w.heapThreads
  stopping : .stopping ∈ w.threads → w.shouldStopTheWorld = true
  alive : w.gc ≠ .panicked

theorem Handshake.not_notified (h : Handshake w) (hf : w.shouldStopTheWorld = false) :
    w.gc ≠ .waiting true := by
  intro hg
  rw [(h.notified hg).1] at hf
  exact nomatch hf

theorem Handshake.not_notified_of_active (h : Handshake w) {t : Nat} (ht : w.threads[t]? = some s)
    (hr : s.registered = true) (hi : s.inside = false) : w.gc ≠ .waiting true := by
  intro hg
  have hlt := Inv.apart h.inv.parked h.inv.heap ht hr hi
  have he := (h.notified hg).2
  omega

theorem stopping_of_set {threads : List Status} (h : Status.stopping ∈ threads.set t s)
    (hs : s ≠ .stopping) : Status.stopping ∈ threads := by
  rcases List.mem_or_eq_of_mem_set h with h | h
  · exact h
  · exact absurd h.symm hs

/-- A state that differs from one without a request, and before a notification, in what the thread
does with the heap locked. -/
structure Proceeds (w w' : World) (t : Nat) : Prop where
  gc : w'.gc = w.gc
  threads : ∃ s, s ≠ .stopping ∧ w'.threads = w.threads.set t s

theorem allocateObjects_proceeds (p : Profile) (t : Nat) (ending : Ending) (w : World) (n : Nat) :
    Proceeds w (w.allocateObjects p t ending n) t := by
  induction n generalizing w with
  | zero =>
    cases ending with
    | returns => exact ⟨rfl, .running, nofun, rfl⟩
    | panics => exact ⟨rfl, .diedRunning, nofun, rfl⟩
    | deadlocks => exact ⟨rfl, .deadlocked, nofun, rfl⟩
  | succ n ih =>
    rw [World.allocateObjects]
    split
    · rename_i allocCount _
      obtain ⟨hg, s, hs, ht⟩ := ih (World.setGcFlags { w with allocCount })
      rw [setGcFlags_threads] at ht
      refine ⟨hg.trans ?_, s, hs, ht⟩
      rcases setGcFlags_cases { w with allocCount } with hc | hc <;> rw [hc]
    · exact ⟨rfl, .diedRunning, nofun, rfl⟩

theorem finish_proceeds (p : Profile) (w : World) (t : Nat) (resume : Resume) :
    Proceeds w (w.finish p t resume) t := by
  cases resume with
  | register => exact ⟨rfl, .running, nofun, rfl⟩
  | safepoint => exact ⟨rfl, .running, nofun, rfl⟩
  | allocate n ending => exact allocateObjects_proceeds p t ending w n

theorem Handshake.proceeds (h : Handshake w) (hf : w.shouldStopTheWorld = false)
    (hw : Proceeds w w' t) (hi : Inv w') : Handshake w' := by
  obtain ⟨hg, s, hs, ht⟩ := hw
  refine ⟨hi, ?_, ?_, ?_⟩
  · intro hn
    exact absurd (hg.symm.trans hn) (h.not_notified hf)
  · intro hm
    rw [ht] at hm
    rw [h.stopping (stopping_of_set hm hs)] at hf
    cases hf
  · intro hp
    exact h.alive (hg.symm.trans hp)

/-- A thread that parks on a request notifies only when it is the last one. -/
theorem Handshake.stopTheWorldInner {w : World} (hf : w.shouldStopTheWorld = true)
    (ha : w.gc ≠ .panicked) (hn : w.gc = .waiting true → w.parkedThreads + 1 = w.heapThreads)
    (hi : Inv (w.stopTheWorldInner p t resume)) : Handshake (w.stopTheWorldInner p t resume) := by
  have hle := countP_inside_le (w.stopTheWorldInner p t resume).threads
  rw [← hi.parked, ← hi.heap] at hle
  rw [World.stopTheWorldInner] at hi hle ⊢
  have hpark : ∀ v : World, v.shouldStopTheWorld = true →
      v.waitParked p t resume = v.setStatus t (.parked resume) := by
    intro v hv
    rw [World.waitParked, if_pos hv]
  split at hi
  · rename_i hge
    rw [if_pos hge] at hle
    rw [if_pos hge]
    have hnf : (w.setParkedThreads (w.parkedThreads + 1)).notifyGc.shouldStopTheWorld = true := by
      rw [World.notifyGc]
      split <;> exact hf
    rw [hpark _ hnf] at hi hle ⊢
    refine ⟨hi, fun _ => ⟨hnf, ?_⟩, fun _ => hnf, ?_⟩
    · rw [World.notifyGc] at hle ⊢
      split at hle <;> exact Nat.le_antisymm hle hge
    · rw [World.notifyGc]
      split
      · exact fun hw => nomatch hw
      · exact ha
  · rename_i hlt
    rw [if_neg hlt] at hle
    rw [if_neg hlt]
    have hw1 := hpark (w.setParkedThreads (w.parkedThreads + 1)) hf
    rw [hw1] at hi ⊢
    exact ⟨hi, fun hw => ⟨hf, hn hw⟩, fun _ => hf, ha⟩

theorem Handshake.registerThread (h : Handshake w) (ht : w.threads[t]? = some .unregistered) :
    Handshake (w.registerThread p t) := by
  have hi := h.inv.registerThread (p := p) ht
  rw [World.registerThread] at hi ⊢
  split at hi
  · rename_i hf
    rw [if_pos hf]
    refine Handshake.stopTheWorldInner hf h.alive (fun hg => ?_) hi
    exact congrArg (· + 1) (h.notified hg).2
  · rename_i hf
    rw [if_neg hf]
    exact h.proceeds (Bool.eq_false_iff.2 hf) ⟨rfl, .running, nofun, rfl⟩ hi

theorem Handshake.unregisterThread (h : Handshake w) (ht : w.threads[t]? = some .running) :
    Handshake (w.unregisterThread t) := by
  have hi := h.inv.unregisterThread ht
  have hn := h.not_notified_of_active ht rfl rfl
  have hle := countP_inside_le (w.unregisterThread t).threads
  rw [← hi.parked, ← hi.heap] at hle
  have hmem : ∀ v : World, v.threads = w.threads →
      Status.stopping ∈ (v.setStatus t .unregistered).threads → w.shouldStopTheWorld = true := by
    intro v hv hm
    change Status.stopping ∈ v.threads.set t .unregistered at hm
    rw [hv] at hm
    exact h.stopping (stopping_of_set hm (fun he => nomatch he))
  rw [World.unregisterThread] at hi hle ⊢
  split at hi
  · rename_i hc
    rw [if_pos hc] at hle
    rw [if_pos hc]
    rw [Bool.and_eq_true, decide_eq_true_eq] at hc
    have hnf : (w.setHeapThreads (w.heapThreads - 1)).notifyGc.shouldStopTheWorld = true := by
      rw [World.notifyGc]
      split <;> exact hc.1
    refine ⟨hi, fun _ => ⟨hnf, ?_⟩, fun _ => hnf, ?_⟩
    · rw [World.notifyGc] at hle ⊢
      split at hle <;> exact Nat.le_antisymm hle hc.2
    · rw [World.notifyGc]
      split
      · exact fun hw => nomatch hw
      · exact h.alive
  · rename_i hc
    rw [if_neg hc]
    exact ⟨hi, fun hw => absurd hw hn, hmem _ rfl, h.alive⟩

theorem Handshake.allocateInner (h : Handshake w) (ht : w.threads[t]? = some .running)
    (objects : Nat) (ending : Ending) : Handshake (w.allocateInner p t objects ending) := by
  have hi := h.inv.allocateInner (p := p) ht objects ending
  rw [World.allocateInner] at hi ⊢
  split at hi
  · rename_i hf
    rw [if_pos hf]
    exact Handshake.stopTheWorldInner hf h.alive
      (fun hg => absurd hg (h.not_notified_of_active ht rfl rfl)) hi
  · rename_i hf
    rw [if_neg hf]
    exact h.proceeds (Bool.eq_false_iff.2 hf) (finish_proceeds ..) hi

theorem Handshake.reclaim (h : Handshake w) (ht : w.threads[t]? = some .running) :
    Handshake (w.reclaim p t) := by
  have hi := h.inv.reclaim (p := p) ht
  rw [World.reclaim] at hi ⊢
  split at hi
  · exact ⟨hi, h.notified, h.stopping, h.alive⟩
  · refine ⟨hi, ?_, ?_, h.alive⟩
    · intro hn
      exact absurd hn (h.not_notified_of_active ht rfl rfl)
    · intro hm
      exact h.stopping (stopping_of_set hm nofun)

theorem Handshake.safepointLoad (h : Handshake w) (ht : w.threads[t]? = some .running) :
    Handshake (w.safepointLoad t) := by
  have hi := h.inv.safepointLoad ht
  rw [World.safepointLoad] at hi ⊢
  split at hi
  · rename_i hf
    rw [if_pos hf]
    exact ⟨hi, h.notified, fun _ => hf, h.alive⟩
  · rename_i hf
    rw [if_neg hf]
    exact h

theorem Handshake.safepointLock (h : Handshake w) (ht : w.threads[t]? = some .stopping) :
    Handshake (w.safepointLock p t) :=
  Handshake.stopTheWorldInner (h.stopping (List.mem_of_getElem? ht)) h.alive
    (fun hg => absurd hg (h.not_notified_of_active ht rfl rfl))
    ((h.inv.counts .stopping).stopTheWorldInner ht _)

theorem Handshake.waitParked (h : Handshake w) (ht : w.threads[t]? = some (.parked resume)) :
    Handshake (w.waitParked p t resume) := by
  have hi := Counts.waitParked (p := p) (h.inv.counts (.parked resume)) ht h.inv.signal resume
  rw [World.waitParked] at hi ⊢
  split at hi
  · rename_i hf
    rw [if_pos hf]
    exact ⟨hi, h.notified, fun _ => hf, h.alive⟩
  · rename_i hf
    rw [if_neg hf]
    obtain ⟨hg, ht'⟩ :=
      finish_proceeds p (w.setParkedThreads (w.parkedThreads - 1)) t resume
    exact h.proceeds (Bool.eq_false_iff.2 hf) ⟨hg, ht'⟩ hi

theorem Handshake.all_inside (h : Handshake w) (he : w.parkedThreads = w.heapThreads)
    (hs : s ∈ w.threads) (hr : s.registered = true) : s.inside = true := by
  cases hi : s.inside with
  | true => rfl
  | false =>
    have hlt := countP_inside_lt hs hr hi
    rw [← h.inv.parked, ← h.inv.heap] at hlt
    omega

theorem gcPass_idle {w : World} (hp : w.poisoned = false) (hf : w.shouldStopTheWorld = false) :
    w.gcPass = { w with gc := .waiting false } := by
  rw [World.gcPass, hp, hf, if_neg Bool.false_ne_true, if_neg Bool.false_ne_true]

theorem gcPass_collect {w : World} (hf : w.shouldStopTheWorld = true) (hp : w.poisoned = false)
    (he : w.parkedThreads = w.heapThreads) :
    ∃ n, w.gcPass =
      { w with allocCount := n, shouldStopTheWorld := false, gc := .waiting false } := by
  rw [World.gcPass, if_neg (by rw [hp]; exact Bool.false_ne_true), if_pos hf]
  simp only [World.tryGc, he, ne_eq, not_true_eq_false, if_false]
  split
  · rw [hp, if_neg Bool.false_ne_true]
    exact ⟨0, rfl⟩
  · rw [hp, if_neg Bool.false_ne_true]
    exact ⟨w.allocCount, by rw [← he]⟩

theorem Handshake.gcPass (h : Handshake w) (hp : w.poisoned = false)
    (hok : w.shouldStopTheWorld = false ∨ w.parkedThreads = w.heapThreads) :
    Handshake w.gcPass := by
  have hi := h.inv.gcPass
  by_cases hf : w.shouldStopTheWorld = true
  · rcases hok with hs | he
    · rw [hf] at hs
      exact nomatch hs
    · obtain ⟨n, hn⟩ := gcPass_collect hf hp he
      rw [hn] at hi ⊢
      have hno : Status.stopping ∉ w.threads := fun hm => nomatch h.all_inside he hm rfl
      exact ⟨hi, (fun hw => nomatch hw), fun hm => absurd hm hno, fun hw => nomatch hw⟩
  · rw [gcPass_idle hp (Bool.eq_false_iff.2 hf)] at hi ⊢
    exact ⟨hi, (fun hw => nomatch hw), h.stopping, fun hw => nomatch hw⟩

theorem locked_eq (hp : w.poisoned = false) (section_ : World → World) :
    w.locked t section_ = section_ w := by
  rw [World.locked, hp, if_neg Bool.false_ne_true]

theorem Handshake.next (h : Handshake w) (hp : w.poisoned = false) (he : Enabled w e)
    (hok : UnpromptedPassOk w e) : Handshake (next p w e) := by
  have hd := he.1
  have hwait : WaitsUnpoisoned w e := fun _ _ _ => hp
  cases e with
  | spawn =>
    refine ⟨h.inv.next he hwait, h.notified, fun hm => ?_, h.alive⟩
    rcases List.mem_append.1 hm with hm | hm
    · exact h.stopping hm
    · cases List.mem_singleton.1 hm
  | register t =>
    rw [StopTheWorld.next, locked_eq hp]
    exact h.registerThread hd
  | unregister t =>
    rw [StopTheWorld.next, locked_eq hp]
    exact h.unregisterThread hd
  | allocate t objects ending =>
    rw [StopTheWorld.next, locked_eq hp]
    exact h.allocateInner hd objects ending
  | reclaim t =>
    rw [StopTheWorld.next, locked_eq hp]
    exact h.reclaim hd
  | safepointLoad t => exact h.safepointLoad hd
  | safepointLock t =>
    rw [StopTheWorld.next, locked_eq hp]
    exact h.safepointLock hd
  | wake t resume =>
    rw [StopTheWorld.next, locked_eq hp]
    exact h.waitParked hd
  | gcSpawn =>
    refine ⟨h.inv.next he hwait, fun hw => ?_, h.stopping, fun hw => ?_⟩ <;> cases hw
  | gcFirst => exact h.gcPass hp (hok (.inl rfl))
  | gcWake notified =>
    cases notified with
    | false => exact h.gcPass hp (hok (.inr rfl))
    | true => exact h.gcPass hp (.inr (h.notified hd).2)

theorem Handshake.initial : Handshake World.initial :=
  ⟨.initial, (fun hw => nomatch hw), (fun hm => nomatch hm), fun hw => nomatch hw⟩

/-- Once the lock is poisoned it stays so, and the GC thread does not get into the collector. -/
theorem next_poisoned (hp : w.poisoned = true) (ha : w.gc ≠ .panicked) (he : Enabled w e) :
    (next p w e).poisoned = true ∧ (next p w e).gc ≠ .panicked := by
  have hd := he.1
  have hlocked (t : Nat) (section_ : World → World) : (w.locked t section_).poisoned = true ∧
      (w.locked t section_).gc ≠ .panicked := by
    rw [World.locked, if_pos hp]
    exact ⟨hp, ha⟩
  have hpass : w.gcPass = { w with gc := .died } := by
    rw [World.gcPass, if_pos hp]
  cases e with
  | spawn => exact ⟨hp, ha⟩
  | safepointLoad t =>
    rw [next, World.safepointLoad]
    split <;> exact ⟨hp, ha⟩
  | gcSpawn =>
    refine ⟨hp, fun hg => ?_⟩
    cases hg
  | gcFirst | gcWake notified =>
    rw [next, hpass]
    refine ⟨hp, fun hg => ?_⟩
    cases hg
  | register | unregister | allocate | reclaim | safepointLock | wake => exact hlocked ..

/-- The assertion of `try_gc` has not failed, and unless a thread has panicked under the lock the
handshake is intact. -/
def Standing (w : World) : Prop :=
  w.gc ≠ .panicked ∧ (w.poisoned = false → Handshake w)

theorem Standing.next (h : Standing w) (he : Enabled w e) (hok : UnpromptedPassOk w e) :
    Standing (next p w e) := by
  obtain ⟨ha, hh⟩ := h
  cases hp : w.poisoned with
  | false =>
    have hn := (hh hp).next (p := p) hp he hok
    exact ⟨hn.alive, fun _ => hn⟩
  | true =>
    obtain ⟨hp', ha'⟩ := next_poisoned (p := p) hp ha he
    refine ⟨ha', fun hf => ?_⟩
    rw [hp'] at hf
    cases hf

/-- When the GC thread takes the lock first without a request, and during one is not woken without a
notification, the collector is entered only with the world stopped. -/
theorem tryGc_entered_stopped
    (h : Reaches (Step p) PassesPrompted (· = World.initial) w) :
    w.gc ≠ .panicked ∧ ∀ e, Enabled w e → PassesPrompted w e → EntersTryGc w e →
      w.parkedThreads = w.heapThreads ∧
      ∀ s ∈ w.threads, s.registered = true → s.inside = true := by
  have hs : Standing w := by
    apply h.invariant
    · intro w hw
      rw [hw]
      exact ⟨nofun, fun _ => .initial⟩
    · rintro w e w' hs hok ⟨he, rfl⟩
      exact hs.next he hok.allowed
  refine ⟨hs.1, ?_⟩
  rintro e he hok ⟨hg, hp, hf⟩
  have hh := hs.2 hp
  have hq : w.parkedThreads = w.heapThreads := by
    rcases hg with rfl | ⟨notified, rfl⟩
    · rw [hok (.inl rfl)] at hf
      cases hf
    · cases notified with
      | false =>
        rw [hok (.inr rfl)] at hf
        cases hf
      | true => exact (hh.notified he.1).2
  exact ⟨hq, fun s hm hr => hh.all_inside hq hm hr⟩

def RunsThrough (p : Profile) (ok : World → Event → Prop) (w : World) : List Event → Prop
  | [] => True
  | e :: es => (Enabled w e ∧ ok w e) ∧ RunsThrough p ok (next p w e) es

theorem reaches_of_runsThrough (es : List Event) (h : Reaches (Step p) ok (· = World.initial) w)
    (hr : RunsThrough p ok w es) :
    Reaches (Step p) ok (· = World.initial) (es.foldl (next p) w) := by
  induction es generalizing w with
  | nil => exact h
  | cons e es ih => exact ih (.next h hr.1.2 ⟨hr.1.1, rfl⟩) hr.2

instance (w : World) (e : Event) : Decidable (UnpromptedPassOk w e) :=
  inferInstanceAs (Decidable (_ → _))

instance (w : World) (e : Event) : Decidable (PassesPrompted w e) :=
  inferInstanceAs (Decidable (_ → _))

instance (w : World) (e : Event) : Decidable (WaitsUnpoisoned w e) :=
  match e with
  | .wake _ _ => decidable_of_iff (w.poisoned = false)
      ⟨fun h _ _ _ => h, fun h => h _ _ rfl⟩
  | .spawn => .isTrue nofun
  | .register _ => .isTrue nofun
  | .unregister _ => .isTrue nofun
  | .allocate .. => .isTrue nofun
  | .reclaim _ => .isTrue nofun
  | .safepointLoad _ => .isTrue nofun
  | .safepointLock _ => .isTrue nofun
  | .gcSpawn => .isTrue nofun
  | .gcFirst => .isTrue nofun
  | .gcWake _ => .isTrue nofun

instance (p : Profile) (ok : World → Event → Prop) [∀ w e, Decidable (ok w e)] :
    (w : World) → (es : List Event) → Decidable (RunsThrough p ok w es)
  | _, [] => .isTrue trivial
  | w, e :: es =>
    have := instDecidableRunsThrough p ok (next p w e) es
    inferInstanceAs (Decidable ((Enabled w e ∧ ok w e) ∧ RunsThrough p ok (next p w e) es))

/-- One thread fills the heap before the GC thread has taken the lock for the first time. -/
def lateStart : List Event :=
  [.spawn, .register 0, .gcSpawn] ++ List.replicate 20 (.allocate 0 1 .returns)

/-- The GC thread enters the collector while the only registered thread is running, and panics. -/
theorem lateStart_enters_running : ∃ w,
    Reaches (Step ⟨true⟩) (fun _ _ => True) (· = World.initial) w ∧ Enabled w .gcFirst ∧
    EntersTryGc w .gcFirst ∧ w.parkedThreads = 0 ∧ w.heapThreads = 1 ∧ w.threads = [.running] ∧
    (next ⟨true⟩ w .gcFirst).gc = .panicked :=
  ⟨_, reaches_of_runsThrough lateStart (.start rfl) (by decide +kernel), by decide +kernel,
    by decide +kernel, by decide +kernel, by decide +kernel, by decide +kernel,
    by decide +kernel⟩

/-- The GC thread is asleep in time, and the thread parks at a safepoint. -/
def timelyStart : List Event :=
  [.spawn, .register 0, .gcSpawn, .gcFirst] ++ List.replicate 20 (.allocate 0 1 .returns) ++
    [.safepointLoad 0, .safepointLock 0]

def timelyWorld : World := timelyStart.foldl (next ⟨true⟩) .initial

theorem timelyWorld_enters_stopped :
    timelyWorld.parkedThreads = timelyWorld.heapThreads ∧
      ∀ s ∈ timelyWorld.threads, s.registered = true → s.inside = true :=
  (tryGc_entered_stopped
    (reaches_of_runsThrough timelyStart (.start rfl) (by decide +kernel))).2
    (.gcWake true) (by decide +kernel) (by decide +kernel) (by decide +kernel)

theorem timelyWorld_answered : Answered timelyWorld :=
  (parked_counted_and_signalled
    (reaches_of_runsThrough timelyStart (.start rfl) (by decide +kernel))).1

/-- Two threads, of which one parks before the GC thread takes the lock for the first time. -/
def lateParked : List Event :=
  [.spawn, .spawn, .register 0, .register 1, .gcSpawn] ++
    List.replicate 20 (.allocate 0 1 .returns) ++
    [.safepointLoad 1, .safepointLock 1, .gcFirst, .wake 1 .safepoint]

/-- The GC thread panics in its assertion; the wait of the parked thread returns, and its panic
leaves it counted as parked. -/
theorem lateParked_miscounted : ∃ w,
    Reaches (Step ⟨true⟩) (fun _ _ => True) (· = World.initial) w ∧
    w.threads = [.running, .diedParked] ∧ w.parkedThreads = 1 ∧ ¬ Answered w := by
  refine ⟨_, reaches_of_runsThrough lateParked (.start rfl) (by decide +kernel),
    by decide +kernel, by decide +kernel, ?_⟩
  intro h
  exact absurd h.parked (by decide +kernel)

end Janadinite.StopTheWorld
