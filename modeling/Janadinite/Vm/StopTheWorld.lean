import Janadinite.Lib.Overflow
import Janadinite.Lib.Runs

namespace Janadinite.StopTheWorld
open Runs
set_option autoImplicit true

def gcThreshold : Nat := 20

/-- How an allocation ends with the heap locked: a multi-dimensional array may not get that far,
when its data cannot be made or a level of it is dropped. -/
inductive Ending where
  | returns
  | panics
  | deadlocks
  deriving DecidableEq, Repr

/-- What a thread in `stop_the_world_inner` goes on with once it is released. -/
inductive Resume where
  | register
  | safepoint
  | allocate (objects : Nat) (ending : Ending)
  deriving DecidableEq, Repr

/-- Where a mutator thread is. A thread in `stopping` has seen the flag in `safepoint` and has not
locked the heap yet; a `deadlocked` one holds the lock and waits for it; a `died` one has panicked,
with the heap locked or on the poisoned lock. -/
inductive Status where
  | unregistered
  | running
  | stopping
  | parked (resume : Resume)
  | deadlocked
  | diedUnregistered
  | diedRunning
  | diedParked
  deriving DecidableEq, Repr

namespace Status

def registered : Status → Bool
  | .unregistered => false
  | .diedUnregistered => false
  | _ => true

/-- The thread is in `stop_the_world_inner`. A panic unwinds it out of there. -/
def inside : Status → Bool
  | .parked _ => true
  | _ => false

theorem registered_of_inside {s : Status} (h : s.inside) : s.registered := by
  cases s <;> first | rfl | exact nomatch h

/-- The panic of a thread whose attempt to lock the heap fails. -/
def die : Status → Status
  | .unregistered => .diedUnregistered
  | .parked _ => .diedParked
  | .diedUnregistered => .diedUnregistered
  | .diedParked => .diedParked
  | _ => .diedRunning

theorem registered_die (s : Status) : s.die.registered = s.registered := by
  cases s <;> rfl

theorem inside_die (s : Status) : s.die.inside = false := by
  cases s <;> rfl

end Status

/-- Where the GC thread is; asleep in its condvar wait it may have been sent a notification. It has
`panicked` in the assertion of `try_gc`, or `died` on the poisoned lock. -/
inductive GcThread where
  | unspawned
  | starting
  | waiting (notified : Bool)
  | panicked
  | died
  deriving DecidableEq, Repr

/-- The state the threads share. `signalled` is no part of the program: it says that a notification
was sent to the sleeping GC thread since one of the two counts last changed. -/
structure World where
  heapThreads : Nat
  parkedThreads : Nat
  allocCount : Nat
  shouldStopTheWorld : Bool
  poisoned : Bool
  gc : GcThread
  threads : List Status
  signalled : Bool
  deriving DecidableEq, Repr

namespace World

def initial : World :=
  ⟨0, 0, 0, false, false, .unspawned, [], false⟩

def setStatus (w : World) (t : Nat) (s : Status) : World :=
  { w with threads := w.threads.set t s }

def setHeapThreads (w : World) (n : Nat) : World :=
  { w with heapThreads := n, signalled := false }

def setParkedThreads (w : World) (n : Nat) : World :=
  { w with parkedThreads := n, signalled := false }

def notifyGc (w : World) : World :=
  match w.gc with
  | .waiting _ => { w with gc := .waiting true, signalled := true }
  | _ => w

def setGcFlags (w : World) : World :=
  if w.allocCount ≥ gcThreshold then { w with shouldStopTheWorld := true } else w

/-- The panic of a thread that has the heap locked. -/
def panic (w : World) (t : Nat) : World := { w.setStatus t .diedRunning with poisoned := true }

/-- `allocate_from_object`, so many times, and what follows it. -/
def allocateObjects (p : Profile) (t : Nat) (ending : Ending) (w : World) : Nat → World
  | 0 =>
    match ending with
    | .returns => w.setStatus t .running
    | .panics => w.panic t
    | .deadlocks => w.setStatus t .deadlocked
  | n + 1 =>
    match p.add 64 w.allocCount 1 with
    | .ok allocCount => allocateObjects p t ending (setGcFlags { w with allocCount }) n
    | .error _ => w.panic t

/-- `ObjectRef::drop` of the last reference besides the one of the heap. -/
def reclaim (p : Profile) (w : World) (t : Nat) : World :=
  match p.sub 64 w.allocCount 1 with
  | .ok allocCount => { w with allocCount }
  | .error _ => w.panic t

/-- What a thread does after `stop_the_world_inner`, with the heap still locked. -/
def finish (p : Profile) (w : World) (t : Nat) : Resume → World
  | .register => w.setStatus t .running
  | .safepoint => w.setStatus t .running
  | .allocate n ending => w.allocateObjects p t ending n

/-- The wait on `PARKED_THREADS`: the test, made with the heap locked, and what follows it. -/
def waitParked (p : Profile) (w : World) (t : Nat) (resume : Resume) : World :=
  if w.shouldStopTheWorld then w.setStatus t (.parked resume)
  else (w.setParkedThreads (w.parkedThreads - 1)).finish p t resume

def stopTheWorldInner (p : Profile) (w : World) (t : Nat) (resume : Resume) : World :=
  let w := w.setParkedThreads (w.parkedThreads + 1)
  let w := if w.parkedThreads ≥ w.heapThreads then w.notifyGc else w
  w.waitParked p t resume

def registerThread (p : Profile) (w : World) (t : Nat) : World :=
  let w := w.setHeapThreads (w.heapThreads + 1)
  if w.shouldStopTheWorld then w.stopTheWorldInner p t .register else w.setStatus t .running

def unregisterThread (w : World) (t : Nat) : World :=
  let w := w.setHeapThreads (w.heapThreads - 1)
  let w := if w.shouldStopTheWorld && w.parkedThreads ≥ w.heapThreads then w.notifyGc else w
  w.setStatus t .unregistered

def allocateInner (p : Profile) (w : World) (t : Nat) (objects : Nat) (ending : Ending) : World :=
  if w.shouldStopTheWorld then w.stopTheWorldInner p t (.allocate objects ending)
  else w.finish p t (.allocate objects ending)

/-- The first half of `safepoint`: the flag is read without the lock. -/
def safepointLoad (w : World) (t : Nat) : World :=
  if w.shouldStopTheWorld then w.setStatus t .stopping else w

def safepointLock (p : Profile) (w : World) (t : Nat) : World := w.stopTheWorldInner p t .safepoint

/-- The counting part of `try_gc`. A failed assertion ends the GC thread with the heap locked. -/
def tryGc (w : World) : World :=
  if w.heapThreads ≠ w.parkedThreads then { w with gc := .panicked, poisoned := true }
  else if w.allocCount ≥ gcThreshold then { w with allocCount := 0 } else w

/-- The GC thread with the heap locked, from the test of its wait to the next wait. It panics when
the lock is poisoned. -/
def gcPass (w : World) : World :=
  if w.poisoned then { w with gc := .died }
  else if w.shouldStopTheWorld then
    let w := w.tryGc
    if w.poisoned then w else { w with shouldStopTheWorld := false, gc := .waiting false }
  else { w with gc := .waiting false }

/-- A critical section of a thread, or its panic when the lock is poisoned. -/
def locked (w : World) (t : Nat) (section_ : World → World) : World :=
  if w.poisoned then w.setStatus t ((w.threads.getD t .unregistered).die) else section_ w

end World

/-- The steps: each critical section is one, and so is the unlocked read of `safepoint`. `wake` and
`gcWake` are waits that return, notified or not. -/
inductive Event where
  | spawn
  | register (t : Nat)
  | unregister (t : Nat)
  | allocate (t : Nat) (objects : Nat) (ending : Ending)
  | reclaim (t : Nat)
  | safepointLoad (t : Nat)
  | safepointLock (t : Nat)
  | wake (t : Nat) (resume : Resume)
  | gcSpawn
  | gcFirst
  | gcWake (notified : Bool)
  deriving DecidableEq, Repr

def Event.locks : Event → Bool
  | .spawn => false
  | .safepointLoad _ => false
  | .gcSpawn => false
  | _ => true

/-- Threads allocate, reach safepoints and unregister only while registered and not parked. -/
def Due (w : World) : Event → Prop
  | .spawn => True
  | .register t => w.threads[t]? = some .unregistered
  | .unregister t => w.threads[t]? = some .running
  | .allocate t _ _ => w.threads[t]? = some .running
  | .reclaim t => w.threads[t]? = some .running
  | .safepointLoad t => w.threads[t]? = some .running
  | .safepointLock t => w.threads[t]? = some .stopping
  | .wake t resume => w.threads[t]? = some (.parked resume)
  | .gcSpawn => w.gc = .unspawned
  | .gcFirst => w.gc = .starting
  | .gcWake notified => w.gc = .waiting notified

instance (w : World) (e : Event) : Decidable (Due w e) := by
  cases e <;> simp only [Due] <;> infer_instance

/-- Nothing is done under the lock once a thread holds it forever. -/
def Enabled (w : World) (e : Event) : Prop :=
  Due w e ∧ (e.locks = true → .deadlocked ∉ w.threads)

instance (w : World) (e : Event) : Decidable (Enabled w e) :=
  inferInstanceAs (Decidable (_ ∧ _))

def next (p : Profile) (w : World) : Event → World
  | .spawn => { w with threads := w.threads ++ [.unregistered] }
  | .register t => w.locked t fun w => w.registerThread p t
  | .unregister t => w.locked t fun w => w.unregisterThread t
  | .allocate t objects ending => w.locked t fun w => w.allocateInner p t objects ending
  | .reclaim t => w.locked t fun w => w.reclaim p t
  | .safepointLoad t => w.safepointLoad t
  | .safepointLock t => w.locked t fun w => w.safepointLock p t
  | .wake t resume => w.locked t fun w => w.waitParked p t resume
  | .gcSpawn => { w with gc := .starting }
  | .gcFirst => w.gcPass
  | .gcWake _ => w.gcPass

def Step (p : Profile) (w : World) (e : Event) (w' : World) : Prop :=
  Enabled w e ∧ w' = next p w e

end Janadinite.StopTheWorld
