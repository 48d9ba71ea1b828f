import Janadinite.Lib.Overflow
import Janadinite.Vm.Error

namespace Janadinite
set_option autoImplicit true

def gcThreshold : Nat := 20

def usizeMax : Nat := 2 ^ 64 - 1

/-- `isize::MAX`, more than which an `Arc` is never cloned. -/
def maxRefcount : Nat := 2 ^ 63 - 1

inductive ObjectKind where
  | instance (cls : ClassRef)
  | array (size : NonZeroU16)
  deriving DecidableEq, Repr

/-- An object with the strong count of its `Arc`. -/
structure Object where
  strong : Nat
  gcRefs : Nat
  kind : ObjectKind
  data : List JVMSlot
  deriving DecidableEq, Repr

/-- The `objects` set is listed without repetition. -/
structure Heap where
  objects : List Addr
  allocCount : Nat
  unreachable : List Addr
  heapThreads : Nat
  parkedThreads : Nat
  deriving DecidableEq, Repr

def Heap.new : Heap := ⟨[], 0, [], 0, 0⟩

/-- The memory with the statics of the heap. `locked` and `poisoned` are the state of the mutex
`HEAP`; `addresses` are what the allocator gives out, one after the other. -/
structure Store where
  memory : Addr → Option Object
  heap : Heap
  shouldStopTheWorld : Bool
  locked : Bool
  poisoned : Bool
  addresses : Nat → Addr
  allocated : Nat

namespace Store

def write (s : Store) (a : Addr) (o : Option Object) : Store :=
  { s with memory := fun b => if b = a then o else s.memory b }

def modifyHeap (s : Store) (f : Heap → Heap) : Store := { s with heap := f s.heap }

end Store

def refs (slots : List JVMSlot) : List Addr := slots.filterMap JVMSlot.object?

def deref (a : Addr) : VM Store Object := do
  let s ← get
  match s.memory a with
  | some o => pure o
  | none => throw .undefined

def writeObject (a : Addr) (o : Object) : VM Store PUnit := modify fun s => s.write a (some o)

def readHeap : VM Store Heap := do
  let s ← get
  pure s.heap

def modifyHeap (f : Heap → Heap) : VM Store PUnit := modify fun s => s.modifyHeap f

/-- `HEAP.lock().expect(msg)`. -/
def lockHeap (msg : String) : VM Store PUnit := do
  let s ← get
  if s.poisoned then panicWith msg
  else if s.locked then throw .deadlock
  else set { s with locked := true }

def unlockHeap : VM Store PUnit := modify fun s => { s with locked := false }

/-- `Arc::clone`. -/
def arcClone (a : Addr) : VM Store Addr := do
  let o ← deref a
  if o.strong > maxRefcount then throw .abort
  else do
    writeObject a { o with strong := o.strong + 1 }
    pure a

/-- The drop of an `Arc<Object>`, up to the slots of the object when it was the last one. -/
def arcRelease (a : Addr) : VM Store (List Addr) := do
  let o ← deref a
  if o.strong = 1 then do
    modify fun s => s.write a none
    pure (refs o.data)
  else do
    writeObject a { o with strong := o.strong - 1 }
    pure []

def deallocLockMsg : String := "Failed to acquire lock on heap while dealllocting object"

/-- The body of `ObjectRef::drop`, before the `Arc` in it is dropped. -/
def tryDeallocate (p : Profile) (a : Addr) : VM Store PUnit := do
  let o ← deref a
  if o.strong = 2 then do
    lockHeap deallocLockMsg
    let heap ← readHeap
    if a ∈ heap.objects then do
      modifyHeap fun heap => { heap with objects := heap.objects.erase a }
      -- `removed.into_arc()` is one of two references and does not free the object
      writeObject a { o with strong := o.strong - 1 }
      let allocCount ← checked (p.sub 64 heap.allocCount 1)
      modifyHeap fun heap => { heap with allocCount }
      unlockHeap
    else panicWith "Failed to deallocate an object"

/-- The drop of one `ObjectRef`, up to the slots of its object when that is freed. -/
def dropOnce (p : Profile) (a : Addr) : VM Store (List Addr) := do
  tryDeallocate p a
  arcRelease a

/-- The drops of references in turn, those in a freed object first. -/
def dropRefs (p : Profile) : Nat → List Addr → VM Store PUnit
  | _, [] => pure ⟨⟩
  | 0, _ :: _ => throw .outOfFuel
  | fuel + 1, a :: rest => do
    let nested ← dropOnce p a
    dropRefs p fuel (nested ++ rest)

/-- The references that the objects of the heap hold: each is dropped at most once. -/
def Store.heldRefs (s : Store) : Nat :=
  (s.heap.objects.map fun a => ((s.memory a).map fun o => (refs o.data).length).getD 0).sum

def dropRef (p : Profile) (a : Addr) : VM Store PUnit := do
  let s ← get
  dropRefs p (s.heldRefs + 1) [a]

def dropSlot (p : Profile) (slot : JVMSlot) : VM Store PUnit :=
  match slot.object? with
  | some a => dropRef p a
  | none => pure ⟨⟩

def dropSlots (p : Profile) : List JVMSlot → VM Store PUnit
  | [] => pure ⟨⟩
  | slot :: slots => do
    dropSlot p slot
    dropSlots p slots

/-- `JVMSlot::with_object`: the negation of `isize::MIN` overflows. -/
def withObject (p : Profile) (slot : JVMSlot) (f : Addr → VM Store α) : VM Store (Option α) :=
  if slot.isObject then
    if p.overflowChecks && slot.raw == Int64.minValue then
      panicWith "attempt to negate with overflow"
    else do
      let r ← f (-slot.raw).toUInt64
      pure (some r)
  else pure none

def cloneSlot (p : Profile) (slot : JVMSlot) : VM Store JVMSlot := do
  match ← withObject p slot arcClone with
  | some a => pure (.fromObject a)
  | none => pure slot

def cloneSlots (p : Profile) : List JVMSlot → VM Store (List JVMSlot)
  | [] => pure []
  | slot :: slots => do
    let c ← cloneSlot p slot
    let cs ← cloneSlots p slots
    pure (c :: cs)

def gcRefs (a : Addr) : VM Store Nat := do
  let o ← deref a
  pure o.gcRefs

def setGcRefs (a : Addr) (n : Nat) : VM Store PUnit := do
  let o ← deref a
  writeObject a { o with gcRefs := n }

/-- `mem::replace` on a slot of an object. -/
def replaceData (a : Addr) (i : Nat) (slot : JVMSlot) : VM Store JVMSlot := do
  let o ← deref a
  match o.data[i]? with
  | some old =>
    writeObject a { o with data := o.data.set i slot }
    pure old
  | none => panicWith "index out of bounds"

namespace Heap

/-- Every object's references but the one of the heap. -/
def countRefs (p : Profile) : List Addr → VM Store PUnit
  | [] => pure ⟨⟩
  | obj :: objects => do
    let o ← deref obj
    let n ← checked (p.sub 64 o.strong 1)
    setGcRefs obj n
    countRefs p objects

/-- What is done with the child of every slot of an object. -/
def forChildren (p : Profile) (f : Addr → VM Store PUnit) : List JVMSlot → VM Store PUnit
  | [] => pure ⟨⟩
  | slot :: data => do
    let _ ← withObject p slot f
    forChildren p f data

def subtractRef (p : Profile) (child : Addr) : VM Store PUnit := do
  let n ← gcRefs child
  let n ← checked (p.sub 64 n 1)
  setGcRefs child n

def subtractInternal (p : Profile) : List Addr → VM Store PUnit
  | [] => pure ⟨⟩
  | obj :: objects => do
    let o ← deref obj
    forChildren p (subtractRef p) o.data
    subtractInternal p objects

/-- The `extract_if` loop: the objects that stay, and those moved to `unreachable`. -/
def extractUnreachable : List Addr → VM Store (List Addr × List Addr)
  | [] => pure ([], [])
  | obj :: objects => do
    let n ← gcRefs obj
    if n = 0 then do
      setGcRefs obj usizeMax
      let (stay, moved) ← extractUnreachable objects
      pure (stay, obj :: moved)
    else do
      let (stay, moved) ← extractUnreachable objects
      pure (obj :: stay, moved)

/-- One slot's child, when it counted as unreachable, is found; `found` is the flag so far. -/
def findChild (child : Addr) (found : Bool) : VM Store Bool := do
  let n ← gcRefs child
  if n = usizeMax then do
    setGcRefs child 1
    pure true
  else pure found

def findChildren (p : Profile) : List JVMSlot → Bool → VM Store Bool
  | [], found => pure found
  | slot :: data, found => do
    match ← withObject p slot fun child => findChild child found with
    | some found => findChildren p data found
    | none => findChildren p data found

def findFromRoots (p : Profile) : List Addr → Bool → VM Store Bool
  | [], found => pure found
  | obj :: objects, found => do
    let o ← deref obj
    let found ← findChildren p o.data found
    findFromRoots p objects found

/-- The loop over `unreachable`: only objects that were found lead on. -/
def findFromFound (p : Profile) : List Addr → Bool → VM Store Bool
  | [], found => pure found
  | obj :: objects, found => do
    let o ← deref obj
    if o.gcRefs ≠ usizeMax then do
      let found ← findChildren p o.data found
      findFromFound p objects found
    else findFromFound p objects found

/-- `while found_refs`. A round that finds something leaves fewer objects to find. -/
def findLoop (p : Profile) (unreachable : List Addr) : Nat → Bool → VM Store PUnit
  | _, false => pure ⟨⟩
  | 0, true => throw .outOfFuel
  | fuel + 1, true => do
    let found ← findFromFound p unreachable false
    findLoop p unreachable fuel found

/-- The drop of an `Arc<Object>` that came from an `ObjectRef`. -/
def dropArc (p : Profile) (a : Addr) : VM Store PUnit := do
  let s ← get
  let nested ← arcRelease a
  dropRefs p s.heldRefs nested

/-- The slots of a garbage object from `i` on are emptied, `n` of them. -/
def emptySlots (p : Profile) (a : Addr) : Nat → Nat → VM Store PUnit
  | _, 0 => pure ⟨⟩
  | i, n + 1 => do
    let old ← replaceData a i .null
    match old.object? with
    | some child => dropArc p child
    | none => pure ⟨⟩
    emptySlots p a (i + 1) n

def insert (a : Addr) (objects : List Addr) : List Addr :=
  if a ∈ objects then objects else objects ++ [a]

def drain (p : Profile) : List Addr → VM Store PUnit
  | [] => modifyHeap fun heap => { heap with unreachable := [] }
  | obj :: unreachable => do
    let o ← deref obj
    if o.gcRefs ≠ usizeMax then
      modifyHeap fun heap => { heap with objects := insert obj heap.objects }
    else do
      emptySlots p obj 0 o.data.length
      dropArc p obj
    drain p unreachable

def collect (p : Profile) : VM Store PUnit := do
  let heap ← readHeap
  countRefs p heap.objects
  subtractInternal p heap.objects
  let (stay, moved) ← extractUnreachable heap.objects
  modifyHeap fun heap => { heap with objects := stay, unreachable := heap.unreachable ++ moved }
  let found ← findFromRoots p stay false
  let heap ← readHeap
  findLoop p heap.unreachable (heap.unreachable.length + 1) found
  drain p heap.unreachable
  modifyHeap fun heap => { heap with allocCount := 0 }

def tryGc (p : Profile) : VM Store PUnit := do
  let heap ← readHeap
  if heap.heapThreads ≠ heap.parkedThreads then
    panicWith "Called without stop-the-world happening first"
  else if heap.allocCount ≥ gcThreshold then collect p
  else pure ⟨⟩

end Heap

def setGcFlags : VM Store PUnit := modify fun s =>
  if s.heap.allocCount ≥ gcThreshold then { s with shouldStopTheWorld := true } else s

/-- `Arc::new`: an allocator without a free address in range ends the process. -/
def arcNew (o : Object) : VM Store Addr := do
  let s ← get
  let a := s.addresses s.allocated
  if a.Fits ∧ s.memory a = none then do
    set { s.write a (some o) with allocated := s.allocated + 1 }
    pure a
  else throw .abort

def allocateFromObject (p : Profile) (kind : ObjectKind) (data : List JVMSlot) :
    VM Store Addr := do
  let a ← arcNew { strong := 1, gcRefs := 0, kind, data }
  let a ← arcClone a
  modifyHeap fun heap => { heap with objects := heap.objects ++ [a] }
  let heap ← readHeap
  let allocCount ← checked (p.add 64 heap.allocCount 1)
  modifyHeap fun heap => { heap with allocCount }
  setGcFlags
  pure a

def newData (slots : Nat) : VM Store (List JVMSlot) :=
  if slots * 8 < 2 ^ 63 then pure (List.replicate slots .null) else panicWith "capacity overflow"

def allocate (p : Profile) (kind : ObjectKind) (slots : Nat) : VM Store Addr := do
  let data ← newData slots
  allocateFromObject p kind data

/-- `stop_the_world_inner` of the only mutator thread: once it has parked, the GC thread
collects. -/
def stopTheWorldInner (p : Profile) : VM Store PUnit := do
  modifyHeap fun heap => { heap with parkedThreads := heap.parkedThreads + 1 }
  let s ← get
  if s.shouldStopTheWorld then do
    -- not notified and not alone, it waits for threads that there are not
    if s.heap.parkedThreads < s.heap.heapThreads then throw .deadlock
    Heap.tryGc p
    modify fun s => { s with shouldStopTheWorld := false }
  modifyHeap fun heap => { heap with parkedThreads := heap.parkedThreads - 1 }

def lockOrStop (p : Profile) : VM Store PUnit := do
  lockHeap "Failed to acquire lock on heap"
  let s ← get
  if s.shouldStopTheWorld then stopTheWorldInner p

def allocateInner (p : Profile) (kind : ObjectKind) (slots : Nat) : VM Store Addr := do
  lockOrStop p
  let a ← allocate p kind slots
  unlockHeap
  pure a

def allocateArray (p : Profile) (count : Nat) (size : NonZeroU16) : VM Store Addr := do
  let slots ← checked (p.mul 64 count size.val.toNat)
  allocateInner p (.array size) slots

def safepoint (p : Profile) : VM Store PUnit := do
  let s ← get
  if s.shouldStopTheWorld then do
    lockHeap "Failed to acquire lock on heap"
    stopTheWorldInner p
    unlockHeap

end Janadinite
