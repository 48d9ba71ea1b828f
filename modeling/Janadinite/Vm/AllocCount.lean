import Mathlib.Data.List.Nodup
import Mathlib.Data.List.Perm.Subperm
import Janadinite.Lib.Runs
import Janadinite.Vm.Gc

namespace Janadinite.AllocCount
open RefCount Hoare Runs
set_option autoImplicit true

/-- The heap with the references that its users hold. `survivors` is no part of the program: it is
the number of objects that the last collection to reset `alloc_count` left. -/
structure Client where
  store : Store
  held : List Addr
  survivors : Nat

/-- A `drop` is that of one `ObjectRef`: what a freed object held is then held by the one who drops,
and each of these references is dropped by an event of its own. -/
inductive Event where
  | allocate (kind : ObjectKind) (data : List JVMSlot)
  | clone (a : Addr)
  | drop (a : Addr)
  | write (a : Addr) (i : Nat) (slot : JVMSlot)
  | collect

/-- The references in slots that are moved into an object must be held. -/
def next (p : Profile) (w : Client) : Event → Option Client
  | .allocate kind data =>
    if (refs data).Subperm w.held then
      match allocateFromObject p kind data w.store with
      | .ok a store => some { w with store, held := a :: w.held.diff (refs data) }
      | .error _ _ => none
    else none
  | .clone a =>
    if a ∈ w.held then
      match arcClone a w.store with
      | .ok b store => some { w with store, held := b :: w.held }
      | .error _ _ => none
    else none
  | .drop a =>
    if a ∈ w.held then
      match dropOnce p a w.store with
      | .ok nested store => some { w with store, held := nested ++ w.held.erase a }
      | .error _ _ => none
    else none
  | .write a i slot =>
    if a ∈ w.held ∧ (refs [slot]).Subperm w.held then
      match replaceData a i slot w.store with
      | .ok old store => some { w with store, held := refs [old] ++ w.held.diff (refs [slot]) }
      | .error _ _ => none
    else none
  | .collect =>
    match Heap.tryGc p w.store with
    | .ok _ store => some { w with
        store
        survivors :=
          if w.store.heap.allocCount ≥ gcThreshold then store.heap.objects.length
          else w.survivors }
    | .error _ _ => none

def Step (p : Profile) (w : Client) (e : Event) (w' : Client) : Prop := next p w e = some w'

structure Start (w : Client) : Prop where
  objects : w.store.heap.objects = []
  allocCount : w.store.heap.allocCount = 0
  unreachable : w.store.heap.unreachable = []
  locked : w.store.locked = false
  poisoned : w.store.poisoned = false
  held : w.held = []
  survivors : w.survivors = 0

/-- The drop of a reference gets to `heap.alloc_count -= 1` and that overflows, which the checks of
a debug build show. -/
def underflows (s : Store) (a : Addr) : Bool :=
  match dropOnce ⟨true⟩ a s with
  | .error (.panic msg) _ => msg == "attempt to subtract with overflow"
  | _ => false

/-- A drop that reclaims its object does so while there are more objects than survived. -/
def DropOk (w : Client) : Event → Prop
  | .drop a => w.store.graph.count a = 2 → w.survivors < w.store.heap.objects.length
  | _ => True

structure Inv (w : Client) : Prop where
  owned : w.store.Owned w.held
  locked : w.store.locked = false
  poisoned : w.store.poisoned = false
  count : w.store.heap.objects.length = w.store.heap.allocCount + w.survivors

theorem Inv.length_lt (h : Inv w) : w.store.heap.objects.length ≤ 2 ^ 63 := by
  have hn : (w.store.heap.objects.map UInt64.toNat).Nodup :=
    List.Nodup.map (fun _ _ => UInt64.toNat_inj.mp) h.owned.counted.nodup
  have hsub : w.store.heap.objects.map UInt64.toNat ⊆ List.range (2 ^ 63) := by
    intro n hn
    obtain ⟨a, ha, rfl⟩ := List.mem_map.mp hn
    exact List.mem_range.mpr (h.owned.allocated a ha).1.2
  have hle := hn.length_le_of_subset hsub
  rwa [List.length_map, List.length_range] at hle

theorem Start.inv (h : Start w) : Inv w where
  owned := by
    rw [h.held]
    refine ⟨?_, ?_, h.unreachable⟩
    · rw [h.objects]
      exact ⟨List.nodup_nil, (fun _ ha => nomatch ha), (fun _ ha => nomatch ha),
        fun _ ha => nomatch ha⟩
    · rw [h.objects]
      exact fun _ ha => nomatch ha
  locked := h.locked
  poisoned := h.poisoned
  count := by rw [h.objects, h.allocCount, h.survivors]; rfl

theorem arcClone_heap {s s' : Store} (h : arcClone a s = .ok b s') :
    b = a ∧ s'.heap = s.heap ∧ s'.locked = s.locked ∧ s'.poisoned = s.poisoned := by
  obtain ⟨o, s₁, ho, h₁⟩ := bind_ok h
  obtain ⟨_, rfl⟩ := deref_ok ho
  split at h₁
  · cases h₁
  · cases h₁
    exact ⟨rfl, rfl, rfl, rfl⟩

theorem allocateFromObject_heap {s s' : Store} (h : allocateFromObject p kind data s = .ok a s') :
    ∃ n, p.add 64 s.heap.allocCount 1 = .ok n ∧ s'.locked = s.locked ∧ s'.poisoned = s.poisoned ∧
      s'.heap = { s.heap with objects := s.heap.objects ++ [a], allocCount := n } := by
  obtain ⟨n, _, hadd, rfl, rfl⟩ := allocateFromObject_ok h
  exact ⟨n, hadd, rfl, rfl, rfl⟩

theorem replaceData_heap {s s' : Store} (h : replaceData a i slot s = .ok old s') :
    s'.heap = s.heap ∧ s'.locked = s.locked ∧ s'.poisoned = s.poisoned := by
  obtain ⟨o, s₁, ho, _⟩ := bind_ok h
  obtain ⟨hm, rfl⟩ := deref_ok ho
  cases hi : o.data[i]? with
  | none =>
    rw [replaceData, bind_eq _ ho, hi] at h
    cases h
  | some old' =>
    rw [replaceData_eq hm hi] at h
    cases h
    exact ⟨rfl, rfl, rfl⟩

/-- A reference that is dropped is one among others, or the last one besides the heap's. -/
theorem Inv.drop_cases (h : Inv w) (p : Profile) (ha : a ∈ w.held) :
    (w.store.graph.count a ≠ 2 ∧ ∃ store, dropOnce p a w.store = .ok [] store ∧
      store.heap = w.store.heap ∧ store.locked = false ∧ store.poisoned = false) ∨
    (w.store.graph.count a = 2 ∧
      (∀ n, p.sub 64 w.store.heap.allocCount 1 = .ok n →
        ∃ nested, dropOnce p a w.store = .ok nested (w.store.free a n)) ∧
      ∀ msg, p.sub 64 w.store.heap.allocCount 1 = .error msg →
        ∃ store, dropOnce p a w.store = .error (.panic msg) store) := by
  have hobj := h.owned.counted.root_mem a ha
  obtain ⟨o, ho⟩ := h.owned.allocated.get hobj
  have h2 := (h.owned.perm (List.perm_cons_erase ha).symm).two_le_strong ho
  rw [Store.graph_count ho]
  by_cases hs : o.strong = 2
  · right
    refine ⟨hs, fun n hn => ?_, fun msg hmsg => ?_⟩
    · exact ⟨_, dropOnce_last ho hs h.poisoned h.locked hobj hn⟩
    · exact ⟨_, dropOnce_underflow ho hs h.poisoned h.locked hobj hmsg⟩
  · left
    exact ⟨hs, _, dropOnce_shared ho (by omega) hs, rfl, h.locked, h.poisoned⟩

theorem Inv.allocate (h : Inv w) (hsub : (refs data).Subperm w.held)
    (hrun : allocateFromObject p kind data w.store = .ok a store) :
    Inv { w with store, held := a :: w.held.diff (refs data) } := by
  have hp := List.subperm_append_diff_self_of_count_le (List.subperm_ext_iff.mp hsub)
  have howned := (allocateFromObject_owned p kind data (w.held.diff (refs data))).ok
    (h.owned.perm hp) hrun
  obtain ⟨n, hadd, hl, hpo, hheap⟩ := allocateFromObject_heap hrun
  have hlen := h.length_lt
  have hn : w.store.heap.allocCount + 1 = n := by
    have hc := h.count
    rw [p.add_eq (by omega)] at hadd
    exact Except.ok.inj hadd
  refine ⟨howned, hl.trans h.locked, hpo.trans h.poisoned, ?_⟩
  change store.heap.objects.length = store.heap.allocCount + w.survivors
  rw [hheap]
  change (w.store.heap.objects ++ [a]).length = n + w.survivors
  rw [List.length_append, List.length_singleton, h.count]
  omega

theorem Inv.clone (h : Inv w) (ha : a ∈ w.held) (hrun : arcClone a w.store = .ok b store) :
    Inv { w with store, held := b :: w.held } := by
  obtain ⟨rfl, howned, _⟩ := (arcClone_owned w.held ha).ok
    ⟨h.owned, fun r hr => h.owned.counted.root_mem r hr⟩ hrun
  obtain ⟨_, hheap, hl, hpo⟩ := arcClone_heap hrun
  refine ⟨howned, hl.trans h.locked, hpo.trans h.poisoned, ?_⟩
  change store.heap.objects.length = store.heap.allocCount + w.survivors
  rw [hheap]
  exact h.count

theorem Inv.drop (h : Inv w) (ha : a ∈ w.held) (hok : DropOk w (.drop a))
    (hrun : dropOnce p a w.store = .ok nested store) :
    Inv { w with store, held := nested ++ w.held.erase a } := by
  have howned := ((dropOnce_owned p a (w.held.erase a) w.store.heldRefs).ok
    ⟨h.owned.perm (List.perm_cons_erase ha).symm, rfl⟩ hrun).1
  rcases h.drop_cases p ha with ⟨_, store', hrun', hheap, hl, hpo⟩ | ⟨h2, hlast, _⟩
  · cases hrun'.symm.trans hrun
    refine ⟨howned, hl, hpo, ?_⟩
    change store.heap.objects.length = store.heap.allocCount + w.survivors
    rw [hheap]
    exact h.count
  · have hlt := hok h2
    have hc := h.count
    obtain ⟨_, hrun'⟩ := hlast _ (p.sub_eq (by omega))
    cases hrun'.symm.trans hrun
    refine ⟨howned, rfl, h.poisoned, ?_⟩
    change (w.store.heap.objects.erase a).length = w.store.heap.allocCount - 1 + w.survivors
    rw [List.length_erase_of_mem (h.owned.counted.root_mem a ha)]
    omega

theorem Inv.write (h : Inv w) (ha : a ∈ w.held) (hsub : (refs [slot]).Subperm w.held)
    (hrun : replaceData a i slot w.store = .ok old store) :
    Inv { w with store, held := refs [old] ++ w.held.diff (refs [slot]) } := by
  have hp := List.subperm_append_diff_self_of_count_le (List.subperm_ext_iff.mp hsub)
  have howned := (replaceData_owned a i slot (w.held.diff (refs [slot]))).ok
    ⟨h.owned.perm hp, h.owned.counted.root_mem a ha⟩ hrun
  obtain ⟨hheap, hl, hpo⟩ := replaceData_heap hrun
  refine ⟨howned, hl.trans h.locked, hpo.trans h.poisoned, ?_⟩
  change store.heap.objects.length = store.heap.allocCount + w.survivors
  rw [hheap]
  exact h.count

theorem Inv.collect (h : Inv w) (hrun : Heap.tryGc p w.store = .ok ⟨⟩ store) :
    Inv { w with
      store
      survivors :=
        if w.store.heap.allocCount ≥ gcThreshold then store.heap.objects.length
        else w.survivors } := by
  have howned := (Heap.tryGc_owned p w.held).ok h.owned hrun
  rw [Heap.tryGc, bind_eq _ (readHeap_eq w.store)] at hrun
  split at hrun
  · cases hrun
  · by_cases hcount : w.store.heap.allocCount ≥ gcThreshold
    · rw [if_pos hcount] at hrun
      rw [if_pos hcount]
      obtain ⟨s', hcollect, hc⟩ := Heap.collect_collected p h.owned
      cases hcollect.symm.trans hrun
      have hframe := hc.frame
      refine ⟨howned, ?_, ?_, ?_⟩
      · rw [hframe]
        exact h.locked
      · rw [hframe]
        exact h.poisoned
      · rw [hframe]
        exact (Nat.zero_add _).symm
    · rw [if_neg hcount] at hrun
      rw [if_neg hcount]
      cases hrun
      exact ⟨howned, h.locked, h.poisoned, h.count⟩

theorem Inv.next (h : Inv w) (hok : DropOk w e) (hs : Step p w e w') : Inv w' := by
  rw [Step, AllocCount.next.eq_def] at hs
  cases e with
  | allocate kind data =>
    dsimp only at hs
    split at hs
    · rename_i hsub
      split at hs
      · rename_i hrun
        cases hs
        exact h.allocate hsub hrun
      · cases hs
    · cases hs
  | clone a =>
    dsimp only at hs
    split at hs
    · rename_i ha
      split at hs
      · rename_i hrun
        cases hs
        exact h.clone ha hrun
      · cases hs
    · cases hs
  | drop a =>
    dsimp only at hs
    split at hs
    · rename_i ha
      split at hs
      · rename_i hrun
        cases hs
        exact h.drop ha hok hrun
      · cases hs
    · cases hs
  | write a i slot =>
    dsimp only at hs
    split at hs
    · rename_i ha
      split at hs
      · rename_i hrun
        cases hs
        exact h.write ha.1 ha.2 hrun
      · cases hs
    · cases hs
  | collect =>
    dsimp only at hs
    split at hs
    · rename_i hrun
      cases hs
      exact h.collect hrun
    · cases hs

/-- In runs whose drops reclaim objects only while there are more than survived the last reset, a
drop underflows the counter exactly if it does not keep to this. -/
theorem drop_underflows_iff (h : Reaches (Step p) DropOk Start w) (ha : a ∈ w.held) :
    underflows w.store a = true ↔ ¬DropOk w (.drop a) := by
  have hi : Inv w := h.invariant (fun _ hs => hs.inv) fun _ _ _ hi hok hs => hi.next hok hs
  have hc := hi.count
  rcases hi.drop_cases ⟨true⟩ ha with ⟨h2, store, hrun, _⟩ | ⟨h2, hlast, hunder⟩
  · have hok : DropOk w (.drop a) := fun h => absurd h h2
    rw [underflows, hrun]
    exact ⟨(fun h => nomatch h), fun h => absurd hok h⟩
  · by_cases h1 : 1 ≤ w.store.heap.allocCount
    · obtain ⟨nested, hrun⟩ := hlast _ (Profile.sub_eq ⟨true⟩ h1)
      have hok : DropOk w (.drop a) := by
        intro _
        omega
      rw [underflows, hrun]
      exact ⟨(fun h => nomatch h), fun h => absurd hok h⟩
    · obtain ⟨store, hrun⟩ := hunder "attempt to subtract with overflow"
        ((if_neg h1).trans (if_pos rfl))
      have hnot : ¬DropOk w (.drop a) := by
        intro hok
        have hlt := hok h2
        omega
      rw [underflows, hrun]
      exact ⟨fun _ => hnot, fun _ => rfl⟩

def run (p : Profile) (w : Client) : List Event → Option Client
  | [] => some w
  | e :: es => (next p w e).bind fun w => run p w es

theorem reaches_run (h : Reaches (Step p) ok Start w) (hok : ∀ e ∈ es, ∀ w, ok w e)
    (hr : run p w es = some w') : Reaches (Step p) ok Start w' := by
  induction es generalizing w with
  | nil =>
    cases hr
    exact h
  | cons e es ih =>
    obtain ⟨w₁, hn, hr⟩ := Option.bind_eq_some_iff.mp hr
    exact ih (.next h (hok e List.mem_cons_self w) hn)
      (fun e he => hok e (List.mem_cons_of_mem _ he))
      hr

def startClient : Client where
  store := ⟨fun _ => none, Heap.new, false, false, false, fun n => .ofNat (8 * (n + 1)), 0⟩
  held := []
  survivors := 0

theorem startClient_start : Start startClient := ⟨rfl, rfl, rfl, rfl, rfl, rfl, rfl⟩

/-- Twenty objects are allocated and kept, and a collection finds no garbage. -/
def survivorEvents : List Event :=
  List.replicate 20 (.allocate (.array .one) []) ++ [.collect]

def clientAfter (es : List Event) : Client := (run ⟨true⟩ startClient es).getD startClient

theorem clientAfter_reached (es : List Event)
    (hs : (run ⟨true⟩ startClient es).isSome = true)
    (hok : ∀ e ∈ es, ∀ w, ok w e) : Reaches (Step ⟨true⟩) ok Start (clientAfter es) := by
  obtain ⟨w, hw⟩ := Option.isSome_iff_exists.mp hs
  apply reaches_run (.start startClient_start) hok
  rw [clientAfter, hw]
  rfl

/-- The drop of an object that survived a collection underflows the counter. -/
theorem survivor_drop_underflows : ∃ w, Reaches (Step ⟨true⟩) (fun _ _ => True) Start w ∧
    8 ∈ w.held ∧ underflows w.store 8 = true :=
  ⟨clientAfter survivorEvents, clientAfter_reached _ (by decide +kernel) fun _ _ _ => trivial,
    by decide +kernel, by decide +kernel⟩

theorem survivorEvents_dropOk (he : e ∈ survivorEvents ++ [.allocate (.array .one) []])
    (w : Client) : DropOk w e := by
  simp only [survivorEvents, List.mem_append, List.mem_replicate, List.mem_singleton] at he
  rcases he with (⟨_, rfl⟩ | rfl) | rfl
  · trivial
  · trivial
  · trivial

/-- An object that is allocated after the collection can be dropped. -/
theorem fresh_drop_counts :
    ¬underflows (clientAfter (survivorEvents ++ [.allocate (.array .one) []])).store 168 =
      true := by
  intro hu
  have hreach := clientAfter_reached (survivorEvents ++ [.allocate (.array .one) []])
    (by decide +kernel) fun _ he w => survivorEvents_dropOk he w
  exact (drop_underflows_iff hreach (by decide +kernel)).mp hu fun _ => by decide +kernel

end Janadinite.AllocCount
