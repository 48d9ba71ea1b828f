import Janadinite.Vm.ExecuteFramed
import Mathlib.Data.List.Induction

namespace Janadinite
open Hoare ThreadContext
set_option autoImplicit true

namespace ThreadContext

/-- The uppermost `n` slots of the stack have become the last locals. -/
def takeArgs (c : ThreadContext) (n : Nat) : ThreadContext :=
  { c with
    stack := c.stack.take (c.stack.length - n)
    locals := c.locals ++ c.stack.drop (c.stack.length - n) }

theorem stackPop_concat {r : Runtime} (h : r.context.stack = rest ++ [slot]) :
    stackPop r = .ok (some slot) { r with context := { r.context with stack := rest } } := by
  rw [stackPop, bind_eq _ (readContext_eq r), h, List.getLast?_concat]
  change EStateM.Result.ok (some slot)
    { r with context := { r.context with stack := r.context.stack.dropLast } } = _
  rw [h, List.dropLast_concat]

theorem stackPop_nil {r : Runtime} (h : r.context.stack = []) : stackPop r = .ok none r := by
  rw [stackPop, bind_eq _ (readContext_eq r), h]
  rfl

theorem assignLocal_eq (p : Profile) {r : Runtime} (h : r.context.locals[idx]? = some old)
    (slot : JVMSlot) : assignLocal p idx slot r = onStore (dropSlot p old)
      { r with context := { r.context with locals := r.context.locals.set idx slot } } := by
  rw [assignLocal, bind_eq _ (readContext_eq r), h]
  rfl

theorem assignLocal_plain (p : Profile) {r : Runtime} (h : r.context.locals[idx]? = some old)
    (hold : old.object? = none) (slot : JVMSlot) : assignLocal p idx slot r =
      .ok ⟨⟩ { r with context := { r.context with locals := r.context.locals.set idx slot } } := by
  rw [assignLocal_eq p h, dropSlot_plain p hold]
  rfl

/-- One round of the loop, which fills the last of the empty slots. -/
theorem popArgs_succ (p : Profile) {r : Runtime} (hs : r.context.stack = rest ++ [slot])
    (hl : r.context.locals = front ++ (List.replicate (n + 1) .null ++ back)) :
    popArgs p front.length (n + 1) r = popArgs p front.length n { r with
      context := { r.context with
        stack := rest
        locals := front ++ (List.replicate n .null ++ (slot :: back)) } } := by
  have hn : front.length ≤ front.length + n := Nat.le_add_right _ _
  have hget : r.context.locals[front.length + n]? = some .null := by
    rw [hl, List.getElem?_append_right hn, Nat.add_sub_cancel_left, List.replicate_succ',
      List.append_assoc, List.getElem?_append_right (Nat.le_of_eq List.length_replicate),
      List.length_replicate, Nat.sub_self]
    rfl
  have hset : r.context.locals.set (front.length + n) slot =
      front ++ (List.replicate n .null ++ (slot :: back)) := by
    rw [hl, List.set_append_right _ _ hn, Nat.add_sub_cancel_left, List.replicate_succ',
      List.append_assoc, List.set_append_right _ _ (Nat.le_of_eq List.length_replicate),
      List.length_replicate, Nat.sub_self]
    rfl
  have ha := assignLocal_plain p (r := { r with context := { r.context with stack := rest } })
    hget JVMSlot.object?_null slot
  rw [popArgs, bind_eq _ (stackPop_concat hs)]
  change (assignLocal p (front.length + n) slot >>= fun _ => popArgs p front.length n)
    { r with context := { r.context with stack := rest } } = _
  rw [bind_eq _ ha, hset]

theorem popArgs_eq (p : Profile) (args : List JVMSlot) {r : Runtime}
    (hs : r.context.stack = rest ++ args)
    (hl : r.context.locals = front ++ (List.replicate args.length .null ++ back)) :
    popArgs p front.length args.length r = .ok ⟨⟩ { r with
      context := { r.context with stack := rest, locals := front ++ (args ++ back) } } := by
  induction args using List.reverseRecOn generalizing r back with
  | nil =>
    rw [List.append_nil] at hs
    rw [← hs]
    have hl' : r.context.locals = front ++ ([] ++ back) := hl
    rw [← hl']
    rfl
  | append_singleton args slot ih =>
    rw [← List.append_assoc] at hs
    rw [List.length_append, List.length_singleton] at hl ⊢
    rw [popArgs_succ p hs hl, ih rfl rfl, List.append_assoc]
    rfl

/-- What a call without enough arguments leaves: a context with the same frames, whose whole stack is
gone. What was popped is behind the locals. -/
structure Emptied (c₀ c : ThreadContext) : Prop where
  stack : c.stack = []
  locals : c₀.locals <+: c.locals
  prevFrames : c.prevFrames = c₀.prevFrames
  currentFrame : c.currentFrame = c₀.currentFrame

theorem popArgs_underflow (p : Profile) {r : Runtime} (h : r.context.stack.length < n)
    (hl : r.context.locals = front ++ (List.replicate n .null ++ back)) :
    ∃ r', popArgs p front.length n r = .error (.error .stackUnderflow) r' ∧
      Emptied { r.context with locals := front } r'.context := by
  induction n generalizing r back with
  | zero => exact absurd h (Nat.not_lt_zero _)
  | succ n ih =>
    rcases List.eq_nil_or_concat r.context.stack with hs | ⟨rest, slot, hs⟩
    · rw [popArgs, bind_eq _ (stackPop_nil hs)]
      refine ⟨r, rfl, hs, ?_, rfl, rfl⟩
      rw [hl]
      exact List.prefix_append _ _
    · rw [List.concat_eq_append] at hs
      rw [hs, List.length_append, List.length_singleton] at h
      have hrest : rest.length < n := Nat.lt_of_succ_lt_succ h
      rw [popArgs_succ p hs hl]
      obtain ⟨r', hu, hstack, hlocals, hprev, hcurrent⟩ := ih (r := { r with
        context := { r.context with
          stack := rest
          locals := front ++ (List.replicate n .null ++ slot :: back) } }) hrest rfl
      exact ⟨r', hu, hstack, hlocals, hprev, hcurrent⟩

def emptyArgs (n : Nat) (r : Runtime) : Runtime :=
  { r with context := { r.context with locals := r.context.locals ++ List.replicate n .null } }

theorem popCreateArgs_eq (p : Profile) (k : UInt16) {r : Runtime}
    (h : k.toNat ≤ r.context.stack.length) :
    popCreateArgs p k r = .ok ⟨⟩ { r with context := r.context.takeArgs k.toNat } := by
  have hlen : (r.context.stack.drop (r.context.stack.length - k.toNat)).length = k.toNat := by
    rw [List.length_drop]
    omega
  change popArgs p r.context.locals.length k.toNat (emptyArgs k.toNat r) = _
  have hnull : (emptyArgs k.toNat r).context.locals = r.context.locals ++
      (List.replicate (r.context.stack.drop (r.context.stack.length - k.toNat)).length .null ++
        []) := by
    rw [hlen, List.append_nil]
    rfl
  have hsplit : (emptyArgs k.toNat r).context.stack =
      r.context.stack.take (r.context.stack.length - k.toNat) ++
        r.context.stack.drop (r.context.stack.length - k.toNat) :=
    (List.take_append_drop _ _).symm
  have hp := popArgs_eq p _ hsplit hnull
  rw [hlen, List.append_nil] at hp
  exact hp

theorem popCreateArgs_underflow (p : Profile) (k : UInt16) {r : Runtime}
    (h : r.context.stack.length < k.toNat) :
    ∃ r', popCreateArgs p k r = .error (.error .stackUnderflow) r' ∧
      Emptied r.context r'.context := by
  have hnull : (emptyArgs k.toNat r).context.locals =
      r.context.locals ++ (List.replicate k.toNat .null ++ []) := by
    rw [List.append_nil]
    rfl
  exact popArgs_underflow p h hnull

/-- A call has taken `k` arguments off the stack, and its frame begins where they were. -/
structure Entered (k : Nat) (c₀ c : ThreadContext) : Prop where
  args : k ≤ c₀.stack.length
  stack : c.stack = c₀.stack.take (c₀.stack.length - k)
  locals : ∃ n, c.locals =
    c₀.locals ++ (c₀.stack.drop (c₀.stack.length - k) ++ List.replicate n .null)
  prevFrames : c.prevFrames = c₀.currentFrame :: c₀.prevFrames
  stackStart : c.currentFrame.stackStart = c.stack.length
  localsStart : c.currentFrame.localsStart = c₀.locals.length

theorem refs_take_drop (slots : List JVMSlot) (n : Nat) (a : Addr) :
    (refs slots).count a = (refs (slots.take n)).count a + (refs (slots.drop n)).count a := by
  rw [← List.count_append, ← refs_append, List.take_append_drop]

/-- No slot is lost or made when arguments are passed. -/
theorem refs_takeArgs_perm (c : ThreadContext) (n : Nat) :
    (refs (c.takeArgs n).slots).Perm (refs c.slots) := by
  apply List.perm_iff_count.mpr
  intro a
  have hs := refs_take_drop c.stack (c.stack.length - n) a
  simp only [slots, takeArgs, refs_append, List.count_append]
  omega

theorem Entered.refs_perm (h : Entered k c₀ c) : (refs c.slots).Perm (refs c₀.slots) := by
  obtain ⟨n, hl⟩ := h.locals
  have hc : refs c.slots = refs (c₀.takeArgs k).slots := by
    simp only [slots, takeArgs, h.stack, hl, refs_append, refs_replicate_null, List.append_nil]
  rw [hc]
  exact refs_takeArgs_perm c₀ k

theorem finishPushFrame_entered {r : Runtime} {c : ThreadContext} {k : UInt16}
    (hr : r.context = c.takeArgs k.toNat) (hk : k.toNat ≤ c.stack.length) :
    Ends (fun _ r' => r'.table = r.table ∧ r'.store = r.store ∧ Entered k.toNat c r'.context)
      Regular (finishPushFrame methRef maxLocals maxStack k r) := by
  unfold finishPushFrame
  split
  · trivial
  · have hlocals : r.context.locals = c.locals ++ c.stack.drop (c.stack.length - k.toNat) :=
      congrArg ThreadContext.locals hr
    have hframes := congrArg (fun d : ThreadContext => d.currentFrame :: d.prevFrames) hr
    have hstart : r.context.locals.length - k.toNat = c.locals.length := by
      rw [hlocals, List.length_append, List.length_drop]
      omega
    have hfilled (n : Nat) : r.context.locals ++ List.replicate n .null =
        c.locals ++ (c.stack.drop (c.stack.length - k.toNat) ++ List.replicate n .null) := by
      rw [hlocals, List.append_assoc]
    exact ⟨rfl, rfl, hk, congrArg ThreadContext.stack hr, ⟨_, hfilled _⟩, hframes, rfl, hstart⟩

end ThreadContext

theorem VMClass.methodById_mem {c : VMClass} {id : MethodID} (h : c.methodById id = some meth) :
    meth ∈ c.vtable ++ c.staticVtable := by
  cases id with
  | vtable v => exact List.mem_append_left _ (List.mem_of_getElem? h)
  | static v => exact List.mem_append_right _ (List.mem_of_getElem? h)

theorem VMClass.methodByName_mem {c : VMClass} {name : String}
    (h : c.methodByName name desc = some meth) :
    meth ∈ c.vtable ++ c.staticVtable :=
  List.mem_of_find?_eq_some h

theorem onTable_ok {r r' : Runtime} (h : onTable m r = .ok a r') :
    ∃ t, m r.table = .ok a t ∧ r' = { r with table := t } := by
  unfold onTable at h
  cases hm : m r.table with
  | ok a t =>
    rw [hm] at h
    cases h
    exact ⟨t, rfl, rfl⟩
  | error e t =>
    rw [hm] at h
    cases h

theorem onStore_ok {r r' : Runtime} (h : onStore m r = .ok a r') :
    ∃ s, m r.store = .ok a s ∧ r' = { r with store := s } := by
  unfold onStore at h
  cases hm : m r.store with
  | ok a s =>
    rw [hm] at h
    cases h
    exact ⟨s, rfl, rfl⟩
  | error e s =>
    rw [hm] at h
    cases h

theorem onStore_eq {r : Runtime} (h : m r.store = .ok a s) :
    onStore m r = .ok a { r with store := s } := by
  unfold onStore
  rw [h]

theorem onStore_error {m : VM Store α} {r : Runtime} (h : m r.store = .error e store) :
    onStore m r = .error e { r with store } := by
  rw [onStore, h]

theorem resolveMethod_ok {r r' : Runtime} (h : resolveMethod cls refIdx r = .ok found r') :
    r'.context = r.context ∧ r'.store = r.store ∧
      found.2 ∈ (r'.table.get found.1).vtable ++ (r'.table.get found.1).staticVtable := by
  obtain ⟨⟨methClass, methodId⟩, r₁, hr, h⟩ := bind_ok h
  obtain ⟨t, _, rfl⟩ := onTable_ok hr
  obtain ⟨r₂, r₃, hg, h⟩ := bind_ok h
  cases hg
  obtain ⟨meth, r₄, hm, h⟩ := bind_ok h
  obtain ⟨hid, rfl⟩ := expect_ok hm
  cases h
  exact ⟨rfl, rfl, VMClass.methodById_mem hid⟩

theorem resolveMethod_framed (cls : ClassRef) (refIdx : UInt16) :
    Triple (Framed b temps) (resolveMethod cls refIdx) (fun _ => Framed b temps) Regular := by
  apply Triple.bind (onTable_framed (getMethodOrResolve_resolves cls refIdx))
  intro (methClass, methodId) r h
  apply Triple.bind (expect_triple fun _ _ _ h => h) _ r h
  exact fun meth => Triple.pure fun _ h => h

theorem selectMethod_framed (p : Profile) (cls : ClassRef) (refIdx : UInt16) (receiver : Nat) :
    Triple (Framed b temps) (selectMethod p cls refIdx receiver) (fun _ => Framed b temps)
      Regular := by
  apply Triple.bind (resolveMethod_framed cls refIdx)
  intro (methClass, meth)
  apply Triple.bind (expect_triple fun _ _ _ h => h)
  intro code
  apply Triple.bind (checked_triple _)
  exact fun argsSize => Triple.pure fun _ h => h

theorem selectMethod_ok {r r' : Runtime}
    (h : selectMethod p cls refIdx receiver r = .ok callee r') :
    r'.context = r.context ∧ r'.store = r.store ∧ callee.method.code = some callee.code ∧
      ∃ meth ∈ (r'.table.get callee.cls).vtable ++ (r'.table.get callee.cls).staticVtable,
        meth.method = callee.method := by
  obtain ⟨⟨methClass, meth⟩, r₁, hr, h₁⟩ := bind_ok h
  obtain ⟨hc, hs, hm⟩ := resolveMethod_ok hr
  obtain ⟨code, r₂, hcode, h₂⟩ := bind_ok h₁
  obtain ⟨hsome, rfl⟩ := expect_ok hcode
  obtain ⟨argsSize, r₃, hargs, h₃⟩ := bind_ok h₂
  obtain ⟨_, rfl⟩ := checked_ok hargs
  cases h₃
  exact ⟨hc, hs, hsome, meth, hm, rfl⟩

theorem selectVirtual_framed (p : Profile) (cls : ClassRef) (refIdx : UInt16) :
    Triple (Framed b temps) (selectVirtual p cls refIdx) (fun _ => Framed b temps) Regular := by
  apply Triple.bind (resolveMethod_framed cls refIdx)
  intro (_, meth)
  apply Triple.bind (checked_triple _)
  exact fun argsSize => Triple.pure fun _ h => h

theorem selectVirtual_ok {r r' : Runtime} (h : selectVirtual p cls refIdx r = .ok found r') :
    r'.context = r.context ∧ r'.store = r.store := by
  obtain ⟨⟨_, meth⟩, r₁, hr, h₁⟩ := bind_ok h
  obtain ⟨hc, hs, _⟩ := resolveMethod_ok hr
  obtain ⟨argsSize, r₂, ha, h₂⟩ := bind_ok h₁
  obtain ⟨_, rfl⟩ := checked_ok ha
  cases h₂
  exact ⟨hc, hs⟩

theorem receiverClass_owned (p : Profile) {args : List JVMSlot} {roots : List Addr}
    (ha : refs args ⊆ roots) :
    Triple (fun s => s.Owned roots) (receiverClass p args) (fun _ s => s.Owned roots)
      Regular := by
  intro s h
  cases args with
  | nil => trivial
  | cons slot args =>
    have hw : Triple (fun s => s.Owned roots) (withObject p slot deref) (fun _ s => s.Owned roots)
        Regular := by
      cases hv : slot.object? with
      | none =>
        rw [withObject_none p deref hv]
        exact Triple.pure fun _ h => h
      | some a =>
        have hmem : a ∈ roots := by
          apply ha
          rw [refs_cons, hv]
          exact List.mem_cons_self
        rw [withObject_some p deref hv (h.root_fits hmem)]
        apply Triple.bind (deref_owned hmem)
        exact fun o => Triple.pure fun _ h => h.1
    apply Triple.bind hw _ s h
    intro o
    apply Triple.bind (okOr_triple fun _ _ _ h => h)
    intro o
    cases o.kind with
    | «instance» cls => exact Triple.pure fun _ h => h
    | array size => exact fun _ _ => trivial

/-- What an invoke calls, and the number of arguments that it takes off the stack for the call. -/
def invokeArgs (p : Profile) (cls : ClassRef) : OpCode → VM Runtime (Option UInt16)
  | .invokeStatic refIdx => do
    let callee ← selectMethod p cls refIdx 0
    pure (some callee.argsSize)
  | .invokeSpecial refIdx => do
    let callee ← selectMethod p cls refIdx 1
    pure (some callee.argsSize)
  | .invokeVirtual refIdx => do
    let (_, argsSize) ← selectVirtual p cls refIdx
    pure (some argsSize)
  | _ => pure none

/-- The class in which an invoke looks its method up last, and what it finds there. -/
def invokeTarget (p : Profile) (cls : ClassRef) : OpCode →
    VM Runtime (Option (ClassRef × JVMMethod))
  | .invokeStatic refIdx => do
    let callee ← selectMethod p cls refIdx 0
    pure (some (callee.cls, callee.method))
  | .invokeSpecial refIdx => do
    let callee ← selectMethod p cls refIdx 1
    pure (some (callee.cls, callee.method))
  | .invokeVirtual refIdx => do
    let (meth, argsSize) ← selectVirtual p cls refIdx
    let c ← readContext
    let args := c.stack.drop (c.stack.length - argsSize.toNat)
    let runtimeClass ← onStore (receiverClass p args)
    let r ← get
    let objMeth ← expect "Couldn't search for virtual method"
      ((r.table.get runtimeClass).methodByName meth.method.name (some meth.method.descriptor))
    pure (some (runtimeClass, objMeth.method))
  | _ => pure none

/-- What a call of `code` with `k` arguments leaves. -/
structure Called (b : Outset) (r : Runtime) (cls : ClassRef) (method : JVMMethod) (code : JVMCode)
    (k : Nat) (r' : Runtime) : Prop where
  owned : r'.store.Owned (refs r'.slots ++ b.others)
  table : b.table.Keeps r'.table
  context : Entered k r.context r'.context
  code : method.code = some code
  found : ∃ meth ∈ (b.table.get cls).vtable ++ (b.table.get cls).staticVtable,
    meth.method = method

/-- An invoke either ends regularly or calls its target with its arguments. -/
def Calls (b : Outset) (p : Profile) (cls : ClassRef) (op : OpCode) (r : Runtime)
    (o : Outcome) (r' : Runtime) : Prop :=
  ∃ target method code k r₁ r₂, o = .call target method code ∧
    invokeArgs p cls op r = .ok (some k) r₁ ∧
    invokeTarget p cls op r = .ok (some (target, method)) r₂ ∧
    Called b r target method code k.toNat r'

theorem pushFrame_entered (p : Profile) (methRef maxStack maxLocals k : UInt16) (r : Runtime) :
    Ends (fun _ r' => r'.table = r.table ∧ r'.store = r.store ∧
      Entered k.toNat r.context r'.context) Regular
      (pushFrame p methRef maxStack maxLocals k r) := by
  by_cases hk : k.toNat ≤ r.context.stack.length
  · rw [pushFrame, bind_eq _ (popCreateArgs_eq p k hk)]
    exact finishPushFrame_entered rfl hk
  · obtain ⟨r', hu, -⟩ := popCreateArgs_underflow p k (Nat.lt_of_not_le hk)
    rw [pushFrame, bind_error _ hu]
    trivial

theorem ClassTable.Keeps.found {t₀ t : ClassTable} (h : t₀.Keeps t)
    (hm : meth ∈ (t.get c).vtable ++ (t.get c).staticVtable) :
    meth ∈ (t₀.get c).vtable ++ (t₀.get c).staticVtable := by
  rwa [h.vtable, h.staticVtable] at hm

theorem Store.Owned.setContext {r r' : Runtime} (h : r.store.Owned (refs r.slots ++ others))
    (ht : r'.table = r.table) (hs : r'.store = r.store)
    (hp : (refs r'.context.slots).Perm (refs r.context.slots)) :
    r'.store.Owned (refs r'.slots ++ others) := by
  rw [hs]
  apply h.perm
  apply List.Perm.append_right
  rw [Runtime.slots, Runtime.slots, refs_append, refs_append, ht]
  exact hp.append_right _

theorem invokeResolved_calls (p : Profile) (h : Framed b [] r) (cls : ClassRef)
    (refIdx : UInt16) (receiver : Nat) :
    Ends (fun o r' => ∃ callee r₁, selectMethod p cls refIdx receiver r = .ok callee r₁ ∧
      o = .call callee.cls callee.method callee.code ∧
      Called b r callee.cls callee.method callee.code callee.argsSize.toNat r') Regular
      (invokeResolved p cls refIdx receiver r) := by
  apply Ends.bind (selectMethod_framed p cls refIdx receiver r h)
  intro callee r₁ hsel h₁
  obtain ⟨hc, hs, hcode, meth, hmeth, hm⟩ := selectMethod_ok hsel
  apply Ends.bind (pushFrame_entered p refIdx callee.code.maxStack callee.code.maxLocals
    callee.argsSize r₁)
  intro _ r₂ _ ⟨ht, hst, hent⟩
  refine ⟨callee, r₁, hsel, rfl, ?_⟩
  have hown := h₁.owned.setContext ht hst hent.refs_perm
  rw [hc] at hent
  have htable : b.table.Keeps r₂.table := by
    rw [ht]
    exact h₁.table
  exact ⟨hown, htable, hent, hcode, meth, h₁.table.found hmeth, hm⟩

theorem ThreadContext.Keeps.refl (c : ThreadContext) : c.Keeps c :=
  ⟨rfl, rfl, List.take_prefix _ _, rfl, rfl⟩

theorem receiverClass_framed (p : Profile) (h : Framed b [] r) (k : Nat) :
    Ends (fun _ r' => r'.context = r.context.takeArgs k ∧ b.table.Keeps r'.table ∧
      r'.store.Owned (refs r'.slots ++ b.others)) Regular
      (onStore (receiverClass p (r.context.stack.drop (r.context.stack.length - k)))
        { r with context := r.context.takeArgs k }) := by
  have hown : (Runtime.store { r with context := r.context.takeArgs k }).Owned
      (refs (Runtime.slots { r with context := r.context.takeArgs k }) ++ b.others) :=
    Store.Owned.setContext h.owned rfl rfl (refs_takeArgs_perm r.context k)
  have hargs : refs (r.context.stack.drop (r.context.stack.length - k)) ⊆
      refs (Runtime.slots { r with context := r.context.takeArgs k }) ++ b.others := by
    intro a ha
    simp only [Runtime.slots, slots, takeArgs, refs_append, List.mem_append]
    exact .inl (.inl (.inr (.inr ha)))
  apply (onStore_ends (receiverClass_owned p hargs) hown).mono
  · intro _ r' hkept
    obtain ⟨ht, hc, ho⟩ := hkept
    refine ⟨hc, ?_, ?_⟩
    · rw [ht]
      exact h.table
    · rw [Runtime.slots, ht, hc]
      exact ho
  · exact fun _ _ he => he

theorem invokeVirtual_calls (p : Profile) (h : Framed b [] r) (cls : ClassRef)
    (refIdx : UInt16) :
    Ends (Calls b p cls (.invokeVirtual refIdx) r) Regular (invokeVirtual p cls refIdx r) := by
  apply Ends.bind (selectVirtual_framed p cls refIdx r h)
  intro (meth, argsSize) r₁ hsel h₁
  obtain ⟨hc, hs⟩ := selectVirtual_ok hsel
  change Ends _ _ ((popCreateArgs p argsSize >>= fun _ => _ : VM Runtime Outcome) r₁)
  by_cases hk : argsSize.toNat ≤ r₁.context.stack.length
  · rw [bind_eq _ (popCreateArgs_eq p argsSize hk)]
    change Ends _ _ ((onStore (receiverClass p
      ((r₁.context.takeArgs argsSize.toNat).locals.drop r₁.context.locals.length)) >>=
      fun _ => _ : VM Runtime Outcome) _)
    rw [takeArgs, List.drop_left]
    apply Ends.bind (receiverClass_framed p h₁ argsSize.toNat)
    intro runtimeClass r₂ hrecv ⟨hctx, htable, hown⟩
    obtain ⟨s, hclass, hr₂⟩ := onStore_ok hrecv
    rw [bind_get]
    cases hm : (r₂.table.get runtimeClass).methodByName meth.method.name
        (some meth.method.descriptor) with
    | none => trivial
    | some objMeth =>
      change Ends _ _ ((expect _ objMeth.method.code >>= fun _ => _ : VM Runtime Outcome) r₂)
      cases hcode : objMeth.method.code with
      | none => trivial
      | some code =>
        change Ends _ _ ((finishPushFrame refIdx code.maxLocals code.maxStack argsSize >>=
          fun _ => _ : VM Runtime Outcome) r₂)
        apply Ends.bind (finishPushFrame_entered hctx hk)
        intro _ r₃ _ ⟨ht, hst, hent⟩
        rw [hr₂] at hm
        refine ⟨runtimeClass, objMeth.method, code, argsSize, r₁, { r₁ with store := s }, rfl,
          ?_, ?_, ?_, ?_, ?_, hcode, objMeth, ?_, rfl⟩
        · rw [invokeArgs, bind_eq _ hsel]
          rfl
        · rw [invokeTarget, bind_eq _ hsel]
          change ((onStore (receiverClass p _) >>= fun _ => _ :
            VM Runtime (Option (ClassRef × JVMMethod))) r₁) = _
          rw [bind_eq _ (onStore_eq (r := r₁) hclass), bind_get, hm]
          rfl
        · apply hown.setContext ht hst
          rw [hctx]
          exact hent.refs_perm.trans (refs_takeArgs_perm r₁.context argsSize.toNat).symm
        · rw [ht]
          exact htable
        · rw [← hc]
          exact hent
        · exact h₁.table.found (VMClass.methodByName_mem hm)
  · obtain ⟨r', hu, -⟩ := popCreateArgs_underflow p argsSize (Nat.lt_of_not_le hk)
    rw [bind_error _ hu]
    trivial

section
variable [FloatArith]

/-- Every invoke either ends regularly or calls its target. -/
theorem execute_calls (p : Profile) (h : Framed b [] r) (cls : ClassRef) (lastPc : UInt16)
    (hop : op.isInvoke = true) :
    Ends (Calls b p cls op r) Regular (execute p cls lastPc op r) := by
  cases op
  case invokeStatic refIdx =>
    apply (invokeResolved_calls p h cls refIdx 0).mono
    · rintro o r' ⟨callee, r₁, hsel, rfl, hcalled⟩
      refine ⟨_, _, _, _, r₁, r₁, rfl, ?_, ?_, hcalled⟩
      · rw [invokeArgs, bind_eq _ hsel]
        rfl
      · rw [invokeTarget, bind_eq _ hsel]
        rfl
    · exact fun _ _ he => he
  case invokeSpecial refIdx =>
    apply (invokeResolved_calls p h cls refIdx 1).mono
    · rintro o r' ⟨callee, r₁, hsel, rfl, hcalled⟩
      refine ⟨_, _, _, _, r₁, r₁, rfl, ?_, ?_, hcalled⟩
      · rw [invokeArgs, bind_eq _ hsel]
        rfl
      · rw [invokeTarget, bind_eq _ hsel]
        rfl
    · exact fun _ _ he => he
  case invokeVirtual refIdx => exact invokeVirtual_calls p h cls refIdx
  all_goals cases hop

end

end Janadinite
