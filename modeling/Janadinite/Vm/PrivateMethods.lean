import Janadinite.Vm.Calls
import Janadinite.Vm.Declared
import Janadinite.Vm.FieldSelection

namespace Janadinite
open Hoare Search Chain ThreadContext
set_option autoImplicit true

/-- The method with the signature that a vtable holds. -/
def inForce (vtable : List VMMethod) (sig : String × String) : Option JVMMethod :=
  (vtable.find? fun m => m.signature = sig).map VMMethod.method

/-- The first method with the signature among the static ones of a class file. -/
def firstStatic (methods : List JVMMethod) (sig : String × String) : Option JVMMethod :=
  (methods.filter JVMMethod.isStatic).find? fun m => m.signature = sig

/-- The declaration that takes the place of others with the signature, among class files with the
most derived class first. -/
def redeclared (files : List Class) (sig : String × String) : Option JVMMethod :=
  files.findSome? fun cls => lastDeclared cls.methods sig

theorem redeclared_cons (cls : Class) (files : List Class) (sig : String × String) :
    redeclared (cls :: files) sig = (lastDeclared cls.methods sig).or (redeclared files sig) := by
  rw [redeclared, redeclared, List.findSome?_cons]
  cases lastDeclared cls.methods sig <;> rfl

theorem redeclared_notStatic (h : redeclared files sig = some m) : m.isStatic = false := by
  obtain ⟨cls, _, hcls⟩ := List.exists_of_findSome?_eq_some h
  exact (lastDeclared_some hcls).2.1

theorem addMethod_inForce (vtable staticVtable : List VMMethod) (meth : JVMMethod)
    (sig : String × String) :
    inForce (VMClass.addMethod (vtable, staticVtable) meth).1 sig =
      if meth.Declares sig then some meth else inForce vtable sig := by
  cases hs : meth.isStatic with
  | true =>
    have hnot : ¬ meth.Declares sig := fun hd => by cases hs.symm.trans hd.1
    rw [addMethod_static hs, if_neg hnot]
  | false =>
    simp only [VMClass.addMethod, if_neg (ne_true_of_eq_false hs)]
    have hdecl : meth.Declares sig ↔ meth.signature = sig := ⟨And.right, fun h => ⟨hs, h⟩⟩
    simp only [hdecl]
    cases hi : vtable.findIdx? fun m =>
        m.method.name == meth.name && m.method.descriptor == meth.descriptor with
    | some i =>
      obtain ⟨hlt, hmatch, hbefore⟩ := List.findIdx?_eq_some_iff_getElem.mp hi
      have hold := matches_iff.mp hmatch
      have hget := List.getElem?_eq_getElem hlt
      dsimp only
      split
      · rename_i hsig
        have hfirst :
          FirstAt (fun m : VMMethod => decide (m.signature = sig)) vtable i vtable[i] := by
          refine ⟨hget, decide_eq_true (hold.trans hsig), ?_⟩
          intro j y hj hy
          obtain ⟨hjlt, rfl⟩ := List.getElem?_eq_some_iff.mp hy
          apply decide_eq_false
          intro hj'
          exact hbefore j hj (matches_iff.mpr (hj'.trans hsig.symm))
        have hnew : decide (VMMethod.signature ⟨.ofNat i, meth⟩ = sig) = true := decide_eq_true hsig
        rw [inForce, (hfirst.set hnew).find?]
        rfl
      · rename_i hsig
        rw [inForce, find?_set_skipped hget (decide_eq_false (hold ▸ hsig)) (decide_eq_false hsig),
          inForce]
    | none =>
      have hnew : ∀ m ∈ vtable, m.signature ≠ meth.signature := by
        intro m hm hsig
        exact ne_true_of_eq_false (List.findIdx?_eq_none_iff.mp hi m hm) (matches_iff.mpr hsig)
      dsimp only
      rw [inForce, List.find?_append, inForce]
      split
      · rename_i hsig
        have hnone : vtable.find? (fun m => m.signature = sig) = none := by
          rw [List.find?_eq_none]
          intro m hm hd
          exact hnew m hm ((of_decide_eq_true hd).trans hsig.symm)
        have hentry : VMMethod.signature ⟨.ofNat vtable.length, meth⟩ = sig := hsig
        rw [hnone, Option.none_or, List.find?_singleton, if_pos (decide_eq_true hentry)]
        rfl
      · rename_i hsig
        have hentry : ¬ VMMethod.signature ⟨.ofNat vtable.length, meth⟩ = sig := hsig
        rw [List.find?_singleton, if_neg (fun h => hentry (of_decide_eq_true h)), Option.or_none]

theorem addMethods_inForce (methods : List JVMMethod) (vtable staticVtable : List VMMethod)
    (sig : String × String) :
    inForce (methods.foldl VMClass.addMethod (vtable, staticVtable)).1 sig =
      (lastDeclared methods sig).or (inForce vtable sig) := by
  induction methods generalizing vtable staticVtable with
  | nil => rfl
  | cons meth methods ih =>
    rw [List.foldl_cons, ih, addMethod_inForce, lastDeclared_cons, Option.or_assoc]
    apply congrArg
    split <;> rfl

theorem addMethods_static (methods : List JVMMethod) (vtable staticVtable : List VMMethod) :
    (methods.foldl VMClass.addMethod (vtable, staticVtable)).2.map VMMethod.method =
      staticVtable.map VMMethod.method ++ methods.filter JVMMethod.isStatic := by
  induction methods generalizing vtable staticVtable with
  | nil => rw [List.filter_nil, List.append_nil]; rfl
  | cons meth methods ih =>
    rw [List.foldl_cons, ih]
    cases hs : meth.isStatic with
    | true =>
      rw [addMethod_static hs, List.filter_cons_of_pos hs, List.map_append, List.append_assoc]
      rfl
    | false =>
      rw [List.filter_cons_of_neg (ne_true_of_eq_false hs)]
      rcases addMethod_cases hs staticVtable with ⟨_, _, _, _, heq⟩ | ⟨_, heq⟩
      · rw [heq]
      · rw [heq]

theorem create_inForce (h : VMClass.create p cls superClass = .ok v) (sig : String × String) :
    inForce v.vtable sig =
      (lastDeclared cls.methods sig).or (inForce (supeVtable superClass) sig) := by
  obtain ⟨_, _, _, hv⟩ := create_parts h
  have htables : v.vtable = (cls.methods.foldl VMClass.addMethod (supeVtable superClass, [])).1 :=
    congrArg Prod.fst hv.tables
  rw [htables, addMethods_inForce]

theorem create_static (h : VMClass.create p cls superClass = .ok v) :
    v.staticVtable.map VMMethod.method = cls.methods.filter JVMMethod.isStatic := by
  obtain ⟨_, _, _, hv⟩ := create_parts h
  have htables := congrArg Prod.snd hv.tables
  dsimp only at htables
  rw [htables, addMethods_static]
  rfl

namespace ClassTable

/-- What the vtable of a class holds is declared by the nearest class on the way up to a class
above, or is what the vtable of that class holds. -/
theorem Lineage.inForce (h : Lineage p t files d) (hk : Chain.chain t.superOf d k = some a)
    (sig : String × String) :
    Janadinite.inForce (t.get d).vtable sig =
      (redeclared (files.take k) sig).or (Janadinite.inForce (t.get a).vtable sig) := by
  induction k generalizing files d with
  | zero =>
    cases hk
    rfl
  | succ k ih =>
    rw [chain_succ] at hk
    cases h with
    | object hl =>
      rw [superOf, hl.superClass] at hk
      cases hk
    | root h hl =>
      obtain ⟨_, _, _, hv⟩ := create_parts h
      rw [superOf, hl.superClass, hv.superClass] at hk
      cases hk
    | extend hs _ hsl h hl =>
      obtain ⟨_, _, _, hv⟩ := create_parts h
      rw [superOf, hl.superClass, hv.superClass] at hk
      have hsup := ih hs hk
      rw [hsl.vtable] at hsup
      rw [hl.vtable, create_inForce h, List.take_succ_cons, redeclared_cons, Option.or_assoc]
      exact congrArg _ hsup

theorem Lineage.staticVtable (h : Lineage p t files d) :
    (t.get d).staticVtable.map VMMethod.method =
      (files.head?.elim [] Class.methods).filter JVMMethod.isStatic := by
  cases h with
  | object hl =>
    rw [hl.staticVtable]
    rfl
  | root h hl =>
    rw [hl.staticVtable]
    exact create_static h
  | extend _ _ _ h hl =>
    rw [hl.staticVtable]
    exact create_static h

theorem Lineage.inForce_notStatic (h : Lineage p t files c)
    (hm : Janadinite.inForce (t.get c).vtable sig = some m) : m.isStatic = false := by
  induction h with
  | object hl =>
    rw [hl.vtable] at hm
    obtain ⟨e, he, rfl⟩ := Option.map_eq_some_iff.mp hm
    rw [List.mem_singleton.mp (List.mem_of_find?_eq_some he)]
    rfl
  | root h hl =>
    rw [hl.vtable, create_inForce h] at hm
    rcases Option.or_eq_some_iff.mp hm with hm | ⟨_, hm⟩
    · exact (lastDeclared_some hm).2.1
    · cases hm
  | extend _ _ hsl h hl ih =>
    rw [hl.vtable, create_inForce h] at hm
    rcases Option.or_eq_some_iff.mp hm with hm | ⟨_, hm⟩
    · exact (lastDeclared_some hm).2.1
    · rw [hsl.vtable] at ih
      exact ih hm

end ClassTable

theorem VMClass.methodByName_method (v : VMClass) (name descriptor : String) :
    (v.methodByName name (some descriptor)).map VMMethod.method =
      (inForce v.vtable (name, descriptor)).or
        ((v.staticVtable.map VMMethod.method).find? fun m => m.signature = (name, descriptor)) := by
  have htest : (fun m : VMMethod => m.method.name == name &&
      (some descriptor).all (· == m.method.descriptor)) =
      fun m : VMMethod => decide (m.signature = (name, descriptor)) := by
    funext m
    rw [Option.all_some, Bool.eq_iff_iff, Bool.and_eq_true, beq_iff_eq, beq_iff_eq,
      decide_eq_true_eq, VMMethod.signature, JVMMethod.signature, Prod.mk.injEq,
      eq_comm (a := descriptor)]
  rw [methodByName, htest, List.find?_append, inForce, List.find?_map, Option.map_or]
  rfl

theorem resolveMethod_keeps {r r' : Runtime} (h : resolveMethod cls refIdx r = .ok found r') :
    r.table.Keeps r'.table := by
  obtain ⟨_, r₁, hr, h⟩ := bind_ok h
  obtain ⟨t, ht, rfl⟩ := onTable_ok hr
  obtain ⟨r₂, r₃, hg, h⟩ := bind_ok h
  cases hg
  obtain ⟨meth, r₄, hm, h⟩ := bind_ok h
  obtain ⟨_, rfl⟩ := expect_ok hm
  cases h
  have hends := getMethodOrResolve_resolves cls refIdx r.table
  rw [ht] at hends
  exact ClassTable.FilledTo.keeps hends

/-- The private method `m` is declared by the class `a` of the table, `k` superclasses above the one
that has these class files, and found by lookups in `a`. -/
structure PrivateMethod (t : ClassTable) (files : List Class) (k : Nat) (a : ClassRef)
    (m : JVMMethod) : Prop where
  isPrivate : m.accessFlags.contains .accPrivate = true
  declared : ∃ own, files[k]? = some own ∧ m ∈ own.methods
  found : ((t.get a).methodByName m.name (some m.descriptor)).map VMMethod.method = some m

/-- The invoke resolves to the method `e`, its `k` arguments are on the stack, the receiver among
them is an instance of the class `d`, and a frame for `e` has room for them. -/
structure Invoked (p : Profile) (cls : ClassRef) (refIdx : UInt16) (r : Runtime) (e : VMMethod)
    (k : UInt16) (d : ClassRef) : Prop where
  resolved : ∃ methClass r₁, resolveMethod cls refIdx r = .ok (methClass, e) r₁
  argsSize : argsWith p e 1 = .ok k
  args : k.toNat ≤ r.context.stack.length
  receiver : ∃ s,
    receiverClass p (r.context.stack.drop (r.context.stack.length - k.toNat)) r.store =
    .ok d s
  code : ∃ code, e.method.code = some code ∧ k ≤ code.maxLocals

/-- What the invoke calls is the method `m`. -/
def Runs [FloatArith] (p : Profile) (cls : ClassRef) (lastPc : UInt16) (op : OpCode) (r : Runtime)
    (m : JVMMethod) : Prop :=
  ∃ target code r', execute p cls lastPc op r = .ok (.call target m code) r' ∧ m.code = some code

/-- A private method stays in force in the class `d`, and invokes that resolve to it run it. -/
structure StaysPrivate [FloatArith] (p : Profile) (cls : ClassRef) (lastPc refIdx : UInt16)
    (r : Runtime) (m : JVMMethod) (d : ClassRef) : Prop where
  inForce : m.isStatic = false → inForce (r.table.get d).vtable m.signature = some m
  special : Runs p cls lastPc (.invokeSpecial refIdx) r m
  virtual : Runs p cls lastPc (.invokeVirtual refIdx) r m

/-- No class below the one that declares the method has another method with its signature in its
place, and a static method is one that the nearest class itself declares. -/
structure Unreplaced (files : List Class) (k : Nat) (m : JVMMethod) : Prop where
  redeclared : ∀ m', redeclared (files.take k) m.signature = some m' → m' = m
  static : m.isStatic = true →
    firstStatic (files.head?.elim [] Class.methods) m.signature = some m

theorem finishPushFrame_fits {k maxLocals : UInt16} (h : k ≤ maxLocals) (methRef maxStack : UInt16)
    (r : Runtime) : ∃ r', finishPushFrame methRef maxLocals maxStack k r = .ok ⟨⟩ r' := by
  rw [finishPushFrame, if_neg (UInt16.not_lt.mpr h)]
  exact ⟨_, rfl⟩

section
variable {r : Runtime} {e : VMMethod} {k : UInt16}

theorem Invoked.special [FloatArith] (h : Invoked p cls refIdx r e k d) (lastPc : UInt16) :
    Runs p cls lastPc (.invokeSpecial refIdx) r e.method := by
  obtain ⟨methClass, r₁, hres⟩ := h.resolved
  obtain ⟨code, hcode, hroom⟩ := h.code
  obtain ⟨hctx, _, _⟩ := resolveMethod_ok hres
  have hk : k.toNat ≤ r₁.context.stack.length := hctx ▸ h.args
  have hsel : selectMethod p cls refIdx 1 r = .ok ⟨methClass, e.method, code, k⟩ r₁ := by
    rw [selectMethod, bind_eq _ hres]
    dsimp only
    rw [hcode, h.argsSize]
    rfl
  obtain ⟨r', hpush⟩ := finishPushFrame_fits hroom refIdx code.maxStack
    { r₁ with context := r₁.context.takeArgs k.toNat }
  refine ⟨methClass, code, r', ?_, hcode⟩
  change invokeResolved p cls refIdx 1 r = _
  rw [invokeResolved, bind_eq _ hsel]
  change ((popCreateArgs p k >>= fun _ => finishPushFrame _ _ _ _) >>= fun _ => _ :
    VM Runtime Outcome) r₁ = _
  rw [bind_eq _ ((bind_eq _ (popCreateArgs_eq p k hk)).trans hpush)]
  rfl

theorem Invoked.virtual_eq (h : Invoked p cls refIdx r e k d) :
    ∃ r₂, (∀ c, (r₂.table.get c).vtable = (r.table.get c).vtable) ∧
      (∀ c, (r₂.table.get c).staticVtable = (r.table.get c).staticVtable) ∧
      invokeVirtual p cls refIdx r = (do
        let objMeth ← expect "Couldn't search for virtual method"
          ((r₂.table.get d).methodByName e.method.name (some e.method.descriptor))
        let code ← expect "FIXME: Handle methods without code" objMeth.method.code
        finishPushFrame refIdx code.maxLocals code.maxStack k
        pure (.call d objMeth.method code) : VM Runtime Outcome) r₂ := by
  obtain ⟨methClass, r₁, hres⟩ := h.resolved
  obtain ⟨s, hrecv⟩ := h.receiver
  obtain ⟨hctx, hstore, _⟩ := resolveMethod_ok hres
  have htable := resolveMethod_keeps hres
  have hk : k.toNat ≤ r₁.context.stack.length := hctx ▸ h.args
  have hsel : selectVirtual p cls refIdx r = .ok (e, k) r₁ := by
    rw [selectVirtual, bind_eq _ hres]
    dsimp only
    rw [h.argsSize]
    rfl
  rw [← hctx, ← hstore] at hrecv
  have hclass := onStore_eq (r := { r₁ with context := r₁.context.takeArgs k.toNat }) hrecv
  refine ⟨{ r₁ with context := r₁.context.takeArgs k.toNat, store := s }, htable.vtable,
    htable.staticVtable, ?_⟩
  rw [invokeVirtual, bind_eq _ hsel]
  change (popCreateArgs p k >>= fun _ => _ : VM Runtime Outcome) r₁ = _
  rw [bind_eq _ (popCreateArgs_eq p k hk)]
  change (onStore (receiverClass p
    ((r₁.context.takeArgs k.toNat).locals.drop r₁.context.locals.length)) >>= fun _ => _ :
      VM Runtime Outcome) { r₁ with context := r₁.context.takeArgs k.toNat } = _
  rw [takeArgs, List.drop_left, ← takeArgs, bind_eq _ hclass, bind_get]

/-- `InvokeVirtual` runs what a lookup in the class of the receiver finds. -/
theorem Invoked.virtual_iff [FloatArith] (h : Invoked p cls refIdx r e k d) (lastPc : UInt16) :
    Runs p cls lastPc (.invokeVirtual refIdx) r e.method ↔
      ((r.table.get d).methodByName e.method.name (some e.method.descriptor)).map VMMethod.method =
        some e.method := by
  obtain ⟨r₂, hv, hs, hrun⟩ := h.virtual_eq
  have hfind : (r₂.table.get d).methodByName e.method.name (some e.method.descriptor) =
      (r.table.get d).methodByName e.method.name (some e.method.descriptor) := by
    rw [VMClass.methodByName, VMClass.methodByName, hv, hs]
  rw [hfind] at hrun
  constructor
  · intro ⟨target, code, r', hx, hcode⟩
    have hx' := hrun.symm.trans hx
    obtain ⟨objMeth, r₃, hm, hx₁⟩ := bind_ok hx'
    obtain ⟨hmeth, rfl⟩ := expect_ok hm
    obtain ⟨code', r₄, hc, hx₂⟩ := bind_ok hx₁
    obtain ⟨_, rfl⟩ := expect_ok hc
    obtain ⟨_, r₅, _, hx₃⟩ := bind_ok hx₂
    rw [hmeth, Option.map_some]
    injection hx₃ with hout
    injection hout with _ hobj
    rw [hobj]
  · intro hfound
    obtain ⟨objMeth, hmeth, hobj⟩ := Option.map_eq_some_iff.mp hfound
    obtain ⟨code, hcode, hroom⟩ := h.code
    obtain ⟨r', hpush⟩ := finishPushFrame_fits hroom refIdx code.maxStack r₂
    refine ⟨d, code, r', ?_, hcode⟩
    apply hrun.trans
    rw [hmeth]
    change (expect _ objMeth.method.code >>= fun _ => _ : VM Runtime Outcome) r₂ = _
    rw [hobj, hcode]
    change (finishPushFrame _ _ _ _ >>= fun _ => _ : VM Runtime Outcome) r₂ = _
    rw [bind_eq _ hpush]
    rfl

/-- The class that declares an instance method holds it in its vtable, and one that declares a
static method has none with the signature there. -/
theorem PrivateMethod.inForce {t : ClassTable} {m : JVMMethod} (h : PrivateMethod t files n a m)
    (ha : t.Lineage p supers a) :
    inForce (t.get a).vtable m.signature = if m.isStatic then none else some m := by
  have hfound := h.found
  rw [VMClass.methodByName_method, ha.staticVtable] at hfound
  change (Janadinite.inForce _ m.signature).or _ = _ at hfound
  rcases Option.or_eq_some_iff.mp hfound with hm | ⟨hnone, hm⟩
  · rw [hm, ha.inForce_notStatic hm]
    rfl
  · have hs := (List.mem_filter.mp (List.mem_of_find?_eq_some hm)).2
    rw [hnone, if_pos hs]

/-- Private methods stay in force and are what invokes run exactly when no class below has another
method with the same name and descriptor in their place. -/
theorem staysPrivate_iff [FloatArith] (hd : r.table.Lineage p files d)
    (hn : Chain.chain r.table.superOf d n = some a)
    (hm : PrivateMethod r.table files n a e.method) (hi : Invoked p cls refIdx r e k d)
    (lastPc : UInt16) :
    StaysPrivate p cls lastPc refIdx r e.method d ↔ Unreplaced files n e.method := by
  have hforce := hd.inForce hn e.method.signature
  rw [hm.inForce (hd.chain hn).1] at hforce
  have hvirtual := hi.virtual_iff lastPc
  rw [VMClass.methodByName_method, hd.staticVtable] at hvirtual
  change _ ↔ (inForce _ e.method.signature).or (firstStatic _ e.method.signature) = _ at hvirtual
  rw [hforce] at hvirtual
  constructor
  · intro h
    have hfound := hvirtual.mp h.virtual
    constructor
    · intro m' hm'
      rw [hm', Option.some_or, Option.some_or] at hfound
      exact Option.some.inj hfound
    · intro hs
      rw [if_pos hs, Option.or_none] at hfound
      rcases Option.or_eq_some_iff.mp hfound with hred | ⟨_, hstat⟩
      · cases hs.symm.trans (redeclared_notStatic hred)
      · exact hstat
  · intro h
    have hin : e.method.isStatic = false →
        (redeclared (files.take n) e.method.signature).or (some e.method) = some e.method := by
      intro _
      cases hred : redeclared (files.take n) e.method.signature with
      | none => rfl
      | some m' =>
        rw [h.redeclared m' hred]
        rfl
    refine ⟨?_, hi.special lastPc, hvirtual.mpr ?_⟩
    · intro hs
      rw [hforce, hs]
      exact hin hs
    · cases hs : e.method.isStatic with
      | false =>
        have hsome := hin hs
        simp only [Bool.false_eq_true, if_false]
        rw [hsome]
        rfl
      | true =>
        cases hred : redeclared (files.take n) e.method.signature with
        | none => exact h.static hs
        | some m' =>
          have hm' := h.redeclared m' hred
          cases hs.symm.trans (hm' ▸ redeclared_notStatic hred)

end

def getReturning (flags : JVMAccessFlag) (const : UInt8) : JVMMethod :=
  ⟨"get", "()I", 0, flags, some ⟨1, 1, [const, 0xac], [], []⟩, []⟩

/-- `Base` with a private method `get` that returns 1, and a static method that calls `get`. -/
def secretBase : Class where
  thisName := "Base"
  superName := "java/lang/Object"
  minorVersion := 0
  majorVersion := 65
  accessFlags := .accPublic
  constantPool := [.unusable, .utf8 "Base", .class 1, .utf8 "get", .utf8 "()I", .nameAndType 3 4,
    .methodref 2 5]
  methods := [getReturning .accPrivate 0x04,
    ⟨"call", "(LBase;)I", 1, .accStatic, some ⟨1, 1, [0x2a, 0xb6, 0, 6, 0xac], [], []⟩, []⟩]
  fields := []
  attributes := []

/-- `Main`, a subclass of `Base`, passes an instance of itself to the static method. -/
def secretMain (methods : List JVMMethod) : Class where
  thisName := "Main"
  superName := "Base"
  minorVersion := 0
  majorVersion := 65
  accessFlags := .accPublic
  constantPool := [.unusable, .utf8 "Main", .class 1, .utf8 "Base", .class 3, .utf8 "call",
    .utf8 "(LBase;)I", .nameAndType 5 6, .methodref 4 7]
  methods := ⟨"main", "()I", 0, .accStatic,
    some ⟨0, 1, [0xbb, 0, 2, 0xb8, 0, 8, 0xac], [], []⟩, []⟩ :: methods
  fields := []
  attributes := []

def secretFiles (methods : List JVMMethod) : List Class :=
  [{ secretMain methods with constantPool := [] }, { secretBase with constantPool := [] }]

def secretBaseClass : VMClass where
  name := "Base"
  superClass := some 0
  vtable := VMClass.javaLangObject.vtable ++ [⟨1, getReturning .accPrivate 0x04⟩]
  staticVtable :=
    [⟨0, ⟨"call", "(LBase;)I", 1, .accStatic, some ⟨1, 1, [0x2a, 0xb6, 0, 6, 0xac], [], []⟩, []⟩⟩]
  fields := []
  constantPool := [.unusable, .resolvedMethod (.vtable 1)]

def secretMainClass (vtable : List VMMethod) : VMClass where
  name := "Main"
  superClass := some 1
  vtable := VMClass.javaLangObject.vtable ++ vtable
  staticVtable := [⟨0, ⟨"main", "()I", 0, .accStatic,
    some ⟨0, 1, [0xbb, 0, 2, 0xb8, 0, 8, 0xac], [], []⟩, []⟩⟩]
  fields := []
  constantPool := []

def callsGet (vtable : List VMMethod) : Runtime where
  table := ⟨[.javaLangObject, secretBaseClass, secretMainClass vtable], [("Base", 1), ("Main", 2)]⟩
  store := (Store.initial fun n => .ofNat (8 * (n + 1))).write 8 (some ⟨3, 0, .instance 2, []⟩)
  context := { ThreadContext.new 8 0 with stack := [.fromObject 8] }

theorem callsGet_base (vtable : List VMMethod) :
    (callsGet vtable).table.Lineage ⟨true⟩ [{ secretBase with constantPool := [] }] 1 :=
  .extend (.object (c := 0) (.refl _)) Nat.one_pos (.refl _)
    (v := { secretBaseClass with constantPool := [] }) rfl ⟨rfl, rfl, rfl, rfl, rfl⟩

theorem callsGet_invoked (vtable : List VMMethod) :
    Invoked ⟨true⟩ 1 1 (callsGet vtable) ⟨1, getReturning .accPrivate 0x04⟩ 1 2 :=
  ⟨⟨1, _, rfl⟩, rfl, Nat.le_refl 1, ⟨_, rfl⟩, ⟨_, rfl, by decide⟩⟩

theorem callsGet_private (vtable : List VMMethod) (methods : List JVMMethod) :
    PrivateMethod (callsGet vtable).table (secretFiles methods) 1 1
      (getReturning .accPrivate 0x04) :=
  ⟨by decide, ⟨_, rfl, List.mem_cons_self⟩, rfl⟩

/-- The `get` of `Main` runs in place of the private one of `Base`. -/
theorem private_get_replaced :
    (callsGet [⟨1, getReturning .accPublic 0x05⟩]).table.Lineage ⟨true⟩
      (secretFiles [getReturning .accPublic 0x05]) 2 ∧
    PrivateMethod (callsGet [⟨1, getReturning .accPublic 0x05⟩]).table
      (secretFiles [getReturning .accPublic 0x05]) 1 1 (getReturning .accPrivate 0x04) ∧
    Invoked ⟨true⟩ 1 1 (callsGet [⟨1, getReturning .accPublic 0x05⟩])
      ⟨1, getReturning .accPrivate 0x04⟩ 1 2 ∧
    ¬ @StaysPrivate noFloats ⟨true⟩ 1 0 1 (callsGet [⟨1, getReturning .accPublic 0x05⟩])
      (getReturning .accPrivate 0x04) 2 ∧
    (mainRun [secretBase, secretMain [getReturning .accPublic 0x05]] 22).toOption.any
      (fun m => match m.control with
        | .finished result => result == some (.int 2)
        | _ => false) = true := by
  refine ⟨?_, callsGet_private _ _, callsGet_invoked _, ?_, by decide +kernel⟩
  · exact .extend (callsGet_base _) (Nat.lt_succ_self 1) (.refl _) rfl (.refl _)
  · intro h
    let _ := noFloats
    have hfound :=
      ((callsGet_invoked [⟨1, getReturning .accPublic 0x05⟩]).virtual_iff 0).mp h.virtual
    cases congrArg (Option.map JVMMethod.accessFlags) hfound

/-- Without a `get` in `Main` that of `Base` runs. -/
theorem private_get_runs : @StaysPrivate noFloats ⟨true⟩ 1 0 1
    (callsGet [⟨1, getReturning .accPrivate 0x04⟩]) (getReturning .accPrivate 0x04) 2 := by
  have hmain : (callsGet [⟨1, getReturning .accPrivate 0x04⟩]).table.Lineage ⟨true⟩
      (secretFiles []) 2 :=
    .extend (callsGet_base _) (Nat.lt_succ_self 1) (.refl _) rfl (.refl _)
  let _ := noFloats
  apply (staysPrivate_iff (n := 1) (a := 1) hmain rfl (callsGet_private _ []) (callsGet_invoked _)
    0).mpr
  constructor
  · exact fun _ hred => nomatch hred
  · exact fun hs => nomatch hs

end Janadinite
