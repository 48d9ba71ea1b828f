import Janadinite.Vm.Built
import Mathlib.Data.List.Nodup

namespace Janadinite
open Hoare
set_option autoImplicit true

def JVMMethod.signature (m : JVMMethod) : String × String := (m.name, m.descriptor)

def VMMethod.signature (m : VMMethod) : String × String := m.method.signature

/-- A declaration that a vtable has an entry for. -/
def JVMMethod.Declares (m : JVMMethod) (sig : String × String) : Prop :=
  m.isStatic = false ∧ m.signature = sig

instance (m : JVMMethod) (sig : String × String) : Decidable (m.Declares sig) :=
  inferInstanceAs (Decidable (_ ∧ _))

/-- The last declaration that is not static, among the methods of one class. -/
def lastDeclared (methods : List JVMMethod) (sig : String × String) : Option JVMMethod :=
  methods.reverse.find? fun m => m.Declares sig

/-- The last declaration in the most derived class that has one, among class files with the most
derived class first, and `java/lang/Object` after them. -/
def mostDerived (files : List Class) (sig : String × String) : Option JVMMethod :=
  (files.findSome? fun cls => lastDeclared cls.methods sig).or
    (lastDeclared (VMClass.javaLangObject.vtable.map VMMethod.method) sig)

/-- A class that was made by `create` from `c` with the class files between them, the most derived
first. A superclass may have been in use before the subclass is made. -/
inductive Descends (p : Profile) (c : VMClass) : List Class → VMClass → Prop
  | refl : Descends p c [] c
  | extend (hs : Descends p c files s) (hl : s'.SameLayout s)
      (h : VMClass.create p cls (some (r, s')) = .ok v) : Descends p c (cls :: files) v

theorem Descends.trans (hd : Descends p c files' d) (hc : Descends p b files c) :
    Descends p b (files' ++ files) d := by
  induction hd with
  | refl => exact hc
  | extend _ hl h ih => exact .extend ih hl h

/-- A vtable with each entry at its index, one for each signature, that holds what `decl` gives for
it. -/
structure Indexed (decl : String × String → Option JVMMethod) (vtable : List VMMethod) : Prop where
  idx : ∀ (i : Nat) (m : VMMethod), vtable[i]? = some m → m.idx = .ofNat i
  nodup : (vtable.map VMMethod.signature).Nodup
  decl : ∀ m ∈ vtable, decl m.signature = some m.method

theorem forall_concat {P : Nat → α → Prop} {xs : List α} {x : α}
    (h : ∀ (i : Nat) y, xs[i]? = some y → P i y) (hx : P xs.length x) (i : Nat) (y : α)
    (hi : (xs ++ [x])[i]? = some y) : P i y := by
  rcases Nat.lt_trichotomy i xs.length with hlt | rfl | hgt
  · rw [List.getElem?_append_left hlt] at hi
    exact h i y hi
  · rw [List.getElem?_concat_length] at hi
    cases hi
    exact hx
  · rw [List.getElem?_append_right (Nat.le_of_lt hgt), List.getElem?_eq_none] at hi
    · cases hi
    · rw [List.length_singleton]
      omega

theorem matches_iff {m : VMMethod} {meth : JVMMethod} :
    (m.method.name == meth.name && m.method.descriptor == meth.descriptor) = true ↔
      m.signature = meth.signature := by
  rw [Bool.and_eq_true, beq_iff_eq, beq_iff_eq, VMMethod.signature, JVMMethod.signature,
    JVMMethod.signature, Prod.mk.injEq]

section
variable {decl decl' : String × String → Option JVMMethod} {vtable : List VMMethod}
  {meth : JVMMethod}

theorem Indexed.congr (h : Indexed decl vtable) (hd : ∀ m ∈ vtable,
    decl' m.signature = decl m.signature) : Indexed decl' vtable :=
  ⟨h.idx, h.nodup, fun m hm => (hd m hm).trans (h.decl m hm)⟩

theorem Indexed.override {old : VMMethod} (h : Indexed decl vtable) (hold : vtable[i]? = some old)
    (hsig : old.signature = meth.signature) (hmeth : decl' meth.signature = some meth)
    (hd : ∀ sig ≠ meth.signature, decl' sig = decl sig) :
    Indexed decl' (vtable.set i ⟨.ofNat i, meth⟩) ∧
      (vtable.set i ⟨.ofNat i, meth⟩).map VMMethod.signature = vtable.map VMMethod.signature := by
  obtain ⟨hi, hget⟩ := List.getElem?_eq_some_iff.mp hold
  have hmap : (vtable.set i ⟨.ofNat i, meth⟩).map VMMethod.signature =
      vtable.map VMMethod.signature := by
    have hlt : i < (vtable.map VMMethod.signature).length := by
      rwa [List.length_map]
    have hsig' : (vtable.map VMMethod.signature)[i] = meth.signature := by
      rw [List.getElem_map, hget, hsig]
    rw [List.map_set]
    change (vtable.map VMMethod.signature).set i meth.signature = _
    rw [← hsig', List.set_getElem_self]
  refine ⟨⟨?_, ?_, ?_⟩, hmap⟩
  · intro j m hj
    rw [List.getElem?_set] at hj
    split at hj
    · rename_i hij
      cases hj
      rw [hij]
    · exact h.idx j m hj
  · rw [hmap]
    exact h.nodup
  · intro m hm
    obtain ⟨j, hj⟩ := List.mem_iff_getElem?.mp hm
    rw [List.getElem?_set] at hj
    split at hj
    · cases hj
      exact hmeth
    · rename_i hij
      have hne : m.signature ≠ meth.signature := by
        intro he
        have hj' : (vtable.map VMMethod.signature)[j]? = some meth.signature := by
          rw [List.getElem?_map, hj, Option.map_some, he]
        have hi' : (vtable.map VMMethod.signature)[i]? = some meth.signature := by
          rw [List.getElem?_map, hold, Option.map_some, hsig]
        have hlt : i < (vtable.map VMMethod.signature).length := by
          rwa [List.length_map]
        exact hij ((List.getElem?_inj hlt h.nodup).mp (hi'.trans hj'.symm))
      rw [hd _ hne]
      exact h.decl m (List.mem_of_getElem? hj)

theorem Indexed.add (h : Indexed decl vtable)
    (hnew : meth.signature ∉ vtable.map VMMethod.signature)
    (hmeth : decl' meth.signature = some meth)
    (hd : ∀ sig ≠ meth.signature, decl' sig = decl sig) :
    Indexed decl' (vtable ++ [⟨.ofNat vtable.length, meth⟩]) := by
  refine ⟨forall_concat h.idx rfl, ?_, ?_⟩
  · rw [List.map_append, List.nodup_append]
    refine ⟨h.nodup, List.pairwise_singleton _ _, ?_⟩
    intro a ha b hb hab
    rw [hab, List.mem_singleton.mp hb] at ha
    exact hnew ha
  · intro m hm
    rcases List.mem_append.mp hm with hm | hm
    · have hne : m.signature ≠ meth.signature := by
        intro he
        exact hnew (he ▸ List.mem_map_of_mem hm)
      rw [hd _ hne]
      exact h.decl m hm
    · rw [List.mem_singleton.mp hm]
      exact hmeth

theorem addMethod_static (h : meth.isStatic = true) (staticVtable : List VMMethod) :
    VMClass.addMethod (vtable, staticVtable) meth =
      (vtable, staticVtable ++ [⟨.ofNat staticVtable.length, meth⟩]) :=
  if_pos h

/-- A method that is not static overrides the entry with its signature or is new. -/
theorem addMethod_cases (h : meth.isStatic = false) (staticVtable : List VMMethod) :
    (∃ i old, vtable[i]? = some old ∧ old.signature = meth.signature ∧
      VMClass.addMethod (vtable, staticVtable) meth =
        (vtable.set i ⟨.ofNat i, meth⟩, staticVtable)) ∨
    (meth.signature ∉ vtable.map VMMethod.signature ∧
      VMClass.addMethod (vtable, staticVtable) meth =
        (vtable ++ [⟨.ofNat vtable.length, meth⟩], staticVtable)) := by
  simp only [VMClass.addMethod, if_neg (ne_true_of_eq_false h)]
  cases hi : vtable.findIdx? fun m =>
      m.method.name == meth.name && m.method.descriptor == meth.descriptor with
  | some i =>
    obtain ⟨hlt, hmatch, _⟩ := List.findIdx?_eq_some_iff_getElem.mp hi
    exact .inl ⟨i, vtable[i], List.getElem?_eq_getElem hlt, matches_iff.mp hmatch, rfl⟩
  | none =>
    refine .inr ⟨?_, rfl⟩
    intro hmem
    obtain ⟨m, hm, hsig⟩ := List.mem_map.mp hmem
    exact ne_true_of_eq_false (List.findIdx?_eq_none_iff.mp hi m hm) (matches_iff.mpr hsig)

theorem addMethod_indexed (h : Indexed decl vtable) (staticVtable : List VMMethod)
    (meth : JVMMethod) :
    Indexed (fun sig => if meth.Declares sig then some meth else decl sig)
        (VMClass.addMethod (vtable, staticVtable) meth).1 ∧
      vtable.map VMMethod.signature <+:
        (VMClass.addMethod (vtable, staticVtable) meth).1.map VMMethod.signature := by
  cases hstatic : meth.isStatic with
  | true =>
    rw [addMethod_static hstatic]
    refine ⟨h.congr fun m _ => if_neg ?_, List.prefix_refl _⟩
    intro hd
    cases hstatic.symm.trans hd.1
  | false =>
    have hmeth : (if meth.Declares meth.signature then some meth else decl meth.signature) =
        some meth := if_pos ⟨hstatic, rfl⟩
    have hother : ∀ sig ≠ meth.signature,
        (if meth.Declares sig then some meth else decl sig) = decl sig := by
      intro sig hne
      exact if_neg fun hd => hne hd.2.symm
    rcases addMethod_cases hstatic staticVtable with ⟨i, old, hold, hsig, heq⟩ | ⟨hnew, heq⟩
    · obtain ⟨hs, hmap⟩ := h.override hold hsig hmeth hother
      rw [heq]
      dsimp only
      rw [hmap]
      exact ⟨hs, List.prefix_refl _⟩
    · rw [heq]
      dsimp only
      rw [List.map_append]
      exact ⟨h.add hnew hmeth hother, List.prefix_append _ _⟩

theorem lastDeclared_cons (meth : JVMMethod) (methods : List JVMMethod) (sig : String × String) :
    lastDeclared (meth :: methods) sig =
      (lastDeclared methods sig).or (if meth.Declares sig then some meth else none) := by
  rw [lastDeclared, List.reverse_cons, List.find?_append, List.find?_singleton]
  simp only [decide_eq_true_eq]
  rfl

theorem addMethods_indexed (h : Indexed decl vtable) (staticVtable : List VMMethod)
    (methods : List JVMMethod) :
    Indexed (fun sig => (lastDeclared methods sig).or (decl sig))
        (methods.foldl VMClass.addMethod (vtable, staticVtable)).1 ∧
      vtable.map VMMethod.signature <+:
        (methods.foldl VMClass.addMethod (vtable, staticVtable)).1.map VMMethod.signature := by
  induction methods generalizing decl vtable staticVtable with
  | nil => exact ⟨h, List.prefix_refl _⟩
  | cons meth methods ih =>
    obtain ⟨h₁, hp₁⟩ := addMethod_indexed h staticVtable meth
    obtain ⟨h₂, hp₂⟩ := ih h₁ (VMClass.addMethod (vtable, staticVtable) meth).2
    refine ⟨h₂.congr fun m _ => ?_, hp₁.trans hp₂⟩
    rw [lastDeclared_cons, Option.or_assoc]
    apply congrArg
    split <;> rfl

end

theorem create_indexed (hs : Indexed decl s.vtable)
    (h : VMClass.create p cls (some (r, s)) = .ok v) :
    Indexed (fun sig => (lastDeclared cls.methods sig).or (decl sig)) v.vtable ∧
      s.vtable.map VMMethod.signature <+: v.vtable.map VMMethod.signature := by
  obtain ⟨_, _, _, hv⟩ := create_parts h
  have htables : v.vtable = (cls.methods.foldl VMClass.addMethod (s.vtable, [])).1 :=
    congrArg Prod.fst hv.tables
  rw [htables]
  exact addMethods_indexed hs [] cls.methods

theorem mostDerived_cons (cls : Class) (files : List Class) (sig : String × String) :
    mostDerived (cls :: files) sig = (lastDeclared cls.methods sig).or (mostDerived files sig) := by
  rw [mostDerived, mostDerived, List.findSome?_cons]
  cases lastDeclared cls.methods sig <;> rfl

theorem object_indexed : Indexed (mostDerived []) VMClass.javaLangObject.vtable := by
  refine ⟨?_, List.pairwise_singleton _ _, ?_⟩
  · intro i m hi
    cases i with
    | zero =>
      cases hi
      rfl
    | succ i => cases hi
  · intro m hm
    rw [List.mem_singleton.mp hm]
    rfl

theorem Descends.indexed (h : Descends p .javaLangObject files v) :
    Indexed (mostDerived files) v.vtable := by
  induction h with
  | refl => exact object_indexed
  | extend _ hl h ih =>
    rw [← hl.vtable] at ih
    exact (create_indexed ih h).1.congr fun m _ => mostDerived_cons _ _ m.signature

theorem Descends.prefix (hc : Descends p .javaLangObject files c) (h : Descends p c files' d) :
    c.vtable.map VMMethod.signature <+: d.vtable.map VMMethod.signature := by
  induction h with
  | refl => exact List.prefix_refl _
  | extend hs hl h ih =>
    have hidx := (hs.trans hc).indexed
    rw [← hl.vtable] at hidx ih
    exact ih.trans (create_indexed hidx h).2

theorem Indexed.find? {decl : String × String → Option JVMMethod} (h : Indexed decl vtable)
    {i : Nat} {m : VMMethod} (hi : vtable[i]? = some m) (rest : List VMMethod)
    (hsig : m.signature = (name, descriptor)) :
    (vtable ++ rest).find? (fun meth => meth.method.name == name &&
      (some descriptor).all (· == meth.method.descriptor)) = some m := by
  obtain ⟨hlt, hget⟩ := List.getElem?_eq_some_iff.mp hi
  have hname : m.method.name = name := congrArg Prod.fst hsig
  have hdesc : m.method.descriptor = descriptor := congrArg Prod.snd hsig
  rw [List.find?_append, Option.or_eq_some_iff]
  left
  rw [List.find?_eq_some_iff_getElem]
  refine ⟨?_, i, hlt, hget, ?_⟩
  · rw [hname, hdesc, Option.all_some, beq_self_eq_true, beq_self_eq_true, Bool.and_self]
  · intro j hj
    rw [Bool.not_eq_true', ← Bool.not_eq_true]
    intro hmatch
    rw [Option.all_some, Bool.and_eq_true, beq_iff_eq, beq_iff_eq] at hmatch
    have hjlt : j < vtable.length := Nat.lt_trans hj hlt
    have hj' : vtable[j].signature = m.signature := by
      rw [hsig]
      exact Prod.ext hmatch.1 hmatch.2.symm
    have hmap : (vtable.map VMMethod.signature)[j]? = (vtable.map VMMethod.signature)[i]? := by
      rw [List.getElem?_map, List.getElem?_map, hi, List.getElem?_eq_getElem hjlt, Option.map_some,
        Option.map_some, hj']
    have hlt' : j < (vtable.map VMMethod.signature).length := by
      rwa [List.length_map]
    exact absurd ((List.getElem?_inj hlt' h.nodup).mp hmap) (Nat.ne_of_lt hj)

/-- Dispatch by name and by index agree on all classes above and below: both find the most derived
declaration. -/
theorem vtable_dispatch (hc : Descends p .javaLangObject files c) (hd : Descends p c files' d)
    (hmax : d.vtable.length ≤ 65536) :
    (∀ (i : Nat) (m : VMMethod), d.vtable[i]? = some m → m.idx.toNat = i) ∧
    (d.vtable.map VMMethod.signature).Nodup ∧
    c.vtable.map VMMethod.signature <+: d.vtable.map VMMethod.signature ∧
    ∀ (v : UInt16) (m : VMMethod), c.methodById (.vtable v) = some m →
      ∃ m', d.methodById (.vtable v) = some m' ∧
        d.methodByName m.method.name (some m.method.descriptor) = some m' ∧
        mostDerived (files' ++ files) (m.method.name, m.method.descriptor) = some m'.method := by
  have hidx := (hd.trans hc).indexed
  have hprefix := hc.prefix hd
  refine ⟨?_, hidx.nodup, hprefix, ?_⟩
  · intro i m hi
    have hlt : i < d.vtable.length := (List.getElem?_eq_some_iff.mp hi).1
    rw [hidx.idx i m hi]
    exact UInt16.toNat_ofNat_of_lt' (Nat.lt_of_lt_of_le hlt hmax)
  · intro v m hm
    have hm' : (c.vtable.map VMMethod.signature)[v.toNat]? = some m.signature := by
      have hv : c.vtable[v.toNat]? = some m := hm
      rw [List.getElem?_map, hv, Option.map_some]
    obtain ⟨hlt, hget⟩ := List.getElem?_eq_some_iff.mp hm'
    have hsig := List.prefix_iff_getElem?.mp hprefix v.toNat hlt
    rw [hget, List.getElem?_map, Option.map_eq_some_iff] at hsig
    obtain ⟨m', hv, hsig⟩ := hsig
    refine ⟨m', hv, hidx.find? hv _ hsig, ?_⟩
    have hdecl := hidx.decl m' (List.mem_of_getElem? hv)
    rwa [hsig] at hdecl

def voidMethods (thisName superName : String) (names : List String) : Class where
  thisName := thisName
  superName := superName
  minorVersion := 0
  majorVersion := 65
  accessFlags := .accPublic
  constantPool := []
  methods := names.map fun name => ⟨name, "()V", 0, .accPublic, none, []⟩
  fields := []
  attributes := []

def shape : VMClass :=
  (VMClass.create ⟨true⟩ (voidMethods "Shape" "java/lang/Object" ["draw", "area"])
    (some (0, .javaLangObject))).toOption.getD .javaLangObject

/-- `Circle` overrides `draw` of `Shape`, and adds a method. -/
def circle : VMClass :=
  (VMClass.create ⟨true⟩ (voidMethods "Circle" "Shape" ["radius", "draw"])
    (some (1, shape))).toOption.getD .javaLangObject

theorem circle_dispatch :
    ∃ m', circle.methodById (.vtable 1) = some m' ∧
      circle.methodByName "draw" (some "()V") = some m' := by
  have hc : Descends ⟨true⟩ .javaLangObject
      [voidMethods "Shape" "java/lang/Object" ["draw", "area"]] shape :=
    .extend (r := 0) .refl ⟨rfl, rfl, rfl, rfl, rfl⟩ rfl
  have hd : Descends ⟨true⟩ shape [voidMethods "Circle" "Shape" ["radius", "draw"]] circle :=
    .extend (r := 1) .refl ⟨rfl, rfl, rfl, rfl, rfl⟩ rfl
  have hdispatch := (vtable_dispatch hc hd (by decide +kernel)).2.2.2
  obtain ⟨m', hid, hname, _⟩ := hdispatch 1 ⟨1, ⟨"draw", "()V", 0, .accPublic, none, []⟩⟩ rfl
  exact ⟨m', hid, hname⟩

end Janadinite
