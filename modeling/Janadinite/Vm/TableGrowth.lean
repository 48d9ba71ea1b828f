import Janadinite.Vm.Framed
import Janadinite.Vm.PoolLinks
import Janadinite.Vm.TableFramed
import Janadinite.Vm.Vtable

namespace Janadinite
open Hoare Relation
set_option autoImplicit true

namespace ClassTable

/-- What a part of an instruction does to the table. -/
inductive Uses : ClassTable → ClassTable → Prop
  | «class» (h : getClassOrLoadByRef this refIdx t = .ok c t') : Uses t t'
  | classOrArray (h : getClassOrArrayByRef this refIdx t = .ok found t') : Uses t t'
  | method (h : getMethodOrResolve this refIdx t = .ok resolved t') : Uses t t'
  | field (h : getFieldOrResolve this refIdx t = .ok resolved t') : Uses t t'
  | static (cls : ClassRef) (off : FieldOff) (k : Nat) (slot : JVMSlot) :
      Uses t (t.setStatic cls off k slot)

/-- The table is used, or a class is added that is made from a class file, with a class of the table
as its superclass. -/
inductive Evolves (p : Profile) : ClassTable → ClassTable → Prop
  | used (h : t.Uses t') : Evolves p t t'
  | added {superClass : Option ClassRef} (hnone : t.lookup name = none)
      (hs : ∀ s, superClass = some s → s < t.classes.length)
      (hv : VMClass.create p file (superClass.map fun c => (c, t.get c)) = .ok v) :
      Evolves p t ⟨t.classes ++ [v], (name, t.classes.length) :: t.loaded⟩

/-- The tables of a virtual machine, from the one it begins with on. -/
def Grown (p : Profile) (t : ClassTable) : Prop :=
  ReflTransGen (Evolves p) .fromClassPath t

theorem Uses.changes {t t' : ClassTable} (h : t.Uses t') : t.Changes t' := by
  cases h with
  | «class» hr => exact .class hr
  | classOrArray hr => exact .classOrArray hr
  | method hr => exact .method hr
  | field hr => exact .field hr
  | static cls off k slot => exact .static cls off k slot

theorem Uses.keeps {t t' : ClassTable} (h : t.Uses t') : t.Keeps t' := by
  have key {α : Type} {m : VM ClassTable α} {a : α} (hm : Resolves m) (hr : m t = .ok a t') :
      t.Keeps t' := by
    have hends := hm t
    rw [hr] at hends
    exact FilledTo.keeps hends
  cases h with
  | «class» hr => exact key (getClassOrLoadByRef_resolves _ _) hr
  | classOrArray hr => exact key (getClassOrArrayByRef_resolves _ _) hr
  | method hr => exact key (getMethodOrResolve_resolves _ _) hr
  | field hr => exact key (getFieldOrResolve_resolves _ _) hr
  | static cls off k slot => exact keeps_setStatic t cls off k slot

/-- What depends on neither the constant pool nor the static slots of a class stays as it is. -/
theorem Uses.unchanged {t t' : ClassTable} {g : VMClass → α} (h : t.Uses t')
    (hg : ∀ x pool, g { x with constantPool := pool } = g x)
    (hs : ∀ (x : VMClass) (i k : Nat) (slot : JVMSlot),
      g { x with fields := x.fields.modify i fun f => f.setStatic k slot } = g x) (c : ClassRef) :
    g (t'.get c) = g (t.get c) := by
  have hset (t : ClassTable) (cell : PoolCell) (e : VMConstantPoolEntry) :
      g ((t.setEntry cell e).get c) = g (t.get c) := get_setEntry t hg cell e c
  cases h with
  | «class» hr => exact getClassOrLoadByRef_keeps hg hr c
  | classOrArray hr =>
    cases getClassOrArrayByRef_ok hr with
    | «class» | primitive | array => rfl
    | foundClass | foundArray => exact hset t _ _
  | method hr =>
    cases getMethodOrResolve_ok hr with
    | cell | own => rfl
    | searched he hn hc hf => exact (hset _ _ _).trans (getClassOrLoadByRef_keeps hg hc c)
  | field hr =>
    cases getFieldOrResolve_ok hr with
    | cell | own => rfl
    | searched he hn hc hf => exact (hset _ _ _).trans (getClassOrLoadByRef_keeps hg hc c)
  | static cls off k slot => exact get_modifyClass t (fun x => hs x off.toNat k slot) c

theorem Uses.superClass {t t' : ClassTable} (h : t.Uses t') (c : ClassRef) :
    (t'.get c).superClass = (t.get c).superClass :=
  h.unchanged (g := VMClass.superClass) (fun _ _ => rfl) (fun _ _ _ _ => rfl) c

/-- The method is among those of a class in the table. -/
def HasMethod (t : ClassTable) (found : ClassRef × MethodID) : Prop :=
  found.1 < t.classes.length ∧ ∃ meth, (t.get found.1).methodById found.2 = some meth

theorem HasMethod.keeps {t t' : ClassTable} (h : t.HasMethod found) (hk : t.Keeps t') :
    t'.HasMethod found := by
  obtain ⟨hlt, meth, hm⟩ := h
  refine ⟨hk.length ▸ hlt, meth, ?_⟩
  rw [← hm]
  cases found.2 with
  | vtable v => exact congrArg (·[v.toNat]?) (hk.vtable found.1)
  | static v => exact congrArg (·[v.toNat]?) (hk.staticVtable found.1)

end ClassTable

/-- A reference to a method that has been resolved leads to one. -/
def VMConstantPoolEntry.MethodFound (t : ClassTable) (this : ClassRef) :
    VMConstantPoolEntry → Prop
  | .methodRef _ _ (some found) => t.HasMethod found
  | .resolvedMethod id => t.HasMethod (this, id)
  | _ => True

theorem VMConstantPoolEntry.MethodFound.mono {t t' : ClassTable} {e : VMConstantPoolEntry}
    (h : e.MethodFound t this) (ht : ∀ found, t.HasMethod found → t'.HasMethod found) :
    e.MethodFound t' this := by
  cases e with
  | methodRef classIdx nameAndDesc resolved =>
    cases resolved with
    | none => trivial
    | some found => exact ht found h
  | resolvedMethod id => exact ht (this, id) h
  | _ => trivial

/-- Every method of the two tables has its place as its number. -/
structure Numbered (tables : List VMMethod × List VMMethod) : Prop where
  vtable : ∀ (i : Nat) m, tables.1[i]? = some m → m.id = .vtable (.ofNat i)
  staticVtable : ∀ (i : Nat) m, tables.2[i]? = some m → m.id = .static (.ofNat i)

theorem addMethod_numbered {tables : List VMMethod × List VMMethod} (h : Numbered tables)
    (meth : JVMMethod) : Numbered (VMClass.addMethod tables meth) := by
  obtain ⟨vtable, staticVtable⟩ := tables
  cases hs : meth.isStatic with
  | true =>
    rw [addMethod_static hs]
    refine ⟨h.vtable, forall_concat h.staticVtable ?_⟩
    exact if_pos hs
  | false =>
    have hid (i : Nat) : VMMethod.id ⟨.ofNat i, meth⟩ = .vtable (.ofNat i) :=
      if_neg (ne_true_of_eq_false hs)
    rcases addMethod_cases hs staticVtable with ⟨i, old, hold, _, heq⟩ | ⟨_, heq⟩
    · rw [heq]
      refine ⟨?_, h.staticVtable⟩
      intro j m hj
      rw [List.getElem?_set] at hj
      split at hj
      · rename_i hij
        have hlt : i < vtable.length := (List.getElem?_eq_some_iff.mp hold).1
        rw [if_pos hlt] at hj
        cases hj
        rw [← hij]
        exact hid i
      · exact h.vtable j m hj
    · rw [heq]
      exact ⟨forall_concat h.vtable (hid vtable.length), h.staticVtable⟩

theorem addMethods_numbered {tables : List VMMethod × List VMMethod} (h : Numbered tables)
    (methods : List JVMMethod) : Numbered (methods.foldl VMClass.addMethod tables) := by
  induction methods generalizing tables with
  | nil => exact h
  | cons meth methods ih => exact ih (addMethod_numbered h meth)

namespace VMClass

def Numbered (v : VMClass) : Prop := Janadinite.Numbered (v.vtable, v.staticVtable)

theorem javaLangObject_numbered : javaLangObject.Numbered where
  vtable i m hm := by
    cases i with
    | zero =>
      cases hm
      rfl
    | succ i => cases hm
  staticVtable i m hm := by cases hm

/-- A class has a method under the number of each of its methods: a number that is taken modulo
`2^16` is a smaller one. -/
theorem Numbered.found {v : VMClass} (h : v.Numbered) (hm : m ∈ v.vtable ++ v.staticVtable) :
    ∃ meth, v.methodById m.id = some meth := by
  have key {xs : List VMMethod} {i : Nat} (hi : xs[i]? = some m) :
      ∃ meth, xs[(UInt16.ofNat i).toNat]? = some meth := by
    have hlt := (List.getElem?_eq_some_iff.mp hi).1
    have hle : (UInt16.ofNat i).toNat ≤ i := by
      rw [UInt16.toNat_ofNat']
      exact Nat.mod_le _ _
    exact ⟨_, List.getElem?_eq_getElem (Nat.lt_of_le_of_lt hle hlt)⟩
  rcases List.mem_append.mp hm with hm | hm
  · obtain ⟨i, hi⟩ := List.mem_iff_getElem?.mp hm
    rw [h.vtable i m hi]
    exact key hi
  · obtain ⟨i, hi⟩ := List.mem_iff_getElem?.mp hm
    rw [h.staticVtable i m hi]
    exact key hi

theorem create_numbered {superClass : Option (ClassRef × VMClass)}
    (hs : ∀ r s, superClass = some (r, s) → s.Numbered)
    (hv : VMClass.create p cls superClass = .ok v) : v.Numbered := by
  obtain ⟨_, _, _, hparts⟩ := create_parts hv
  rw [Numbered, hparts.tables]
  apply addMethods_numbered
  cases superClass with
  | none =>
    constructor
    · intro i m h
      cases h
    · intro i m h
      cases h
  | some supe =>
    constructor
    · exact (hs supe.1 supe.2 rfl).vtable
    · intro i m h
      cases h

theorem methodByName_found {v : VMClass} (hv : v.Numbered)
    (h : v.methodByName methName desc = some meth) : ∃ m, v.methodById meth.id = some m :=
  hv.found (List.mem_of_find?_eq_some h)

end VMClass

namespace ClassTable

def MethodsFound (t : ClassTable) : Prop :=
  ∀ c idx e, (t.get c).constantPool.getEntry idx = some e → e.MethodFound t c

/-- What holds of the classes of a virtual machine and of the references between them. -/
structure Sound (t : ClassTable) : Prop where
  lookup : ∀ name c, t.lookup name = some c → c < t.classes.length
  superClass : ∀ c s, (t.get c).superClass = some s → s < t.classes.length
  numbered : ∀ c, (t.get c).Numbered
  linked : ∀ c, (t.get c).constantPool.Linked
  cells : t.CellsNamed
  methods : t.MethodsFound

theorem findUp_lt {t : ClassTable} {pick : VMClass → Option α}
    (hs : ∀ c s, (t.get c).superClass = some s → s < n) (hc : c < n)
    (h : t.findUp pick depth c = some (r, a)) : r < n := by
  induction depth generalizing c with
  | zero => cases h
  | succ depth ih =>
    rw [findUp] at h
    split at h
    · cases h
      exact hc
    · obtain ⟨s, hsuper, h⟩ := Option.bind_eq_some_iff.mp h
      exact ih (hs c s hsuper) h

end ClassTable

theorem ClassResolved.lt {t t' : ClassTable} (h : ClassResolved t this refIdx c t')
    (ht : t.Sound) : c < t.classes.length := by
  cases h with
  | cell he =>
    obtain ⟨name, _, hl⟩ := ht.cells _ _ _ he
    exact ht.lookup name c hl
  | found _ _ hl => exact ht.lookup _ c hl

namespace ClassTable

theorem MethodsFound.set {t : ClassTable} {cell : PoolCell} {entry e₀ : VMConstantPoolEntry}
    (h : t.MethodsFound) (he : t.entryAt cell = some e₀) (hu : entry.unresolved = e₀.unresolved)
    (hm : entry.MethodFound t cell.owner) : (t.setEntry cell entry).MethodsFound := by
  have hk : t.Keeps (t.setEntry cell entry) := by
    apply keeps_setEntry
    change (t.entryAt cell).map _ = _
    rw [he, hu]
    rfl
  intro c idx e hidx
  change (t.setEntry cell entry).entryAt ⟨c, idx⟩ = some e at hidx
  by_cases hcell : cell = ⟨c, idx⟩
  · subst hcell
    rw [entryAt_setEntry_self he] at hidx
    cases hidx
    exact hm.mono fun _ hfound => hfound.keeps hk
  · rw [entryAt_setEntry_ne hcell] at hidx
    exact (h c idx e hidx).mono fun _ hfound => hfound.keeps hk

theorem MethodsFound.classRef {t t' : ClassTable} (h : t.MethodsFound)
    (hr : getClassOrLoadByRef this refIdx t = .ok c t') : t'.MethodsFound := by
  cases getClassOrLoadByRef_ok hr with
  | cell => exact h
  | found he => exact h.set he rfl trivial

theorem MethodsFound.arrayRef {t t' : ClassTable} (h : t.MethodsFound)
    (hr : getClassOrArrayByRef this refIdx t = .ok found t') : t'.MethodsFound := by
  cases getClassOrArrayByRef_ok hr with
  | «class» | primitive | array => exact h
  | foundClass he | foundArray he => exact h.set he rfl trivial

/-- What a cell stands for is not changed when another reference is resolved. -/
theorem entryAt_classRef {t t' : ClassTable} (he : t.entryAt cell = some e₀)
    (hr : getClassOrLoadByRef this refIdx t = .ok c t') :
    ∃ e, t'.entryAt cell = some e ∧ e₀.unresolved = e.unresolved := by
  have hends := getClassOrLoadByRef_resolves this refIdx t
  rw [hr] at hends
  obtain ⟨e, he', hu⟩ := Option.map_eq_some_iff.mp (hends.getEntry he)
  exact ⟨e, he', hu.symm⟩

theorem Sound.searched {t t' : ClassTable} (h : t.Sound)
    (hr : getClassOrLoadByRef this classIdx t = .ok root t')
    (hf : t'.searchUp (fun c => c.methodByName name desc) root = some (cls, meth)) :
    t'.HasMethod (cls, meth.id) := by
  have hu : t.Uses t' := .class hr
  have hk := hu.keeps
  have hsuper (c s : ClassRef) (hs : (t'.get c).superClass = some s) : s < t'.classes.length := by
    rw [hu.superClass] at hs
    exact hk.length ▸ h.superClass c s hs
  have hroot : root < t'.classes.length := hk.length ▸ (getClassOrLoadByRef_ok hr).lt h
  have hnumbered : (t'.get cls).Numbered := by
    rw [VMClass.Numbered, hk.vtable, hk.staticVtable]
    exact h.numbered cls
  exact ⟨findUp_lt hsuper hroot hf, VMClass.methodByName_found hnumbered (findUp_pick hf)⟩

theorem Sound.methodRef {t t' : ClassTable} (h : t.Sound)
    (hr : getMethodOrResolve this refIdx t = .ok found t') : t'.MethodsFound := by
  cases getMethodOrResolve_ok hr with
  | cell | own => exact h.methods
  | searched he hn hc hf =>
    obtain ⟨e, he', hu⟩ := entryAt_classRef he hc
    exact (h.methods.classRef hc).set he' hu (h.searched hc hf)

theorem MethodsFound.fieldRef {t t' : ClassTable} (h : t.MethodsFound)
    (hr : getFieldOrResolve this refIdx t = .ok found t') : t'.MethodsFound := by
  cases getFieldOrResolve_ok hr with
  | cell | own => exact h
  | searched he hn hc hf =>
    obtain ⟨e, he', hu⟩ := entryAt_classRef he hc
    exact (h.classRef hc).set he' hu trivial

theorem MethodsFound.static {t : ClassTable} (h : t.MethodsFound) (cls : ClassRef) (off : FieldOff)
    (k : Nat) (slot : JVMSlot) : (t.setStatic cls off k slot).MethodsFound := by
  intro c idx e he
  have hpool : ((t.setStatic cls off k slot).get c).constantPool = (t.get c).constantPool := by
    apply get_modifyClass (g := VMClass.constantPool) t
    exact fun _ => rfl
  rw [hpool] at he
  exact (h c idx e he).mono fun _ hfound => hfound.keeps (keeps_setStatic t cls off k slot)

theorem Sound.uses {t t' : ClassTable} (h : t.Sound) (hu : t.Uses t') : t'.Sound where
  lookup name c hl := by
    have hk := hu.keeps
    rw [ClassTable.lookup, hk.loaded] at hl
    exact hk.length ▸ h.lookup name c hl
  superClass c s hs := by
    rw [hu.superClass] at hs
    exact hu.keeps.length ▸ h.superClass c s hs
  numbered c := by
    have hk := hu.keeps
    rw [VMClass.Numbered, hk.vtable, hk.staticVtable]
    exact h.numbered c
  linked c := (h.linked c).congr (hu.keeps.pool c)
  cells := h.cells.changes hu.changes
  methods := by
    cases hu with
    | «class» hr => exact h.methods.classRef hr
    | classOrArray hr => exact h.methods.arrayRef hr
    | method hr => exact h.methodRef hr
    | field hr => exact h.methods.fieldRef hr
    | static cls off k slot => exact h.methods.static cls off k slot

end ClassTable

theorem resolveEntry_method
    (h : resolveEntry entries thisName methods fields constant =
      .ok (.resolvedMethod methodId)) :
    ∃ m ∈ methods, m.id = methodId := by
  cases constant with
  | methodref classIndex nameAndTypeIndex =>
    obtain ⟨ref, _, h⟩ := exceptBind_ok h
    cases hm : eagerMethod thisName methods ref with
    | none =>
      rw [hm] at h
      cases h
    | some meth =>
      rw [hm] at h
      cases h
      rw [eagerMethod] at hm
      split at hm
      · exact ⟨meth, List.mem_of_find?_eq_some hm, rfl⟩
      · cases hm
  | fieldref classIndex nameAndTypeIndex =>
    obtain ⟨ref, _, h⟩ := exceptBind_ok h
    cases hf : eagerField thisName fields ref <;> rw [hf] at h <;> cases h
  | «class» nameIndex =>
    obtain ⟨name, hname, _⟩ := exceptBind_ok h
    obtain ⟨cn, hp, htext⟩ := accepted_named hname h
    have hlinked := Except.ok.inj ((resolveEntry_named hp hname htext).symm.trans h)
    cases cn with
    | plain | primitiveArray => cases hlinked
    | classArray n className trailing =>
      rw [ConstantName.linked] at hlinked
      split at hlinked <;> cases hlinked
  | nameAndType nameIndex descriptorIndex =>
    obtain ⟨_, _, h⟩ := exceptBind_ok h
    obtain ⟨_, _, h⟩ := exceptBind_ok h
    cases h
  | _ => cases h

namespace ClassTable

theorem HasMethod.added {t : ClassTable} (h : t.HasMethod found) (v : VMClass)
    (loaded : List (String × ClassRef)) : HasMethod ⟨t.classes ++ [v], loaded⟩ found := by
  obtain ⟨hlt, meth, hm⟩ := h
  refine ⟨?_, meth, ?_⟩
  · rw [List.length_append]
    exact Nat.lt_add_right 1 hlt
  · rw [get_added, if_neg (Nat.ne_of_lt hlt)]
    exact hm

theorem Sound.added {t : ClassTable} {superClass : Option ClassRef} (h : t.Sound)
    (hnone : t.lookup name = none) (hs : ∀ s, superClass = some s → s < t.classes.length)
    (hv : VMClass.create p file (superClass.map fun c => (c, t.get c)) = .ok v) :
    Sound ⟨t.classes ++ [v], (name, t.classes.length) :: t.loaded⟩ := by
  obtain ⟨_, _, _, hparts⟩ := create_parts hv
  have hnumbered : v.Numbered := by
    apply VMClass.create_numbered _ hv
    intro r s hrs
    cases superClass with
    | none => cases hrs
    | some c =>
      cases hrs
      exact h.numbered _
  have hlt {c : ClassRef} (hc : c < t.classes.length) : c < (t.classes ++ [v]).length := by
    rw [List.length_append]
    exact Nat.lt_add_right 1 hc
  constructor
  · intro name' c hl
    rw [ClassTable.lookup, List.lookup_cons] at hl
    split at hl
    · cases hl
      rw [List.length_append]
      exact Nat.lt_add_one _
    · exact hlt (h.lookup name' c hl)
  · intro c s hsuper
    rw [get_added] at hsuper
    split at hsuper
    · rw [hparts.superClass, Option.map_map] at hsuper
      obtain ⟨s', hsome, rfl⟩ := Option.map_eq_some_iff.mp hsuper
      exact hlt (hs s' hsome)
    · exact hlt (h.superClass c s hsuper)
  · intro c
    rw [get_added]
    split
    · exact hnumbered
    · exact h.numbered c
  · intro c
    rw [get_added]
    split
    · exact fromUnresolved_linked hparts.pool
    · exact h.linked c
  · exact h.cells.added hnone hv
  · intro c idx e he
    rw [get_added] at he
    split at he
    · rename_i hc
      have hmem := List.mem_of_getElem? he
      have hunset := fromUnresolved_unset hparts.pool hmem
      cases e with
      | methodRef classIdx nameAndDesc resolved =>
        cases resolved with
        | none => trivial
        | some found => cases hunset
      | resolvedMethod id =>
        obtain ⟨constant, _, hr⟩ := pool_constant hparts.pool he
        obtain ⟨m, hm, rfl⟩ := resolveEntry_method hr
        constructor
        · rw [hc, List.length_append]
          exact Nat.lt_add_one _
        · rw [get_added, if_pos hc]
          exact hnumbered.found hm
      | _ => trivial
    · exact (h.methods c idx e he).mono fun _ hfound => hfound.added v _

theorem fromClassPath_sound : Sound .fromClassPath := by
  have hget (c : ClassRef) : ClassTable.fromClassPath.get c = .javaLangObject := by
    cases c <;> rfl
  constructor
  · intro name c hl
    rw [ClassTable.lookup, fromClassPath, List.lookup_cons] at hl
    split at hl
    · cases hl
      exact Nat.one_pos
    · cases hl
  · intro c s hs
    rw [hget] at hs
    cases hs
  · intro c
    rw [hget]
    exact VMClass.javaLangObject_numbered
  · intro c idx e he
    rw [hget] at he
    cases he
  · intro c idx e he
    rw [hget] at he
    cases he
  · intro c idx e he
    rw [hget] at he
    cases he

theorem Grown.sound (h : Grown p t) : t.Sound := by
  induction h with
  | refl => exact fromClassPath_sound
  | tail _ he ih =>
    cases he with
    | used hu => exact ih.uses hu
    | added hnone hs hv => exact ih.added hnone hs hv

end ClassTable

end Janadinite
