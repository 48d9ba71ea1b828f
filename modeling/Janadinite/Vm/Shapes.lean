import Janadinite.Vm.FieldLayout
import Janadinite.Vm.Shaped
import Janadinite.Vm.TableRuns

namespace Janadinite
open Hoare Relation Runs ClassTable ThreadContext
set_option autoImplicit true

theorem VMField.setStatic_layout (f : VMField) (k : Nat) (slot : JVMSlot) :
    (f.setStatic k slot).layout = f.layout := by
  rw [setStatic]
  cases hd : f.data with
  | static slots => simp only [layout, objOff, hd]
  | normal off => rfl

namespace ClassTable

theorem Uses.fieldLayout {t t' : ClassTable} (h : t.Uses t') (c : ClassRef) :
    (t'.get c).fields.map VMField.layout = (t.get c).fields.map VMField.layout := by
  apply h.unchanged (g := fun v : VMClass => v.fields.map VMField.layout)
  · exact fun _ _ => rfl
  · intro x i k slot
    apply List.ext_getElem?
    intro n
    rw [List.getElem?_map, List.getElem?_map, List.getElem?_modify]
    cases x.fields[n]? with
    | none => rfl
    | some f =>
      simp only [Option.map_some]
      split
      · exact congrArg some (f.setStatic_layout k slot)
      · rfl

theorem Uses.instanceFields {t t' : ClassTable} (h : t.Uses t') (c : ClassRef) :
    (t'.get c).instanceFields = (t.get c).instanceFields :=
  instances_congr (h.fieldLayout c)

theorem Uses.fieldsSlots {t t' : ClassTable} (h : t.Uses t') (c : ClassRef) :
    (t'.get c).fieldsSlots = (t.get c).fieldsSlots := by
  have hsizes (v : VMClass) : v.fieldsSlots =
      ((v.fields.map VMField.layout).map fun l => l.2.2.slotCount).sum := by
    rw [List.map_map]
    rfl
  rw [hsizes, hsizes, h.fieldLayout]

/-- A class is the other one or inherits from it. -/
def Below (t : ClassTable) : ClassRef → ClassRef → Prop :=
  ReflTransGen fun d c => (t.get d).superClass = some c

/-- The instance fields of every class lie one after the other, those of the superclass first. -/
structure LaidOut (t : ClassTable) : Prop where
  placed : ∀ c, Placed 0 (t.get c).instanceFields
  inherited : ∀ d c, (t.get d).superClass = some c →
    (t.get c).instanceFields <+: (t.get d).instanceFields

theorem LaidOut.below {t : ClassTable} (h : t.LaidOut) (hb : t.Below d c) :
    (t.get c).instanceFields <+: (t.get d).instanceFields := by
  induction hb with
  | refl => exact List.prefix_refl _
  | tail _ hs ih => exact (h.inherited _ _ hs).trans ih

theorem LaidOut.uses {t t' : ClassTable} (h : t.LaidOut) (hu : t.Uses t') : t'.LaidOut where
  placed c := by
    rw [hu.instanceFields]
    exact h.placed c
  inherited d c hs := by
    rw [hu.instanceFields, hu.instanceFields]
    exact h.inherited d c (hu.superClass d ▸ hs)

theorem LaidOut.added {t : ClassTable} {superClass : Option ClassRef} (h : t.LaidOut)
    (hsound : t.Sound) (hs : ∀ s, superClass = some s → s < t.classes.length)
    (hv : VMClass.create p file (superClass.map fun c => (c, t.get c)) = .ok v)
    (loaded : List (String × ClassRef)) : LaidOut ⟨t.classes ++ [v], loaded⟩ := by
  have hv' : Placed 0 v.instanceFields ∧
      ∀ s, superClass = some s → (t.get s).instanceFields <+: v.instanceFields := by
    cases superClass with
    | none =>
      have hnil : Placed 0 (instances (supeFields none)) := placed_nil 0
      obtain ⟨hplaced, -⟩ := create_placed hnil hv
      refine ⟨hplaced, ?_⟩
      intro s hsome
      cases hsome
    | some s =>
      have hsuper : Placed 0 (instances (supeFields (some (s, t.get s)))) := h.placed s
      obtain ⟨hplaced, hfirst⟩ := create_placed hsuper hv
      refine ⟨hplaced, ?_⟩
      intro s' hsome
      cases hsome
      exact hfirst
  obtain ⟨hplaced, hfirst⟩ := hv'
  obtain ⟨_, _, _, hparts⟩ := create_parts hv
  have hold (s : ClassRef) (hlt : s < t.classes.length) :
      ClassTable.get ⟨t.classes ++ [v], loaded⟩ s = t.get s := by
    rw [get_added, if_neg (Nat.ne_of_lt hlt)]
  constructor
  · intro c
    rw [get_added]
    split
    · exact hplaced
    · exact h.placed c
  · intro d c hsuper
    rw [get_added] at hsuper
    rw [get_added t v loaded d]
    split
    · rename_i hd
      rw [if_pos hd, hparts.superClass, Option.map_map] at hsuper
      obtain ⟨s, hsome, rfl⟩ := Option.map_eq_some_iff.mp hsuper
      change (ClassTable.get _ s).instanceFields <+: _
      rw [hold s (hs s hsome)]
      exact hfirst s hsome
    · rename_i hd
      rw [if_neg hd] at hsuper
      rw [hold c (hsound.superClass d c hsuper)]
      exact h.inherited d c hsuper

theorem fromClassPath_laidOut : LaidOut .fromClassPath := by
  have hget (c : ClassRef) : ClassTable.fromClassPath.get c = .javaLangObject := by
    cases c <;> rfl
  constructor
  · intro c
    rw [hget]
    exact placed_nil 0
  · intro d c hs
    rw [hget] at hs
    cases hs

theorem Grown.laidOut (h : Grown p t) : t.LaidOut := by
  induction h with
  | refl => exact fromClassPath_laidOut
  | tail hgrown he ih =>
    cases he with
    | used hu => exact ih.uses hu
    | added hnone hs hv => exact ih.added (Grown.sound hgrown) hs hv _

/-- An object of this kind has so many slots: an instance has those of its class, and the elements
of an array have one or two. -/
def Shape (t : ClassTable) : ObjectKind → Nat → Prop
  | .instance c, n => c < t.classes.length ∧ n = (t.get c).fieldsSlots
  | .array size, n => (size = .one ∨ size = .two) ∧ size.val.toNat ∣ n

theorem Shape.uses {t t' : ClassTable} (h : t.Shape kind n) (hu : t.Uses t') :
    t'.Shape kind n := by
  cases kind with
  | «instance» c => exact ⟨hu.keeps.length ▸ h.1, h.2.trans (hu.fieldsSlots c).symm⟩
  | array size => exact h

theorem Shape.added {t : ClassTable} (h : t.Shape kind n) (v : VMClass)
    (loaded : List (String × ClassRef)) : Shape ⟨t.classes ++ [v], loaded⟩ kind n := by
  cases kind with
  | «instance» c =>
    obtain ⟨hlt, hn⟩ := h
    constructor
    · rw [List.length_append]
      exact Nat.lt_add_right 1 hlt
    · rw [get_added, if_neg (Nat.ne_of_lt hlt)]
      exact hn
  | array size => exact h

/-- Also a product that has wrapped around is a number of whole elements. -/
theorem array_shape {p : Profile} {slots : Nat} (t : ClassTable) (hsize : size = .one ∨ size = .two)
    (h : p.mul 64 count size.val.toNat = .ok slots) : t.Shape (.array size) slots := by
  refine ⟨hsize, ?_⟩
  have hdvd : size.val.toNat ∣ 2 ^ 64 := by
    rcases hsize with rfl | rfl <;> decide
  rw [Profile.mul] at h
  split at h
  · cases h
    exact Nat.dvd_mul_left _ _
  · split at h
    · cases h
    · cases h
      exact (Nat.dvd_mod_iff hdvd).mpr (Nat.dvd_mul_left _ _)

theorem slotCount_cases (ty : PrimitiveArrayType) : ty.slotCount = .one ∨ ty.slotCount = .two := by
  cases ty <;> first | exact .inl rfl | exact .inr rfl

end ClassTable

structure Runtime.Formed (r : Runtime) : Prop where
  sound : r.table.Sound
  shaped : r.store.Shaped r.table.Shape

/-- Where all objects have the slots of their kinds they have them when the computation returns. -/
abbrev Forming (m : VM Runtime α) : Prop :=
  Triple Runtime.Formed m (fun _ => Runtime.Formed) fun _ _ => True

theorem Runtime.Formed.uses {r : Runtime} {t : ClassTable} (h : r.Formed)
    (hu : r.table.Uses t) : Runtime.Formed { r with table := t } where
  sound := h.sound.uses hu
  shaped a o ho := (h.shaped a o ho).uses hu

theorem onTable_forming {m : VM ClassTable α} (h : ∀ t a t', m t = .ok a t' → t.Uses t') :
    Forming (onTable m) := by
  intro r hr
  cases hm : onTable m r with
  | error e r' => trivial
  | ok a r' =>
    obtain ⟨t, ht, rfl⟩ := onTable_ok hm
    exact hr.uses (h r.table a t ht)

theorem onStore_forming_to {m : VM Store α} {Q : α → Prop} {r : Runtime} (hr : r.Formed)
    (h : ShapingTo r.table.Shape Q m) :
    Ends (fun a r' => Q a ∧ r'.Formed) (fun _ _ => True) (onStore m r) := by
  have hm := h r.store hr.shaped
  cases hrun : onStore m r with
  | error e r' => trivial
  | ok a r' =>
    obtain ⟨s, hs, rfl⟩ := onStore_ok hrun
    rw [hs] at hm
    exact ⟨hm.1, hr.sound, hm.2⟩

theorem onStore_forming_at {m : VM Store α} {r : Runtime} (hr : r.Formed)
    (h : Shaping r.table.Shape m) :
    Ends (fun _ => Runtime.Formed) (fun _ _ => True) (onStore m r) := by
  have hm : ShapingTo r.table.Shape (fun _ => True) m := by
    apply h.mono
    · exact fun _ hs => hs
    · exact fun _ _ hs => ⟨trivial, hs⟩
    · exact fun _ _ _ => trivial
  exact (onStore_forming_to hr hm).mono (fun _ _ h => h.2) fun _ _ _ => trivial

theorem onStore_forming {m : VM Store α} (h : ∀ P, Shaping P m) : Forming (onStore m) :=
  fun _ hr => onStore_forming_at hr (h _)

theorem forming_composes :
    Composes (fun _ m => ∀ P, Shaping P m) (fun _ => Forming) where
  pure _ := Triple.pure fun _ h => h
  bind := Triple.bind
  reads hf _ := fun r => hf r r
  looks a _ hf _ := Triple.bind (onStore_forming fun _ => .deref a) hf
  context _ := fun _ h => ⟨h.sound, h.shaped⟩
  fail _ := Triple.throw fun _ _ => trivial
  panics _ _ := Triple.throw fun _ _ => trivial
  onStore := onStore_forming
  classRef _ _ := onTable_forming fun _ _ _ h => .class h
  arrayRef _ _ := onTable_forming fun _ _ _ h => .classOrArray h
  methodRef _ _ := onTable_forming fun _ _ _ h => .method h
  fieldRef _ _ := onTable_forming fun _ _ _ h => .field h
  setStatic cls off k slot := fun _ h => h.uses (.static cls off k slot)

section
variable (p : Profile)

theorem allocated_forming {m : VM Store Addr} {r : Runtime} (hr : r.Formed)
    (h : Shaping r.table.Shape m) :
    Ends (fun _ => Runtime.Formed) (fun _ _ => True)
      ((onStore m >>= fun a => pushThen (apush a)) r) := by
  apply (onStore_forming_at hr h).bind
  intro a r' _ hr'
  exact forming_composes.pushThen (forming_composes.pushSlot _) r' hr'

theorem newObject_forming (cls : ClassRef) (classRef : UInt16) :
    Forming (newObject p cls classRef) := by
  intro r hr
  cases hc : onTable (getClassOrLoadByRef cls classRef) r with
  | error e r' =>
    rw [newObject, bind_error _ hc]
    trivial
  | ok newClass r' =>
    rw [newObject, bind_eq _ hc]
    obtain ⟨t, ht, rfl⟩ := onTable_ok hc
    have hu : r.table.Uses t := .class ht
    have hlt : newClass < t.classes.length :=
      hu.keeps.length ▸ (getClassOrLoadByRef_ok ht).lt hr.sound
    exact allocated_forming (hr.uses hu) (Shaping.allocateInner p _ _ ⟨hlt, rfl⟩)

theorem newArray_forming (t : UInt8) : Forming (newArray p t) := by
  apply Triple.bind (forming_composes.expect (by decide) _)
  intro prim
  apply Triple.bind (forming_composes.ipop (Shaping.storeParts p))
  intro len r hr
  apply allocated_forming hr
  apply Shaping.allocateArray
  exact fun slots => array_shape r.table (slotCount_cases prim)

theorem aNewArray_forming (cls : ClassRef) (refIdx : UInt16) :
    Forming (aNewArray p cls refIdx) := by
  apply Triple.bind (forming_composes.arrayRef cls refIdx)
  intro _
  apply Triple.bind (forming_composes.ipop (Shaping.storeParts p))
  intro len r hr
  apply allocated_forming hr
  apply Shaping.allocateArray
  exact fun slots => array_shape r.table (.inl rfl)

theorem nextCount_forming (last : Option BareObject) : Forming (nextCount p last) := by
  apply Triple.bind forming_composes.popSlot
  intro slot
  cases slot with
  | some slot =>
    apply Triple.bind (onStore_forming fun _ => .dropSlot slot)
    exact fun _ => Triple.pure fun _ h => h
  | none =>
    apply Triple.bind (onStore_forming fun _ => .dropLast p last)
    intro _
    apply Triple.bind (onStore_forming fun _ => .unlockHeap)
    exact fun _ => Triple.throw fun _ _ => trivial

/-- The arrays of the loop over the dimensions have their slots whatever classes there are. -/
theorem addDimensions_forming (size : NonZeroU16) (hsize : size = .one ∨ size = .two) (n : Nat)
    (last : Option BareObject)
    (ho : ∀ obj, last = some obj → ∀ t : ClassTable, t.Shape obj.kind obj.data.length) :
    Triple Runtime.Formed (addDimensions p size n last)
      (fun last r => (∀ obj, last = some obj → ∀ t : ClassTable, t.Shape obj.kind obj.data.length) ∧
        r.Formed) fun _ _ => True := by
  induction n generalizing last with
  | zero => exact Triple.pure fun _ h => ⟨ho, h⟩
  | succ n ih =>
    apply Triple.bind (nextCount_forming p last)
    intro len r hr
    have hlast : (if last.isNone then size else .one) = .one ∨
        (if last.isNone then size else .one) = .two := by
      split
      · exact hsize
      · exact .inl rfl
    have hround := Shaping.addDimension (Q := fun kind n => ∀ t : ClassTable, t.Shape kind n) p
      _ (fun _ _ hslots t => array_shape t hlast hslots) last len fun obj h => ho obj h r.table
    apply (onStore_forming_to hr hround).bind
    intro obj r' _ ⟨hobj, hr'⟩
    apply ih (some obj) _ r' hr'
    intro obj' h
    cases h
    exact hobj

theorem allocateMultiarray_forming (dimensions : Nat) (size : NonZeroU16)
    (hsize : size = .one ∨ size = .two) : Forming (allocateMultiarray p dimensions size) := by
  apply Triple.bind (onStore_forming fun _ => .lockOrStop p)
  intro _
  have hnone : ∀ obj, (none : Option BareObject) = some obj →
      ∀ t : ClassTable, t.Shape obj.kind obj.data.length := by
    intro obj h
    cases h
  apply Triple.bind (addDimensions_forming p size hsize dimensions none hnone)
  rintro last r ⟨hlast, hr⟩
  cases last with
  | none =>
    apply Triple.bind (onStore_forming fun _ => .unlockHeap) _ r hr
    exact fun _ => Triple.throw fun _ _ => trivial
  | some obj =>
    have halloc := Shaping.allocateFromObject p obj.kind obj.data (hlast obj rfl r.table)
    apply (onStore_forming_at hr halloc).bind
    intro a r' _ hr'
    apply Triple.bind (onStore_forming fun _ => .unlockHeap) _ r' hr'
    exact fun _ => Triple.pure fun _ h => h

theorem multiANewArray_forming (cls : ClassRef) (refIdx : UInt16) (dim : UInt8) :
    Forming (multiANewArray p cls refIdx dim) := by
  rw [multiANewArray]
  split
  · exact Triple.throw fun _ _ => trivial
  · apply Triple.bind (forming_composes.arrayRef cls refIdx)
    intro found
    have hend (size : NonZeroU16) (hsize : size = .one ∨ size = .two) : Forming (do
        let instance_ ← allocateMultiarray p dim.toNat size
        apush instance_
        pure Outcome.next) :=
      Triple.bind (allocateMultiarray_forming p dim.toNat size hsize) fun a =>
        forming_composes.pushThen (forming_composes.pushSlot _)
    cases found with
    | «class» cls => exact hend .one (.inl rfl)
    | primitiveArray dimensions ty => exact hend ty.slotCount (slotCount_cases ty)
    | classArray dimensions cls => exact hend .one (.inl rfl)

/-- Every instruction leaves objects with the slots of their kinds. -/
theorem execute_forming [FloatArith] (cls : ClassRef) (lastPc : UInt16) (op : OpCode) :
    Forming (execute p cls lastPc op) := by
  by_cases hop : op.allocates = true
  · cases op with
    | new classRef => exact newObject_forming p cls classRef
    | newArray t => exact newArray_forming p t
    | aNewArray refIdx => exact aNewArray_forming p cls refIdx
    | multiANewArray refIdx dim => exact multiANewArray_forming p cls refIdx dim
    | _ => cases hop
  · exact forming_composes.execute (Shaping.storeParts p) (fun h => absurd h hop) cls lastPc

theorem leaveFrame_forming (result : Option JVMValue) : Forming (leaveFrame p result) := by
  have hdrop (slots : List JVMSlot) : Forming (onStore (dropSlots p slots)) :=
    onStore_forming fun _ => .dropSlots slots
  have hpop : Forming (popFrame p) := by
    apply forming_composes.bind forming_composes.readContext
    intro c
    apply forming_composes.bind (forming_composes.context _)
    intro _
    apply forming_composes.bind (forming_composes.context _)
    intro _
    apply forming_composes.bind (hdrop _)
    intro _
    exact forming_composes.bind (forming_composes.context _) fun _ => hdrop _
  exact forming_composes.bind hpop fun _ => forming_composes.pushSlots _

theorem dropContext_shaping {P : ObjectKind → Nat → Prop} (c : ThreadContext) :
    Shaping P (dropContext p c) :=
  (Shaping.dropSlots c.stack).bind fun _ => Shaping.dropSlots c.locals

end

namespace Machine

def Formed (m : Machine) : Prop := m.store.Shaped m.table.Shape

section
variable [FloatArith] {p : Profile} {path : ClassPath} {m m' : Machine}

theorem Formed.execute {r : Runtime} (h : m.Formed) (hg : m.Grows p)
    (hx : execute p cls lastPc op ⟨m.table, m.store, context⟩ = .ok o r) : r.Formed := by
  have hr : Runtime.Formed ⟨m.table, m.store, context⟩ := ⟨hg.grown.sound, h⟩
  exact Triple.ok (execute_forming p cls lastPc op) hr hx

theorem Formed.returning {r : Runtime} (h : m.Formed) (hg : m.Grows p)
    (hr : Returning p m result r caller) : r.Formed := by
  cases hr with
  | codeEnds _ _ ht hs =>
    constructor
    · rw [ht]
      exact hg.grown.sound
    · rw [ht, hs]
      exact h
  | instruction _ hx => exact h.execute hg hx

omit [FloatArith] in
theorem Formed.withClass (h : m.Formed) (name : String) (cls : Class) (v : VMClass)
    (next : Control) : (m.withClass name cls v next).Formed :=
  fun a o ho => (h a o ho).added v _

theorem advances_formed (hg : m.Grows p) (h : m.Formed) (ha : Advances p path m m') :
    m'.Formed := by
  cases ha with
  | @fetch _ _ _ op _ _ hm hop hs =>
    have hsafe : Shaping m.table.Shape (if op.isInvoke then safepoint p else pure ⟨⟩) := by
      split
      · exact .safepoint p
      · exact .pure _
    exact hsafe.ok h hs
  | next hm hx | jump hm hx | call hm hx => exact (h.execute hg hx).shaped
  | needs | found | superclass | startMain | resume | superFound | idle => exact h
  | finish hret hd => exact (dropContext_shaping p _).ok (h.returning hg hret).shaped hd
  | leave hret hl =>
    have hleft := Triple.ok (leaveFrame_forming p _) (h.returning hg hret) hl
    exact hleft.shaped
  | endClinit hret hd =>
    obtain ⟨_, s, hslots, hcontext⟩ := bind_ok hd
    have hs := (Shaping.dropSlots _).ok (h.returning hg hret).shaped hslots
    exact (dropContext_shaping p _).ok hs hcontext
  | create | startClinit => exact h.withClass _ _ _ _

omit [FloatArith] in
/-- The GC thread panics, if it does, before it looks at any object. -/
theorem wakeGc_formed (ho : m.Owned) (h : m.Formed) (hw : m.wakeGc p = some m') : m'.Formed := by
  unfold wakeGc at hw
  split at hw
  · cases hgc : Heap.tryGc p m.store with
    | ok _ store =>
      rw [hgc] at hw
      cases hw
      have hs : store.Shaped m.table.Shape := (Shaping.tryGc p).ok h hgc
      exact hs.of_memory rfl
    | error e store =>
      rw [hgc] at hw
      cases hw
      by_cases hthreads : m.store.heap.heapThreads = m.store.heap.parkedThreads
      · obtain ⟨s', hs', -⟩ := Heap.tryGc_succeeds p ho hthreads
        cases hgc.symm.trans hs'
      · cases hgc.symm.trans (Heap.tryGc_panics p hthreads)
        exact h
  · cases hw

/-- The objects of a virtual machine have the slots of their kinds at any time. -/
theorem reaches_formed (h : Reaches (Step p path) Ok Opened m) : m.Formed := by
  have hall : m.Owned ∧ m.Grows p ∧ m.Formed := by
    apply h.invariant
    · intro m hm
      refine ⟨opened_owned hm, opened_grows hm, ?_⟩
      cases hm
      intro a o ho
      cases ho
    · rintro m e m' ⟨ho, hg, hf⟩ _ hs
      refine ⟨step_owned ho hs, step_grows hg hs, ?_⟩
      cases e with
      | main => exact advances_formed hg hf (next_advances hs)
      | gcThread => exact wakeGc_formed ho hf hs
  exact hall.2.2

/-- Whatever has been run, every object has the slots of its class or is an array of whole elements,
and the fields that it has through a class above its own are within its slots, where that class
reads and writes them. -/
theorem objects_shaped (h : Reaches (Step p path) Ok Opened m) (ho : m.store.memory a = some o) :
    m.table.Shape o.kind o.data.length ∧
    ∀ d c, o.kind = .instance d → m.table.Below d c →
      (m.table.get c).instanceFields <+: (m.table.get d).instanceFields ∧
      ∀ f ∈ (m.table.get c).instanceFields, sliceData a f.start f.size m.store =
        .ok ((o.data.drop f.start).take f.size) m.store := by
  have hshape := reaches_formed h a o ho
  have hlaid := (reaches_grows h).grown.laidOut
  refine ⟨hshape, ?_⟩
  intro d c hkind hbelow
  have hfirst := hlaid.below hbelow
  refine ⟨hfirst, ?_⟩
  intro f hf
  rw [hkind] at hshape
  apply sliceData_eq ho
  rw [hshape.2]
  exact instanceFields_inside (hlaid.placed d) (hfirst.subset hf)

end

end Machine

/-- `main` makes an object of the class `Point3`, which is below `Point`. -/
def newPoint3 : List Class := [
  staticMethods "Main" [.unusable, .utf8 "Main", .class 1, .utf8 "Point3", .class 3]
    [("main", "()V", ⟨0, 1, [0xbb, 0, 4, 0xb1], [], []⟩)],
  publicFields "Point" "java/lang/Object" [("x", "I"), ("t", "J")],
  publicFields "Point3" "Point" [("d", "D"), ("z", "I")]]

/-- The fields of `Point`, in an object of `Point3`. -/
theorem newPoint3_shaped : ∃ m o, mainRun newPoint3 13 = .ok m ∧ m.store.memory 8 = some o ∧
    o.kind = .instance 3 ∧ m.table.Shape o.kind o.data.length ∧
    (m.table.get 2).instanceFields <+: (m.table.get 3).instanceFields ∧
    ∀ f ∈ (m.table.get 2).instanceFields, sliceData 8 f.start f.size m.store =
      .ok ((o.data.drop f.start).take f.size) m.store := by
  refine ⟨_, _, rfl, rfl, rfl, ?_⟩
  have hreach : Reaches (MainStep newPoint3) (fun _ _ => True) Machine.Opened _ :=
    mainRun_reaches (rfl : mainRun newPoint3 13 = _) fun _ _ _ _ => trivial
  have hshaped := @Machine.objects_shaped noFloats _ _ _ _ 8 _ hreach rfl
  exact ⟨hshaped.1, hshaped.2 3 2 rfl (.single rfl)⟩

end Janadinite
