import Janadinite.Vm.Built
import Janadinite.Vm.Resolve

namespace Janadinite
open Hoare
set_option autoImplicit true

/-- The places of the instance fields in a field table, counted from `idx`. -/
def instancePositions : Nat → List JVMField → List Nat
  | _, [] => []
  | idx, f :: fields =>
    if f.isStatic then instancePositions (idx + 1) fields
    else idx :: instancePositions (idx + 1) fields

/-- The places of the instance fields in their own class files, root first. -/
def inheritedPositions : List Class → List Nat
  | [] => []
  | cls :: supers => inheritedPositions supers ++ instancePositions 0 cls.fields

def instanceIdx (fields : List VMField) : List Nat :=
  (fields.filter fun f => f.objOff.isSome).map fun f => f.idx.toNat

def storedIdx (fields : List VMField) : List Nat := fields.map fun f => f.idx.toNat

theorem instanceIdx_append (xs ys : List VMField) :
    instanceIdx (xs ++ ys) = instanceIdx xs ++ instanceIdx ys := by
  simp only [instanceIdx, List.filter_append, List.map_append]

theorem instanceIdx_congr {xs ys : List VMField}
    (h : xs.map VMField.layout = ys.map VMField.layout) : instanceIdx xs = instanceIdx ys := by
  have key (fields : List VMField) : instanceIdx fields =
      ((fields.map VMField.layout).filter fun l => l.2.1.isSome).map fun l => l.1.toNat := by
    rw [List.filter_map, List.map_map]
    rfl
  rw [key, key, h]

theorem storedIdx_congr {xs ys : List VMField}
    (h : xs.map VMField.layout = ys.map VMField.layout) : storedIdx xs = storedIdx ys := by
  have key (fields : List VMField) : storedIdx fields =
      (fields.map VMField.layout).map fun l => l.1.toNat := by
    rw [List.map_map]
    rfl
  rw [key, key, h]

theorem inheritFields_idx (h : VMClass.inheritFields p off supe = .ok (off', fields)) :
    storedIdx fields = instanceIdx supe ∧ instanceIdx fields = instanceIdx supe := by
  induction supe generalizing off off' fields with
  | nil =>
    cases h
    exact ⟨rfl, rfl⟩
  | cons f supe ih =>
    rw [VMClass.inheritFields] at h
    cases hd : f.data with
    | static slots =>
      rw [hd] at h
      have hn : instanceIdx (f :: supe) = instanceIdx supe := by
        rw [instanceIdx, List.filter_cons_of_neg]
        · rfl
        · simp only [VMField.objOff, hd, Option.isSome_none, Bool.false_eq_true, not_false_eq_true]
      rw [hn]
      exact ih h
    | normal o =>
      rw [hd] at h
      obtain ⟨currOff, _, h⟩ := exceptBind_ok h
      obtain ⟨⟨off'', rest⟩, hrest, h⟩ := exceptBind_ok h
      cases h
      obtain ⟨hs, hi⟩ := ih hrest
      have hn (xs : List VMField) :
          instanceIdx ({ f with data := .normal o } :: xs) = f.idx.toNat :: instanceIdx xs := by
        rw [instanceIdx, List.filter_cons_of_pos rfl]
        rfl
      have hf : f = { f with data := .normal o } := by
        rw [← hd]
      rw [hf, hn]
      exact ⟨by rw [← hs]; rfl, by rw [hn, hi]⟩

theorem ownFields_idx (h : VMClass.ownFields p idx off decls = .ok fields)
    (hlen : idx + decls.length ≤ 65536) :
    storedIdx fields = List.range' idx decls.length ∧
      instanceIdx fields = instancePositions idx decls := by
  induction decls generalizing idx off fields with
  | nil =>
    cases h
    exact ⟨rfl, rfl⟩
  | cons f decls ih =>
    rw [List.length_cons] at hlen
    have hidx : (UInt16.ofNat idx).toNat = idx := by
      have hlt : idx < 65536 := by omega
      exact UInt16.toNat_ofNat_of_lt' hlt
    rw [VMClass.ownFields] at h
    rw [instancePositions, List.length_cons, List.range'_succ]
    cases hst : f.isStatic with
    | true =>
      rw [if_pos hst] at h
      obtain ⟨rest, hrest, h⟩ := exceptBind_ok h
      cases h
      obtain ⟨hs, hi⟩ := ih hrest (by omega)
      constructor
      · rw [← hs, storedIdx, List.map_cons, hidx]
        rfl
      · rw [if_pos rfl, ← hi]
        rfl
    | false =>
      rw [hst, if_neg Bool.false_ne_true] at h
      obtain ⟨nextOff, _, h⟩ := exceptBind_ok h
      obtain ⟨rest, hrest, h⟩ := exceptBind_ok h
      cases h
      obtain ⟨hs, hi⟩ := ih hrest (by omega)
      constructor
      · rw [← hs, storedIdx, List.map_cons, hidx]
        rfl
      · rw [if_neg Bool.false_ne_true, ← hi, instanceIdx, List.filter_cons_of_pos rfl,
          List.map_cons, hidx]
        rfl

theorem create_idx (h : VMClass.create p cls superClass = .ok v)
    (hlen : cls.fields.length ≤ 65535) :
    storedIdx v.fields =
        instanceIdx (supeFields superClass) ++ List.range cls.fields.length ∧
      instanceIdx v.fields =
        instanceIdx (supeFields superClass) ++ instancePositions 0 cls.fields := by
  obtain ⟨currOff, inherited, own, hv⟩ := create_parts h
  obtain ⟨hsi, hii⟩ := inheritFields_idx hv.inherit
  obtain ⟨hso, hio⟩ := ownFields_idx hv.declare (by omega)
  rw [hv.fields, instanceIdx_append, hii, hio, List.range_eq_range', ← hso, ← hsi]
  exact ⟨List.map_append, rfl⟩

theorem Built.instanceIdx (h : Built p files v) (hlen : ∀ s ∈ files, s.fields.length ≤ 65535) :
    instanceIdx v.fields = inheritedPositions files := by
  induction h with
  | object => rfl
  | root h => exact (create_idx h (hlen _ List.mem_cons_self)).2
  | extend hs hl h ih =>
    have hi := ih fun s hs => hlen s (List.mem_cons_of_mem _ hs)
    rw [(create_idx h (hlen _ List.mem_cons_self)).2, inheritedPositions, ← hi]
    rw [← instanceIdx_congr hl.fields]
    rfl

theorem Built.storedIdx (h : Built p (cls :: supers) v)
    (hlen : ∀ s ∈ cls :: supers, s.fields.length ≤ 65535) :
    storedIdx v.fields = inheritedPositions supers ++ List.range cls.fields.length := by
  cases h with
  | root h => exact (create_idx h (hlen _ List.mem_cons_self)).1
  | extend hs hl h =>
    have hi := hs.instanceIdx fun s hs => hlen s (List.mem_cons_of_mem _ hs)
    rw [(create_idx h (hlen _ List.mem_cons_self)).1, ← hi, ← instanceIdx_congr hl.fields]
    rfl

/-- Listing the instance fields of the superclasses from the root down, each stands in its own
class's field table at the number of those listed before it, and the class does not both inherit
instance fields and declare fields. -/
def FieldsAligned (cls : Class) (supers : List Class) : Prop :=
  inheritedPositions supers = List.range (inheritedPositions supers).length ∧
    (cls.fields = [] ∨ inheritedPositions supers = [])

/-- Every field's index leads back to the field, and so does what resolution yields for it, also
after statics of the class have been written. -/
structure VMClass.FieldsDenote (v : VMClass) (cls : Class) : Prop where
  itself : ∀ (i : Nat) f, v.fields[i]? = some f → f.off.toNat = i ∧ v.fieldByIdx f.off = some f
  eager : ∀ (k : UInt16) classIdx nameAndDesc ref f,
    cls.constantPool[k.toNat]? = some (.fieldref classIdx nameAndDesc) →
    memberRef cls.constantPool classIdx nameAndDesc = .ok ref →
    eagerField v.name v.fields ref = some f →
    (∀ (t : ClassTable) this,
      (t.get this).constantPool.getEntry k = v.constantPool.getEntry k →
      getFieldOrResolve this k t = .ok (this, f.off) t) ∧
    v.fieldByIdx f.off = some f
  lazily : ∀ (t t' : ClassTable) this refIdx classIdx nameAndDesc r off,
    (t.get this).constantPool.getEntry refIdx = some (.filedRef classIdx nameAndDesc none) →
    getFieldOrResolve this refIdx t = .ok (r, off) t' →
    (t.get r).fields.map VMField.layout = v.fields.map VMField.layout →
    ∃ name descriptor f,
      (t.get this).constantPool.getNameAndType nameAndDesc t = .ok (some (name, descriptor)) t ∧
      (t.get r).fieldByName name = some f ∧ off = f.off ∧ (t.get r).fieldByIdx off = some f

theorem range_append_iff (xs : List Nat) (n : Nat) :
    xs ++ List.range n = List.range (xs.length + n) ↔
      xs = List.range xs.length ∧ (n = 0 ∨ xs = []) := by
  constructor
  · intro h
    rw [List.range_add] at h
    obtain ⟨hx, hn⟩ := List.append_inj h List.length_range.symm
    refine ⟨hx, ?_⟩
    cases n with
    | zero => exact .inl rfl
    | succ n =>
      rw [List.range_succ_eq_map, List.map_cons, List.cons.injEq] at hn
      exact .inr (List.length_eq_zero_iff.1 hn.1.symm)
  · rintro ⟨hx, rfl | rfl⟩
    · rw [List.range_zero, List.append_nil, Nat.add_zero]
      exact hx
    · rw [List.nil_append, List.length_nil, Nat.zero_add]

theorem storedIdx_eq_range_iff (fields : List VMField) :
    storedIdx fields = List.range fields.length ↔
      ∀ (i : Nat) f, fields[i]? = some f → f.off.toNat = i := by
  constructor
  · intro h i f hf
    have hi : (storedIdx fields)[i]? = some f.off.toNat := by
      rw [storedIdx, List.getElem?_map, hf]
      rfl
    rw [h] at hi
    obtain ⟨hlt, he⟩ := List.getElem?_eq_some_iff.1 hi
    rw [← he, List.getElem_range]
  · intro h
    apply List.ext_getElem?
    intro i
    rw [storedIdx, List.getElem?_map]
    cases hf : fields[i]? with
    | none =>
      rw [List.getElem?_eq_none]
      · rfl
      · rw [List.length_range]
        exact List.getElem?_eq_none_iff.1 hf
    | some f =>
      have hlt := (List.getElem?_eq_some_iff.1 hf).1
      rw [List.getElem?_range hlt]
      exact congrArg some (h i f hf)

theorem aligned_congr {xs ys : List VMField}
    (h : xs.map VMField.layout = ys.map VMField.layout)
    (hy : ∀ (i : Nat) f, ys[i]? = some f → f.off.toNat = i) :
    ∀ (i : Nat) f, xs[i]? = some f → f.off.toNat = i := by
  have hlen : xs.length = ys.length := by
    rw [← List.length_map VMField.layout, h, List.length_map]
  rw [← storedIdx_eq_range_iff] at hy ⊢
  rw [storedIdx_congr h, hy, hlen]

theorem Built.aligned_iff (h : Built p (cls :: supers) v)
    (hlen : ∀ s ∈ cls :: supers, s.fields.length ≤ 65535) :
    (∀ (i : Nat) f, v.fields[i]? = some f → f.off.toNat = i) ↔ FieldsAligned cls supers := by
  have hidx := h.storedIdx hlen
  have hl : v.fields.length = (inheritedPositions supers).length + cls.fields.length := by
    have hc := congrArg List.length hidx
    rwa [List.length_append, List.length_range, Janadinite.storedIdx, List.length_map] at hc
  rw [← storedIdx_eq_range_iff, hidx, hl, range_append_iff, FieldsAligned,
    List.length_eq_zero_iff]

theorem fieldByIdx_of_aligned {v : VMClass}
    (h : ∀ (i : Nat) f, v.fields[i]? = some f → f.off.toNat = i) (hf : f ∈ v.fields) :
    v.fieldByIdx f.off = some f := by
  obtain ⟨i, hi⟩ := List.getElem?_of_mem hf
  rw [VMClass.fieldByIdx, h i f hi, hi]

theorem resolveEntry_eagerField
    (hr : resolveEntry entries thisName methods fields (.fieldref classIdx nameAndDesc) = .ok e)
    (href : memberRef entries classIdx nameAndDesc = .ok ref)
    (hf : eagerField thisName fields ref = some f) : e = .resolvedField f.off := by
  obtain ⟨ref', href', h⟩ := exceptBind_ok hr
  rw [href] at href'
  cases href'
  rw [hf] at h
  cases h
  rfl

theorem getFieldOrResolve_resolved {t : ClassTable}
    (h : (t.get this).constantPool.getEntry refIdx = some (.resolvedField off)) :
    getFieldOrResolve this refIdx t = .ok (this, off) t := by
  change (okOr _ ((t.get this).constantPool.getEntry refIdx) >>= _) t = _
  rw [h]
  rfl

theorem getFieldOrResolve_filedRef {t t' : ClassTable}
    (he : (t.get this).constantPool.getEntry refIdx = some (.filedRef classIdx nameAndDesc none))
    (h : getFieldOrResolve this refIdx t = .ok (r, off) t') :
    ∃ name descriptor f t₁,
      (t.get this).constantPool.getNameAndType nameAndDesc t = .ok (some (name, descriptor)) t ∧
      (∀ c, (ClassTable.get t₁ c).fields = (t.get c).fields) ∧
      (t₁.get r).fieldByName name = some f ∧ off = f.off := by
  change t.entryAt ⟨this, refIdx⟩ = _ at he
  cases getFieldOrResolve_ok h with
  | cell he' => cases he.symm.trans he'
  | own he' => cases he.symm.trans he'
  | searched he' hn hc hf =>
    cases he.symm.trans he'
    exact ⟨_, _, _, _, hn, getClassOrLoadByRef_fields hc, ClassTable.findUp_pick hf, rfl⟩

/-- A field's index leads back to it exactly when the class and its superclasses are aligned. -/
theorem fieldsDenote_iff (h : Built p (cls :: supers) v)
    (hlen : ∀ s ∈ cls :: supers, s.fields.length ≤ 65535) :
    v.FieldsDenote cls ↔ FieldsAligned cls supers := by
  rw [← h.aligned_iff hlen]
  constructor
  · exact fun hd i f hf => (hd.itself i f hf).1
  · intro ha
    refine ⟨fun i f hf => ⟨ha i f hf, fieldByIdx_of_aligned ha (List.mem_of_getElem? hf)⟩, ?_, ?_⟩
    · intro k classIdx nameAndDesc ref f hk href hf
      have hmem : f ∈ v.fields := by
        rw [eagerField] at hf
        split at hf
        · exact List.mem_of_find?_eq_some hf
        · cases hf
      refine ⟨?_, fieldByIdx_of_aligned ha hmem⟩
      intro t this ht
      apply getFieldOrResolve_resolved
      obtain ⟨superClass, hc⟩ : ∃ superClass, VMClass.create p cls superClass = .ok v := by
        cases h with
        | root h => exact ⟨_, h⟩
        | extend _ _ h => exact ⟨_, h⟩
      obtain ⟨_, _, _, hv⟩ := create_parts hc
      obtain ⟨e, he, hpool⟩ := pool_entry hv.pool hk
      rw [ht, VMConstantPool.getEntry, hpool, resolveEntry_eagerField he href hf]
    · intro t t' this refIdx classIdx nameAndDesc r off he hr hv
      obtain ⟨name, descriptor, f, t₁, hn, hfields, hf, hoff⟩ := getFieldOrResolve_filedRef he hr
      rw [VMClass.fieldByName, hfields] at hf
      refine ⟨name, descriptor, f, hn, hf, hoff, ?_⟩
      rw [hoff]
      exact fieldByIdx_of_aligned (aligned_congr hv ha) (List.mem_of_find?_eq_some hf)

def intFields (thisName superName : String) (names : List String) : Class where
  thisName := thisName
  superName := superName
  minorVersion := 0
  majorVersion := 65
  accessFlags := .accPublic
  constantPool := [.unusable, .utf8 thisName, .class 1, .utf8 superName, .class 3, .utf8 "I"] ++
    names.map .utf8
  methods := []
  fields := names.map fun name =>
    { name, descriptor := "I", slotCount := 1, accessFlags := .accPublic, attributes := [] }
  attributes := []

def intClass (superClass : Option ClassRef) (thisName superName : String) (names : List String)
    (fields : List VMField) : VMClass where
  name := thisName
  superClass := superClass
  vtable := VMClass.javaLangObject.vtable
  staticVtable := []
  fields := fields
  constantPool := [.unusable, .utf8 thisName, .class 1 none, .utf8 superName, .class 3 none,
    .utf8 "I"] ++ names.map .utf8

def intField (idx : FieldOff) (off : UInt32) (name : String) : VMField :=
  ⟨idx, .normal off, ⟨name, "I", 1, .accPublic, []⟩⟩

theorem VMClass.SameLayout.refl (v : VMClass) : v.SameLayout v := ⟨rfl, rfl, rfl, rfl, rfl⟩

theorem built_point : Built ⟨true⟩ [intFields "Point" "java/lang/Object" ["x"]]
    (intClass (some 0) "Point" "java/lang/Object" ["x"] [intField 0 0 "x"]) :=
  .extend (r := 0) .object (.refl _) rfl

theorem built_marker : Built ⟨true⟩
    [intFields "Marker" "Point" [], intFields "Point" "java/lang/Object" ["x"]]
    (intClass (some 1) "Marker" "Point" [] [intField 0 0 "x"]) :=
  .extend (r := 1) built_point (.refl _) rfl

theorem marker_fields_denote :
    (intClass (some 1) "Marker" "Point" [] [intField 0 0 "x"]).FieldsDenote
      (intFields "Marker" "Point" []) :=
  (fieldsDenote_iff built_marker (by decide)).2 ⟨rfl, .inl rfl⟩

theorem built_point3 : Built ⟨true⟩
    [intFields "Point3" "Point" ["z"], intFields "Point" "java/lang/Object" ["x"]]
    (intClass (some 1) "Point3" "Point" ["z"] [intField 0 0 "x", intField 0 1 "z"]) :=
  .extend (r := 1) built_point (.refl _) rfl

theorem intField_ne : intField 0 0 "x" ≠ intField 0 1 "z" := fun h =>
  absurd (congrArg (fun f => f.field.name) h) (by decide)

/-- The own field `z` of a subclass has the index of the inherited field `x`. -/
theorem point3_field_denotes_other : ∃ v,
    Built ⟨true⟩ [intFields "Point3" "Point" ["z"], intFields "Point" "java/lang/Object" ["x"]] v ∧
    v.fields[1]? = some (intField 0 1 "z") ∧
    v.fieldByIdx (intField 0 1 "z").off = some (intField 0 0 "x") ∧
    ¬ v.FieldsDenote (intFields "Point3" "Point" ["z"]) := by
  refine ⟨_, built_point3, rfl, rfl, fun h => ?_⟩
  have hz := (h.itself 1 (intField 0 1 "z") rfl).2
  exact intField_ne (Option.some.inj hz)

end Janadinite
