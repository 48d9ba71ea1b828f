import Janadinite.Lib.Layout
import Janadinite.Vm.HeapOps
import Janadinite.Vm.Machine
import Janadinite.Vm.Vtable

namespace Janadinite
open Hoare Layout
set_option autoImplicit true

def JVMField.Parsed (f : JVMField) : Prop := ∃ info pool, JVMField.parse info pool = .ok f

def instances (fields : List VMField) : List VMField :=
  fields.filter fun f => f.objOff.isSome

def VMClass.instanceFields (v : VMClass) : List VMField := instances v.fields

def VMField.size (f : VMField) : Nat := f.field.slotCount

def VMField.start (f : VMField) : Nat := (f.objOff.map UInt32.toNat).getD 0

def sizes (fields : List VMField) : List Nat := fields.map VMField.size

/-- Each field begins where the ones before it end, of which 32 bits are kept. -/
def Placed (base : Nat) (fields : List VMField) : Prop :=
  ∀ i f, fields[i]? = some f →
    f.objOff.isSome = true ∧ f.start = (base + Layout.start (sizes fields) i) % 2 ^ 32

theorem placed_nil (base : Nat) : Placed base [] := fun _ _ h => nomatch h

theorem placed_cons (hoff : f.objOff.isSome = true) (hstart : f.start = base % 2 ^ 32) :
    Placed base (f :: fields) ↔ Placed (base + f.size) fields := by
  constructor
  · intro h i g hg
    have hi := h (i + 1) g hg
    rwa [sizes, List.map_cons, start_cons, ← Nat.add_assoc] at hi
  · intro h i g hg
    cases i with
    | zero =>
      cases hg
      exact ⟨hoff, hstart⟩
    | succ i =>
      rw [sizes, List.map_cons, start_cons, ← Nat.add_assoc]
      exact h i g hg

theorem placed_append (h : Placed base fields)
    (h' : Placed (base + (sizes fields).sum) fields') : Placed base (fields ++ fields') := by
  intro i f hi
  have hsizes : sizes (fields ++ fields') = sizes fields ++ sizes fields' := List.map_append
  have hlen : (sizes fields).length = fields.length := List.length_map _
  rw [hsizes]
  rcases Nat.lt_or_ge i fields.length with hlt | hge
  · rw [List.getElem?_append_left hlt] at hi
    rw [start_append (hlen ▸ Nat.le_of_lt hlt)]
    exact h i f hi
  · rw [List.getElem?_append_right hge] at hi
    rw [start_append_right (hlen ▸ hge), hlen, ← Nat.add_assoc]
    exact h' _ f hi

theorem addU32_ok (h : VMClass.addU32 p a b = .ok n) :
    n.toNat = (a.toNat + b) % 2 ^ 32 ∧ (p.overflowChecks = true → b < 2 ^ 32 →
      a.toNat + b < 2 ^ 32) := by
  have hofNat : (UInt32.ofNat b).toNat = b % 2 ^ 32 := UInt32.toNat_ofNat'
  rw [VMClass.addU32, hofNat, Profile.add] at h
  split at h
  · rename_i m hm
    cases h
    rw [UInt32.toNat_ofNat']
    split at hm
    · rename_i hlt
      cases hm
      refine ⟨by omega, fun _ hb => ?_⟩
      rwa [Nat.mod_eq_of_lt hb] at hlt
    · split at hm
      · cases hm
      · rename_i hp
        cases hm
        exact ⟨by omega, fun h => absurd h hp⟩
  · cases h

theorem VMField.start_normal {f : VMField} {o : UInt32} (h : f.data = .normal o) :
    f.objOff.isSome = true ∧ f.start = o.toNat := by
  rw [VMField.start, VMField.objOff, h]
  exact ⟨rfl, rfl⟩

theorem instances_normal {f : VMField} (h : f.data = .normal o) (fields : List VMField) :
    instances (f :: fields) = f :: instances fields := by
  apply List.filter_cons_of_pos
  exact (VMField.start_normal h).1

theorem instances_static {f : VMField} (h : f.data = .static slots) (fields : List VMField) :
    instances (f :: fields) = instances fields := by
  apply List.filter_cons_of_neg
  rw [VMField.objOff, h]
  exact Bool.false_ne_true

theorem instances_append (fields fields' : List VMField) :
    instances (fields ++ fields') = instances fields ++ instances fields' :=
  List.filter_append ..

@[simp] theorem instances_instances (fields : List VMField) :
    instances (instances fields) = instances fields := by
  simp only [instances, List.filter_filter, Bool.and_self]

theorem inheritFields_placed (h : VMClass.inheritFields p off supe = .ok (off', fields))
    (hp : Placed base (instances supe)) (hoff : off.toNat = base % 2 ^ 32) :
    fields = instances supe ∧ off'.toNat = (base + (sizes fields).sum) % 2 ^ 32 := by
  induction supe generalizing base off off' fields with
  | nil =>
    cases h
    exact ⟨rfl, hoff⟩
  | cons f supe ih =>
    rw [VMClass.inheritFields] at h
    cases hd : f.data with
    | static slots =>
      rw [hd] at h
      rw [instances_static hd] at hp ⊢
      exact ih h hp hoff
    | normal o =>
      rw [hd] at h
      obtain ⟨currOff, hadd, h⟩ := exceptBind_ok h
      obtain ⟨⟨off'', rest⟩, hrest, h⟩ := exceptBind_ok h
      cases h
      obtain ⟨hsome, hstart⟩ := VMField.start_normal hd
      rw [instances_normal hd] at hp ⊢
      have hbase : f.start = base % 2 ^ 32 := (hp 0 f rfl).2
      have hcurr : currOff.toNat = (base + f.size) % 2 ^ 32 := by
        rw [(addU32_ok hadd).1, ← hstart, hbase, Nat.mod_add_mod]
        rfl
      obtain ⟨hfields, hoff'⟩ := ih hrest ((placed_cons hsome hbase).mp hp) hcurr
      have hf : f = { f with data := .normal o } := by
        rw [← hd]
      refine ⟨by rw [← hf, hfields], ?_⟩
      rw [hoff', ← hf, sizes, sizes, List.map_cons, List.sum_cons, Nat.add_assoc]

theorem ownFields_placed (h : VMClass.ownFields p idx off decls = .ok fields)
    (hoff : off.toNat = base % 2 ^ 32) : Placed base (instances fields) := by
  induction decls generalizing base idx off fields with
  | nil =>
    cases h
    exact placed_nil base
  | cons f decls ih =>
    rw [VMClass.ownFields] at h
    split at h
    · obtain ⟨rest, hrest, h⟩ := exceptBind_ok h
      cases h
      rw [instances_static rfl]
      exact ih hrest hoff
    · obtain ⟨nextOff, hadd, h⟩ := exceptBind_ok h
      obtain ⟨rest, hrest, h⟩ := exceptBind_ok h
      cases h
      have hnext : nextOff.toNat = (base + f.slotCount) % 2 ^ 32 := by
        rw [(addU32_ok hadd).1, hoff, Nat.mod_add_mod]
      rw [instances_normal rfl]
      apply (placed_cons rfl _).mpr (ih hrest hnext)
      exact hoff

theorem inheritFields_mem (h : VMClass.inheritFields p off supe = .ok (off', fields))
    (hf : f ∈ fields) : ∃ g ∈ supe, f.field = g.field := by
  induction supe generalizing off off' fields with
  | nil =>
    cases h
    exact absurd hf List.not_mem_nil
  | cons g supe ih =>
    rw [VMClass.inheritFields] at h
    cases hd : g.data with
    | static slots =>
      rw [hd] at h
      obtain ⟨g', hg', heq⟩ := ih h hf
      exact ⟨g', List.mem_cons_of_mem _ hg', heq⟩
    | normal o =>
      rw [hd] at h
      obtain ⟨currOff, _, h⟩ := exceptBind_ok h
      obtain ⟨⟨off'', rest⟩, hrest, h⟩ := exceptBind_ok h
      cases h
      rcases List.mem_cons.mp hf with rfl | hf
      · exact ⟨g, List.mem_cons_self, rfl⟩
      · obtain ⟨g', hg', heq⟩ := ih hrest hf
        exact ⟨g', List.mem_cons_of_mem _ hg', heq⟩

theorem ownFields_map (h : VMClass.ownFields p idx off decls = .ok fields) :
    fields.map VMField.field = decls := by
  induction decls generalizing idx off fields with
  | nil =>
    cases h
    rfl
  | cons f decls ih =>
    rw [VMClass.ownFields] at h
    split at h
    · obtain ⟨rest, hrest, h⟩ := exceptBind_ok h
      cases h
      rw [List.map_cons, ih hrest]
    · obtain ⟨nextOff, _, h⟩ := exceptBind_ok h
      obtain ⟨rest, hrest, h⟩ := exceptBind_ok h
      cases h
      rw [List.map_cons, ih hrest]

theorem create_placed (hs : Placed 0 (instances (supeFields superClass)))
    (h : VMClass.create p cls superClass = .ok v) :
    Placed 0 v.instanceFields ∧ instances (supeFields superClass) <+: v.instanceFields := by
  obtain ⟨currOff, inherited, own, hv⟩ := create_parts h
  obtain ⟨hinh, hoff⟩ := inheritFields_placed hv.inherit hs rfl
  rw [VMClass.instanceFields, hv.fields, instances_append, hinh, instances_instances]
  rw [hinh] at hoff
  exact ⟨placed_append hs (ownFields_placed hv.declare hoff), List.prefix_append _ _⟩

theorem instances_congr {fields fields' : List VMField}
    (h : fields'.map VMField.layout = fields.map VMField.layout) :
    instances fields' = instances fields := by
  induction fields generalizing fields' with
  | nil =>
    cases fields' with
    | nil => rfl
    | cons f' fields' => cases h
  | cons f fields ih =>
    cases fields' with
    | nil => cases h
    | cons f' fields' =>
      rw [List.map_cons, List.map_cons, List.cons.injEq] at h
      obtain ⟨hf, h⟩ := h
      obtain ⟨hidx, hoff, hfield⟩ : f'.idx = f.idx ∧ f'.objOff = f.objOff ∧ f'.field = f.field :=
        ⟨congrArg Prod.fst hf, congrArg (fun l => l.2.1) hf, congrArg (fun l => l.2.2) hf⟩
      cases hd : f.data with
      | static slots =>
        cases hd' : f'.data with
        | static slots' =>
          rw [instances_static hd, instances_static hd']
          exact ih h
        | normal o' =>
          rw [VMField.objOff, VMField.objOff, hd, hd'] at hoff
          cases hoff
      | normal o =>
        cases hd' : f'.data with
        | static slots' =>
          rw [VMField.objOff, VMField.objOff, hd, hd'] at hoff
          cases hoff
        | normal o' =>
          rw [VMField.objOff, VMField.objOff, hd, hd'] at hoff
          cases hoff
          have heq : f' = f := by
            cases f
            cases f'
            simp_all only
          rw [instances_normal hd, instances_normal hd', ih h, heq]

theorem Descends.built (hd : Descends p c files' d) (hc : Built p files c) :
    Built p (files' ++ files) d := by
  induction hd with
  | refl => exact hc
  | extend _ hl h ih => exact .extend ih hl h

/-- A class made from another, as it was when that class was made or later. -/
theorem extend_placed (hs : Placed 0 s.instanceFields) (hl : s'.SameLayout s)
    (h : VMClass.create p cls (some (r, s')) = .ok v) :
    Placed 0 v.instanceFields ∧ s.instanceFields <+: v.instanceFields := by
  have heq : instances (supeFields (some (r, s'))) = s.instanceFields := instances_congr hl.fields
  rw [← heq] at hs ⊢
  exact create_placed hs h

theorem placed_none : Placed 0 (instances (supeFields none)) := placed_nil 0

theorem Built.placed (h : Built p files v) : Placed 0 v.instanceFields := by
  induction h with
  | object => exact placed_nil 0
  | root h => exact (create_placed placed_none h).1
  | extend _ hl h ih => exact (extend_placed ih hl h).1

theorem Descends.inherits (h : Descends p c files' d) (hc : Built p files c) :
    c.instanceFields <+: d.instanceFields := by
  induction h with
  | refl => exact List.prefix_refl _
  | extend hs hl h ih => exact ih.trans (extend_placed (hs.built hc).placed hl h).2

/-- No instance field with slots comes after so many slots that its offset has wrapped around. -/
def VMClass.Unwrapped (v : VMClass) : Prop :=
  ∀ (i : Nat) (f : VMField), v.instanceFields[i]? = some f → f.size ≠ 0 →
    Layout.start (sizes v.instanceFields) i < 2 ^ 32

/-- What code relies on that reads and writes the fields of a class `c` in instances of a class `d`
below it, which have `fieldsSlots` slots. -/
structure LayoutSound (c d : VMClass) : Prop where
  disjoint : ∀ (i j : Nat) (f g : VMField) (k : Nat), d.instanceFields[i]? = some f →
    d.instanceFields[j]? = some g → Within f.start f.size k → Within g.start g.size k → i = j
  inside : ∀ f ∈ d.instanceFields, f.start + f.size ≤ d.fieldsSlots
  inherited : c.instanceFields <+: d.instanceFields
  get : ∀ f ∈ c.instanceFields, ∀ (s : Store) (a : Addr) (o : Object), s.memory a = some o →
    o.data.length = d.fieldsSlots →
    sliceData a f.start f.size s = .ok ((o.data.drop f.start).take f.size) s
  put : ∀ f ∈ c.instanceFields, ∀ data : List JVMSlot, data.length = d.fieldsSlots →
    (data.drop f.start).take f.size ≠ []
  others : ∀ (i j : Nat) (f g : VMField), c.instanceFields[i]? = some f →
    d.instanceFields[j]? = some g → i ≠ j → ∀ (data : List JVMSlot) (slot : JVMSlot),
    ((data.set f.start slot).drop g.start).take g.size = (data.drop g.start).take g.size

theorem sum_sizes_le (fields : List VMField) :
    (sizes (instances fields)).sum ≤ (fields.map fun f => f.field.slotCount).sum := by
  induction fields with
  | nil => exact Nat.le_refl 0
  | cons f fields ih =>
    rw [List.map_cons, List.sum_cons]
    cases hd : f.data with
    | static slots =>
      rw [instances_static hd]
      exact Nat.le_add_left_of_le ih
    | normal o =>
      rw [instances_normal hd, sizes, List.map_cons, List.sum_cons]
      exact Nat.add_le_add_left ih _

section
variable {v : VMClass} {f g : VMField} {i j : Nat}

theorem sizes_get {fields : List VMField} (h : fields[i]? = some f) :
    (sizes fields)[i]? = some f.size := by
  rw [sizes, List.getElem?_map, h]
  rfl

/-- Without wraparound the offset of a field is the number of slots before it. -/
theorem Placed.start_eq (h : Placed 0 v.instanceFields) (hu : v.Unwrapped)
    (hi : v.instanceFields[i]? = some f) (hsize : f.size ≠ 0) :
    f.start = Layout.start (sizes v.instanceFields) i := by
  rw [(h i f hi).2, Nat.zero_add]
  exact Nat.mod_eq_of_lt (hu i f hi hsize)

theorem placed_disjoint (h : Placed 0 v.instanceFields) (hu : v.Unwrapped)
    (hi : v.instanceFields[i]? = some f) (hj : v.instanceFields[j]? = some g)
    (hf : Within f.start f.size k) (hg : Within g.start g.size k) : i = j := by
  have hfs : f.size ≠ 0 := by
    obtain ⟨h₁, h₂⟩ := hf
    omega
  have hgs : g.size ≠ 0 := by
    obtain ⟨h₁, h₂⟩ := hg
    omega
  rw [h.start_eq hu hi hfs] at hf
  rw [h.start_eq hu hj hgs] at hg
  exact within_inj (sizes_get hi) (sizes_get hj) hf hg

/-- A field that comes after more slots than an offset can count lies over an earlier one. -/
theorem disjoint_unwrapped (h : Placed 0 v.instanceFields)
    (hsizes : ∀ f ∈ v.instanceFields, f.size ≤ 2)
    (hdisjoint : ∀ (i j : Nat) (f g : VMField) (k : Nat), v.instanceFields[i]? = some f →
      v.instanceFields[j]? = some g → Within f.start f.size k → Within g.start g.size k → i = j) :
    v.Unwrapped := by
  intro i
  induction i using Nat.strongRecOn with
  | ind i ih =>
    intro f hi hsize
    apply Nat.lt_of_not_le
    intro hge
    -- the block before place `k` begins where its field does
    have hblock : ∀ k < Layout.start (sizes v.instanceFields) i, ∃ j g, j < i ∧
        v.instanceFields[j]? = some g ∧ Within g.start g.size k ∧
        g.start = Layout.start (sizes v.instanceFields) j ∧ g.start < 2 ^ 32 := by
      intro k hk
      obtain ⟨j, n, hji, hj, hw⟩ := exists_within hk
      rw [sizes, List.getElem?_map, Option.map_eq_some_iff] at hj
      obtain ⟨g, hg, rfl⟩ := hj
      have hgs : g.size ≠ 0 := by
        obtain ⟨h₁, h₂⟩ := hw
        omega
      have hlt := ih j hji g hg hgs
      have hstart : g.start = Layout.start (sizes v.instanceFields) j := by
        rw [(h j g hg).2, Nat.zero_add, Nat.mod_eq_of_lt hlt]
      rw [← hstart] at hw hlt
      exact ⟨j, g, hji, hg, hw, hstart, hlt⟩
    have hstart : f.start = Layout.start (sizes v.instanceFields) i % 2 ^ 32 := by
      rw [(h i f hi).2, Nat.zero_add]
    have hover : Layout.start (sizes v.instanceFields) i < 2 ^ 32 + 2 := by
      obtain ⟨j, g, _, hg, hw, _, hlt⟩ :=
        hblock (Layout.start (sizes v.instanceFields) i - 1) (by omega)
      have hle := hsizes g (List.mem_of_getElem? hg)
      obtain ⟨h₁, h₂⟩ := hw
      omega
    obtain ⟨j, g, hji, hg, hw, _⟩ := hblock f.start (by omega)
    have hself : Within f.start f.size f.start := ⟨Nat.le_refl _, by omega⟩
    exact absurd (hdisjoint j i g f f.start hg hi hw hself) (Nat.ne_of_lt hji)

end

theorem create_fields {P : JVMField → Prop} (hs : ∀ f ∈ supeFields superClass, P f.field)
    (hcls : ∀ f ∈ cls.fields, P f) (h : VMClass.create p cls superClass = .ok v) :
    ∀ f ∈ v.fields, P f.field := by
  obtain ⟨currOff, inherited, own, hv⟩ := create_parts h
  intro f hf
  rw [hv.fields] at hf
  rcases List.mem_append.mp hf with hf | hf
  · obtain ⟨g, hg, heq⟩ := inheritFields_mem hv.inherit hf
    rw [heq]
    exact hs g hg
  · apply hcls
    rw [← ownFields_map hv.declare]
    exact List.mem_map_of_mem hf

theorem Built.fields {P : JVMField → Prop} (h : Built p files v)
    (hfiles : ∀ cls ∈ files, ∀ f ∈ cls.fields, P f) : ∀ f ∈ v.fields, P f.field := by
  induction h with
  | object => exact fun _ hf => absurd hf List.not_mem_nil
  | root h =>
    apply create_fields _ (hfiles _ List.mem_cons_self) h
    exact fun _ hf => absurd hf List.not_mem_nil
  | extend _ hl h ih =>
    have ih := ih fun cls hcls => hfiles cls (List.mem_cons_of_mem _ hcls)
    apply create_fields _ (hfiles _ List.mem_cons_self) h
    intro f hf
    have hlay : f.layout ∈ (VMClass.fields _).map VMField.layout := List.mem_map_of_mem hf
    rw [hl.fields] at hlay
    obtain ⟨g, hg, heq⟩ := List.mem_map.mp hlay
    have hfield : g.field = f.field := congrArg (fun l => l.2.2) heq
    rw [← hfield]
    exact ih g hg

theorem JVMField.Parsed.slotCount_le {f : JVMField} (h : f.Parsed) : f.slotCount ≤ 2 := by
  obtain ⟨info, pool, h⟩ := h
  obtain ⟨name, _, h⟩ := exceptBind_ok h
  obtain ⟨descriptor, _, h⟩ := exceptBind_ok h
  obtain ⟨attributes, _, h⟩ := exceptBind_ok h
  cases h
  change firstSlotCount _ ≤ 2
  rw [firstSlotCount]
  cases (FieldDescriptor.fromStr descriptor).head? with
  | none => exact Nat.zero_le 2
  | some desc =>
    change desc.slotCount ≤ 2
    cases desc <;> first | exact Nat.le_refl 2 | exact Nat.le_succ 1

theorem slice_set {data : List JVMSlot} (h : ¬ Within off n k) (slot : JVMSlot) :
    ((data.set k slot).drop off).take n = (data.drop off).take n := by
  apply List.ext_getElem?
  intro m
  rw [List.getElem?_take, List.getElem?_take]
  split
  · rename_i hm
    rw [List.getElem?_drop, List.getElem?_drop, List.getElem?_set_ne]
    rintro rfl
    exact h ⟨Nat.le_add_right _ _, Nat.add_lt_add_left hm off⟩
  · rfl

theorem sliceData_eq {s : Store} (hm : s.memory a = some o) (hle : off + n ≤ o.data.length) :
    sliceData a off n s = .ok ((o.data.drop off).take n) s := by
  rw [sliceData, bind_eq _ (deref_eq hm), if_pos hle]
  rfl

theorem instanceFields_inside {v : VMClass} {f : VMField} (h : Placed 0 v.instanceFields)
    (hf : f ∈ v.instanceFields) : f.start + f.size ≤ v.fieldsSlots := by
  obtain ⟨i, hi⟩ := List.mem_iff_getElem?.mp hf
  have hend := end_le_sum (sizes_get hi)
  have hsum := sum_sizes_le v.fields
  have hstart : f.start ≤ Layout.start (sizes v.instanceFields) i := by
    rw [(h i f hi).2, Nat.zero_add]
    exact Nat.mod_le _ _
  calc f.start + f.size ≤ Layout.start (sizes v.instanceFields) i + f.size :=
        Nat.add_le_add_right hstart _
    _ ≤ (sizes v.instanceFields).sum := hend
    _ ≤ v.fieldsSlots := hsum

/-- The layout is sound exactly when no field of the ancestor is without slots and no offset has
wrapped around. -/
theorem layoutSound_iff (hc : Built p files c) (hd : Descends p c files' d)
    (hparsed : ∀ cls ∈ files' ++ files, ∀ f ∈ cls.fields, f.Parsed) :
    LayoutSound c d ↔ (∀ f ∈ c.instanceFields, f.size ≠ 0) ∧ d.Unwrapped := by
  have hplaced := (hd.built hc).placed
  have hprefix := hd.inherits hc
  have hsizes : ∀ f ∈ d.instanceFields, f.size ≤ 2 := by
    intro f hf
    have hfield := (hd.built hc).fields hparsed f (List.mem_of_mem_filter hf)
    exact hfield.slotCount_le
  constructor
  · intro h
    refine ⟨?_, disjoint_unwrapped hplaced hsizes h.disjoint⟩
    intro f hf hzero
    apply h.put f hf (List.replicate d.fieldsSlots .null) List.length_replicate
    rw [hzero, List.take_zero]
  · rintro ⟨hnonempty, hu⟩
    refine ⟨?_, ?_, hprefix, ?_, ?_, ?_⟩
    · intro i j f g k hi hj hf hg
      exact placed_disjoint hplaced hu hi hj hf hg
    · exact fun f hf => instanceFields_inside hplaced hf
    · intro f hf s a o hm hlen
      have hmem := hprefix.subset hf
      apply sliceData_eq hm
      rw [hlen]
      exact instanceFields_inside hplaced hmem
    · intro f hf data hlen hnil
      have hmem := hprefix.subset hf
      have hle := instanceFields_inside hplaced hmem
      have hsize := hnonempty f hf
      have hzero := congrArg List.length hnil
      rw [List.length_take, List.length_drop, hlen, List.length_nil] at hzero
      omega
    · intro i j f g hi hj hne data slot
      apply slice_set
      intro hw
      have hsize := hnonempty f (List.mem_of_getElem? hi)
      have hi' : d.instanceFields[i]? = some f := by
        obtain ⟨rest, hrest⟩ := hprefix
        rw [← hrest, List.getElem?_append_left (List.getElem?_eq_some_iff.mp hi).1]
        exact hi
      have hself : Within f.start f.size f.start :=
        ⟨Nat.le_refl _, Nat.lt_add_of_pos_right (Nat.pos_of_ne_zero hsize)⟩
      exact hne (placed_disjoint hplaced hu hi' hj hself hw)

theorem ownFields_fits (h : VMClass.ownFields p idx off decls = .ok fields)
    (hp : p.overflowChecks = true) (hsizes : ∀ f ∈ decls, f.slotCount ≤ 2) :
    off.toNat + (sizes (instances fields)).sum < 2 ^ 32 := by
  induction decls generalizing idx off fields with
  | nil =>
    cases h
    exact off.toNat_lt
  | cons f decls ih =>
    have hrest := fun g hg => hsizes g (List.mem_cons_of_mem f hg)
    rw [VMClass.ownFields] at h
    split at h
    · obtain ⟨rest, hown, h⟩ := exceptBind_ok h
      cases h
      rw [instances_static rfl]
      exact ih hown hrest
    · obtain ⟨nextOff, hadd, h⟩ := exceptBind_ok h
      obtain ⟨rest, hown, h⟩ := exceptBind_ok h
      cases h
      obtain ⟨hnext, hfits⟩ := addU32_ok hadd
      have hsize := hsizes f List.mem_cons_self
      have hlt := hfits hp (by omega)
      have hsum := ih hown hrest
      rw [hnext, Nat.mod_eq_of_lt hlt] at hsum
      rw [instances_normal rfl, sizes, List.map_cons, List.sum_cons, ← Nat.add_assoc]
      exact hsum

/-- The slots of all instance fields of a created class are counted without wraparound in a build
with overflow checks. -/
theorem create_fits (hp : p.overflowChecks = true)
    (hs : Placed 0 (instances (supeFields superClass)))
    (hsum : (sizes (instances (supeFields superClass))).sum < 2 ^ 32)
    (hparsed : ∀ f ∈ cls.fields, f.Parsed) (h : VMClass.create p cls superClass = .ok v) :
    (sizes v.instanceFields).sum < 2 ^ 32 := by
  obtain ⟨currOff, inherited, own, hv⟩ := create_parts h
  obtain ⟨hinh, hoff⟩ := inheritFields_placed hv.inherit hs rfl
  have hown := ownFields_fits hv.declare hp fun f hf => (hparsed f hf).slotCount_le
  rw [hoff, Nat.zero_add, hinh, Nat.mod_eq_of_lt hsum] at hown
  rw [VMClass.instanceFields, hv.fields, instances_append, hinh, instances_instances, sizes,
    List.map_append, List.sum_append]
  exact hown

/-- In a build with overflow checks `create` panics before an offset wraps around. -/
theorem Built.unwrapped (h : Built p files v) (hp : p.overflowChecks = true)
    (hparsed : ∀ cls ∈ files, ∀ f ∈ cls.fields, f.Parsed) : v.Unwrapped := by
  have hsum : (sizes v.instanceFields).sum < 2 ^ 32 := by
    induction h with
    | object => decide
    | root h =>
      have hzero : (sizes (instances (supeFields none))).sum < 2 ^ 32 := by decide
      exact create_fits hp placed_none hzero (hparsed _ List.mem_cons_self) h
    | @extend supers s cls r s' v hs hl h ih =>
      have ih := ih fun cls hcls => hparsed cls (List.mem_cons_of_mem _ hcls)
      have hplaced := hs.placed
      have heq : instances (supeFields (some (r, s'))) = s.instanceFields :=
        instances_congr hl.fields
      rw [← heq] at ih hplaced
      exact create_fits hp hplaced ih (hparsed _ List.mem_cons_self) h
  intro i f _ _
  exact Nat.lt_of_le_of_lt (start_le_sum _ i) hsum

/-- The field that is read from a class file, with name and descriptor as constants 1 and 2. -/
theorem parsed_field (name descriptor : String) (accessFlags : UInt16) :
    JVMField.Parsed ⟨name, descriptor, firstSlotCount (FieldDescriptor.fromStr descriptor),
      ⟨accessFlags⟩, []⟩ :=
  ⟨⟨accessFlags, 1, 2, []⟩, [.unusable, .utf8 name, .utf8 descriptor], rfl⟩

def publicFields (thisName superName : String) (fields : List (String × String)) : Class where
  thisName := thisName
  superName := superName
  minorVersion := 0
  majorVersion := 65
  accessFlags := .accPublic
  constantPool := []
  methods := []
  fields := fields.map fun (name, descriptor) =>
    ⟨name, descriptor, firstSlotCount (FieldDescriptor.fromStr descriptor), .accPublic, []⟩
  attributes := []

theorem publicFields_parsed (thisName superName : String) (fields : List (String × String)) :
    ∀ f ∈ (publicFields thisName superName fields).fields, f.Parsed := by
  intro f hf
  obtain ⟨⟨name, descriptor⟩, _, rfl⟩ := List.mem_map.mp hf
  exact parsed_field name descriptor 1

/-- `Main` has a field with an empty descriptor, and `main` puts 0 into it. -/
def emptyDescriptor : Class :=
  { publicFields "Main" "java/lang/Object" [("x", "")] with
    constantPool := [.unusable, .utf8 "Main", .class 1, .utf8 "x", .utf8 "", .nameAndType 3 4,
      .fieldref 2 5]
    methods := [⟨"main", "()V", 0, .accStatic,
      some ⟨0, 2, [0xbb, 0, 2, 0x03, 0xb5, 0, 6, 0xb1], [], []⟩, []⟩] }

def emptyDescriptorClass : VMClass :=
  (VMClass.create ⟨true⟩ emptyDescriptor (some (0, .javaLangObject))).toOption.getD .javaLangObject

/-- A field with an empty descriptor has no slot that `putfield` can write. -/
theorem emptyDescriptor_not_sound :
    Built ⟨true⟩ [emptyDescriptor] emptyDescriptorClass ∧
    ¬ LayoutSound emptyDescriptorClass emptyDescriptorClass ∧
    (match mainRun [emptyDescriptor] 10 with
      | .error (.panic msg) => msg == "index out of bounds"
      | _ => false) = true := by
  refine ⟨.extend (r := 0) .object ⟨rfl, rfl, rfl, rfl, rfl⟩ rfl, ?_, by decide +kernel⟩
  intro h
  have hmem : ⟨0, .normal 0, ⟨"x", "", 0, .accPublic, []⟩⟩ ∈ emptyDescriptorClass.instanceFields :=
    List.mem_singleton_self _
  exact h.put _ hmem [] rfl rfl

def point2 : VMClass :=
  (VMClass.create ⟨true⟩ (publicFields "Point" "java/lang/Object" [("x", "I"), ("t", "J")])
    (some (0, .javaLangObject))).toOption.getD .javaLangObject

def point3 : VMClass :=
  (VMClass.create ⟨true⟩ (publicFields "Point3" "Point" [("d", "D"), ("z", "I")])
    (some (1, point2))).toOption.getD .javaLangObject

theorem point3_sound : LayoutSound point2 point3 := by
  have hc : Built ⟨true⟩
      [publicFields "Point" "java/lang/Object" [("x", "I"), ("t", "J")]] point2 :=
    .extend (r := 0) .object ⟨rfl, rfl, rfl, rfl, rfl⟩ rfl
  have hd : Descends ⟨true⟩ point2 [publicFields "Point3" "Point" [("d", "D"), ("z", "I")]]
      point3 := .extend (r := 1) .refl ⟨rfl, rfl, rfl, rfl, rfl⟩ rfl
  have hparsed : ∀ cls ∈ [publicFields "Point3" "Point" [("d", "D"), ("z", "I")]] ++
      [publicFields "Point" "java/lang/Object" [("x", "I"), ("t", "J")]],
      ∀ f ∈ cls.fields, f.Parsed := by
    intro cls hcls
    rcases List.mem_cons.mp hcls with rfl | hcls
    · exact publicFields_parsed _ _ _
    · rw [List.mem_singleton.mp hcls]
      exact publicFields_parsed _ _ _
  apply (layoutSound_iff hc hd hparsed).mpr
  exact ⟨by decide +kernel, (hd.built hc).unwrapped rfl hparsed⟩

end Janadinite
