import Mathlib.Logic.Relation
import Janadinite.Parse.Descriptors
import Janadinite.Vm.Declared

namespace Janadinite
open Hoare
set_option autoImplicit true

def BaseType.arrayType : BaseType → PrimitiveArrayType
  | int => .int
  | long => .long
  | bool => .bool
  | char => .char
  | byte => .byte
  | short => .short
  | float => .float
  | double => .double

/-- What the name of a class constant stands for: a class, or an array by its dimensions and its
element. What may follow the element in the name is not looked at. -/
inductive ConstantName where
  | plain (name : String)
  | primitiveArray (dimensions : Nat) (ty : BaseType) (trailing : List Char)
  | classArray (dimensions : Nat) (className : String) (trailing : List Char)
  deriving DecidableEq

namespace ConstantName

def text : ConstantName → List Char
  | plain name => name.toList
  | primitiveArray dimensions ty trailing => List.replicate dimensions '[' ++ ty.letter :: trailing
  | classArray dimensions className trailing =>
    List.replicate dimensions '[' ++ 'L' :: (className.toList ++ ';' :: trailing)

/-- A name that is no array's does not start with a bracket, and the others do. -/
def Proper : ConstantName → Prop
  | plain name => name.toList.head? ≠ some '['
  | primitiveArray dimensions _ _ => 0 < dimensions
  | classArray dimensions className _ => 0 < dimensions ∧ ';' ∉ className.toList

def toLoad : ConstantName → Option String
  | plain name => some name
  | primitiveArray _ _ _ => none
  | classArray _ className _ => some className

/-- What a constant of this name is to give when `c` is the class it names. -/
inductive Means (c : ClassRef) : ConstantName → ClassOrArray → Prop
  | plain : Means c (.plain name) (.class c)
  | primitiveArray {d : NonZeroU16} (h : d.val.toNat = n) :
      Means c (.primitiveArray n ty trailing) (.primitiveArray d ty.arrayType)
  | classArray {d : NonZeroU16} (h : d.val.toNat = n) :
      Means c (.classArray n className trailing) (.classArray d c)

/-- The array is none of the class that holds the constant, and a `u16` counts its dimensions. -/
def Handled (thisName : String) : ConstantName → Prop
  | plain _ => True
  | primitiveArray dimensions _ _ => dimensions ≤ 65535
  | classArray dimensions className _ => dimensions ≤ 65535 ∧ className ≠ thisName

end ConstantName

namespace NonZeroU16

/-- The dimensions counted for so many brackets. -/
def brackets (n : Nat) : NonZeroU16 := Nat.iterate saturatingSucc (n - 1) one

theorem saturatingSucc_toNat (d : NonZeroU16) :
    d.saturatingSucc.val.toNat = min (d.val.toNat + 1) 65535 := by
  have hd := d.val.toNat_lt
  have hadd : (d.val + 1).toNat = (d.val.toNat + 1) % 65536 := UInt16.toNat_add d.val 1
  rw [saturatingSucc]
  split
  · rename_i hz
    rw [hz, UInt16.toNat_zero] at hadd
    omega
  · rename_i hz
    have hne : (d.val + 1).toNat ≠ 0 := fun h => hz (UInt16.toNat_inj.1 h)
    change (d.val + 1).toNat = _
    omega

theorem iterate_toNat (d : NonZeroU16) (n : Nat) :
    (Nat.iterate saturatingSucc n d).val.toNat = min (d.val.toNat + n) 65535 := by
  induction n generalizing d with
  | zero =>
    have hd := d.val.toNat_lt
    change d.val.toNat = _
    omega
  | succ n ih =>
    change (Nat.iterate saturatingSucc n d.saturatingSucc).val.toNat = _
    rw [ih, saturatingSucc_toNat]
    omega

theorem brackets_toNat (h : 0 < n) : (brackets n).val.toNat = min n 65535 := by
  rw [brackets, iterate_toNat]
  change min (1 + (n - 1)) 65535 = _
  omega

end NonZeroU16

theorem fromChars_brackets (n : Nat) (rest : List Char) :
    FieldDescriptor.fromChars none (List.replicate n '[' ++ rest) =
      List.replicate n .array ++ FieldDescriptor.fromChars none rest := by
  induction n with
  | zero => rfl
  | succ n ih =>
    change FieldDescriptor.array ::
      FieldDescriptor.fromChars none (List.replicate n '[' ++ rest) = _
    rw [ih]
    rfl

theorem arrayEntry_brackets (nameIndex : UInt16) (thisName : String) (d : NonZeroU16) (n : Nat)
    (descriptor : List FieldDescriptor) :
    arrayEntry nameIndex thisName d (List.replicate n .array ++ descriptor) =
      arrayEntry nameIndex thisName (Nat.iterate NonZeroU16.saturatingSucc n d) descriptor := by
  induction n generalizing d with
  | zero => rfl
  | succ n ih =>
    change arrayEntry nameIndex thisName d.saturatingSucc
      (List.replicate n .array ++ descriptor) = _
    rw [ih]
    rfl

/-- What the link step makes of a constant of this name. -/
def ConstantName.linked (nameIndex : UInt16) (thisName : String) :
    ConstantName → VMConstantPoolEntry
  | .plain _ => .class nameIndex none
  | .primitiveArray n ty _ => .primitiveArray (.brackets n) ty.arrayType
  | .classArray n className _ =>
    if className = thisName then .resolvedClassArray (.brackets n)
    else .classArray nameIndex (.brackets n) none

theorem arrayEntry_base (nameIndex : UInt16) (thisName : String) (d : NonZeroU16) (ty : BaseType)
    (trailing : List Char) :
    arrayEntry nameIndex thisName d (FieldDescriptor.fromChars none (ty.letter :: trailing)) =
      some (.primitiveArray d ty.arrayType) := by
  cases ty <;> rfl

theorem arrayEntry_class (nameIndex : UInt16) (thisName : String) (d : NonZeroU16)
    (className : String) (trailing : List Char) (h : ';' ∉ className.toList) :
    arrayEntry nameIndex thisName d
        (FieldDescriptor.fromChars none ('L' :: (className.toList ++ ';' :: trailing))) =
      some (if className = thisName then .resolvedClassArray d
        else .classArray nameIndex d none) := by
  change arrayEntry nameIndex thisName d
    (FieldDescriptor.fromChars (some []) (className.toList ++ ';' :: trailing)) = _
  rw [fromChars_name _ _ _ h, List.reverse_nil, List.nil_append, String.ofList_toList]
  rfl

theorem resolveEntry_array (hname : getUtf8 entries nameIndex "Class class name" = .ok name)
    (h : name.toList = '[' :: descriptor) :
    resolveEntry entries thisName methods fields (.class nameIndex) =
      (arrayEntry nameIndex thisName .one (FieldDescriptor.fromChars none descriptor)).elim
        (.error (invalidData "Array class invalid")) .ok := by
  simp only [resolveEntry, hname, h, bind, Except.bind]
  cases arrayEntry nameIndex thisName .one (FieldDescriptor.fromChars none descriptor) <;> rfl

theorem resolveEntry_plain (hname : getUtf8 entries nameIndex "Class class name" = .ok name)
    (h : name.toList.head? ≠ some '[') :
    resolveEntry entries thisName methods fields (.class nameIndex) =
      .ok (.class nameIndex none) := by
  simp only [resolveEntry, hname, bind, Except.bind]
  split
  · rename_i heq
    rw [heq] at h
    exact (h rfl).elim
  · rfl

theorem resolveEntry_named {cn : ConstantName} (hp : cn.Proper)
    (hname : getUtf8 entries nameIndex "Class class name" = .ok name)
    (htext : name.toList = cn.text) :
    resolveEntry entries thisName methods fields (.class nameIndex) =
      .ok (cn.linked nameIndex thisName) := by
  cases cn with
  | plain plainName =>
    rw [resolveEntry_plain hname (by rw [htext]; exact hp)]
    rfl
  | primitiveArray n ty trailing =>
    obtain ⟨k, rfl⟩ := Nat.exists_eq_succ_of_ne_zero (Nat.pos_iff_ne_zero.1 hp)
    have hcons : name.toList = '[' :: (List.replicate k '[' ++ ty.letter :: trailing) := htext
    rw [resolveEntry_array hname hcons, fromChars_brackets, arrayEntry_brackets, arrayEntry_base]
    rfl
  | classArray n className trailing =>
    obtain ⟨hn, hsemi⟩ := hp
    obtain ⟨k, rfl⟩ := Nat.exists_eq_succ_of_ne_zero (Nat.pos_iff_ne_zero.1 hn)
    have hcons : name.toList =
        '[' :: (List.replicate k '[' ++ 'L' :: (className.toList ++ ';' :: trailing)) := htext
    rw [resolveEntry_array hname hcons, fromChars_brackets, arrayEntry_brackets,
      arrayEntry_class _ _ _ _ _ hsemi]
    rfl

/-- Within a class name nothing is found without a semicolon. -/
theorem semicolon_of_found {soFar data : List Char}
    (h : FieldDescriptor.fromChars (some soFar) data ≠ []) :
    ∃ className trailing, data = className ++ ';' :: trailing ∧ ';' ∉ className := by
  induction data generalizing soFar with
  | nil => exact (h rfl).elim
  | cons c data ih =>
    by_cases hc : c = ';'
    · exact ⟨[], data, by rw [hc]; rfl, List.not_mem_nil⟩
    · rw [FieldDescriptor.fromChars, if_neg hc] at h
      obtain ⟨className, trailing, rfl, hsemi⟩ := ih h
      exact ⟨c :: className, trailing, rfl, List.not_mem_cons_of_ne_of_not_mem (Ne.symm hc) hsemi⟩

/-- What an array name is to hold after its first bracket. -/
inductive ArrayRest : List Char → Prop
  | bracket (h : ArrayRest rest) : ArrayRest ('[' :: rest)
  | base (ty : BaseType) (trailing : List Char) : ArrayRest (ty.letter :: trailing)
  | object (className trailing : List Char) (h : ';' ∉ className) :
      ArrayRest ('L' :: (className ++ ';' :: trailing))

theorem arrayRest_of_entry {d : NonZeroU16} {rest : List Char}
    (h : arrayEntry nameIndex thisName d (FieldDescriptor.fromChars none rest) = some e) :
    ArrayRest rest := by
  induction rest generalizing d with
  | nil => cases h
  | cons c rest ih =>
    unfold FieldDescriptor.fromChars at h
    dsimp only at h
    split at h
    · exact .base .int rest
    · exact .base .long rest
    · exact .base .double rest
    · exact .base .float rest
    · exact .base .short rest
    · exact .base .char rest
    · exact .base .byte rest
    · exact .base .bool rest
    · have hne : FieldDescriptor.fromChars (some []) rest ≠ [] := by
        intro hnil
        rw [hnil] at h
        cases h
      obtain ⟨className, trailing, rfl, hsemi⟩ := semicolon_of_found hne
      exact .object className trailing hsemi
    · exact .bracket (ih h)
    · cases h

theorem ArrayRest.named (h : ArrayRest rest) : ∃ cn : ConstantName, cn.Proper ∧
    cn.text = '[' :: rest := by
  induction h with
  | @bracket rest h ih =>
    obtain ⟨cn, hp, htext⟩ := ih
    cases cn with
    | plain name =>
      change name.toList = _ at htext
      rw [ConstantName.Proper, htext] at hp
      exact (hp rfl).elim
    | primitiveArray n ty trailing =>
      refine ⟨.primitiveArray (n + 1) ty trailing, Nat.succ_pos n, ?_⟩
      rw [← htext]
      rfl
    | classArray n className trailing =>
      refine ⟨.classArray (n + 1) className trailing, ⟨Nat.succ_pos n, hp.2⟩, ?_⟩
      rw [← htext]
      rfl
  | base ty trailing => exact ⟨.primitiveArray 1 ty trailing, Nat.one_pos, rfl⟩
  | object className trailing h =>
    refine ⟨.classArray 1 (String.ofList className) trailing, ⟨Nat.one_pos, ?_⟩, ?_⟩
    · rwa [String.toList_ofList]
    · rw [ConstantName.text, String.toList_ofList]
      rfl

/-- The link step accepts no name but those. -/
theorem accepted_named (hname : getUtf8 entries nameIndex "Class class name" = .ok name)
    (h : resolveEntry entries thisName methods fields (.class nameIndex) = .ok e) :
    ∃ cn : ConstantName, cn.Proper ∧ name.toList = cn.text := by
  by_cases hhead : name.toList.head? = some '['
  · obtain ⟨rest, hrest⟩ : ∃ rest, name.toList = '[' :: rest := by
      cases hl : name.toList with
      | nil =>
        rw [hl] at hhead
        cases hhead
      | cons c rest =>
        rw [hl] at hhead
        cases hhead
        exact ⟨rest, rfl⟩
    rw [resolveEntry_array hname hrest] at h
    cases he : arrayEntry nameIndex thisName .one (FieldDescriptor.fromChars none rest) with
    | none =>
      rw [he] at h
      cases h
    | some entry =>
      obtain ⟨cn, hp, htext⟩ := (arrayRest_of_entry he).named
      exact ⟨cn, hp, hrest.trans htext.symm⟩
  · exact ⟨.plain name, hhead, rfl⟩

theorem findSome?_brackets {f : FieldDescriptor → Option String} (ha : f .array = none)
    (ho : f (.object className) = some className) (n : Nat) (descriptor : List FieldDescriptor) :
    (List.replicate n FieldDescriptor.array ++ .object className :: descriptor).findSome? f =
      some className := by
  rw [List.findSome?_append]
  have hnone : (List.replicate n FieldDescriptor.array).findSome? f = none := by
    rw [List.findSome?_eq_none_iff]
    intro desc hd
    rw [List.eq_of_mem_replicate hd, ha]
  rw [hnone, Option.none_or, List.findSome?_cons, ho]

theorem arrayClassName_text (h : ';' ∉ className.toList)
    (htext : name.toList = (ConstantName.classArray n className trailing).text) :
    arrayClassName name = some className := by
  have hobject : FieldDescriptor.fromChars none ('L' :: (className.toList ++ ';' :: trailing)) =
      .object className :: FieldDescriptor.fromChars none trailing := by
    change FieldDescriptor.fromChars (some []) _ = _
    rw [fromChars_name _ _ _ h, List.reverse_nil, List.nil_append, String.ofList_toList]
  rw [arrayClassName, FieldDescriptor.fromStr, htext, ConstantName.text, fromChars_brackets,
    hobject]
  apply findSome?_brackets
  · rfl
  · rfl

/-- A cell that has been set holds the class that is loaded under the name it stands for. -/
def VMConstantPoolEntry.Named (t : ClassTable) (pool : VMConstantPool) :
    VMConstantPoolEntry → Prop
  | .class nameIdx (some c) => ∃ name, pool.getUtf8 nameIdx = some name ∧ t.lookup name = some c
  | .classArray descIdx _ (some c) => ∃ descriptor name, pool.getUtf8 descIdx = some descriptor ∧
      arrayClassName descriptor = some name ∧ t.lookup name = some c
  | _ => True

namespace ClassTable

def CellsNamed (t : ClassTable) : Prop :=
  ∀ c idx e, (t.get c).constantPool.getEntry idx = some e → e.Named t (t.get c).constantPool

end ClassTable

theorem getUtf8_unresolved {pool pool' : VMConstantPool}
    (h : pool'.map VMConstantPoolEntry.unresolved = pool.map VMConstantPoolEntry.unresolved)
    (index : UInt16) : pool'.getUtf8 index = pool.getUtf8 index := by
  have key : ∀ pool : VMConstantPool,
      VMConstantPool.getUtf8 (pool.map VMConstantPoolEntry.unresolved) index =
        pool.getUtf8 index := by
    intro pool
    simp only [VMConstantPool.getUtf8, VMConstantPool.getEntry, List.getElem?_map]
    cases pool[index.toNat]? with
    | none => rfl
    | some e => cases e <;> rfl
  rw [← key pool', h, key]

theorem VMConstantPoolEntry.Named.mono {t t' : ClassTable} {pool pool' : VMConstantPool}
    {e : VMConstantPoolEntry} (h : e.Named t pool)
    (hl : ∀ name c, t.lookup name = some c → t'.lookup name = some c)
    (hu : ∀ index, pool'.getUtf8 index = pool.getUtf8 index) : e.Named t' pool' := by
  cases e with
  | «class» nameIdx resolved =>
    cases resolved with
    | none => trivial
    | some c =>
      obtain ⟨name, hn, hc⟩ := h
      exact ⟨name, (hu nameIdx).trans hn, hl name c hc⟩
  | classArray descIdx dimensions resolved =>
    cases resolved with
    | none => trivial
    | some c =>
      obtain ⟨descriptor, name, hd, hn, hc⟩ := h
      exact ⟨descriptor, name, (hu descIdx).trans hd, hn, hl name c hc⟩
  | _ => trivial

theorem ClassTable.CellsNamed.set {t : ClassTable} {cell : PoolCell}
    {entry e₀ : VMConstantPoolEntry}
    (h : t.CellsNamed) (he : t.entryAt cell = some e₀) (hu : entry.unresolved = e₀.unresolved)
    (hn : entry.Named t (t.get cell.owner).constantPool) : (t.setEntry cell entry).CellsNamed := by
  have hmap : ∀ c, ((t.setEntry cell entry).get c).constantPool.map VMConstantPoolEntry.unresolved =
      (t.get c).constantPool.map VMConstantPoolEntry.unresolved := by
    apply pool_setEntry t
    change (t.entryAt cell).map _ = _
    rw [he, hu]
    rfl
  intro c idx e hidx
  have hkeep : ∀ e : VMConstantPoolEntry, e.Named t (t.get c).constantPool →
      e.Named (t.setEntry cell entry) ((t.setEntry cell entry).get c).constantPool :=
    fun e hnamed => hnamed.mono (fun _ _ hl => hl) (getUtf8_unresolved (hmap c))
  change (t.setEntry cell entry).entryAt ⟨c, idx⟩ = some e at hidx
  by_cases hcell : cell = ⟨c, idx⟩
  · subst hcell
    rw [entryAt_setEntry_self he] at hidx
    cases hidx
    exact hkeep _ hn
  · rw [entryAt_setEntry_ne hcell] at hidx
    exact hkeep e (h c idx e hidx)

theorem getClassOrLoadByRef_cells {t t' : ClassTable} (hcells : t.CellsNamed)
    (h : getClassOrLoadByRef this refIdx t = .ok c t') : t'.CellsNamed := by
  cases getClassOrLoadByRef_ok h with
  | cell => exact hcells
  | found he hn hl => exact hcells.set he rfl ⟨_, hn, hl⟩

theorem getClassOrArrayByRef_cells {t t' : ClassTable} (hcells : t.CellsNamed)
    (h : getClassOrArrayByRef this refIdx t = .ok found t') : t'.CellsNamed := by
  cases getClassOrArrayByRef_ok h with
  | «class» => exact hcells
  | foundClass he hn hl => exact hcells.set he rfl ⟨_, hn, hl⟩
  | primitive => exact hcells
  | array => exact hcells
  | foundArray he hd hn hl => exact hcells.set he rfl ⟨_, _, hd, hn, hl⟩

theorem getClassOrLoadByRef_cell {t t' : ClassTable}
    (h : getClassOrLoadByRef this refIdx t = .ok c t') (cell : PoolCell)
    (he : t.entryAt cell = some e₀) :
    ∃ e, t'.entryAt cell = some e ∧ e.unresolved = e₀.unresolved := by
  have hends := getClassOrLoadByRef_resolves this refIdx t
  rw [h] at hends
  have hcell := ClassTable.FilledTo.getEntry hends he
  simp only [Option.map_eq_some_iff] at hcell
  exact hcell

theorem getMethodOrResolve_cells {t t' : ClassTable} (hcells : t.CellsNamed)
    (h : getMethodOrResolve this refIdx t = .ok found t') : t'.CellsNamed := by
  cases getMethodOrResolve_ok h with
  | cell => exact hcells
  | own => exact hcells
  | searched he hn hc hf =>
    obtain ⟨e, he', hu⟩ := getClassOrLoadByRef_cell hc ⟨this, refIdx⟩ he
    exact (getClassOrLoadByRef_cells hcells hc).set he' hu.symm trivial

theorem getFieldOrResolve_cells {t t' : ClassTable} (hcells : t.CellsNamed)
    (h : getFieldOrResolve this refIdx t = .ok found t') : t'.CellsNamed := by
  cases getFieldOrResolve_ok h with
  | cell => exact hcells
  | own => exact hcells
  | searched he hn hc hf =>
    obtain ⟨e, he', hu⟩ := getClassOrLoadByRef_cell hc ⟨this, refIdx⟩ he
    exact (getClassOrLoadByRef_cells hcells hc).set he' hu.symm trivial

theorem arrayEntry_unset {descriptor : List FieldDescriptor} {d : NonZeroU16}
    (h : arrayEntry nameIndex thisName d descriptor = some e) : e.unresolved = e := by
  induction descriptor generalizing d with
  | nil => cases h
  | cons ty descriptor ih =>
    cases ty with
    | array => exact ih h
    | object o =>
      rw [arrayEntry] at h
      split at h <;> cases h <;> rfl
    | _ =>
      cases h
      rfl

theorem resolveEntry_unset {constant : ConstantPoolEntry}
    (h : resolveEntry entries thisName methods fields constant = .ok e) : e.unresolved = e := by
  cases constant with
  | nameAndType nameIndex descriptorIndex =>
    obtain ⟨_, _, h⟩ := exceptBind_ok h
    obtain ⟨_, _, h⟩ := exceptBind_ok h
    cases h
    rfl
  | «class» nameIndex =>
    obtain ⟨name, hname, h'⟩ := exceptBind_ok h
    by_cases hhead : name.toList.head? = some '['
    · cases hl : name.toList with
      | nil =>
        rw [hl] at hhead
        cases hhead
      | cons c descriptor =>
        rw [hl] at hhead
        cases hhead
        rw [resolveEntry_array hname hl] at h
        cases he : arrayEntry nameIndex thisName .one
          (FieldDescriptor.fromChars none descriptor) with
        | none =>
          rw [he] at h
          cases h
        | some entry =>
          rw [he] at h
          cases h
          exact arrayEntry_unset he
    · rw [resolveEntry_plain hname hhead] at h
      cases h
      rfl
  | methodref classIndex nameAndTypeIndex =>
    obtain ⟨ref, _, h⟩ := exceptBind_ok h
    cases hm : eagerMethod thisName methods ref <;> rw [hm] at h <;> cases h <;> rfl
  | fieldref classIndex nameAndTypeIndex =>
    obtain ⟨ref, _, h⟩ := exceptBind_ok h
    cases hf : eagerField thisName fields ref <;> rw [hf] at h <;> cases h <;> rfl
  | _ =>
    cases h
    rfl

theorem VMConstantPoolEntry.Named.of_unset {e : VMConstantPoolEntry} (h : e.unresolved = e)
    (t : ClassTable) (pool : VMConstantPool) : e.Named t pool := by
  cases e with
  | «class» nameIdx resolved =>
    cases resolved with
    | none => trivial
    | some c => cases h
  | classArray descIdx dimensions resolved =>
    cases resolved with
    | none => trivial
    | some c => cases h
  | _ => trivial

theorem fromUnresolved_unset
    (h : VMConstantPool.fromUnresolved entries thisName methods fields = .ok pool)
    (he : e ∈ pool) : e.unresolved = e := by
  obtain ⟨k, hk⟩ := List.mem_iff_getElem?.mp he
  obtain ⟨constant, _, hr⟩ := pool_constant h hk
  exact resolveEntry_unset hr

theorem ClassTable.get_added (t : ClassTable) (v : VMClass) (loaded : List (String × ClassRef))
    (c : ClassRef) :
    ClassTable.get ⟨t.classes ++ [v], loaded⟩ c = if c = t.classes.length then v else t.get c := by
  simp only [get, List.getD_eq_getElem?_getD]
  rcases Nat.lt_trichotomy c t.classes.length with hlt | rfl | hgt
  · rw [if_neg (Nat.ne_of_lt hlt), List.getElem?_append_left hlt]
  · rw [if_pos rfl, List.getElem?_append_right (Nat.le_refl _), Nat.sub_self]
    rfl
  · have hlen : (t.classes ++ [v]).length ≤ c := by
      rw [List.length_append]
      exact hgt
    rw [if_neg (Nat.ne_of_gt hgt), List.getElem?_eq_none hlen,
      List.getElem?_eq_none (Nat.le_of_lt hgt)]

/-- What is done to the table: references are resolved, static slots are set, and a class that is
not loaded is added. -/
inductive ClassTable.Changes : ClassTable → ClassTable → Prop
  | «class» (h : getClassOrLoadByRef this refIdx t = .ok c t') : Changes t t'
  | classOrArray (h : getClassOrArrayByRef this refIdx t = .ok found t') : Changes t t'
  | method (h : getMethodOrResolve this refIdx t = .ok resolved t') : Changes t t'
  | field (h : getFieldOrResolve this refIdx t = .ok resolved t') : Changes t t'
  | static (cls : ClassRef) (off : FieldOff) (k : Nat) (slot : JVMSlot) :
      Changes t (t.setStatic cls off k slot)
  | added (hnone : t.lookup name = none) (hv : VMClass.create p file superClass = .ok v) :
      Changes t ⟨t.classes ++ [v], (name, t.classes.length) :: t.loaded⟩

namespace ClassTable

theorem CellsNamed.static {t : ClassTable} (h : t.CellsNamed) (cls : ClassRef) (off : FieldOff)
    (k : Nat) (slot : JVMSlot) : (t.setStatic cls off k slot).CellsNamed := by
  intro c idx e he
  have hpool : ((t.setStatic cls off k slot).get c).constantPool = (t.get c).constantPool := by
    refine get_modifyClass (g := VMClass.constantPool) t ?_ c
    exact fun _ => rfl
  rw [hpool] at he ⊢
  exact (h c idx e he).mono (fun _ _ hl => hl) fun _ => rfl

theorem CellsNamed.added {t : ClassTable} (h : t.CellsNamed) (hnone : t.lookup name = none)
    (hv : VMClass.create p file superClass = .ok v) :
    CellsNamed ⟨t.classes ++ [v], (name, t.classes.length) :: t.loaded⟩ := by
  obtain ⟨_, _, _, hparts⟩ := create_parts hv
  intro c idx e he
  rw [get_added] at he ⊢
  split at he
  · rename_i hc
    rw [if_pos hc]
    exact .of_unset (fromUnresolved_unset hparts.pool (List.mem_of_getElem? he)) _ _
  · rename_i hc
    rw [if_neg hc]
    refine (h c idx e he).mono (fun name' c' hl => ?_) fun _ => rfl
    have hne : name' ≠ name := by
      rintro rfl
      rw [hnone] at hl
      cases hl
    change List.lookup name' ((name, t.classes.length) :: t.loaded) = some c'
    rw [List.lookup_cons, beq_false_of_ne hne]
    exact hl

theorem CellsNamed.changes {t t' : ClassTable} (h : t.CellsNamed) (hc : t.Changes t') :
    t'.CellsNamed := by
  cases hc with
  | «class» hr => exact getClassOrLoadByRef_cells h hr
  | classOrArray hr => exact getClassOrArrayByRef_cells h hr
  | method hr => exact getMethodOrResolve_cells h hr
  | field hr => exact getFieldOrResolve_cells h hr
  | static cls off k slot => exact h.static cls off k slot
  | added hnone hv => exact h.added hnone hv

/-- Whatever is done to the table from its first state on, the cells stay named. -/
theorem cellsNamed_of_changes (h : Relation.ReflTransGen Changes .fromClassPath t) :
    t.CellsNamed := by
  induction h with
  | refl =>
    intro c idx e he
    have hpool : (ClassTable.fromClassPath.get c).constantPool = [] := by
      cases c <;> rfl
    rw [hpool] at he
    cases he
  | tail _ hc ih => exact ih.changes hc

end ClassTable

section
variable {t : ClassTable}

theorem withClassOrLoadByName_returns (t : ClassTable) (name : String) (cell : PoolCell)
    (filled : ClassRef → VMConstantPoolEntry) (answer : ClassRef → ClassOrArray) :
    (∀ c, t.lookup name = some c →
      (withClassOrLoadByName name cell filled >>= fun c => pure (answer c)) t =
        .ok (answer c) (t.setEntry cell (filled c))) ∧
    (t.lookup name = none →
      (withClassOrLoadByName name cell filled >>= fun c => pure (answer c)) t =
        .error (.load name) t) := by
  constructor
  · intro c hl
    have h : withClassOrLoadByName name cell filled t = .ok c (t.setEntry cell (filled c)) := by
      rw [withClassOrLoadByName, bind_get, hl]
      rfl
    rw [bind_eq _ h]
    rfl
  · intro hl
    have h : withClassOrLoadByName name cell filled t = .error (.load name) t := by
      rw [withClassOrLoadByName, bind_get, hl]
      rfl
    rw [bind_error _ h]

theorem byRef_class_set
    (he : (t.get this).constantPool.getEntry refIdx = some (.class nameIdx (some c))) :
    getClassOrArrayByRef this refIdx t = .ok (.class c) t := by
  change (okOr _ ((t.get this).constantPool.getEntry refIdx) >>= _) t = _
  rw [he]
  rfl

theorem byRef_class
    (he : (t.get this).constantPool.getEntry refIdx = some (.class nameIdx none))
    (hn : (t.get this).constantPool.getUtf8 nameIdx = some name) :
    getClassOrArrayByRef this refIdx t =
      (withClassOrLoadByName name ⟨this, refIdx⟩ (fun c => .class nameIdx (some c)) >>=
        fun c => pure (.class c)) t := by
  change (okOr _ ((t.get this).constantPool.getEntry refIdx) >>= _) t = _
  rw [he]
  change (expect _ ((t.get this).constantPool.getUtf8 nameIdx) >>= _) t = _
  rw [hn]
  rfl

theorem byRef_primitiveArray
    (he : (t.get this).constantPool.getEntry refIdx = some (.primitiveArray dimensions ty)) :
    getClassOrArrayByRef this refIdx t = .ok (.primitiveArray dimensions ty) t := by
  change (okOr _ ((t.get this).constantPool.getEntry refIdx) >>= _) t = _
  rw [he]
  rfl

theorem byRef_classArray_set
    (he : (t.get this).constantPool.getEntry refIdx =
      some (.classArray descIdx dimensions (some c))) :
    getClassOrArrayByRef this refIdx t = .ok (.classArray dimensions c) t := by
  change (okOr _ ((t.get this).constantPool.getEntry refIdx) >>= _) t = _
  rw [he]
  rfl

theorem byRef_classArray
    (he : (t.get this).constantPool.getEntry refIdx = some (.classArray descIdx dimensions none))
    (hd : (t.get this).constantPool.getUtf8 descIdx = some descriptor)
    (hn : arrayClassName descriptor = some name) :
    getClassOrArrayByRef this refIdx t =
      (withClassOrLoadByName name ⟨this, refIdx⟩
        (fun c => .classArray descIdx dimensions (some c)) >>=
        fun c => pure (.classArray dimensions c)) t := by
  change (okOr _ ((t.get this).constantPool.getEntry refIdx) >>= _) t = _
  rw [he]
  change (expect _ ((t.get this).constantPool.getUtf8 descIdx) >>= _) t = _
  rw [hd]
  change (expect _ (arrayClassName descriptor) >>= _) t = _
  rw [hn]
  rfl

/-- No arm takes an array of the class itself. -/
theorem byRef_resolvedClassArray
    (he : (t.get this).constantPool.getEntry refIdx = some (.resolvedClassArray dimensions)) :
    getClassOrArrayByRef this refIdx t = .error (.error (.invalidConstantPoolEntry refIdx)) t := by
  change (okOr _ ((t.get this).constantPool.getEntry refIdx) >>= _) t = _
  rw [he]
  rfl

/-- A reference answers with the class of this name, or asks for it. -/
def AnswersWith (t : ClassTable) (this : ClassRef) (refIdx : UInt16) (name : String)
    (answer : ClassRef → ClassOrArray) : Prop :=
  (∀ c, t.lookup name = some c → ∃ t', getClassOrArrayByRef this refIdx t = .ok (answer c) t') ∧
    (t.lookup name = none → getClassOrArrayByRef this refIdx t = .error (.load name) t)

theorem byRef_linked_class (hcells : t.CellsNamed)
    (he : (t.get this).constantPool.getEntry refIdx = some e)
    (hu : e.unresolved = .class nameIdx none)
    (hn : (t.get this).constantPool.getUtf8 nameIdx = some name) :
    AnswersWith t this refIdx name .class := by
  have hnamed := hcells this refIdx e he
  cases e with
  | «class» nameIdx' resolved =>
    cases hu
    cases resolved with
    | none =>
      obtain ⟨hloaded, hasks⟩ := withClassOrLoadByName_returns t name ⟨this, refIdx⟩
        (fun c => .class nameIdx (some c)) .class
      rw [AnswersWith, byRef_class he hn]
      exact ⟨fun c hl => ⟨_, hloaded c hl⟩, hasks⟩
    | some c' =>
      obtain ⟨name', hn', hl'⟩ := hnamed
      cases hn.symm.trans hn'
      rw [AnswersWith, byRef_class_set he, hl']
      exact ⟨fun c hl => ⟨t, by cases hl; rfl⟩, fun hl => by cases hl⟩
  | _ => cases hu

theorem byRef_linked_classArray (hcells : t.CellsNamed)
    (he : (t.get this).constantPool.getEntry refIdx = some e)
    (hu : e.unresolved = .classArray descIdx dimensions none)
    (hd : (t.get this).constantPool.getUtf8 descIdx = some descriptor)
    (hn : arrayClassName descriptor = some name) :
    AnswersWith t this refIdx name (.classArray dimensions) := by
  have hnamed := hcells this refIdx e he
  cases e with
  | classArray descIdx' dimensions' resolved =>
    cases hu
    cases resolved with
    | none =>
      obtain ⟨hloaded, hasks⟩ := withClassOrLoadByName_returns t name ⟨this, refIdx⟩
        (fun c => .classArray descIdx dimensions (some c)) (.classArray dimensions)
      rw [AnswersWith, byRef_classArray he hd hn]
      exact ⟨fun c hl => ⟨_, hloaded c hl⟩, hasks⟩
    | some c' =>
      obtain ⟨descriptor', name', hd', hn', hl'⟩ := hnamed
      cases hd.symm.trans hd'
      cases hn.symm.trans hn'
      rw [AnswersWith, byRef_classArray_set he, hl']
      exact ⟨fun c hl => ⟨t, by cases hl; rfl⟩, fun hl => by cases hl⟩
  | _ => cases hu

/-- A cell of a class holds what the link step made of its constant, or that with its class set. -/
theorem VMClass.PoolFrom.cell {file : Class} {k : UInt16} (hpool : (t.get this).PoolFrom file)
    (hk : file.constantPool[k.toNat]? = some constant)
    (hr : ∀ methods fields,
      resolveEntry file.constantPool file.thisName methods fields constant = .ok linked) :
    ∃ e, (t.get this).constantPool.getEntry k = some e ∧ e.unresolved = linked.unresolved := by
  obtain ⟨methods, fields, pool, hfrom, hmap⟩ := hpool
  obtain ⟨e', hr', he'⟩ := pool_entry hfrom hk
  cases (hr methods fields).symm.trans hr'
  have hcell := congrArg (·[k.toNat]?) hmap
  simp only [List.getElem?_map, he', Option.map_some, Option.map_eq_some_iff] at hcell
  exact hcell

theorem getUtf8_constant (h : getUtf8 entries k target = .ok name) :
    entries[k.toNat]? = some (.utf8 name) := by
  rw [getUtf8, getConst] at h
  cases he : entries[k.toNat]? with
  | none =>
    rw [he] at h
    cases h
  | some constant =>
    rw [he] at h
    cases constant with
    | utf8 str =>
      cases h
      rfl
    | _ => cases h

theorem VMClass.PoolFrom.utf8 {file : Class} {k : UInt16} (hpool : (t.get this).PoolFrom file)
    (h : getUtf8 file.constantPool k target = .ok str) :
    (t.get this).constantPool.getUtf8 k = some str := by
  have hr : ∀ methods fields, resolveEntry file.constantPool file.thisName methods fields
      (.utf8 str) = .ok (.utf8 str) := fun _ _ => rfl
  obtain ⟨e, he, hu⟩ := hpool.cell (getUtf8_constant h) hr
  rw [VMConstantPool.getUtf8, he]
  cases e with
  | utf8 str' =>
    cases hu
    rfl
  | _ => cases hu

end

/-- A constant with a name like this, in the pool of a class that is in the table. -/
structure ClassConstant (t : ClassTable) (file : Class) (this : ClassRef) (refIdx : UInt16)
    (name : String) : Prop where
  pool : (t.get this).PoolFrom file
  cells : t.CellsNamed
  constant : ∃ nameIndex, file.constantPool[refIdx.toNat]? = some (.class nameIndex) ∧
    getUtf8 file.constantPool nameIndex "Class class name" = .ok name

namespace ClassConstant

theorem named (h : ClassConstant t file this refIdx name) :
    ∃ cn : ConstantName, cn.Proper ∧ name.toList = cn.text := by
  obtain ⟨methods, fields, pool, hfrom, _⟩ := h.pool
  obtain ⟨nameIndex, hk, hname⟩ := h.constant
  obtain ⟨e, hr, _⟩ := pool_entry hfrom hk
  exact accepted_named hname hr

theorem linked (h : ClassConstant t file this refIdx name) {cn : ConstantName} (hp : cn.Proper)
    (htext : name.toList = cn.text) :
    ∃ nameIndex e, (t.get this).constantPool.getUtf8 nameIndex = some name ∧
      (t.get this).constantPool.getEntry refIdx = some e ∧
      e.unresolved = (cn.linked nameIndex file.thisName).unresolved := by
  obtain ⟨nameIndex, hk, hname⟩ := h.constant
  obtain ⟨e, he, hu⟩ := h.pool.cell hk fun _ _ => resolveEntry_named hp hname htext
  exact ⟨nameIndex, e, h.pool.utf8 hname, he, hu⟩

theorem answered (h : ClassConstant t file this refIdx name) {cn : ConstantName} (hp : cn.Proper)
    (htext : name.toList = cn.text) (hload : ∀ n, cn.toLoad = some n → t.lookup n = some c)
    (hh : cn.Handled file.thisName) :
    ∃ found t', getClassOrArrayByRef this refIdx t = .ok found t' ∧ cn.Means c found := by
  obtain ⟨nameIndex, e, hutf8, he, hu⟩ := h.linked hp htext
  cases cn with
  | plain plainName =>
    cases String.toList_inj.1 htext
    obtain ⟨t', hr⟩ := (byRef_linked_class h.cells he hu hutf8).1 c (hload _ rfl)
    exact ⟨_, t', hr, .plain⟩
  | primitiveArray n ty trailing =>
    have hcell : e = .primitiveArray (.brackets n) ty.arrayType := by
      cases e <;> cases hu
      rfl
    rw [hcell] at he
    refine ⟨_, t, byRef_primitiveArray he, .primitiveArray ?_⟩
    rw [NonZeroU16.brackets_toNat hp]
    exact Nat.min_eq_left hh
  | classArray n className trailing =>
    obtain ⟨hn, hsemi⟩ := hp
    rw [ConstantName.linked, if_neg hh.2] at hu
    obtain ⟨t', hr⟩ := (byRef_linked_classArray h.cells he hu hutf8
      (arrayClassName_text hsemi htext)).1 c (hload _ rfl)
    refine ⟨_, t', hr, .classArray ?_⟩
    rw [NonZeroU16.brackets_toNat hn]
    exact Nat.min_eq_left hh.1

theorem handled (h : ClassConstant t file this refIdx name) {cn : ConstantName} (hp : cn.Proper)
    (htext : name.toList = cn.text) (hload : ∀ n, cn.toLoad = some n → t.lookup n = some c)
    (hr : getClassOrArrayByRef this refIdx t = .ok found t') (hm : cn.Means c found) :
    cn.Handled file.thisName := by
  obtain ⟨nameIndex, e, hutf8, he, hu⟩ := h.linked hp htext
  cases hm with
  | plain => trivial
  | @primitiveArray n ty trailing d hd =>
    have hcell : e = .primitiveArray (.brackets n) ty.arrayType := by
      cases e <;> cases hu
      rfl
    rw [hcell] at he
    cases (byRef_primitiveArray he).symm.trans hr
    rw [NonZeroU16.brackets_toNat hp] at hd
    change n ≤ 65535
    omega
  | @classArray n className trailing d hd =>
    obtain ⟨hn, hsemi⟩ := hp
    by_cases hself : className = file.thisName
    · have hcell : e = .resolvedClassArray (.brackets n) := by
        rw [ConstantName.linked, if_pos hself] at hu
        cases e <;> cases hu
        rfl
      rw [hcell] at he
      cases (byRef_resolvedClassArray he).symm.trans hr
    · rw [ConstantName.linked, if_neg hself] at hu
      obtain ⟨t'', hr'⟩ := (byRef_linked_classArray h.cells he hu hutf8
        (arrayClassName_text hsemi htext)).1 c (hload _ rfl)
      cases hr'.symm.trans hr
      rw [NonZeroU16.brackets_toNat hn] at hd
      exact ⟨by omega, hself⟩

theorem asks (h : ClassConstant t file this refIdx name) {cn : ConstantName} (hp : cn.Proper)
    (htext : name.toList = cn.text) (hname : cn.toLoad = some n) (hload : t.lookup n = none)
    (hh : cn.Handled file.thisName) :
    getClassOrArrayByRef this refIdx t = .error (.load n) t := by
  obtain ⟨nameIndex, e, hutf8, he, hu⟩ := h.linked hp htext
  cases cn with
  | plain plainName =>
    cases String.toList_inj.1 htext
    cases hname
    exact (byRef_linked_class h.cells he hu hutf8).2 hload
  | primitiveArray => cases hname
  | classArray dimensions className trailing =>
    cases hname
    rw [ConstantName.linked, if_neg hh.2] at hu
    exact (byRef_linked_classArray h.cells he hu hutf8 (arrayClassName_text hp.2 htext)).2 hload

end ClassConstant

/-- A class constant is turned into the class or array that its name stands for, once the class
named is loaded, exactly when it is no array of the class that holds it and a `u16` counts its
dimensions. Until then that class is asked for. -/
theorem classConstant_iff (h : ClassConstant t file this refIdx name) :
    (∃ cn : ConstantName, cn.Proper ∧ name.toList = cn.text) ∧
      ∀ cn : ConstantName, cn.Proper → name.toList = cn.text →
        (∀ c, (∀ n, cn.toLoad = some n → t.lookup n = some c) →
          ((∃ found t', getClassOrArrayByRef this refIdx t = .ok found t' ∧ cn.Means c found) ↔
            cn.Handled file.thisName)) ∧
        ∀ n, cn.toLoad = some n → t.lookup n = none → cn.Handled file.thisName →
          getClassOrArrayByRef this refIdx t = .error (.load n) t := by
  refine ⟨h.named, fun cn hp htext => ⟨fun c hload => ⟨?_, h.answered hp htext hload⟩, ?_⟩⟩
  · intro ⟨found, t', hr, hm⟩
    exact h.handled hp htext hload hr hm
  · exact fun n hname hload hh => h.asks hp htext hname hload hh

def arraysFile : Class where
  thisName := "A"
  superName := "java/lang/Object"
  minorVersion := 0
  majorVersion := 65
  accessFlags := .accPublic
  constantPool := [.unusable, .utf8 "[[LB;", .class 1, .utf8 "[LA;", .class 3]
  methods := []
  fields := []
  attributes := []

def arraysClass : VMClass where
  name := "A"
  superClass := some 0
  vtable := []
  staticVtable := []
  fields := []
  constantPool := [.unusable, .utf8 "[[LB;", .classArray 1 .two none, .utf8 "[LA;",
    .resolvedClassArray .one]

def arraysTable : ClassTable :=
  ⟨[.javaLangObject, { arraysClass with name := "B", constantPool := [] }, arraysClass],
    [("A", 2), ("B", 1), ("java/lang/Object", 0)]⟩

theorem arraysTable_cells : arraysTable.CellsNamed := by
  intro c idx e he
  have hunset : ∀ e ∈ (arraysTable.get c).constantPool, e.unresolved = e := by
    rcases c with _ | _ | _ | c
    · decide
    · decide
    · decide
    · intro e he
      cases he
  exact .of_unset (hunset e (List.mem_of_getElem? he)) _ _

theorem arraysFile_pool : (arraysTable.get 2).PoolFrom arraysFile :=
  ⟨[], [], arraysClass.constantPool, rfl, rfl⟩

theorem arrayOfOther_named : ∃ found t', getClassOrArrayByRef 2 2 arraysTable = .ok found t' ∧
    (ConstantName.classArray 2 "B" []).Means 1 found := by
  have h : ClassConstant arraysTable arraysFile 2 2 "[[LB;" :=
    ⟨arraysFile_pool, arraysTable_cells, 1, rfl, rfl⟩
  refine (((classConstant_iff h).2 (.classArray 2 "B" []) ?_ ?_).1 1 ?_).2 ?_
  · exact ⟨by decide, by decide⟩
  · decide
  · intro n hn
    cases hn
    rfl
  · exact ⟨by decide, by decide⟩

/-- The array of the class itself is accepted, and its class loaded, but no array is returned. -/
theorem ownArray_not_named :
    ClassConstant arraysTable arraysFile 2 4 "[LA;" ∧ arraysTable.lookup "A" = some 2 ∧
      ¬ ∃ found t', getClassOrArrayByRef 2 4 arraysTable = .ok found t' := by
  refine ⟨⟨arraysFile_pool, arraysTable_cells, 3, rfl, rfl⟩, rfl, ?_⟩
  rintro ⟨found, t', h⟩
  cases h

end Janadinite
