import Mathlib.Data.List.TakeWhile
import Janadinite.Parse.Class

namespace Janadinite
set_option autoImplicit true

inductive BaseType where
  | int
  | long
  | bool
  | char
  | byte
  | short
  | float
  | double
  deriving DecidableEq, Repr

namespace BaseType

def letter : BaseType → Char
  | int => 'I'
  | long => 'J'
  | bool => 'Z'
  | char => 'C'
  | byte => 'B'
  | short => 'S'
  | float => 'F'
  | double => 'D'

def descriptor : BaseType → FieldDescriptor
  | int => .int
  | long => .long
  | bool => .bool
  | char => .char
  | byte => .byte
  | short => .short
  | float => .float
  | double => .double

def slots : BaseType → Nat
  | long => 2
  | double => 2
  | _ => 1

end BaseType

/-- A class name as a class file may hold it: any characters but these three. -/
structure InternalName where
  chars : List Char
  allowed : ∀ c ∈ chars, c ≠ '.' ∧ c ≠ ';' ∧ c ≠ '['
  deriving DecidableEq

inductive FieldType where
  | base (ty : BaseType)
  | object (name : InternalName)
  | array (component : FieldType)
  deriving DecidableEq

namespace FieldType

def text : FieldType → List Char
  | base ty => [ty.letter]
  | object name => 'L' :: (name.chars ++ [';'])
  | array component => '[' :: component.text

def descriptors : FieldType → List FieldDescriptor
  | base ty => [ty.descriptor]
  | object name => [.object (String.ofList name.chars)]
  | array component => .array :: component.descriptors

def slots : FieldType → Nat
  | base ty => ty.slots
  | _ => 1

/-- The class the type names at the end of its brackets, if it names one. -/
def className : FieldType → List Char
  | base _ => []
  | object name => name.chars
  | array component => component.className

end FieldType

theorem fromChars_name (name read data : List Char) (hn : ';' ∉ name) :
    FieldDescriptor.fromChars (some read) (name ++ ';' :: data) =
      .object (String.ofList (read.reverse ++ name)) :: FieldDescriptor.fromChars none data := by
  induction name generalizing read with
  | nil => simp [FieldDescriptor.fromChars]
  | cons c name ih =>
    obtain ⟨hc, hn⟩ := List.ne_and_not_mem_of_not_mem_cons hn
    rw [List.cons_append, FieldDescriptor.fromChars, if_neg hc.symm, ih _ hn]
    simp

theorem InternalName.semicolon (name : InternalName) : ';' ∉ name.chars :=
  fun h => (name.allowed _ h).2.1 rfl

theorem fromChars_text (ty : FieldType) (data : List Char) :
    FieldDescriptor.fromChars none (ty.text ++ data) =
      ty.descriptors ++ FieldDescriptor.fromChars none data := by
  induction ty with
  | base ty => cases ty <;> rfl
  | object name =>
    change FieldDescriptor.fromChars (some []) ((name.chars ++ [';']) ++ data) = _
    rw [List.append_assoc, List.singleton_append, fromChars_name _ _ _ name.semicolon]
    rfl
  | array component ih =>
    change FieldDescriptor.array :: FieldDescriptor.fromChars none (component.text ++ data) = _
    rw [ih]
    rfl

theorem fromStr_text (ty : FieldType) :
    FieldDescriptor.fromStr (String.ofList ty.text) = ty.descriptors := by
  have h := fromChars_text ty []
  rw [List.append_nil] at h
  simpa [FieldDescriptor.fromStr, FieldDescriptor.fromChars] using h

theorem firstSlotCount_descriptors (ty : FieldType) :
    firstSlotCount ty.descriptors = ty.slots := by
  cases ty with
  | base ty => cases ty <;> rfl
  | object => rfl
  | array => rfl

theorem fieldSlots_text (ty : FieldType) :
    firstSlotCount (FieldDescriptor.fromStr (String.ofList ty.text)) = ty.slots := by
  rw [fromStr_text, firstSlotCount_descriptors]

/-- The parameters of a method and the type it returns, none for `void`. -/
structure MethodType where
  params : List FieldType
  ret : Option FieldType
  deriving DecidableEq

namespace MethodType

def paramsText (ty : MethodType) : List Char := ty.params.flatMap FieldType.text

def retText (ty : MethodType) : List Char := (ty.ret.map FieldType.text).getD ['V']

def descriptor (ty : MethodType) : String :=
  String.ofList ('(' :: (ty.paramsText ++ ')' :: ty.retText))

def classNames (ty : MethodType) : List (List Char) :=
  (ty.params ++ ty.ret.toList).map FieldType.className

/-- What a parsed descriptor holds of the type it was written for. -/
structure Parsed (ty : MethodType) (desc : MethodDescriptor) : Prop where
  args : MethodDescriptor.argItems [] false desc.args = ty.params.map FieldType.text
  ret : desc.ret = ty.retText
  size : desc.argsSize = (ty.params.map FieldType.slots).sum

end MethodType

namespace MethodDescriptor

theorem argItems_name (name item data : List Char) (hn : ';' ∉ name) :
    argItems item true (name ++ ';' :: data) =
      (item.reverse ++ (name ++ [';'])) :: argItems [] false data := by
  induction name generalizing item with
  | nil => simp [argItems]
  | cons c name ih =>
    obtain ⟨hc, hn⟩ := List.ne_and_not_mem_of_not_mem_cons hn
    rw [List.cons_append, argItems, if_pos rfl, if_neg hc.symm, ih _ hn]
    simp

theorem argItems_text (ty : FieldType) (item data : List Char) :
    argItems item false (ty.text ++ data) =
      (item.reverse ++ ty.text) :: argItems [] false data := by
  induction ty generalizing item with
  | base ty => cases ty <;> simp [FieldType.text, BaseType.letter, argItems]
  | object name =>
    change argItems ('L' :: item) true ((name.chars ++ [';']) ++ data) = _
    rw [List.append_assoc, List.singleton_append, argItems_name _ _ _ name.semicolon]
    simp [FieldType.text]
  | array component ih =>
    change argItems ('[' :: item) false (component.text ++ data) = _
    rw [ih]
    simp [FieldType.text]

theorem argItems_params (params : List FieldType) :
    argItems [] false (params.flatMap FieldType.text) = params.map FieldType.text := by
  induction params with
  | nil => rfl
  | cons ty params ih =>
    rw [List.flatMap_cons, argItems_text, ih]
    rfl

theorem argItems_length (item : List Char) (object : Bool) (data : List Char) :
    (argItems item object data).flatten.length ≤ item.length + data.length := by
  induction data generalizing item object with
  | nil => simp [argItems]
  | cons c data ih =>
    have hcut : ((c :: item).reverse :: argItems [] false data).flatten.length ≤
        item.length + (c :: data).length := by
      have := ih [] false
      simp only [List.flatten_cons, List.length_append, List.length_reverse,
        List.length_cons, List.length_nil] at this ⊢
      omega
    have hgrow (object : Bool) : (argItems (c :: item) object data).flatten.length ≤
        item.length + (c :: data).length := by
      have := ih (c :: item) object
      simp only [List.length_cons] at this ⊢
      omega
    rw [argItems]
    split
    · split
      · exact hcut
      · exact hgrow true
    · split
      · exact hgrow false
      · split
        · exact hgrow true
        · exact hcut

end MethodDescriptor

/-- The first piece of a split ends where the first separator stands. -/
theorem splitOnP_first_piece (p : α → Bool) (xs : List α) :
    (xs.splitOnP p).getD 0 [] = xs.takeWhile fun x => !p x := by
  rw [List.getD_eq_getElem?_getD, ← List.head?_eq_getElem?]
  induction xs with
  | nil => rfl
  | cons x xs ih =>
    obtain ⟨piece, pieces, hs⟩ := List.exists_cons_of_ne_nil (List.splitOnP_ne_nil p xs)
    rw [hs] at ih
    rw [List.splitOnP_cons_eq_if_modifyHead, hs]
    by_cases hx : p x
    · simp [hx]
    · simpa [hx] using ih

namespace MethodType

def paren (c : Char) : Bool := ['(', ')'].contains c

theorem new_args (ty : MethodType) :
    (MethodDescriptor.new ty.descriptor).args = ty.paramsText.takeWhile fun c => !paren c := by
  rw [← splitOnP_first_piece]
  obtain ⟨piece, pieces, hs⟩ :=
    List.exists_cons_of_ne_nil (List.splitOnP_ne_nil paren ty.paramsText)
  have hsplit : ty.descriptor.toList.splitOnP paren =
      [] :: (ty.paramsText.splitOnP paren ++ ty.retText.splitOnP paren) := by
    rw [descriptor, String.toList_ofList, List.splitOnP_cons_eq_if_modifyHead, if_pos (by decide),
      List.splitOnP_append_cons _ _ (by decide)]
  change (ty.descriptor.toList.splitOnP paren).getD 1 [] = _
  rw [hsplit, hs]
  rfl

theorem new_ret (ty : MethodType) (hp : ∀ c ∈ ty.paramsText, paren c = false) :
    (MethodDescriptor.new ty.descriptor).ret = ty.retText.takeWhile fun c => !paren c := by
  rw [← splitOnP_first_piece]
  have hsplit : ty.descriptor.toList.splitOnP paren =
      [] :: ty.paramsText :: ty.retText.splitOnP paren := by
    rw [descriptor, String.toList_ofList, List.splitOnP_cons_eq_if_modifyHead, if_pos (by decide),
      List.splitOnP_append_cons_of_forall_mem hp _ (by decide)]
  change (ty.descriptor.toList.splitOnP paren).getD 2 [] = _
  rw [hsplit]
  rfl

/-- No class named in the type has a parenthesis in its name. -/
def Unparenthesised (ty : MethodType) : Prop :=
  ∀ name ∈ ty.classNames, ∀ c ∈ name, paren c = false

theorem text_unparenthesised (ty : FieldType) :
    (∀ c ∈ ty.text, paren c = false) ↔ ∀ c ∈ ty.className, paren c = false := by
  induction ty with
  | base ty => cases ty <;> simp [FieldType.text, FieldType.className, BaseType.letter, paren]
  | object name =>
    have hl : paren 'L' = false := by decide
    have hs : paren ';' = false := by decide
    simp [FieldType.text, FieldType.className, or_imp, forall_and, hl, hs]
  | array component ih =>
    have hb : paren '[' = false := by decide
    simpa [FieldType.text, FieldType.className, hb] using ih

theorem retText_unparenthesised (ty : MethodType) :
    (∀ c ∈ ty.retText, paren c = false) ↔
      ∀ ret ∈ ty.ret.toList, ∀ c ∈ ret.className, paren c = false := by
  cases h : ty.ret with
  | none =>
    have hv : paren 'V' = false := by decide
    simp [retText, h, hv]
  | some ret => simpa [retText, h] using text_unparenthesised ret

theorem unparenthesised_iff (ty : MethodType) :
    ty.Unparenthesised ↔
      (∀ c ∈ ty.paramsText, paren c = false) ∧ ∀ c ∈ ty.retText, paren c = false := by
  have hp : (∀ c ∈ ty.paramsText, paren c = false) ↔
      ∀ param ∈ ty.params, ∀ c ∈ param.className, paren c = false := by
    simp only [← text_unparenthesised, paramsText, List.mem_flatMap]
    exact ⟨fun h param hm c hc => h c ⟨param, hm, hc⟩,
      fun h c ⟨param, hm, hc⟩ => h param hm c hc⟩
  rw [hp, retText_unparenthesised]
  simp [Unparenthesised, classNames, or_imp, forall_and]

theorem takeWhile_eq_iff (chars : List Char) :
    (chars.takeWhile fun c => !paren c) = chars ↔ ∀ c ∈ chars, paren c = false := by
  simp [List.takeWhile_eq_self_iff]

theorem argsSize_params (params : List FieldType) (desc : MethodDescriptor)
    (h : MethodDescriptor.argItems [] false desc.args = params.map FieldType.text) :
    desc.argsSize = (params.map FieldType.slots).sum := by
  have hd : desc.argsDescriptors = params.map FieldType.descriptors := by
    rw [MethodDescriptor.argsDescriptors, h, List.map_map]
    apply List.map_congr_left
    intro ty _
    simpa [FieldDescriptor.fromChars] using fromChars_text ty []
  rw [MethodDescriptor.argsSize, hd, List.map_map]
  congr 1
  exact List.map_congr_left fun ty _ => firstSlotCount_descriptors ty

theorem paramsText_of_items (ty : MethodType)
    (h : MethodDescriptor.argItems [] false (ty.paramsText.takeWhile fun c => !paren c) =
      ty.params.map FieldType.text) :
    ∀ c ∈ ty.paramsText, paren c = false := by
  rw [← takeWhile_eq_iff]
  -- The items are no longer than what they are cut from, a prefix of the parameters' text.
  have hlen := MethodDescriptor.argItems_length [] false (ty.paramsText.takeWhile fun c => !paren c)
  rw [h, ← List.flatMap_def, List.length_nil, Nat.zero_add] at hlen
  exact (List.takeWhile_prefix _).eq_of_length_le hlen

/-- A parsed descriptor holds its parameters, their size and its return type exactly when no class
it names has a parenthesis in its name. -/
theorem parsed_iff (ty : MethodType) :
    ty.Parsed (.new ty.descriptor) ↔ ty.Unparenthesised := by
  rw [unparenthesised_iff]
  constructor
  · intro h
    have hp := paramsText_of_items ty (ty.new_args ▸ h.args)
    exact ⟨hp, (takeWhile_eq_iff _).1 ((ty.new_ret hp).symm.trans h.ret)⟩
  · intro ⟨hp, hr⟩
    have hitems : MethodDescriptor.argItems [] false (MethodDescriptor.new ty.descriptor).args =
        ty.params.map FieldType.text := by
      rw [new_args, (takeWhile_eq_iff _).2 hp]
      exact MethodDescriptor.argItems_params ty.params
    exact ⟨hitems, (ty.new_ret hp).trans ((takeWhile_eq_iff _).2 hr),
      argsSize_params ty.params _ hitems⟩

/-- The descriptor `(La(b;J)V` is cut at the parenthesis in the name of the class. -/
theorem parenthesis_cut : ¬ ∀ ty : MethodType, ty.Parsed (.new ty.descriptor) := by
  intro h
  have hsize := (h ⟨[.object ⟨['a', '(', 'b'], by simp⟩, .base .long], none⟩).size
  revert hsize
  decide

end MethodType
end Janadinite
