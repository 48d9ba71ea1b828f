import Janadinite.Lib.Triple
import Janadinite.Vm.Class

namespace Janadinite
open Hoare
set_option autoImplicit true

/-- What of a field never changes after the class is made: its static slots are left out. -/
def VMField.layout (f : VMField) : FieldOff × Option UInt32 × JVMField :=
  (f.idx, f.objOff, f.field)

/-- A class as it was made, or later, with other static slots and constant pool cells. -/
structure VMClass.SameLayout (s' s : VMClass) : Prop where
  name : s'.name = s.name
  superClass : s'.superClass = s.superClass
  vtable : s'.vtable = s.vtable
  staticVtable : s'.staticVtable = s.staticVtable
  fields : s'.fields.map VMField.layout = s.fields.map VMField.layout

/-- The classes `create` builds, with the class files of the class and its superclasses, nearest
first. A superclass may have been in use before the subclass is made. -/
inductive Built (p : Profile) : List Class → VMClass → Prop
  | object : Built p [] .javaLangObject
  | root (h : VMClass.create p cls none = .ok v) : Built p [cls] v
  | extend (hs : Built p supers s) (hl : s'.SameLayout s)
      (h : VMClass.create p cls (some (r, s')) = .ok v) : Built p (cls :: supers) v

/-- The fields of the superclass that `create` goes through, none without a superclass. -/
def supeFields (superClass : Option (ClassRef × VMClass)) : List VMField :=
  (superClass.map fun supe => supe.2.fields).getD []

def supeVtable (superClass : Option (ClassRef × VMClass)) : List VMMethod :=
  (superClass.map fun supe => supe.2.vtable).getD []

/-- How the parts of a created class are made. -/
structure CreateParts (p : Profile) (cls : Class) (superClass : Option (ClassRef × VMClass))
    (v : VMClass) (currOff : UInt32) (inherited own : List VMField) : Prop where
  inherit : VMClass.inheritFields p 0 (supeFields superClass) = .ok (currOff, inherited)
  declare : VMClass.ownFields p 0 currOff cls.fields = .ok own
  fields : v.fields = inherited ++ own
  tables : (v.vtable, v.staticVtable) =
    cls.methods.foldl VMClass.addMethod (supeVtable superClass, [])
  name : v.name = cls.thisName
  superClass : v.superClass = superClass.map Prod.fst
  pool : VMConstantPool.fromUnresolved cls.constantPool v.name (v.vtable ++ v.staticVtable) v.fields
    = .ok v.constantPool

theorem create_parts (h : VMClass.create p cls superClass = .ok v) :
    ∃ currOff inherited own, CreateParts p cls superClass v currOff inherited own := by
  obtain ⟨⟨currOff, inherited⟩, hi, h⟩ := exceptBind_ok h
  obtain ⟨own, ho, h⟩ := exceptBind_ok h
  obtain ⟨pool, hp, h⟩ := exceptBind_ok h
  cases h
  exact ⟨currOff, inherited, own, hi, ho, rfl, rfl, rfl, rfl, hp⟩

section
variable {k : Nat}

theorem pool_entry (h : VMConstantPool.fromUnresolved entries thisName methods fields = .ok pool)
    (hk : entries[k]? = some constant) :
    ∃ e, resolveEntry entries thisName methods fields constant = .ok e ∧ pool[k]? = some e := by
  obtain ⟨hlen, hat⟩ := mapM_ok h
  have hlt : k < pool.length := hlen ▸ (List.getElem?_eq_some_iff.mp hk).1
  exact ⟨pool[k], hat k _ _ hk (List.getElem?_eq_getElem hlt), List.getElem?_eq_getElem hlt⟩

theorem pool_constant (h : VMConstantPool.fromUnresolved entries thisName methods fields = .ok pool)
    (hk : pool[k]? = some e) :
    ∃ constant, entries[k]? = some constant ∧
      resolveEntry entries thisName methods fields constant = .ok e := by
  obtain ⟨hlen, hat⟩ := mapM_ok h
  have hlt : k < entries.length := hlen ▸ (List.getElem?_eq_some_iff.mp hk).1
  exact ⟨entries[k], List.getElem?_eq_getElem hlt, hat k _ _ (List.getElem?_eq_getElem hlt) hk⟩

end

end Janadinite
