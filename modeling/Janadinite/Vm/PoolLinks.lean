import Janadinite.Vm.ClassConstants

namespace Janadinite
open Hoare
set_option autoImplicit true

/-- The references of an entry to other entries of its pool lead to what they have to. -/
def VMConstantPoolEntry.Linked (pool : VMConstantPool) : VMConstantPoolEntry → Prop
  | .class nameIdx _ => ∃ name, pool.getUtf8 nameIdx = some name
  | .classArray descIdx _ _ => ∃ descriptor name, pool.getUtf8 descIdx = some descriptor ∧
      arrayClassName descriptor = some name
  | .nameAndType nameIdx descIdx => (∃ name, pool.getUtf8 nameIdx = some name) ∧
      ∃ descriptor, pool.getUtf8 descIdx = some descriptor
  | .methodRef _ nameAndDesc _ => ∃ nameIdx descIdx,
      pool.getEntry nameAndDesc = some (.nameAndType nameIdx descIdx)
  | .filedRef _ nameAndDesc _ => ∃ nameIdx descIdx,
      pool.getEntry nameAndDesc = some (.nameAndType nameIdx descIdx)
  | _ => True

def VMConstantPool.Linked (pool : VMConstantPool) : Prop :=
  ∀ index e, pool.getEntry index = some e → e.Linked pool

theorem fromUnresolved_utf8
    (h : VMConstantPool.fromUnresolved entries thisName methods fields = .ok pool)
    (hs : getUtf8 entries k target = .ok str) : pool.getUtf8 k = some str := by
  obtain ⟨e, he, hk⟩ := pool_entry h (getUtf8_constant hs)
  cases he
  rw [VMConstantPool.getUtf8, VMConstantPool.getEntry, hk]

theorem getNameAndTypeConst_constant
    (h : getNameAndTypeConst entries k target = .ok (nameIdx, descIdx)) :
    entries[k.toNat]? = some (.nameAndType nameIdx descIdx) := by
  rw [getNameAndTypeConst, getConst] at h
  cases he : entries[k.toNat]? with
  | none =>
    rw [he] at h
    cases h
  | some constant =>
    rw [he] at h
    cases constant with
    | nameAndType n d =>
      cases h
      rfl
    | _ => cases h

theorem fromUnresolved_nameAndType
    (h : VMConstantPool.fromUnresolved entries thisName methods fields = .ok pool)
    (hs : getNameAndTypeConst entries k target = .ok (nameIdx, descIdx)) :
    pool.getEntry k = some (.nameAndType nameIdx descIdx) := by
  obtain ⟨e, he, hk⟩ := pool_entry h (getNameAndTypeConst_constant hs)
  obtain ⟨_, _, he⟩ := exceptBind_ok he
  obtain ⟨_, _, he⟩ := exceptBind_ok he
  cases he
  exact hk

theorem memberRef_nameAndType (h : memberRef entries classIndex k = .ok ref) :
    ∃ nameIdx descIdx, getNameAndTypeConst entries k
      "Fieldref/Methodref name and type index" = .ok (nameIdx, descIdx) := by
  obtain ⟨_, _, h⟩ := exceptBind_ok h
  obtain ⟨⟨nameIdx, descIdx⟩, hn, _⟩ := exceptBind_ok h
  exact ⟨nameIdx, descIdx, hn⟩

/-- The link step checks every reference that it leaves in a pool. -/
theorem fromUnresolved_linked
    (h : VMConstantPool.fromUnresolved entries thisName methods fields = .ok pool) :
    pool.Linked := by
  intro index e hk
  obtain ⟨constant, _, hr⟩ := pool_constant h hk
  cases constant with
  | nameAndType nameIdx descIdx =>
    obtain ⟨name, hn, hr⟩ := exceptBind_ok hr
    obtain ⟨descriptor, hd, hr⟩ := exceptBind_ok hr
    cases hr
    exact ⟨⟨name, fromUnresolved_utf8 h hn⟩, descriptor, fromUnresolved_utf8 h hd⟩
  | «class» nameIdx =>
    obtain ⟨name, hname, _⟩ := exceptBind_ok hr
    obtain ⟨cn, hp, htext⟩ := accepted_named hname hr
    cases (resolveEntry_named hp hname htext).symm.trans hr
    cases cn with
    | plain plainName => exact ⟨name, fromUnresolved_utf8 h hname⟩
    | primitiveArray => trivial
    | classArray n className trailing =>
      rw [ConstantName.linked]
      split
      · trivial
      · exact ⟨name, className, fromUnresolved_utf8 h hname, arrayClassName_text hp.2 htext⟩
  | methodref classIndex nameAndTypeIndex =>
    obtain ⟨ref, href, hr⟩ := exceptBind_ok hr
    obtain ⟨nameIdx, descIdx, hn⟩ := memberRef_nameAndType href
    cases hm : eagerMethod thisName methods ref with
    | some meth =>
      rw [hm] at hr
      cases hr
      trivial
    | none =>
      rw [hm] at hr
      cases hr
      exact ⟨nameIdx, descIdx, fromUnresolved_nameAndType h hn⟩
  | fieldref classIndex nameAndTypeIndex =>
    obtain ⟨ref, href, hr⟩ := exceptBind_ok hr
    obtain ⟨nameIdx, descIdx, hn⟩ := memberRef_nameAndType href
    cases hf : eagerField thisName fields ref with
    | some field =>
      rw [hf] at hr
      cases hr
      trivial
    | none =>
      rw [hf] at hr
      cases hr
      exact ⟨nameIdx, descIdx, fromUnresolved_nameAndType h hn⟩
  | _ =>
    cases hr
    trivial

/-- Setting cells leaves the names and types of a pool as they are. -/
theorem getEntry_nameAndType {pool pool' : VMConstantPool} {index : UInt16}
    (h : pool'.map VMConstantPoolEntry.unresolved = pool.map VMConstantPoolEntry.unresolved)
    (he : pool.getEntry index = some (.nameAndType nameIdx descIdx)) :
    pool'.getEntry index = some (.nameAndType nameIdx descIdx) := by
  have hcell := congrArg (·[index.toNat]?) h
  rw [VMConstantPool.getEntry] at he ⊢
  simp only [List.getElem?_map, he, Option.map_some, Option.map_eq_some_iff] at hcell
  obtain ⟨e, he', hu⟩ := hcell
  cases e with
  | nameAndType n d =>
    cases hu
    exact he'
  | _ => cases hu

theorem VMConstantPoolEntry.Linked.congr {pool pool' : VMConstantPool} {e e' : VMConstantPoolEntry}
    (h : e.Linked pool)
    (hp : pool'.map VMConstantPoolEntry.unresolved = pool.map VMConstantPoolEntry.unresolved)
    (he : e'.unresolved = e.unresolved) : e'.Linked pool' := by
  have hutf8 := getUtf8_unresolved hp
  cases e with
  | «class» nameIdx resolved =>
    cases e' with
    | «class» =>
      cases he
      exact h.imp fun _ hn => (hutf8 nameIdx).trans hn
    | _ => cases he
  | classArray descIdx dimensions resolved =>
    cases e' with
    | classArray =>
      cases he
      obtain ⟨descriptor, name, hd, hn⟩ := h
      exact ⟨descriptor, name, (hutf8 descIdx).trans hd, hn⟩
    | _ => cases he
  | nameAndType nameIdx descIdx =>
    cases e' with
    | nameAndType =>
      cases he
      exact ⟨h.1.imp fun _ hn => (hutf8 nameIdx).trans hn,
        h.2.imp fun _ hd => (hutf8 descIdx).trans hd⟩
    | _ => cases he
  | methodRef classIdx nameAndDesc resolved =>
    cases e' with
    | methodRef =>
      cases he
      exact h.imp fun _ hn => hn.imp fun _ hd => getEntry_nameAndType hp hd
    | _ => cases he
  | filedRef classIdx nameAndDesc resolved =>
    cases e' with
    | filedRef =>
      cases he
      exact h.imp fun _ hn => hn.imp fun _ hd => getEntry_nameAndType hp hd
    | _ => cases he
  | _ =>
    cases e' with
    | «class» | classArray | nameAndType | methodRef | filedRef => cases he
    | _ => trivial

theorem VMConstantPool.Linked.congr {pool pool' : VMConstantPool} (h : pool.Linked)
    (hp : pool'.map VMConstantPoolEntry.unresolved = pool.map VMConstantPoolEntry.unresolved) :
    pool'.Linked := by
  intro index e' he'
  have hcell := congrArg (·[index.toNat]?) hp
  rw [getEntry] at he'
  simp only [List.getElem?_map, he', Option.map_some] at hcell
  obtain ⟨e, he, hu⟩ := Option.map_eq_some_iff.mp hcell.symm
  exact (h index e he).congr hp hu.symm

end Janadinite
