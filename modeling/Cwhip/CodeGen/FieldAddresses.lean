/-
  Cwhip.CodeGen.FieldAddresses

  Field lookup and the addresses of fields in emitted code
  (`CodeGeneratorLayout.cpp`).

  A field path leads through bases to a field.  Emitted code follows it from any
  view of an object, and ends up at the one place of the field.
-/

import Cwhip.Inheritance.Layout
import Cwhip.CodeGen.SubobjectSpots

namespace Cwhip.CodeGen

open Cwhip.Lib
open Cwhip.Inheritance (BaseInfo PathIndex)

/-! ## Field paths -/

/-- The index that leads from a class to one of its bases. -/
def basePathIndex (current : ClassDeclaration) (index : Nat) (base : BaseInfo × ClassDeclaration) :
    PathIndex :=
  if base.1.isVirtual then .virtualSlot ((virtualBaseNames current).idxOf base.2.label.name)
  else .base index

section

-- the names of the fields of a class, by their indices
variable (fieldName : ClassInfo → Nat → Text)

def declaredField (info : ClassInfo) (name : Text) : Option Nat :=
  (List.range info.fields.length).find? fun index => fieldName info index == name

mutual

/-- `CodeGenerator::findField`: the path, and the class and the index of the
    field. -/
def findField (name : Text) : ClassDeclaration → Option (List PathIndex × ClassDeclaration × Nat)
  | .node info bases =>
    match findFieldBases name (.node info bases) bases 0 with
    | some found => some found
    | none => (declaredField fieldName info name).map fun index =>
      ([.field index], .node info bases, index)

def findFieldBases (name : Text) (current : ClassDeclaration) :
    Edges ClassInfo BaseInfo → Nat → Option (List PathIndex × ClassDeclaration × Nat)
  | .nil, _ => none
  | .cons edge base rest, index =>
    match findField name base with
    | some (path, found) => some (basePathIndex current index (edge, base) :: path, found)
    | none => findFieldBases name current rest (index + 1)

end

end

/-- `CodeGenerator::emitFieldAddress`, which fails on a path with no field in it. -/
def emitFieldAddress (p : Program) (memory : Memory) :
    Nat → ClassDeclaration → List PathIndex → Option Nat
  | _, _, [] => none
  | pointer, current, .virtualSlot slot :: rest => do
    let name ← (virtualBaseNames current)[slot]?
    let index ← virtualBasePointerIndex current name
    let slotAddress ← memberAddress pointer current index
    let base ← p.find name
    emitFieldAddress p memory (memory slotAddress) base rest
  | pointer, current, .base index :: rest => do
    let address ← memberAddress pointer current (index + 2)
    let base ← current.edges[index]?
    let base ← p.find base.2.label.name
    emitFieldAddress p memory address base rest
  | pointer, current, .field index :: _ => memberAddress pointer current (fieldIndex current index)

/-- A field path through the bases of some names to a field of a class. -/
inductive FieldPath (u : ClassDeclaration) (field : Nat) :
    ClassDeclaration → List Text → List PathIndex → Prop where
  | field : FieldPath u field u [] [.field field]
  | base {c : ClassDeclaration} {index : Nat} {base : BaseInfo × ClassDeclaration}
      {names : List Text} {path : List PathIndex} (hbase : c.edges[index]? = some base)
      (h : FieldPath u field base.2 names path) :
      FieldPath u field c (base.2.label.name :: names) (basePathIndex c index base :: path)

/-! ### Lookup -/

section

variable {fieldName : ClassInfo → Nat → Text}

theorem declaredField_spec {info : ClassInfo} {name : Text} {field : Nat}
    (h : declaredField fieldName info name = some field) :
    field < info.fields.length ∧ fieldName info field = name :=
  ⟨List.mem_range.mp (List.mem_of_find?_eq_some h), by simpa using List.find?_some h⟩

mutual

theorem findField_path {name : Text} {c u : ClassDeclaration} {path : List PathIndex} {field : Nat}
    (h : findField fieldName name c = some (path, u, field)) :
    (field < u.label.fields.length ∧ fieldName u.label field = name) ∧
      ∃ names, FieldPath u field c names path := by
  match c with
  | .node info bases =>
    rw [findField] at h
    split at h
    · next found hfound =>
      obtain rfl := Option.some.inj h
      obtain ⟨index, base, names, path', hget, hdeclared, hpath, rfl⟩ := findFieldBases_path hfound
      rw [Nat.zero_add]
      exact ⟨hdeclared, _, .base hget hpath⟩
    · obtain ⟨index, hindex, hfound⟩ := Option.map_eq_some_iff.mp h
      cases hfound
      exact ⟨declaredField_spec hindex, [], .field⟩

theorem findFieldBases_path {name : Text} {current u : ClassDeclaration}
    {bases : Edges ClassInfo BaseInfo} {start field : Nat} {path : List PathIndex}
    (h : findFieldBases fieldName name current bases start = some (path, u, field)) :
    ∃ index base names path', bases.toList[index]? = some base ∧
      (field < u.label.fields.length ∧ fieldName u.label field = name) ∧
      FieldPath u field base.2 names path' ∧ path = basePathIndex current (start + index) base ::
      path' := by
  match bases with
  | .nil =>
    rw [findFieldBases] at h
    cases h
  | .cons edge base rest =>
    rw [findFieldBases] at h
    split at h
    · next path' found hfound =>
      obtain ⟨rfl, rfl⟩ := Prod.mk.inj (Option.some.inj h)
      obtain ⟨hdeclared, names, hpath⟩ := findField_path hfound
      exact ⟨0, (edge, base), names, path', rfl, hdeclared, hpath, rfl⟩
    · obtain ⟨index, other, names, path', hget, hdeclared, hpath, rfl⟩ := findFieldBases_path h
      refine ⟨index + 1, other, names, path', hget, hdeclared, hpath, ?_⟩
      rw [Nat.add_assoc, Nat.add_comm 1]

end

end

/-! ### Addresses -/

theorem baseAt_of_getElem {c : ClassDeclaration}
    (hdistinct : (c.edges.map fun base => base.2.label.name).Nodup) {index : Nat}
    {base : BaseInfo × ClassDeclaration} (h : c.edges[index]? = some base) :
    baseAt c base.2.label.name = some (index, base) := by
  obtain ⟨index', hat⟩ := baseAt_of_find (find_of_mem hdistinct (List.mem_of_getElem? h))
  have hget := (baseAt_eq_some hat).1
  have hnames : (c.edges.map fun base => base.2.label.name)[index]?
      = (c.edges.map fun base => base.2.label.name)[index']? := by
    rw [List.getElem?_map, List.getElem?_map, h, hget]
  have hlt : index < (c.edges.map fun base => base.2.label.name).length := by
    rw [List.length_map]
    exact (List.getElem?_eq_some_iff.mp h).1
  rw [hat, (List.getElem?_inj hlt hdistinct).mp hnames]

section

variable {p : Program} {c u : ClassDeclaration} {field : Nat} {names : List Text}
    {path : List PathIndex}

theorem FieldPath.walk_eq (h : FieldPath u field c names path) (hc : c ∈ p.classes) (spot : Spot) :
    ∃ spot', walk c spot names = some (u, spot') := by
  induction h generalizing spot with
  | field => exact ⟨spot, rfl⟩
  | base hbase h ih =>
    have hmem := List.mem_of_getElem? hbase
    obtain ⟨spot', hwalk⟩ := ih (p.mem_base hc hmem) _
    exact ⟨spot', walk_cons.mpr ⟨_, find_of_mem (p.directBases _ hc) hmem, hwalk⟩⟩

theorem FieldPath.emitFieldAddress_eq (h : FieldPath u field c names path) (hc : c ∈ p.classes)
    (memory : Memory) (pointer : Nat) :
    emitFieldAddress p memory pointer c path
      = (emitSubobjectAddress memory pointer c names).bind fun address =>
          memberAddress address u (fieldIndex u field) := by
  induction h generalizing pointer with
  | field => rfl
  | @base c index base names path hbase h ih =>
    have hmem := List.mem_of_getElem? hbase
    have hat := baseAt_of_getElem (p.directBases _ hc) hbase
    have hfind : p.find base.2.label.name = some base.2 :=
      p.find_subtree hc (Tree.mem_subtrees_edge hmem)
    have hrest := ih (p.mem_base hc hmem)
    rw [emitSubobjectAddress, hat, basePathIndex]
    cases hvirtual : base.1.isVirtual with
    | true =>
      -- the slot of the name holds the name
      have hname : base.2.label.name ∈ virtualBaseNames c :=
        (mem_virtualBaseNames (p.distinctBases hc) (p.coherent hc)).mpr
          ⟨base.2, ⟨c, Tree.mem_subtrees_self _, base, hmem, hvirtual, rfl⟩, rfl⟩
      have hslot : (virtualBaseNames c)[(virtualBaseNames c).idxOf base.2.label.name]?
          = some base.2.label.name := by
        rw [List.getElem?_eq_getElem (List.idxOf_lt_length_of_mem hname)]
        exact congrArg some (List.getElem_idxOf _)
      simp only [if_true, emitFieldAddress, hslot, hfind, Option.bind_eq_bind, Option.bind_some,
        hvirtual, hrest, Option.bind_assoc]
    | false =>
      simp only [Bool.false_eq_true, if_false, emitFieldAddress, hbase, hfind, Option.bind_eq_bind,
        Option.bind_some, hvirtual, hrest, Option.bind_assoc]

end

theorem emitSubobjectAddress_append {memory : Memory} {c u : ClassDeclaration} {spot spot' : Spot}
    {path rest : List Text} (hwalk : walk c spot path = some (u, spot')) (pointer : Nat) :
    emitSubobjectAddress memory pointer c (path ++ rest)
      = (emitSubobjectAddress memory pointer c path).bind fun address =>
          emitSubobjectAddress memory address u rest := by
  induction path generalizing c spot pointer with
  | nil =>
    obtain ⟨rfl, -⟩ := Prod.mk.inj (Option.some.inj hwalk)
    rfl
  | cons name path ih =>
    obtain ⟨base, hfind, hpath⟩ := walk_cons.mp hwalk
    obtain ⟨index, hat⟩ := baseAt_of_find hfind
    rw [List.cons_append, emitSubobjectAddress, emitSubobjectAddress, hat]
    simp only [Option.bind_eq_bind, Option.bind_some, ih hpath]
    split <;> simp only [Option.bind_assoc]

/-! ## The places of subobjects -/

section

variable {owner : ClassDeclaration} {object : Nat} {memory : Memory}

theorem linkedOnWay_of_walk (hdistinct : DistinctBases owner) (hc : Coherent owner)
    {u : ClassDeclaration} {path : List Text} {spot : Spot}
    (hwalk : walk owner whole path = some (u, spot))
    (h : AllLinked memory owner object (subobjects owner)) :
    LinkedOnWay memory owner owner object [] path := by
  intro front name tail hpath indices v hindices hv
  obtain ⟨⟨c, spot'⟩, hfront, -⟩ := walk_append_some.mp (hpath ▸ hwalk)
  obtain ⟨front', hlisted, hfront'⟩ := walk_listed hdistinct hc hfront
  obtain ⟨indices', hview⟩ := view_exists hdistinct hc hlisted
  obtain ⟨_, hplaced⟩ := placed_of_walk hdistinct hc hfront
  obtain ⟨_, hplaced'⟩ := placed_of_walk hdistinct hc hfront'
  -- the listed path to the spot leads through the same members
  obtain rfl := hplaced.indices_unique hc hplaced'
  obtain rfl := Option.some.inj (hindices.symm.trans hplaced.indices_eq)
  obtain rfl := Option.some.inj (hview.leads.symm.trans hplaced'.indices_eq)
  obtain rfl := Option.some.inj (hview.holds.symm.trans hv)
  exact h _ hlisted _ hview

theorem Placed.address (hdistinct : DistinctBases owner) (hc : Coherent owner)
    {u : ClassDeclaration}
    {path : List Text} {spot : Spot} {indices : List Nat}
    (hplaced : Placed owner path u spot indices)
    (h : AllLinked memory owner object (subobjects owner)) :
    ∃ place, (classType owner).element indices = some (place, classType u) ∧
      emitSubobjectAddress memory object owner path = some (object + place) := by
  have hself : classWithin owner [] = some owner := rfl
  obtain ⟨indices', hindices', hholds⟩ :=
    subobjectIndices_class hdistinct hc (Tree.mem_subtrees_self _) hself hplaced.walk_eq
  obtain rfl := Option.some.inj (hindices'.symm.trans hplaced.indices_eq)
  obtain ⟨place, hplace⟩ := classWithin_type hholds
  refine ⟨place, hplace, ?_⟩
  exact emitSubobjectAddress_eq hdistinct hc (Tree.mem_subtrees_self _) rfl hplaced.walk_eq
    (linkedOnWay_of_walk hdistinct hc hplaced.walk_eq h) MemoryType.element_nil hplaced.indices_eq
      hplace

end

end Cwhip.CodeGen
