/-
  Cwhip.Inheritance.Layout

  Field lookup and subobject addresses in the code generator
  (`CodeGeneratorLayout.cpp`).

  A field path is a list of member indices of the LLVM struct types it goes
  through.  An address is given here by the place of the subobject it points
  into: a struct member of a base leads to the place of that base, and a load
  through a virtual base pointer to the one subobject of that virtual base.
-/

import Cwhip.Inheritance.Classes

namespace Cwhip.Inheritance

open Cwhip.Lib

mutual

/-- The recursion of `virtualBaseNames`, on the names seen and the result. -/
def collectVirtual : ClassDeclaration → List String × List String → List String × List String
  | .node _ bases, names => collectVirtualBases bases names

def collectVirtualBases :
    Edges ClassInfo BaseInfo → List String × List String → List String × List String
  | .nil, names => names
  | .cons edge base rest, names =>
    if edge.isVirtual = true then
      if base.label.name ∈ names.1 then collectVirtualBases rest names
      else
        let below := collectVirtual base (base.label.name :: names.1, names.2)
        collectVirtualBases rest (below.1, below.2 ++ [base.label.name])
    else collectVirtualBases rest (collectVirtual base names)

end

/-- `CodeGenerator::virtualBaseNames`. -/
def virtualBaseNames (owner : ClassDeclaration) : List String := (collectVirtual owner ([], [])).2

/-- An index of a field path.  The source tells them apart by their value:
    `SIZE_MAX` minus the slot, the base index plus two, and `fieldIndex`. -/
inductive PathIndex where
  | virtualSlot (slot : Nat)
  | base (index : Nat)
  | field (index : Nat)
  deriving DecidableEq, Repr

/-- The index that leads from a class to one of its bases. -/
def basePathIndex (current : ClassDeclaration) (index : Nat) (edge : BaseInfo)
    (base : ClassDeclaration) : PathIndex :=
  if edge.isVirtual then .virtualSlot ((virtualBaseNames current).idxOf base.label.name)
  else .base index

mutual

/-- `CodeGenerator::findField`: bases first, then the class itself. -/
def findFieldPath (name : String) : ClassDeclaration → Option (List PathIndex × FieldDeclaration)
  | .node info bases =>
    match findFieldPathBases name (.node info bases) bases 0 with
    | some found => some found
    | none =>
      match info.fields.findIdx? (fun field => field.name == name) with
      | some index => info.fields[index]?.map fun field => ([.field index], field)
      | none => none

def findFieldPathBases (name : String) (current : ClassDeclaration) :
    Edges ClassInfo BaseInfo → Nat → Option (List PathIndex × FieldDeclaration)
  | .nil, _ => none
  | .cons edge base rest, index =>
    match findFieldPath name base with
    | some (path, field) => some (basePathIndex current index edge base :: path, field)
    | none => findFieldPathBases name current rest (index + 1)

end

/-- `CodeGenerator::emitFieldAddress`, which fails on a path with no field in
    it: the subobject and field the address points to. -/
def fieldAddress (p : Program) :
    List PathIndex → ClassDeclaration → Place String → Option FoundField
  | [], _, _ => none
  | .virtualSlot slot :: rest, current, _ => do
    let name ← (virtualBaseNames current)[slot]?
    let base ← p.find name
    fieldAddress p rest base ⟨some name, []⟩
  | .base index :: rest, current, place => do
    let base ← current.edges[index]?
    let base ← p.find base.2.label.name
    fieldAddress p rest base ⟨place.anchor, place.indices ++ [index]⟩
  | .field index :: _, current, place =>
    current.label.fields[index]?.map fun field => ⟨current, place, field⟩

/-- `CodeGenerator::subobjectAddressSequence`: the subobject a path of base
    names leads to. -/
def subobjectAddress (p : Program) :
    List String → ClassDeclaration → Place String → Option (ClassDeclaration × Place String)
  | [], current, place => some (current, place)
  | name :: rest, current, place => do
    let index ← current.edges.findIdx? (fun base => base.2.label.name == name)
    let base ← current.edges[index]?
    let next ← p.find name
    if base.1.isVirtual then
      if name ∈ virtualBaseNames current then subobjectAddress p rest next ⟨some name, []⟩
      else none
    else subobjectAddress p rest next ⟨place.anchor, place.indices ++ [index]⟩

/-! ## Virtual base slots -/

/-- What collecting names below a class does: the names seen before stay, and
    the new ones are listed. -/
structure Collects (names result : List String × List String) : Prop where
  seen : names.1 ⊆ result.1
  listed : names.2 ⊆ result.2
  lists : ∀ name ∈ result.1, name ∈ names.1 ∨ name ∈ result.2

theorem Collects.refl (names : List String × List String) : Collects names names :=
  ⟨fun _ h => h, fun _ h => h, fun _ h => Or.inl h⟩

theorem Collects.trans {names mid result : List String × List String} (h : Collects names mid)
    (h' : Collects mid result) : Collects names result where
  seen := fun _ hn => h'.seen (h.seen hn)
  listed := fun _ hn => h'.listed (h.listed hn)
  lists := by
    intro name hn
    rcases h'.lists name hn with hmid | hlisted
    · exact (h.lists name hmid).imp id (fun hl => h'.listed hl)
    · exact Or.inr hlisted

theorem Collects.enter {names below : List String × List String} {name : String}
    (h : Collects (name :: names.1, names.2) below) :
    Collects names (below.1, below.2 ++ [name]) where
  seen := fun _ hn => h.seen (List.mem_cons_of_mem _ hn)
  listed := fun _ hn => List.mem_append_left _ (h.listed hn)
  lists := by
    intro other hn
    rcases h.lists other hn with hcons | hlisted
    · rw [List.mem_cons] at hcons
      rcases hcons with rfl | hold
      · exact Or.inr (List.mem_append_right _ (List.mem_singleton.mpr rfl))
      · exact Or.inl hold
    · exact Or.inr (List.mem_append_left _ hlisted)

mutual

theorem collectVirtual_collects (c : ClassDeclaration) (names : List String × List String) :
    Collects names (collectVirtual c names) := by
  match c with
  | .node info bases =>
    rw [collectVirtual]
    exact (collectVirtualBases_collects bases names).1

theorem collectVirtualBases_collects (bases : Edges ClassInfo BaseInfo)
    (names : List String × List String) :
    Collects names (collectVirtualBases bases names) ∧
      ∀ base ∈ bases.toList, base.1.isVirtual = true →
        base.2.label.name ∈ (collectVirtualBases bases names).1 := by
  match bases with
  | .nil =>
    rw [collectVirtualBases]
    exact ⟨.refl names, fun base h => by simp [Edges.toList] at h⟩
  | .cons edge base rest =>
    rw [collectVirtualBases, Edges.toList, List.forall_mem_cons]
    by_cases hvirtual : edge.isVirtual = true
    · rw [if_pos hvirtual]
      by_cases hseen : base.label.name ∈ names.1
      · rw [if_pos hseen]
        obtain ⟨hrest, hdirect⟩ := collectVirtualBases_collects rest names
        exact ⟨hrest, fun _ => hrest.seen hseen, hdirect⟩
      · rw [if_neg hseen]
        dsimp only
        have hbelow := collectVirtual_collects base (base.label.name :: names.1, names.2)
        obtain ⟨hrest, hdirect⟩ := collectVirtualBases_collects rest
          ((collectVirtual base (base.label.name :: names.1, names.2)).1,
            (collectVirtual base (base.label.name :: names.1, names.2)).2 ++ [base.label.name])
        refine ⟨hbelow.enter.trans hrest, fun _ => ?_, hdirect⟩
        exact hrest.seen (hbelow.seen List.mem_cons_self)
    · rw [if_neg hvirtual]
      obtain ⟨hrest, hdirect⟩ := collectVirtualBases_collects rest (collectVirtual base names)
      exact ⟨(collectVirtual_collects base names).trans hrest,
        fun h => absurd h hvirtual, hdirect⟩

end

theorem mem_virtualBaseNames {c : ClassDeclaration} {edge : BaseInfo} {base : ClassDeclaration}
    (h : (edge, base) ∈ c.edges) (hvirtual : edge.isVirtual = true) :
    base.label.name ∈ virtualBaseNames c := by
  cases c with
  | node info bases =>
    obtain ⟨hcollects, hdirect⟩ := collectVirtualBases_collects bases ([], [])
    rcases hcollects.lists _ (hdirect _ h hvirtual) with hnil | hlisted
    · simp at hnil
    · exact hlisted

theorem virtualBaseNames_slot {c : ClassDeclaration} {edge : BaseInfo} {base : ClassDeclaration}
    (h : (edge, base) ∈ c.edges) (hvirtual : edge.isVirtual = true) :
    (virtualBaseNames c)[(virtualBaseNames c).idxOf base.label.name]? = some base.label.name := by
  have hmem := mem_virtualBaseNames h hvirtual
  rw [List.getElem?_eq_getElem (List.idxOf_lt_length_of_mem hmem)]
  exact congrArg some (List.getElem_idxOf _)

end Cwhip.Inheritance
