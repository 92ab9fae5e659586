/-
  Cwhip.CodeGen.ObjectLayout

  The struct types of classes (`CodeGeneratorModule.cpp`) and the members that
  lead to the subobjects of an object (`CodeGeneratorLayout.cpp`).

  A class starts with a pointer to its metadata and one to the whole object.
  Its bases follow, then a pointer to each virtual base, the fields, and room
  for each virtual base, which only the whole object uses.
-/

import Cwhip.Lib.StructLayout
import Cwhip.CodeGen.Overriders
import Cwhip.CodeGen.Symbols

namespace Cwhip.CodeGen

open Cwhip.Lib
open Cwhip.Inheritance (BaseInfo)
open List (getElem?_append_right getElem?_cons_succ getElem?_map length_map)

/-! ## Virtual bases -/

mutual

/-- Both walks enter the same virtual bases. -/
theorem virtualBasesFrom_seen (c : ClassDeclaration) (path seen : List Text) :
    (virtualBasesFrom c seen).2 = (subobjectsFrom c path seen).2 := by
  match c with
  | .node info bases =>
    rw [virtualBasesFrom, subobjectsFrom]
    exact virtualBasesBases_seen bases path seen

theorem virtualBasesBases_seen (bases : Edges ClassInfo BaseInfo) (path seen : List Text) :
    (virtualBasesBases bases seen).2 = (subobjectsBases bases path seen).2 := by
  match bases with
  | .nil => rw [virtualBasesBases, subobjectsBases]
  | .cons edge base rest =>
    rw [virtualBasesBases, subobjectsBases]
    split
    · exact virtualBasesBases_seen rest path seen
    · dsimp only
      rw [virtualBasesFrom_seen base (path ++ [base.label.name])]
      exact virtualBasesBases_seen rest path _

end

def IsVirtualBase (c : ClassDeclaration) (v : ClassDeclaration) : Prop :=
  ∃ u ∈ c.subtrees, ∃ base ∈ u.edges, base.1.isVirtual = true ∧ base.2 = v

variable {v : ClassDeclaration} {name : Text}

theorem IsVirtualBase.below {c : ClassDeclaration} (h : IsVirtualBase c v) : v.Below c := by
  obtain ⟨u, hu, base, hbase, -, rfl⟩ := h
  rcases Tree.mem_subtrees.mp hu with rfl | ⟨first, hfirst, hu⟩
  · exact ⟨base, hbase, Tree.mem_subtrees_self _⟩
  · exact ⟨first, hfirst, Tree.mem_subtrees_trans _ hu (Tree.mem_subtrees_edge hbase)⟩

theorem IsVirtualBase.subtree {c u : ClassDeclaration} (hu : u ∈ c.subtrees)
    (h : IsVirtualBase u v) : IsVirtualBase c v := by
  obtain ⟨w, hw, hbase⟩ := h
  exact ⟨w, Tree.mem_subtrees_trans _ hu hw, hbase⟩

mutual

/-- Only virtual bases are listed, and every name seen anew is. -/
theorem virtualBasesFrom_lists (c : ClassDeclaration) (seen : List Text) :
    (∀ name ∈ (virtualBasesFrom c seen).1, ∃ v, IsVirtualBase c v ∧ v.label.name = name) ∧
      ∀ name ∈ (virtualBasesFrom c seen).2, name ∈ seen ∨ name ∈ (virtualBasesFrom c seen).1 := by
  match c with
  | .node info bases =>
    obtain ⟨hfound, hlisted⟩ := virtualBasesBases_lists bases seen
    rw [virtualBasesFrom]
    refine ⟨?_, hlisted⟩
    intro name hname
    obtain ⟨base, hbase, v, hv, heq⟩ := hfound name hname
    refine ⟨v, ?_, heq⟩
    rcases hv with ⟨hvirtual, rfl⟩ | hv
    · exact ⟨_, Tree.mem_subtrees_self _, base, hbase, hvirtual, rfl⟩
    · exact hv.subtree (Tree.mem_subtrees_edge hbase)

theorem virtualBasesBases_lists (bases : Edges ClassInfo BaseInfo) (seen : List Text) :
    (∀ name ∈ (virtualBasesBases bases seen).1, ∃ base ∈ bases.toList, ∃ v,
      (base.1.isVirtual = true ∧ base.2 = v ∨ IsVirtualBase base.2 v) ∧ v.label.name = name) ∧
      ∀ name ∈ (virtualBasesBases bases seen).2,
        name ∈ seen ∨ name ∈ (virtualBasesBases bases seen).1 := by
  match bases with
  | .nil =>
    rw [virtualBasesBases]
    exact ⟨fun _ h => (nomatch h), fun _ h => .inl h⟩
  | .cons edge base rest =>
    rw [virtualBasesBases]
    split
    · obtain ⟨hfound, hlisted⟩ := virtualBasesBases_lists rest seen
      refine ⟨?_, hlisted⟩
      intro name hname
      obtain ⟨other, hother, hv⟩ := hfound name hname
      exact ⟨other, List.mem_cons_of_mem _ hother, hv⟩
    · dsimp only
      generalize hentered : (if edge.isVirtual then base.label.name :: seen else seen) = entered
      obtain ⟨hbelow, hbelow'⟩ := virtualBasesFrom_lists base entered
      generalize virtualBasesFrom base entered = below at *
      obtain ⟨hafter, hafter'⟩ := virtualBasesBases_lists rest below.2
      generalize virtualBasesBases rest below.2 = after at *
      constructor
      · intro name hname
        rcases List.mem_append.mp hname with hname | hname
        · refine ⟨(edge, base), List.mem_cons_self, ?_⟩
          rcases List.mem_append.mp hname with hname | hname
          · obtain ⟨v, hv, heq⟩ := hbelow name hname
            exact ⟨v, .inr hv, heq⟩
          · refine ⟨base, ?_⟩
            split at hname
            · next hvirtual => exact ⟨.inl ⟨hvirtual, rfl⟩, (List.mem_singleton.mp hname).symm⟩
            · cases hname
        · obtain ⟨other, hother, hv⟩ := hafter name hname
          exact ⟨other, List.mem_cons_of_mem _ hother, hv⟩
      · intro name hname
        rcases hafter' name hname with hname | hname
        · rcases hbelow' name hname with hname | hname
          · rw [← hentered] at hname
            split at hname
            · next hvirtual =>
              rcases List.mem_cons.mp hname with rfl | hname
              · refine .inr (List.mem_append_left _ (List.mem_append_right _ ?_))
                rw [if_pos hvirtual]
                exact List.mem_singleton_self _
              · exact .inl hname
            · exact .inl hname
          · exact .inr (List.mem_append_left _ (List.mem_append_left _ hname))
        · exact .inr (List.mem_append_right _ hname)

end

mutual

theorem subobjectsFrom_sees (c : ClassDeclaration) (path seen : List Text) :
    ∀ entry ∈ (subobjectsFrom c path seen).1, ∀ base ∈ entry.2.edges,
      base.1.isVirtual = true → base.2.label.name ∈ (subobjectsFrom c path seen).2 := by
  match c with
  | .node info bases =>
    obtain ⟨hbelow, hdirect⟩ := subobjectsBases_sees bases path seen
    rw [subobjectsFrom]
    intro entry hentry
    rcases List.mem_cons.mp hentry with rfl | hentry
    · exact hdirect
    · exact hbelow entry hentry

theorem subobjectsBases_sees (bases : Edges ClassInfo BaseInfo) (path seen : List Text) :
    (∀ entry ∈ (subobjectsBases bases path seen).1, ∀ base ∈ entry.2.edges,
      base.1.isVirtual = true → base.2.label.name ∈ (subobjectsBases bases path seen).2) ∧
      ∀ base ∈ bases.toList, base.1.isVirtual = true →
        base.2.label.name ∈ (subobjectsBases bases path seen).2 := by
  match bases with
  | .nil =>
    rw [subobjectsBases]
    exact ⟨fun _ h => (nomatch h), fun _ h => (nomatch h)⟩
  | .cons edge base rest =>
    rw [subobjectsBases, Edges.toList, List.forall_mem_cons]
    split
    · next hskip =>
      obtain ⟨hrest, hdirect⟩ := subobjectsBases_sees rest path seen
      exact ⟨hrest, fun _ => (subobjectsBases_enumerated rest path seen).1.grows hskip.2, hdirect⟩
    · dsimp only
      generalize hentered : (if edge.isVirtual then base.label.name :: seen else seen) = entered
      have hin := subobjectsFrom_sees base (path ++ [base.label.name]) entered
      have hgrows := (subobjectsFrom_enumerated base (path ++ [base.label.name]) entered).grows
      generalize subobjectsFrom base (path ++ [base.label.name]) entered = below at *
      obtain ⟨hafter, hdirect⟩ := subobjectsBases_sees rest path below.2
      have hgrows' := (subobjectsBases_enumerated rest path below.2).1.grows
      generalize subobjectsBases rest path below.2 = after at *
      refine ⟨?_, ?_, hdirect⟩
      · intro entry hentry other hother hvirtual
        rcases List.mem_append.mp hentry with hentry | hentry
        · exact hgrows' (hin entry hentry other hother hvirtual)
        · exact hafter entry hentry other hother hvirtual
      · intro hvirtual
        have hvirtual : edge.isVirtual = true := hvirtual
        apply hgrows'
        apply hgrows
        rw [← hentered, if_pos hvirtual]
        exact List.mem_cons_self

end

/-- A class stores each of its virtual bases. -/
theorem mem_virtualBaseNames {c : ClassDeclaration} (hdistinct : DistinctBases c)
    (hc : Coherent c) :
    name ∈ virtualBaseNames c ↔ ∃ v, IsVirtualBase c v ∧ v.label.name = name := by
  constructor
  · exact (virtualBasesFrom_lists c []).1 name
  · rintro ⟨v, ⟨u, hu, base, hbase, hvirtual, rfl⟩, rfl⟩
    obtain ⟨path, hpath⟩ := mem_subobjects hdistinct hc hu
    have hseen := subobjectsFrom_sees c [] [] _ hpath base hbase hvirtual
    rw [← virtualBasesFrom_seen c [] []] at hseen
    rcases (virtualBasesFrom_lists c []).2 _ hseen with hnil | hlisted
    · cases hnil
    · exact hlisted

/-- The classes of the virtual bases, in the order of `virtualBaseNames`. -/
def virtualStorage (c : ClassDeclaration) : List ClassDeclaration :=
  (virtualBaseNames c).filterMap fun name =>
    (c.edges.flatMap fun base => base.2.subtrees).find? fun v => v.label.name == name

theorem mem_below {c : ClassDeclaration} :
    v ∈ (c.edges.flatMap fun base => base.2.subtrees) ↔ v.Below c := by
  rw [List.mem_flatMap]
  rfl

theorem mem_virtualStorage {c : ClassDeclaration} (h : v ∈ virtualStorage c) : v.Below c := by
  obtain ⟨name, -, hfind⟩ := List.mem_filterMap.mp h
  exact mem_below.mp (List.mem_of_find?_eq_some hfind)

theorem mem_subtrees_below {c : ClassDeclaration} (h : v.Below c) : v ∈ c.subtrees :=
  Tree.mem_subtrees.mpr (.inr h)

theorem find_virtual {c : ClassDeclaration} (hc : Coherent c) (hv : v.Below c)
    (hname : v.label.name = name) :
    (c.edges.flatMap fun base => base.2.subtrees).find? (fun v => v.label.name == name) =
    some v := by
  cases hfind : (c.edges.flatMap fun base => base.2.subtrees).find? fun v =>
    v.label.name == name with
  | none => exact absurd hname (by simpa using List.find?_eq_none.mp hfind v (mem_below.mpr hv))
  | some w =>
    have hw : w.label.name = name := by simpa using List.find?_some hfind
    have hbelow : w.Below c := mem_below.mp (List.mem_of_find?_eq_some hfind)
    exact congrArg some
      (hc w (mem_subtrees_below hbelow) v (mem_subtrees_below hv) (hw.trans hname.symm))

theorem filterMap_getElem {α β : Type} {f : α → Option β} {l : List α}
    (h : ∀ x ∈ l, (f x).isSome = true) (k : Nat) : (l.filterMap f)[k]? = l[k]?.bind f := by
  induction l generalizing k with
  | nil => rfl
  | cons x rest ih =>
    obtain ⟨hx, hrest⟩ := List.forall_mem_cons.mp h
    obtain ⟨y, hy⟩ := Option.isSome_iff_exists.mp hx
    rw [List.filterMap_cons_some hy]
    cases k with
    | zero => exact hy.symm
    | succ k => exact ih hrest k

theorem virtualStorage_getElem {c : ClassDeclaration} (hc : Coherent c) (hv : IsVirtualBase c v)
    {k : Nat}
    (h : (virtualBaseNames c)[k]? = some v.label.name) : (virtualStorage c)[k]? = some v := by
  rw [virtualStorage, filterMap_getElem, h, Option.bind_some]
  · exact find_virtual hc hv.below rfl
  · intro name hname
    obtain ⟨w, hw, hw'⟩ := (virtualBasesFrom_lists c []).1 name hname
    rw [find_virtual hc hw.below hw']
    rfl

/-! ## Struct types -/

/-- `ptr` -/
def pointerType : MemoryType := .scalar 8 8

/-- `i64` -/
def wordType : MemoryType := .scalar 8 8

/-- `CodeGenerator::llvmType`, by what it occupies. -/
def llvmType (type : Text) : MemoryType :=
  if type = "int".toList then wordType
  else if type = "bool".toList then .scalar 1 1
  else if type = "float".toList then .scalar 8 8
  else if type = "unsigned".toList then wordType
  else if type = "String".toList then pointerType
  else if type = dynamicType then .struct [wordType, wordType, pointerType, wordType]
  else if type = "type".toList then .struct [pointerType, wordType]
  else if type = "void".toList then .struct []
  else pointerType

/-- The type `%Class.` of a class. -/
def classType (c : ClassDeclaration) : MemoryType :=
  .struct (pointerType :: pointerType :: (c.edges.attach.map (fun base => classType base.1.2)
    ++ ((virtualBaseNames c).map (fun _ => pointerType) ++ (c.label.fields.map llvmType
    ++ (virtualStorage c).attach.map fun v => classType v.1))))
termination_by Tree.below_wellFounded.wrap c
decreasing_by
  · exact ⟨base.1, base.2, Tree.mem_subtrees_self _⟩
  · exact mem_virtualStorage v.2

def classMembers (c : ClassDeclaration) : List MemoryType :=
  pointerType :: pointerType :: (c.edges.map (fun base => classType base.2)
    ++ ((virtualBaseNames c).map (fun _ => pointerType) ++ (c.label.fields.map llvmType
    ++ (virtualStorage c).map classType)))

theorem classType_eq (c : ClassDeclaration) : classType c = .struct (classMembers c) := by
  have hbases : c.edges.attach.map (fun base => classType base.1.2)
      = c.edges.map fun base => classType base.2 :=
    @List.attach_map_val _ _ c.edges fun base => classType base.2
  have hstorage : (virtualStorage c).attach.map (fun v => classType v.1)
      = (virtualStorage c).map classType := List.attach_map_val
  rw [classType, classMembers, hbases, hstorage]

/-- `CodeGenerator::virtualBasePointerIndex` -/
def virtualBasePointerIndex (owner : ClassDeclaration) (baseName : Text) : Option Nat :=
  if baseName ∈ virtualBaseNames owner then
    some (owner.edges.length + 2 + (virtualBaseNames owner).idxOf baseName)
  else none

/-- `CodeGenerator::virtualBaseStorageIndex` -/
def virtualBaseStorageIndex (owner : ClassDeclaration) (baseName : Text) : Option Nat :=
  if baseName ∈ virtualBaseNames owner then
    some (owner.edges.length + 2 + (virtualBaseNames owner).length + owner.label.fields.length +
      (virtualBaseNames owner).idxOf baseName)
  else none

/-- `CodeGenerator::fieldIndex` -/
def fieldIndex (owner : ClassDeclaration) (field : Nat) : Nat :=
  owner.edges.length + 2 + (virtualBaseNames owner).length + field

def memberClass (c : ClassDeclaration) (index : Nat) : Option ClassDeclaration :=
  if index < 2 then none
  else if index < c.edges.length + 2 then (c.edges[index - 2]?).map fun base => base.2
  else if index < fieldIndex c c.label.fields.length then none
  else (virtualStorage c)[index - fieldIndex c c.label.fields.length]?

section Members

variable {c : ClassDeclaration}

variable {index field : Nat} {name : Text}

theorem memberClass_base {base : BaseInfo × ClassDeclaration}
    (h : c.edges[index]? = some base) : memberClass c (index + 2) = some base.2 := by
  have hlt : index < c.edges.length := (List.getElem?_eq_some_iff.mp h).1
  rw [memberClass, if_neg (by omega), if_pos (by omega), Nat.add_sub_cancel, h]
  rfl

theorem memberClass_pointer
    (h : virtualBasePointerIndex c name = some index) : memberClass c index = none := by
  rw [virtualBasePointerIndex] at h
  split at h
  · next hmem =>
    obtain rfl := Option.some.inj h
    have hlt := List.idxOf_lt_length_of_mem hmem
    rw [memberClass, if_neg (by omega), if_neg (by omega), if_pos (by rw [fieldIndex]; omega)]
  · cases h

theorem memberClass_field (h : field < c.label.fields.length) :
    memberClass c (fieldIndex c field) = none := by
  rw [memberClass, if_neg (by rw [fieldIndex]; omega), if_neg (by rw [fieldIndex]; omega),
    if_pos (by rw [fieldIndex, fieldIndex]; omega)]

theorem memberClass_storage (hc : Coherent c) {v : ClassDeclaration} (hv : IsVirtualBase c v)
    (h : virtualBaseStorageIndex c v.label.name = some index) :
    memberClass c index = some v := by
  rw [virtualBaseStorageIndex] at h
  split at h
  · next hmem =>
    obtain rfl := Option.some.inj h
    have hlt := List.idxOf_lt_length_of_mem hmem
    rw [memberClass, if_neg (by omega), if_neg (by omega), if_neg (by rw [fieldIndex]; omega)]
    apply virtualStorage_getElem hc hv
    have hoffset : c.edges.length + 2 + (virtualBaseNames c).length + c.label.fields.length +
        (virtualBaseNames c).idxOf v.label.name - fieldIndex c c.label.fields.length
        = (virtualBaseNames c).idxOf v.label.name := by
      rw [fieldIndex]
      omega
    rw [hoffset, List.getElem?_eq_getElem hlt]
    exact congrArg some (List.getElem_idxOf _)
  · cases h

/-- The member that holds a base has the type of its class. -/
theorem memberClass_type {u : ClassDeclaration} (h : memberClass c index = some u) :
    ∃ place, (classType c).member index = some (place, classType u) := by
  rw [classType_eq]
  apply memberFrom_type
  rw [memberClass] at h
  split at h
  · cases h
  split at h
  · next hlow hbase =>
    obtain ⟨base, hbase', rfl⟩ := Option.map_eq_some_iff.mp h
    obtain ⟨index, rfl⟩ := Nat.exists_eq_add_of_le (Nat.le_of_not_lt hlow)
    rw [Nat.add_sub_cancel_left] at hbase'
    rw [classMembers, Nat.add_comm 2, getElem?_cons_succ, getElem?_cons_succ,
      List.getElem?_append_left (by rw [length_map]; omega), getElem?_map, hbase']
    rfl
  split at h
  · cases h
  · next hlow hbase hfield =>
    obtain ⟨index, rfl⟩ := Nat.exists_eq_add_of_le (Nat.le_of_not_lt hfield)
    rw [Nat.add_sub_cancel_left] at h
    have hindex : fieldIndex c c.label.fields.length + index
        = c.edges.length + ((virtualBaseNames c).length + (c.label.fields.length + index))
          + 1 + 1 := by
      rw [fieldIndex]
      omega
    rw [classMembers, hindex, getElem?_cons_succ, getElem?_cons_succ,
      getElem?_append_right (by rw [length_map]; omega), length_map,
      Nat.add_sub_cancel_left, getElem?_append_right (by rw [length_map]; omega),
      length_map, Nat.add_sub_cancel_left,
      getElem?_append_right (by rw [length_map]; omega), length_map,
      Nat.add_sub_cancel_left, getElem?_map, h]
    rfl

/-- A pointer to a virtual base is a member of the type. -/
theorem pointer_member (h : virtualBasePointerIndex c name = some index) :
    ∃ place, (classType c).member index = some (place, pointerType) := by
  rw [virtualBasePointerIndex] at h
  split at h
  · next hmem =>
    obtain rfl := Option.some.inj h
    have hlt := List.idxOf_lt_length_of_mem hmem
    have hindex : c.edges.length + 2 + (virtualBaseNames c).idxOf name
        = c.edges.length + (virtualBaseNames c).idxOf name + 1 + 1 := by omega
    rw [classType_eq]
    apply memberFrom_type
    rw [classMembers, hindex, getElem?_cons_succ, getElem?_cons_succ,
      getElem?_append_right (by rw [length_map]; omega), length_map,
      Nat.add_sub_cancel_left, List.getElem?_append_left (by rw [length_map]; omega),
      getElem?_map, List.getElem?_eq_getElem hlt]
    rfl
  · cases h

/-- Every field is a member of the type it was declared with. -/
theorem field_member {type : Text} (h : c.label.fields[field]? = some type) :
    ∃ place, (classType c).member (fieldIndex c field) = some (place, llvmType type) := by
  have hlt : field < c.label.fields.length := (List.getElem?_eq_some_iff.mp h).1
  have hindex : fieldIndex c field = c.edges.length + ((virtualBaseNames c).length + field) + 1 +
      1 := by
    rw [fieldIndex]
    omega
  rw [classType_eq]
  apply memberFrom_type
  rw [classMembers, hindex, getElem?_cons_succ, getElem?_cons_succ,
    getElem?_append_right (by rw [length_map]; omega), length_map,
    Nat.add_sub_cancel_left, getElem?_append_right (by rw [length_map]; omega),
    length_map, Nat.add_sub_cancel_left,
    List.getElem?_append_left (by rw [length_map]; omega), getElem?_map, h]
  rfl

theorem memberClass_header (h : index < 2) : memberClass c index = none := by
  rw [memberClass, if_pos h]

end Members

theorem header_member (c : ClassDeclaration) {index : Nat} (h : index < 2) :
    ∃ place, (classType c).member index = some (place, pointerType) := by
  rw [classType_eq]
  apply memberFrom_type
  match index with
  | 0 => rfl
  | 1 => rfl

end Cwhip.CodeGen
