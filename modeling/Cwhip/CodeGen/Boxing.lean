/-
  Cwhip.CodeGen.Boxing

  Values of a static type that are stored in an `any`, type-tested, named and
  cast back (`CodeGenerator.cpp`).
-/

import Cwhip.CodeGen.UpcastsAgree

namespace Cwhip.CodeGen

open Cwhip.Lib

/-- The static types of values that an `any` may hold.  `String` is a class. -/
inductive ValueType where
  | int
  | bool
  | float
  | unsigned
  | list
  | dict
  | buffer
  | handle
  | descriptor
  | null
  | object (name : Text)
  deriving DecidableEq

/-- How emitted code holds a value of a type: a word, a bit, the bits of a double,
    the text of a type descriptor, or a pointer. -/
def ValueType.Operand : ValueType → Type
  | .int | .unsigned | .float => BitVec 64
  | .bool => Bool
  | .descriptor => Nat × Nat
  | .null => Unit
  | .list | .dict | .buffer | .handle | .object _ => Nat

/-- A value of a static type.  A scalar local may also hold null, beside a zero. -/
structure Value (type : ValueType) where
  operand : type.Operand
  nullFlag : Bool

/-- `%CwhipArrayValue` -/
structure DynamicValue where
  tag : Nat
  integer : BitVec 64
  pointer : Nat
  length : Nat
  deriving DecidableEq

def valueTag : ValueType → Nat
  | .int => integerTag
  | .dict => mapTag
  | .list => arrayTag
  | .bool => booleanTag
  | .float => floatTag
  | .unsigned => unsignedTag
  | .buffer => bufferTag
  | .handle => handleTag
  | .descriptor => typeTag
  | .null | .object _ => objectTag

/-- `CodeGenerator::buildDynamicValue`.  The null flag of a scalar is not stored. -/
def buildDynamicValue : (type : ValueType) → Value type → DynamicValue
  | .int, value => ⟨valueTag .int, value.operand, 0, 0⟩
  | .bool, value => ⟨valueTag .bool, (BitVec.ofBool value.operand).setWidth 64, 0, 0⟩
  | .unsigned, value => ⟨valueTag .unsigned, value.operand, 0, 0⟩
  | .float, value => ⟨valueTag .float, value.operand, 0, 0⟩
  | .descriptor, value => ⟨valueTag .descriptor, 0, value.operand.1, value.operand.2⟩
  | .null, _ => ⟨valueTag .null, 0, 0, 0⟩
  | .list, value => ⟨valueTag .list, 0, value.operand, 0⟩
  | .dict, value => ⟨valueTag .dict, 0, value.operand, 0⟩
  | .buffer, value => ⟨valueTag .buffer, 0, value.operand, 0⟩
  | .handle, value => ⟨valueTag .handle, 0, value.operand, 0⟩
  | .object name, value => ⟨valueTag (.object name), 0, value.operand, 0⟩

/-- The operand of `CodeGenerator::extractTypedValue`, and of an `ObjectCast` to
    `null`. -/
def extractOperand (heap : ObjectHeap) (value : DynamicValue) :
    (type : ValueType) → Except CastFailure type.Operand
  | .int => (requireTag value.tag integerTag).map fun _ => value.integer
  | .bool => (requireTag value.tag booleanTag).map fun _ => value.integer.getLsbD 0
  | .float => (requireTag value.tag floatTag).map fun _ => value.integer
  | .unsigned => (requireTag value.tag unsignedTag).map fun _ => value.integer
  | .descriptor => (requireTag value.tag typeTag).map fun _ => (value.pointer, value.length)
  | .dict => (requireMap heap value.tag value.pointer).map fun _ => value.pointer
  | .list => (requireArray heap value.tag value.pointer).map fun _ => value.pointer
  | .buffer => (requireBuffer heap value.tag value.pointer).map fun _ => value.pointer
  | .handle => (requireHandle value.tag value.pointer).map fun _ => value.pointer
  | .object name => castClass heap value.tag value.pointer name
  | .null => requireNull value.tag value.pointer

/-- `value as Type`; the result is not a null scalar. -/
def extractTypedValue (heap : ObjectHeap) (value : DynamicValue) (type : ValueType) :
    Except CastFailure (Value type) :=
  (extractOperand heap value type).map fun operand => ⟨operand, false⟩

/-- `value is Type` -/
def typeTest (heap : ObjectHeap) (value : DynamicValue) (target : ValueType) : Option Bool :=
  valueIsType heap value.tag value.pointer (valueTag target) <|
    match target with
    | .object name => some name
    | _ => none

/-- `type(value)` -/
def typeOf (heap : ObjectHeap) (value : DynamicValue) : Option Text :=
  valueTypeName heap value.tag value.pointer

/-! ## What a value is -/

/-- What a value holds at run time. -/
inductive Content where
  /-- A value of a type that is not a class. -/
  | plain (type : ValueType)
  /-- An object of a class, and whether it can still be used. -/
  | instance (owner : ClassDeclaration) (living : Bool)
  | null

structure RefersTo (p : Program) (heap : ObjectHeap) (name : Text) (pointer : Nat)
    (owner : ClassDeclaration) (living : Bool) : Prop where
  declared : owner ∈ p.classes
  subobject : ∃ object path target offset, (path, target) ∈ subobjects owner ∧
    target.label.name = name ∧ subobjectFieldOffset owner path 0 = some offset ∧
    pointer = object + offset ∧ object ≠ 0 ∧
      (∃ node, findContainingObject heap pointer = some node ∧
      node.object = object ∧ living = !(node.destroyed && !node.destroying)) ∧
    classMetadata owner = some (heap.metadataAt object)
  metadata : classMetadata owner = some (heap.metadataAt pointer)

inductive Holds (p : Program) (heap : ObjectHeap) : (type : ValueType) → Value type →
    Content → Prop where
  | int (value : Value .int) : Holds p heap .int value (.plain .int)
  | bool (value : Value .bool) : Holds p heap .bool value (.plain .bool)
  | float (value : Value .float) : Holds p heap .float value (.plain .float)
  | unsigned (value : Value .unsigned) : Holds p heap .unsigned value (.plain .unsigned)
  | descriptor (value : Value .descriptor) : Holds p heap .descriptor value (.plain .descriptor)
  | null (value : Value .null) : Holds p heap .null value .null
  | list {pointer : Nat} (hnode : (findObject heap pointer).any HeapNode.isArray = true)
      (hne : pointer ≠ 0) : Holds p heap .list ⟨pointer, false⟩ (.plain .list)
  | dict {pointer : Nat} (hnode : (findObject heap pointer).any HeapNode.isMap = true)
      (hne : pointer ≠ 0) : Holds p heap .dict ⟨pointer, false⟩ (.plain .dict)
  | buffer {pointer : Nat} (hnode : (findObject heap pointer).any HeapNode.isBuffer = true)
      (hne : pointer ≠ 0) : Holds p heap .buffer ⟨pointer, false⟩ (.plain .buffer)
  | handle {pointer : Nat} (hne : pointer ≠ 0) : Holds p heap .handle ⟨pointer, false⟩
      (.plain .handle)
  | object {name : Text} {pointer : Nat} {owner : ClassDeclaration} {living : Bool}
      (hrefers : RefersTo p heap name pointer owner living) :
      Holds p heap (.object name) ⟨pointer, false⟩ (.instance owner living)
  | nullList : Holds p heap .list ⟨Nat.zero, false⟩ .null
  | nullDict : Holds p heap .dict ⟨Nat.zero, false⟩ .null
  | nullBuffer : Holds p heap .buffer ⟨Nat.zero, false⟩ .null
  | nullHandle : Holds p heap .handle ⟨Nat.zero, false⟩ .null
  | nullObject (name : Text) : Holds p heap (.object name) ⟨Nat.zero, false⟩ .null

/-- What a value holds is of a type: of its own, or an object of a class or one
    derived from it. -/
def Content.Is : Content → ValueType → Prop
  | .plain type, target => target = type
  | .instance owner _, .object name => ∃ u ∈ owner.subtrees, u.label.name = name
  | .instance _ _, _ => False
  | .null, _ => False

def ValueType.name : ValueType → Text
  | .int => "int".toList
  | .bool => "bool".toList
  | .float => "float".toList
  | .unsigned => "unsigned".toList
  | .list => "list".toList
  | .dict => "dict".toList
  | .buffer => "buffer".toList
  | .handle => "handle".toList
  | .descriptor => "type".toList
  | .null => nullName
  | .object name => name

/-- The type that a value names. -/
def Content.typeName : Content → Text
  | .plain type => type.name
  | .instance owner _ => owner.label.name
  | .null => nullName

def NullPasses (type target : ValueType) : Prop :=
  match target with
  | .object _ | .buffer => type = .null ∨ ∃ name, type = .object name
  | .handle => type = .handle ∨ type = .null ∨ ∃ name, type = .object name
  | .null => True
  | _ => False

/-- A value stored in an `any` may be cast to the types it is of, an object if it
    is living and has one subobject of the class. -/
def MayCast (type : ValueType) : Content → ValueType → Prop
  | .plain held, target => target = held
  | .instance owner living, .object name =>
    living = true ∧ baseCount name (subobjects owner) = 1
  | .instance _ _, _ => False
  | .null, target => NullPasses type target

/-! ## Objects -/

section

variable {p : Program} {heap : ObjectHeap} {name : Text} {pointer : Nat} {owner : ClassDeclaration}
  {living : Bool}

theorem baseCount_owner (howner : owner ∈ p.classes) :
    baseCount owner.label.name (subobjects owner) = 1 :=
  baseCount_self (p.distinctBases howner) (p.coherent howner) (Tree.mem_subtrees_self _) [] []

theorem RefersTo.castClass_eq (h : RefersTo p heap name pointer owner living) (expected : Text) :
    ∃ object offset, pointer = object + offset ∧ object ≠ 0 ∧
      (∃ path target, (path, target) ∈ subobjects owner ∧ target.label.name = name ∧
        subobjectFieldOffset owner path 0 = some offset) ∧
      castClass heap objectTag pointer expected
        = if living = false then .error .destroyed
          else if owner.label.name = expected then .ok object
          else match (subobjects owner).filter fun entry => entry.2.label.name == expected with
            | [] => .error .differentClass
            | [entry] => .ok (object + (subobjectFieldOffset owner entry.1 0).getD 0)
            | _ :: _ :: _ => .error .ambiguousBase := by
  obtain ⟨object, path, target, offset, hlisted, hname, hoffset, hpointer, hne, hnode, hmetadata⟩ :=
    h.subobject
  refine ⟨object, offset, hpointer, hne, ⟨path, target, hlisted, hname, hoffset⟩, ?_⟩
  obtain ⟨node, hfind, hobject, hliving⟩ := hnode
  have hdistinct := p.distinctBases h.declared
  have halive : requireAlive heap pointer = if living = false then .error .destroyed
      else .ok node := by
    rw [requireAlive, hfind, hliving]
    dsimp only
    generalize (node.destroyed && !node.destroying) = gone
    cases gone with
    | false => rfl
    | true => rfl
  rw [castClass, if_neg (fun hne => hne rfl), if_neg (by omega), halive]
  by_cases hgone : living = false
  · rw [if_pos hgone, if_pos hgone]
  · rw [if_neg hgone, if_neg hgone]
    dsimp only
    rw [hobject, ← Option.some.inj ((classMetadata_eq hdistinct (p.coherent h.declared)).symm.trans
      hmetadata)]
    dsimp only
    by_cases hself : owner.label.name = expected
    · rw [if_pos hself, if_pos hself]
    · rw [if_neg hself, if_neg hself, scanBases_eq hne, baseTable_filter hdistinct hself]
      generalize (subobjects owner).filter (fun entry => entry.2.label.name == expected) = entries
      cases entries with
      | nil => rfl
      | cons _ rest => cases rest <;> rfl

theorem RefersTo.castClass_ok (h : RefersTo p heap name pointer owner living) (expected : Text) :
    (∃ result, castClass heap objectTag pointer expected = .ok result) ↔
      living = true ∧ baseCount expected (subobjects owner) = 1 := by
  obtain ⟨object, offset, -, -, -, hcast⟩ := h.castClass_eq expected
  rw [hcast]
  cases living with
  | false => simp
  | true =>
    rw [if_neg (by decide)]
    by_cases hself : owner.label.name = expected
    · rw [if_pos hself, ← hself, baseCount_owner h.declared]
      simp
    · rw [if_neg hself, baseCount, List.countP_eq_length_filter]
      generalize (subobjects owner).filter (fun entry => entry.2.label.name == expected) = entries
      match entries with
      | [] => simp
      | [_] => simp
      | _ :: _ :: _ => simp

theorem RefersTo.castClass_returns (h : RefersTo p heap name pointer owner living) {result : Nat}
    (hresult : castClass heap objectTag pointer name = .ok result) : result = pointer := by
  obtain ⟨object, offset, rfl, -, ⟨path, target, hlisted, hname, hoffset⟩, hcast⟩ :=
    h.castClass_eq name
  have hmem : (path, target) ∈ (subobjects owner).filter fun entry => entry.2.label.name == name :=
    List.mem_filter.mpr ⟨hlisted, by simpa using hname⟩
  have hone := h.castClass_ok name
  rw [hresult] at hone
  obtain ⟨hliving, hcount⟩ := hone.mp ⟨result, rfl⟩
  rw [baseCount, List.countP_eq_length_filter] at hcount
  rw [hcast, if_neg (by rw [hliving]; decide)] at hresult
  match hentries : (subobjects owner).filter fun entry => entry.2.label.name == name with
  | [] =>
    rw [hentries] at hmem
    cases hmem
  | [entry] =>
    rw [hentries] at hmem
    obtain rfl := List.mem_singleton.mp hmem
    split at hresult
    · next hself =>
      -- the whole object is the only subobject of its own name
      have hwhole : (([], owner) : List Text × ClassDeclaration) ∈
          (subobjects owner).filter fun entry => entry.2.label.name == name :=
        List.mem_filter.mpr ⟨self_mem_subobjects owner, by simpa using hself⟩
      rw [hentries, List.mem_singleton] at hwhole
      obtain ⟨rfl, rfl⟩ := Prod.mk.inj hwhole
      obtain ⟨indices, hview⟩ := view_exists (p.distinctBases h.declared)
        (p.coherent h.declared) hlisted
      obtain ⟨place, hplace, hzero⟩ :=
        subobject_offset (p.distinctBases h.declared) (p.coherent h.declared) hview
      obtain rfl := Option.some.inj hview.leads
      rw [MemoryType.element_nil] at hplace
      obtain ⟨rfl, -⟩ := Prod.mk.inj (Option.some.inj hplace)
      obtain rfl := Option.some.inj (hoffset.symm.trans hzero)
      exact (Except.ok.inj hresult).symm
    · rw [hentries] at hresult
      dsimp only at hresult
      rw [hoffset] at hresult
      exact (Except.ok.inj hresult).symm
  | _ :: _ :: _ =>
    rw [hentries] at hcount
    simp at hcount

theorem RefersTo.isInstance (h : RefersTo p heap name pointer owner living) (expected : Text) :
    objectIsInstance heap pointer expected = true ↔
      ∃ u ∈ owner.subtrees, u.label.name = expected := by
  obtain ⟨object, offset, rfl, hne, -, -⟩ := h.castClass_eq expected
  have hdistinct := p.distinctBases h.declared
  have hc := p.coherent h.declared
  rw [objectIsInstance, ← Option.some.inj ((classMetadata_eq hdistinct hc).symm.trans h.metadata),
    classIsSubclass]
  simp only [Bool.and_eq_true, Bool.not_eq_true', decide_eq_false_iff_not, Bool.or_eq_true,
    beq_iff_eq,
    List.any_eq_true]
  constructor
  · rintro ⟨-, hself | ⟨base, hbase, hname⟩⟩
    · exact ⟨owner, Tree.mem_subtrees_self _, hself⟩
    · obtain ⟨entry, hentry, rfl⟩ := List.mem_map.mp hbase
      obtain ⟨spot, hwalk⟩ := subobjects_walk hdistinct (List.mem_of_mem_filter hentry) whole
      exact ⟨entry.2, walk_mem hwalk, hname⟩
  · rintro ⟨u, hu, hname⟩
    refine ⟨by omega, ?_⟩
    obtain ⟨path, hpath⟩ := mem_subobjects hdistinct hc hu
    by_cases hempty : path = []
    · rw [hempty] at hpath
      obtain ⟨spot, hwalk⟩ := subobjects_walk hdistinct hpath whole
      obtain ⟨rfl, -⟩ := Prod.mk.inj (Option.some.inj hwalk)
      exact .inl hname
    · refine .inr ⟨_, List.mem_map.mpr ⟨(path, u), ?_, rfl⟩, hname⟩
      exact List.mem_filter.mpr ⟨hpath, by simpa using hempty⟩

end

/-! ## Extraction -/

/-- When `value as Type` does not raise. -/
def Extractable (heap : ObjectHeap) (value : DynamicValue) : ValueType → Prop
  | .int => value.tag = integerTag
  | .bool => value.tag = booleanTag
  | .float => value.tag = floatTag
  | .unsigned => value.tag = unsignedTag
  | .descriptor => value.tag = typeTag
  | .dict => value.tag = mapTag ∧ value.pointer ≠ 0 ∧
      (findObject heap value.pointer).any HeapNode.isMap = true
  | .list => value.tag = arrayTag ∧ value.pointer ≠ 0 ∧
      (findObject heap value.pointer).any HeapNode.isArray = true
  | .buffer => value.tag = objectTag ∧ value.pointer = 0 ∨ value.tag = bufferTag ∧
      value.pointer ≠ 0 ∧
      (findObject heap value.pointer).any HeapNode.isBuffer = true
  | .handle => value.tag = handleTag ∨ value.tag = objectTag ∧ value.pointer = 0
  | .object name => ∃ result, castClass heap value.tag value.pointer name = .ok result
  | .null => isNullableTag value.tag = true ∧ value.pointer = 0

theorem map_ok {α β ε : Type} {f : α → β} {x : Except ε α} :
    (∃ y, x.map f = .ok y) ↔ ∃ z, x = .ok z := by
  cases x with
  | error e | ok z => simp [Except.map]

theorem requireTag_ok {actual expected : Nat} :
    (∃ result, requireTag actual expected = .ok result) ↔ actual = expected := by
  rw [requireTag]
  split
  · next hne => simp [hne]
  · next heq => simpa using heq

theorem extractTypedValue_ok (heap : ObjectHeap) (value : DynamicValue) (target : ValueType) :
    (∃ result, extractTypedValue heap value target = .ok result) ↔
    Extractable heap value target := by
  rw [extractTypedValue, map_ok]
  cases target with
  | int | bool | float | unsigned | descriptor => exact map_ok.trans requireTag_ok
  | dict =>
    refine map_ok.trans ?_
    rw [requireMap, Extractable]
    split
    · next hne => simp [hne]
    · split
      · next hzero => simp [hzero]
      · next htag hzero => simp_all
  | list =>
    refine map_ok.trans ?_
    rw [requireArray, Extractable]
    split
    · next hne => simp [hne]
    · split
      · next hzero => simp [hzero]
      · next htag hzero => simp_all
  | buffer =>
    refine map_ok.trans ?_
    rw [requireBuffer, Extractable]
    split
    · next hnull => simp [hnull]
    · next hnull =>
      rw [or_iff_right hnull]
      split
      · next hne =>
        rcases hne with hne | hzero
        · simp [hne]
        · simp [hzero]
      · next htag => simp_all
  | handle =>
    refine map_ok.trans ?_
    rw [requireHandle, Extractable]
    split
    · next hpasses => simp [hpasses]
    · next hpasses => simp [hpasses]
  | object name => exact Iff.rfl
  | null =>
    show (∃ result, requireNull value.tag value.pointer = .ok result) ↔ _
    rw [requireNull, Extractable]
    split
    · next hne =>
      rcases hne with hne | hne
      · simp_all
      · simp [hne]
    · next hne => simp_all

theorem castClass_ok_null {heap : ObjectHeap} {tag pointer : Nat} {expected : Text}
    (h : tag ≠ objectTag ∨ pointer = 0) :
    (∃ result, castClass heap tag pointer expected = .ok result) ↔ tag = objectTag := by
  rw [castClass]
  by_cases htag : tag = objectTag
  · have hzero : pointer = 0 := h.resolve_left (fun hne => hne htag)
    simp [htag, hzero]
  · simp [htag]

theorem castClass_tag {heap : ObjectHeap} {tag pointer : Nat} {expected : Text}
    (h : ∃ result, castClass heap tag pointer expected = .ok result) : tag = objectTag := by
  by_contra htag
  rw [castClass_ok_null (.inl htag)] at h
  exact htag h

variable {target type : ValueType} {content : Content}

theorem Extractable.tag_eq {heap : ObjectHeap} {value : DynamicValue}
    (h : Extractable heap value target) (hne : isNullableTag value.tag = true → value.pointer ≠ 0) :
    value.tag = valueTag target ∧ target ≠ .null := by
  have hobject : ¬ (value.tag = objectTag ∧ value.pointer = 0) :=
    fun hnull => hne (by rw [hnull.1]; decide) hnull.2
  cases target with
  | int | bool | float | unsigned | descriptor => exact ⟨h, nofun⟩
  | dict | list => exact ⟨h.1, nofun⟩
  | buffer => exact ⟨(h.resolve_left hobject).1, nofun⟩
  | handle => exact ⟨h.resolve_right hobject, nofun⟩
  | object name => exact ⟨castClass_tag h, nofun⟩
  | null => exact absurd h.2 (hne h.1)

theorem valueTag_injective (hplain : valueTag type ≠ objectTag)
    (h : valueTag target = valueTag type) : target = type := by
  cases type <;> cases target <;> first
    | rfl
    | exact absurd rfl hplain
    | exact absurd (show (_ : Nat) = _ from h) (by simp only [valueTag]; decide)

theorem valueTag_object :
    valueTag type = objectTag ↔ type = .null ∨ ∃ name, type = .object name := by
  cases type <;> simp [valueTag] <;> decide

theorem valueTag_handle : valueTag type = handleTag ↔ type = .handle := by
  cases type <;> simp [valueTag] <;> decide

theorem extractable_plain {heap : ObjectHeap} (value : DynamicValue) (type : ValueType)
    (htag : value.tag = valueTag type) (hplain : valueTag type ≠ objectTag)
    (hne : isNullableTag value.tag = true → value.pointer ≠ 0) (hself : Extractable heap value type)
    (target : ValueType) : Extractable heap value target ↔ target = type := by
  constructor
  · intro h
    exact valueTag_injective hplain ((h.tag_eq hne).1.symm.trans htag)
  · rintro rfl
    exact hself

theorem extractable_null {heap : ObjectHeap} (value : DynamicValue) (type : ValueType)
    (htag : value.tag = valueTag type) (hnullable : isNullableTag value.tag = true)
    (hzero : value.pointer = 0) (target : ValueType) :
    Extractable heap value target ↔ NullPasses type target := by
  have hscalar : ∀ {tag : Nat}, isNullableTag tag = false → (value.tag = tag ↔ False) := by
    intro tag hfalse
    refine iff_false_intro fun heq => ?_
    rw [heq, hfalse] at hnullable
    cases hnullable
  cases target with
  | int | bool | float | unsigned | descriptor => exact hscalar (by decide)
  | dict | list => exact iff_of_false (fun h => h.2.1 hzero) id
  | buffer =>
    rw [Extractable, hzero, htag]
    simp [valueTag_object, NullPasses]
  | handle =>
    rw [Extractable, hzero, htag]
    simp [valueTag_object, valueTag_handle, NullPasses]
  | object name =>
    rw [Extractable, castClass_ok_null (.inr hzero), htag]
    exact valueTag_object
  | null => exact iff_of_true ⟨hnullable, hzero⟩ trivial

theorem extractable_iff {p : Program} {heap : ObjectHeap} {value : Value type}
    (h : Holds p heap type value content) (target : ValueType) :
    Extractable heap (buildDynamicValue type value) target ↔ MayCast type content target := by
  cases h with
  | int value =>
    exact extractable_plain (buildDynamicValue .int value) .int rfl (by decide) nofun rfl target
  | bool value =>
    exact extractable_plain (buildDynamicValue .bool value) .bool rfl (by decide) nofun rfl target
  | float value =>
    exact extractable_plain (buildDynamicValue .float value) .float rfl (by decide) nofun rfl target
  | unsigned value =>
    exact extractable_plain (buildDynamicValue .unsigned value) .unsigned rfl
      (by decide) nofun rfl target
  | descriptor value =>
    exact extractable_plain (buildDynamicValue .descriptor value) .descriptor rfl
      (by decide) nofun rfl target
  | @list pointer hnode hne =>
    exact extractable_plain (buildDynamicValue .list ⟨pointer, false⟩) .list rfl (by decide)
      (fun _ => hne) ⟨rfl, hne, hnode⟩ target
  | @dict pointer hnode hne =>
    exact extractable_plain (buildDynamicValue .dict ⟨pointer, false⟩) .dict rfl (by decide)
      (fun _ => hne) ⟨rfl, hne, hnode⟩ target
  | @buffer pointer hnode hne =>
    exact extractable_plain (buildDynamicValue .buffer ⟨pointer, false⟩) .buffer rfl (by decide)
      (fun _ => hne) (.inr ⟨rfl, hne, hnode⟩) target
  | @handle pointer hne =>
    exact extractable_plain (buildDynamicValue .handle ⟨pointer, false⟩) .handle rfl (by decide)
      (fun _ => hne) (.inl rfl) target
  | null value => exact extractable_null (buildDynamicValue .null value) .null rfl rfl rfl target
  | nullList =>
    exact extractable_null (buildDynamicValue .list ⟨Nat.zero, false⟩) .list rfl rfl rfl target
  | nullDict =>
    exact extractable_null (buildDynamicValue .dict ⟨Nat.zero, false⟩) .dict rfl rfl rfl target
  | nullBuffer =>
    exact extractable_null (buildDynamicValue .buffer ⟨Nat.zero, false⟩) .buffer rfl rfl rfl target
  | nullHandle =>
    exact extractable_null (buildDynamicValue .handle ⟨Nat.zero, false⟩) .handle rfl rfl rfl target
  | nullObject name =>
    exact extractable_null (buildDynamicValue (.object name) ⟨Nat.zero, false⟩) (.object name)
      rfl rfl rfl target
  | @object name pointer owner living hrefers =>
    obtain ⟨object, offset, hpointer, hne, -⟩ := hrefers.castClass_eq name
    have hpointer_ne : pointer ≠ 0 := by omega
    by_cases hobject : ∃ expected, target = .object expected
    · obtain ⟨expected, rfl⟩ := hobject
      exact hrefers.castClass_ok expected
    · refine iff_of_false ?_ ?_
      · intro hextract
        obtain ⟨htag, hnull⟩ := hextract.tag_eq fun _ => hpointer_ne
        exact hobject ((valueTag_object.mp htag.symm).resolve_left hnull)
      · intro hcast
        cases target with
        | object expected => exact hobject ⟨expected, rfl⟩
        | _ => exact hcast

/-! ## Type tests and names -/

theorem valueIsType_plain (heap : ObjectHeap) (tag pointer : Nat) {expectedTag : Nat}
    (h : expectedTag ≠ objectTag) :
    valueIsType heap tag pointer expectedTag none
      = some (decide (tag = expectedTag ∧ (isNullableTag tag = true → pointer ≠ 0))) := by
  rw [valueIsType, if_neg h, if_neg (by decide)]
  by_cases htag : tag = expectedTag
  · rw [if_neg (fun hne => hne htag)]
    by_cases hnull : isNullableTag tag = true ∧ pointer = 0
    · rw [if_pos hnull]
      simp [hnull]
    · rw [if_neg hnull]
      simp only [not_and] at hnull
      simp only [htag, true_and]
      rw [decide_eq_true (htag ▸ hnull)]
  · rw [if_pos htag]
    simp [htag]

theorem typeTest_eq (heap : ObjectHeap) (value : DynamicValue) (target : ValueType) :
    typeTest heap value target = some (match target with
      | .object name => decide (value.tag = objectTag) && objectIsInstance heap value.pointer name
      | .null => false
      | other => decide (value.tag = valueTag other ∧
          (isNullableTag value.tag = true → value.pointer ≠ 0))) := by
  cases target with
  | object name =>
    show valueIsType heap value.tag value.pointer objectTag (some name) = _
    rw [valueIsType, if_pos rfl]
    by_cases htag : value.tag = objectTag
    · by_cases hzero : value.pointer = 0
      · simp [hzero, objectIsInstance]
      · simp [htag, hzero]
    · simp [htag]
  | null => rfl
  | _ => exact valueIsType_plain heap _ _ (by decide)

theorem typeTest_plain (heap : ObjectHeap) (value : DynamicValue) (type : ValueType)
    (htag : value.tag = valueTag type) (hplain : valueTag type ≠ objectTag)
    (hne : isNullableTag value.tag = true → value.pointer ≠ 0) (target : ValueType) :
    typeTest heap value target = some true ↔ target = type := by
  rw [typeTest_eq, Option.some.injEq]
  constructor
  · intro htest
    apply valueTag_injective hplain
    rw [← htag]
    cases target with
    | object name =>
      simp only [Bool.and_eq_true, decide_eq_true_eq] at htest
      exact htest.1.symm
    | null => cases htest
    | _ => exact (decide_eq_true_eq.mp htest).1.symm
  · rintro rfl
    cases target with
    | object name | null => exact absurd rfl hplain
    | _ => exact decide_eq_true ⟨htag, hne⟩

theorem typeTest_null (heap : ObjectHeap) (value : DynamicValue)
    (hnullable : isNullableTag value.tag = true) (hzero : value.pointer = 0) (target : ValueType) :
    typeTest heap value target = some true ↔ False := by
  rw [typeTest_eq, Option.some.injEq, iff_false]
  intro htest
  cases target with
  | object name => simp [objectIsInstance, hzero] at htest
  | null => cases htest
  | _ => exact (decide_eq_true_eq.mp htest).2 hnullable hzero

theorem typeTest_iff {p : Program} {heap : ObjectHeap} {value : Value type}
    (h : Holds p heap type value content) (target : ValueType) :
    typeTest heap (buildDynamicValue type value) target = some true ↔ content.Is target := by
  cases h with
  | int value =>
    exact typeTest_plain heap (buildDynamicValue .int value) .int rfl (by decide) nofun target
  | bool value =>
    exact typeTest_plain heap (buildDynamicValue .bool value) .bool rfl (by decide) nofun target
  | float value =>
    exact typeTest_plain heap (buildDynamicValue .float value) .float rfl (by decide) nofun target
  | unsigned value =>
    exact typeTest_plain heap (buildDynamicValue .unsigned value) .unsigned rfl
      (by decide) nofun target
  | descriptor value =>
    exact typeTest_plain heap (buildDynamicValue .descriptor value) .descriptor rfl
      (by decide) nofun target
  | @list pointer hnode hne =>
    exact typeTest_plain heap (buildDynamicValue .list ⟨pointer, false⟩) .list rfl (by decide)
      (fun _ => hne) target
  | @dict pointer hnode hne =>
    exact typeTest_plain heap (buildDynamicValue .dict ⟨pointer, false⟩) .dict rfl (by decide)
      (fun _ => hne) target
  | @buffer pointer hnode hne =>
    exact typeTest_plain heap (buildDynamicValue .buffer ⟨pointer, false⟩) .buffer rfl (by decide)
      (fun _ => hne) target
  | @handle pointer hne =>
    exact typeTest_plain heap (buildDynamicValue .handle ⟨pointer, false⟩) .handle rfl (by decide)
      (fun _ => hne) target
  | null value => exact typeTest_null heap (buildDynamicValue .null value) rfl rfl target
  | nullList => exact typeTest_null heap (buildDynamicValue .list ⟨Nat.zero, false⟩) rfl rfl target
  | nullDict => exact typeTest_null heap (buildDynamicValue .dict ⟨Nat.zero, false⟩) rfl rfl target
  | nullBuffer =>
    exact typeTest_null heap (buildDynamicValue .buffer ⟨Nat.zero, false⟩) rfl rfl target
  | nullHandle =>
    exact typeTest_null heap (buildDynamicValue .handle ⟨Nat.zero, false⟩) rfl rfl target
  | nullObject name =>
    exact typeTest_null heap (buildDynamicValue (.object name) ⟨Nat.zero, false⟩) rfl rfl target
  | @object name pointer owner living hrefers =>
    rw [typeTest_eq, Option.some.injEq]
    cases target with
    | object expected =>
      show (decide (objectTag = objectTag) && objectIsInstance heap pointer expected) = true ↔ _
      rw [decide_eq_true rfl, Bool.true_and]
      exact hrefers.isInstance expected
    | null => exact iff_of_false (fun h => nomatch h) id
    | _ =>
      refine iff_of_false (fun htest => ?_) id
      exact absurd (decide_eq_true_eq.mp htest).1 (show objectTag ≠ _ by decide)

theorem typeOf_eq {p : Program} {heap : ObjectHeap} {value : Value type}
    (h : Holds p heap type value content) :
    typeOf heap (buildDynamicValue type value) = some content.typeName := by
  have hnull : ∀ {tag : Nat}, isNullableTag tag = true → valueTypeName heap tag 0 =
      some nullName := by
    intro tag hnullable
    exact if_pos ⟨hnullable, rfl⟩
  cases h with
  | int => rfl
  | bool => rfl
  | float => rfl
  | unsigned => rfl
  | descriptor => rfl
  | @list pointer hnode hne => exact if_neg fun hnull => hne hnull.2
  | @dict pointer hnode hne | @buffer pointer hnode hne | @handle pointer hne =>
    exact if_neg fun hnull => hne hnull.2
  | null | nullList | nullDict | nullBuffer | nullHandle | nullObject => exact hnull rfl
  | @object name pointer owner living hrefers =>
    obtain ⟨object, offset, hpointer, hne, -⟩ := hrefers.castClass_eq name
    have hpointer_ne : pointer ≠ 0 := by omega
    have hmeta := classMetadata_eq (p.distinctBases hrefers.declared) (p.coherent hrefers.declared)
    have hname : (heap.metadataAt pointer).name = owner.label.name := by
      rw [← Option.some.inj (hmeta.symm.trans hrefers.metadata)]
    show valueTypeName heap objectTag pointer = some owner.label.name
    rw [valueTypeName, if_neg (fun hnull => hpointer_ne hnull.2), if_neg (by decide),
      if_neg (by decide), if_pos rfl, objectTypeName, if_neg hpointer_ne, hname]

/-! ## Boxing -/

theorem map_const {α β ε : Type} {x : Except ε α} {y z : β} (h : (x.map fun _ => y) = .ok z) :
    z = y := by
  cases x with
  | error e => cases h
  | ok a => exact (Except.ok.inj h).symm

theorem bit_extended (b : Bool) : ((BitVec.ofBool b).setWidth 64).getLsbD 0 = b := by
  cases b <;> decide

theorem extractOperand_returns {p : Program} {heap : ObjectHeap} {value : Value type}
    (h : Holds p heap type value content) {result : type.Operand}
    (hresult : extractOperand heap (buildDynamicValue type value) type = .ok result) :
    result = value.operand := by
  cases h with
  | int value =>
    rw [extractOperand] at hresult
    exact map_const hresult
  | bool value =>
    rw [extractOperand] at hresult
    exact (map_const hresult).trans (bit_extended value.operand)
  | float value =>
    rw [extractOperand] at hresult
    exact map_const hresult
  | unsigned value | descriptor value | list hnode hne | dict hnode hne | buffer hnode hne
      | handle hne =>
    rw [extractOperand] at hresult
    exact map_const hresult
  | object hrefers => exact hrefers.castClass_returns hresult
  | null value => rfl
  | nullList | nullDict | nullBuffer | nullHandle =>
    rw [extractOperand] at hresult
    exact map_const hresult
  | nullObject name => exact (Except.ok.inj hresult).symm

theorem MayCast.is {p : Program} {heap : ObjectHeap} {value : Value type}
    (h : Holds p heap type value content) (hcast : MayCast type content target)
    (hne : content ≠ .null) : content.Is target := by
  cases content with
  | plain held => exact hcast
  | null => exact absurd rfl hne
  | «instance» owner living =>
    cases h with
    | object hrefers =>
      cases target with
      | object name =>
        have hpositive : 0 < baseCount name (subobjects owner) := by
          rw [hcast.2]
          exact Nat.one_pos
        obtain ⟨entry, hentry, hname⟩ := List.countP_pos_iff.mp hpositive
        obtain ⟨spot, hwalk⟩ :=
          subobjects_walk (p.distinctBases hrefers.declared) hentry whole
        exact ⟨entry.2, walk_mem hwalk, by simpa using hname⟩
      | _ => exact hcast

/-- What becomes of a value that is stored in an `any`. -/
structure BoxingKeeps (heap : ObjectHeap) (type : ValueType) (value : Value type)
    (content : Content) :
    Prop where
  /-- Cast back, it is the value that was stored; the null of a scalar is its zero. -/
  returns : ∀ result, extractTypedValue heap (buildDynamicValue type value) type = .ok result →
    result = ⟨value.operand, false⟩
  casts : ∀ target, (∃ result, extractTypedValue heap (buildDynamicValue type value) target =
    .ok result) ↔
    MayCast type content target
  /-- The types that `is` finds are those of its content. -/
  tests : ∀ target, typeTest heap (buildDynamicValue type value) target = some true ↔
    content.Is target
  /-- What is not null is cast only to types that `is` finds. -/
  agrees : content ≠ .null → ∀ target result,
    extractTypedValue heap (buildDynamicValue type value) target = .ok result →
    typeTest heap (buildDynamicValue type value) target = some true
  /-- `type(value)` names the type of its content. -/
  named : typeOf heap (buildDynamicValue type value) = some content.typeName

/-- Every cast and every test of a boxed value answers for its content. -/
theorem boxing_keeps {p : Program} {heap : ObjectHeap} {type : ValueType} {value : Value type}
    {content : Content} (h : Holds p heap type value content) :
    BoxingKeeps heap type value content := by
  have hcasts : ∀ target,
      (∃ result, extractTypedValue heap (buildDynamicValue type value) target = .ok result) ↔
        MayCast type content target :=
    fun target => (extractTypedValue_ok heap _ target).trans (extractable_iff h target)
  refine ⟨?_, hcasts, typeTest_iff h, ?_, typeOf_eq h⟩
  · intro result hresult
    cases hoperand : extractOperand heap (buildDynamicValue type value) type with
    | error failure =>
      rw [extractTypedValue, hoperand] at hresult
      cases hresult
    | ok operand =>
      rw [extractTypedValue, hoperand] at hresult
      rw [← extractOperand_returns h hoperand]
      exact (Except.ok.inj hresult).symm
  · intro hne target result hresult
    exact (typeTest_iff h target).mpr (((hcasts target).mp ⟨result, hresult⟩).is h hne)

def listHeap : ObjectHeap where
  nodes := [⟨64, 32, true, false, false, false, false⟩]
  metadataAt := fun _ => ⟨[], []⟩

theorem list_returns :
    ∃ result, extractTypedValue listHeap (buildDynamicValue .list ⟨(64 : Nat), false⟩) .list =
      .ok result ∧
      result = ⟨(64 : Nat), false⟩ := by
  have hholds : Holds diamondProgram listHeap .list ⟨(64 : Nat), false⟩ (.plain .list) :=
    .list (by decide) (by decide)
  have hkeeps := boxing_keeps hholds
  obtain ⟨result, hresult⟩ := (hkeeps.casts .list).mpr rfl
  exact ⟨result, hresult, hkeeps.returns result hresult⟩

/-- A null `list` is stored with the tag of lists, and is then no list. -/
theorem null_list_raises : ¬ ∀ (p : Program) (heap : ObjectHeap) (type : ValueType)
    (value : Value type) (content : Content), Holds p heap type value content →
    ∃ result, extractTypedValue heap (buildDynamicValue type value) type = .ok result := by
  intro h
  obtain ⟨result, hresult⟩ := h diamondProgram listHeap .list _ _ .nullList
  cases hresult

end Cwhip.CodeGen
