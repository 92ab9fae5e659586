/-
  Cwhip.CodeGen.DynamicValue

  The runtime's checks on the values of type `any` (`RuntimeGc.c`): a tag, and
  for references a pointer into a heap object.
-/

import Cwhip.CodeGen.ObjectAddresses

namespace Cwhip.CodeGen

open Cwhip.Lib

/-- `CwhipClassName`: a base subobject of a class. -/
structure BaseEntry where
  name : Text
  offset : Nat
  deriving DecidableEq

/-- The part of `CwhipClassMeta` that tells classes apart. -/
structure ClassMeta where
  name : Text
  baseClasses : List BaseEntry
  deriving DecidableEq

structure HeapNode where
  object : Nat
  allocationSize : Nat
  isArray : Bool
  isMap : Bool
  isBuffer : Bool
  destroyed : Bool
  destroying : Bool

/-- The heap list, and the metadata that the word at an address points to. -/
structure ObjectHeap where
  nodes : List HeapNode
  metadataAt : Nat → ClassMeta

/-! ## Tags -/

/-- `CWHIP_ARRAY_INTEGER` -/
def integerTag : Nat := 1

/-- `CWHIP_ARRAY_STRING` -/
def stringTag : Nat := 2

/-- `CWHIP_ARRAY_OBJECT` -/
def objectTag : Nat := 3

/-- `CWHIP_ARRAY_MAP` -/
def mapTag : Nat := 4

/-- `CWHIP_ARRAY_ARRAY` -/
def arrayTag : Nat := 5

/-- `CWHIP_ARRAY_BOOLEAN` -/
def booleanTag : Nat := 6

/-- `CWHIP_ARRAY_FLOAT` -/
def floatTag : Nat := 7

/-- `CWHIP_ARRAY_UNSIGNED` -/
def unsignedTag : Nat := 8

/-- `CWHIP_ARRAY_BUFFER` -/
def bufferTag : Nat := 9

/-- `CWHIP_ARRAY_HANDLE` -/
def handleTag : Nat := 10

/-- `CWHIP_ARRAY_TYPE` -/
def typeTag : Nat := 11

/-- The tags whose pointer may be null. -/
def isNullableTag (tag : Nat) : Bool :=
  [stringTag, objectTag, mapTag, arrayTag, bufferTag, handleTag].contains tag

/-! ## Checked extraction -/

inductive CastFailure where
  | notObject
  | invalidReference
  | destroyed
  | ambiguousBase
  | differentClass
  | notRequested
  | notNull
  | notDict
  | notList
  | notBuffer
  | notHandle
  deriving DecidableEq

/-- The message of the exception that is raised. -/
def CastFailure.message : CastFailure → String
  | .notObject => "'any' value does not hold an object reference"
  | .invalidReference => "invalid object reference"
  | .destroyed => "object has been destroyed"
  | .ambiguousBase => "checked object cast has an ambiguous base subobject"
  | .differentClass => "'any' value holds a different class than the requested type"
  | .notRequested => "'any' value does not hold the requested type"
  | .notNull => "'any' value does not hold null"
  | .notDict => "'any' value does not hold a dict reference"
  | .notList => "'any' value does not hold a list reference"
  | .notBuffer => "'any' value does not hold a buffer reference"
  | .notHandle => "'any' value does not hold a handle"

/-- `find_object` -/
def findObject (heap : ObjectHeap) (pointer : Nat) : Option HeapNode :=
  heap.nodes.find? fun node => node.object == pointer

/-- `find_containing_object` -/
def findContainingObject (heap : ObjectHeap) (pointer : Nat) : Option HeapNode :=
  heap.nodes.find? fun node =>
    !decide (pointer < node.object) && decide (pointer - node.object < node.allocationSize)

/-- `cwhip_gc_require_alive`, of a pointer that is not null. -/
def requireAlive (heap : ObjectHeap) (pointer : Nat) : Except CastFailure HeapNode :=
  match findContainingObject heap pointer with
  | none => .error .invalidReference
  | some node => if node.destroyed && !node.destroying then .error .destroyed else .ok node

/-- The loop of `cwhip_value_cast_class` over the base table; the result is null
    (0) until an entry has the name. -/
def scanBases (object : Nat) (expected : Text) : List BaseEntry → Nat → Except CastFailure Nat
  | [], result => if result ≠ 0 then .ok result else .error .differentClass
  | base :: rest, result =>
    if base.name = expected then
      if result ≠ 0 then .error .ambiguousBase
      else scanBases object expected rest (object + base.offset)
    else scanBases object expected rest result

/-- `cwhip_value_cast_class`, with the name of the expected class. -/
def castClass (heap : ObjectHeap) (actualTag pointer : Nat) (expected : Text) :
    Except CastFailure Nat :=
  if actualTag ≠ objectTag then .error .notObject
  else if pointer = 0 then .ok 0
  else
    match requireAlive heap pointer with
    | .error failure => .error failure
    | .ok node =>
      let actual := heap.metadataAt node.object
      if actual.name = expected then .ok node.object
      else scanBases node.object expected actual.baseClasses 0

/-- `cwhip_value_require_tag` -/
def requireTag (actual expected : Nat) : Except CastFailure Unit :=
  if actual ≠ expected then .error .notRequested else .ok ()

/-- `cwhip_value_require_null` -/
def requireNull (actualTag pointer : Nat) : Except CastFailure Unit :=
  if !isNullableTag actualTag ∨ pointer ≠ 0 then .error .notNull else .ok ()

/-- `cwhip_value_require_map` -/
def requireMap (heap : ObjectHeap) (actualTag pointer : Nat) : Except CastFailure Unit :=
  if actualTag ≠ mapTag then .error .notDict
  else if pointer = 0 then .error .notDict
  else if (findObject heap pointer).any HeapNode.isMap then .ok () else .error .notDict

/-- `cwhip_value_require_array` -/
def requireArray (heap : ObjectHeap) (actualTag pointer : Nat) : Except CastFailure Unit :=
  if actualTag ≠ arrayTag then .error .notList
  else if pointer = 0 then .error .notList
  else if (findObject heap pointer).any HeapNode.isArray then .ok () else .error .notList

/-- `cwhip_value_require_buffer`, which takes the null of an object for one. -/
def requireBuffer (heap : ObjectHeap) (actualTag pointer : Nat) : Except CastFailure Unit :=
  if actualTag = objectTag ∧ pointer = 0 then .ok ()
  else if actualTag ≠ bufferTag ∨ pointer = 0 then .error .notBuffer
  else if (findObject heap pointer).any HeapNode.isBuffer then .ok () else .error .notBuffer

/-- `cwhip_value_require_handle` -/
def requireHandle (actualTag pointer : Nat) : Except CastFailure Unit :=
  if actualTag = handleTag ∨ actualTag = objectTag ∧ pointer = 0 then .ok () else .error .notHandle

/-! ## Type tests and names -/

/-- `class_is_subclass` -/
def classIsSubclass (actual : ClassMeta) (expected : Text) : Bool :=
  actual.name == expected || actual.baseClasses.any fun base => base.name == expected

/-- `cwhip_object_is_instance` -/
def objectIsInstance (heap : ObjectHeap) (object : Nat) (expected : Text) : Bool :=
  !decide (object = 0) && classIsSubclass (heap.metadataAt object) expected

/-- `cwhip_value_is_type`; it aborts if a class is expected with a tag other than
    that of objects. -/
def valueIsType (heap : ObjectHeap) (actualTag pointer expectedTag : Nat)
    (expectedClass : Option Text) : Option Bool :=
  if expectedTag = objectTag then
    match expectedClass with
    | none => some false
    | some expected =>
      if actualTag ≠ objectTag ∨ pointer = 0 then some false
      else some (objectIsInstance heap pointer expected)
  else if expectedClass.isSome then none
  else if actualTag ≠ expectedTag then some false
  else if isNullableTag actualTag ∧ pointer = 0 then some false
  else some true

@[irreducible] def nullName : Text := "null".toList

/-- `cwhip_object_type_name` -/
def objectTypeName (heap : ObjectHeap) (object : Nat) : Text :=
  if object = 0 then nullName else (heap.metadataAt object).name

/-- `cwhip_value_type_name`, which aborts on an unknown tag. -/
def valueTypeName (heap : ObjectHeap) (tag pointer : Nat) : Option Text :=
  if isNullableTag tag ∧ pointer = 0 then some nullName
  else if tag = integerTag then some "int".toList
  else if tag = stringTag then some "string".toList
  else if tag = objectTag then some (objectTypeName heap pointer)
  else if tag = mapTag then some "dict".toList
  else if tag = arrayTag then some "list".toList
  else if tag = booleanTag then some "bool".toList
  else if tag = floatTag then some "float".toList
  else if tag = unsignedTag then some "unsigned".toList
  else if tag = bufferTag then some "buffer".toList
  else if tag = handleTag then some "handle".toList
  else if tag = typeTag then some "type".toList
  else none

/-! ## The scan -/

theorem scanBases_found {object result : Nat} (hresult : result ≠ 0) (expected : Text)
    (bases : List BaseEntry) :
    scanBases object expected bases result
      = if bases.any (fun base => base.name == expected) then .error .ambiguousBase
        else .ok result := by
  induction bases with
  | nil => simp [scanBases, hresult]
  | cons base rest ih =>
    rw [scanBases, List.any_cons]
    by_cases hname : base.name = expected
    · simp [hname, hresult]
    · simp [hname, ih]

theorem scanBases_eq {object : Nat} (hobject : object ≠ 0) (expected : Text)
    (bases : List BaseEntry) :
    scanBases object expected bases 0
      = match bases.filter (fun base => base.name == expected) with
        | [] => .error .differentClass
        | [base] => .ok (object + base.offset)
        | _ :: _ :: _ => .error .ambiguousBase := by
  induction bases with
  | nil => rfl
  | cons base rest ih =>
    rw [scanBases]
    by_cases hname : base.name = expected
    · have hfound : object + base.offset ≠ 0 := by omega
      rw [if_pos hname, if_neg (by simp), scanBases_found hfound,
        List.filter_cons_of_pos (by simpa using hname)]
      cases hrest : rest.filter fun base => base.name == expected with
      | nil =>
        rw [if_neg]
        rw [List.any_eq_true]
        rintro ⟨other, hother, hsame⟩
        exact absurd (hrest ▸ List.mem_filter.mpr ⟨hother, hsame⟩) List.not_mem_nil
      | cons other others =>
        have hmem : other ∈ rest.filter fun base => base.name == expected := by
          rw [hrest]
          exact List.mem_cons_self
        rw [if_pos (List.any_eq_true.mpr ⟨other, List.mem_filter.mp hmem⟩)]
    · rw [if_neg hname, List.filter_cons_of_neg (by simpa using hname)]
      exact ih

end Cwhip.CodeGen
