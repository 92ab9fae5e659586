/-
  Cwhip.CodeGen.NullCollections

  What the code emitted for an operation on a list, dict, buffer or String does
  when the operand is null (`CodeGenerator.cpp`, `CodeGeneratorStatements.cpp`,
  and the checks at the start of the functions of `RuntimeGc.c`).

  Each operation has its own lowering: some check the reference themselves, some
  leave that to the runtime function they call, and the loop over a collection
  loads its length before either.
-/

import Cwhip.Parser.Token

namespace Cwhip.CodeGen.NullCollections

open Cwhip.Parser (SourceLocation)

/-! ## The runtime -/

structure Exception where
  message : String
  location : SourceLocation
  deriving DecidableEq

inductive Outcome where
  | completed
  | raised (exception : Exception)
  /-- Memory behind a null reference was read. -/
  | faulted
  deriving DecidableEq

/-- The functions of the runtime that emitted code passes a collection to. -/
inductive RuntimeFunction where
  | arrayIndex | arraySlice | arraySliceEx | arrayResize | arrayAppend
  | mapGet | mapContains | mapRemove | mapSet | mapSlice | mapSliceEx
  | bufferGet | bufferSet | bufferSliceEx | bufferResize | bufferClear | bufferAppend
  | stringBytes
  deriving DecidableEq

/-- The functions that other ones call first. -/
inductive Check where
  | checkedArray | checkedMap | checkedBuffer | stringBuffer
  deriving DecidableEq

def RuntimeFunction.check : RuntimeFunction → Check
  | arrayIndex | arraySlice | arraySliceEx | arrayResize | arrayAppend => .checkedArray
  | mapGet | mapContains | mapRemove | mapSet | mapSlice | mapSliceEx => .checkedMap
  | bufferGet | bufferSet | bufferSliceEx | bufferResize | bufferClear | bufferAppend =>
    .checkedBuffer
  | stringBytes => .stringBuffer

/-- `native_file` -/
def nativeFile : SourceLocation := ⟨"<native String>".toList, 0, 0⟩

/-- What a check raises for a null object, at the place it is given;
    `string_buffer` is given none. -/
def Check.nullException : Check → SourceLocation → Exception
  | .checkedArray, location => ⟨"null list reference", location⟩
  | .checkedMap, location => ⟨"null dict reference", location⟩
  | .checkedBuffer, location => ⟨"null buffer reference", location⟩
  | .stringBuffer, _ => ⟨"null String reference", nativeFile⟩

/-! ## Emitted code -/

/-- A value that the code of an operation works on. -/
inductive Operand where
  | collection
  | argument (index : Nat)
  deriving DecidableEq

inductive Instruction where
  /-- The code of an argument. -/
  | evaluate (index : Nat)
  /-- A call of `cwhip.require_nonnull`. -/
  | requireNonnull (value : Operand) (location : SourceLocation)
  /-- A `getelementptr` to a member, and a load of it. -/
  | loadMember (value : Operand) (member : Nat)
  | call (function : RuntimeFunction) (value : Operand) (location : SourceLocation)
  /-- Code that is given none of the values, or only after these. -/
  | other
  deriving DecidableEq

/-- What evaluating an argument gives: an object, no object (null), or an
    exception. -/
inductive Evaluation where
  | value (object : Option Nat)
  | raised (exception : Exception)
  deriving DecidableEq

structure Values where
  /-- The object that the collection refers to. -/
  collection : Option Nat
  argument : Nat → Evaluation

def Values.isNull (values : Values) : Operand → Bool
  | .collection => values.collection.isNone
  | .argument index => values.argument index == .value none

/-- One instruction.  Of what a function does with an object it is given, only
    that it does not read through a null reference is told. -/
def step (values : Values) : Instruction → Outcome
  | .evaluate index =>
    match values.argument index with
    | .value _ => .completed
    | .raised exception => .raised exception
  | .requireNonnull value location =>
    if values.isNull value then .raised ⟨"null reference", location⟩ else .completed
  | .loadMember value _ => if values.isNull value then .faulted else .completed
  | .call function value location =>
    if values.isNull value then .raised (function.check.nullException location) else .completed
  | .other => .completed

/-- Instructions in order, up to the first that does not complete. -/
def run (values : Values) : List Instruction → Outcome
  | [] => .completed
  | instruction :: rest =>
    match step values instruction with
    | .completed => run values rest
    | outcome => outcome

/-! ## Operations -/

/-- The types that have elements. -/
inductive Indexed where
  | list | dict | buffer
  deriving DecidableEq

inductive ListMethod where
  | resize | append
  deriving DecidableEq

inductive DictMethod where
  | contains | remove
  deriving DecidableEq

inductive BufferMethod where
  | resize | clear | append
  deriving DecidableEq

/-- The operations that the analyzer accepts on the four types. -/
inductive Operation where
  | length (type : Indexed)
  | stringLength
  | index (type : Indexed)
  | slice (type : Indexed) (hasStart hasEnd hasStep : Bool)
  | forEach (array : Bool) (hasKey : Bool)
  | listCall (method : ListMethod)
  | dictCall (method : DictMethod)
  | bufferCall (method : BufferMethod)
  | stringCall (arguments : Nat)
  /-- A method of a String taken as a callback. -/
  | stringMethod
  | assignElement (type : Indexed)
  deriving DecidableEq

/-- Where an operation and its arguments stand in the source. -/
structure Places where
  location : SourceLocation
  argument : Nat → SourceLocation

/-- `emitStringBytesAccess` -/
def stringBytesAccess (value : Operand) (location : SourceLocation) : List Instruction :=
  [.requireNonnull value location, .call .stringBytes value location]

/-- `emitMethodCode`: the metadata of the object, and the method's table entry. -/
def methodCode (value : Operand) : List Instruction := [.loadMember value 0, .other]

def sliceBounds (hasStart hasEnd hasStep : Bool) : List Instruction :=
  (if hasStart then [.evaluate 0] else []) ++ (if hasEnd then [.evaluate 1] else []) ++
    if hasStep then [.evaluate 2] else []

/-- The code emitted for an operation, behind the code of its collection. -/
def lower (places : Places) : Operation → List Instruction
  | .length _ => [.requireNonnull .collection places.location, .loadMember .collection 1]
  | .stringLength => stringBytesAccess .collection places.location ++ [.other]
  | .index .list => [.evaluate 0, .call .arrayIndex .collection places.location, .other]
  | .index .buffer => [.evaluate 0, .call .bufferGet .collection places.location]
  | .index .dict =>
    [.evaluate 0] ++ stringBytesAccess (.argument 0) (places.argument 0) ++
      [.call .mapGet .collection places.location, .other]
  | .slice .list hasStart hasEnd hasStep =>
    sliceBounds hasStart hasEnd hasStep ++ [.call .arraySliceEx .collection places.location]
  | .slice .dict hasStart hasEnd hasStep =>
    sliceBounds hasStart hasEnd hasStep ++ [.call .mapSliceEx .collection places.location]
  | .slice .buffer hasStart hasEnd hasStep =>
    sliceBounds hasStart hasEnd hasStep ++ [.call .bufferSliceEx .collection places.location]
  | .forEach array _ =>
    -- the loop runs over the copy
    [.loadMember .collection 1,
      .call (if array then .arraySlice else .mapSlice) .collection places.location, .other]
  | .listCall .resize => [.evaluate 0, .call .arrayResize .collection places.location]
  | .listCall .append => [.evaluate 0, .other, .call .arrayAppend .collection places.location]
  | .dictCall method =>
    [.evaluate 0] ++ stringBytesAccess (.argument 0) (places.argument 0) ++
      [.call (match method with | .contains => .mapContains | .remove => .mapRemove) .collection
        places.location]
  | .bufferCall .resize =>
    [.requireNonnull .collection places.location, .evaluate 0,
      .call .bufferResize .collection places.location]
  | .bufferCall .clear =>
    [.requireNonnull .collection places.location, .call .bufferClear .collection places.location]
  | .bufferCall .append =>
    [.requireNonnull .collection places.location, .evaluate 0,
      .call .bufferAppend .collection places.location]
  | .stringCall arguments =>
    [.requireNonnull .collection places.location] ++ (List.range arguments).map .evaluate ++
      methodCode .collection ++ [.other]
  | .stringMethod =>
    [.requireNonnull .collection places.location] ++ methodCode .collection ++ [.other]
  | .assignElement .list =>
    -- checked before and after the value is evaluated
    [.evaluate 0, .call .arrayIndex .collection places.location, .evaluate 1,
      .call .arrayIndex .collection places.location, .other]
  | .assignElement .dict =>
    [.evaluate 0, .evaluate 1] ++ stringBytesAccess (.argument 0) places.location ++
      [.other, .call .mapSet .collection places.location]
  | .assignElement .buffer =>
    [.evaluate 0, .evaluate 1, .call .bufferSet .collection places.location]

/-! ## Null references -/

/-- An exception that an argument is the reason for. -/
def OfArgument (places : Places) (values : Values) (exception : Exception) : Prop :=
  ∃ index, values.argument index = .raised exception ∨
    (values.argument index = .value none ∧
      (exception.location = places.argument index ∨ exception.location = places.location))

/-- On a null reference the operation raises an exception where it stands,
    unless an argument, evaluated before, does; memory behind the reference is
    not read. -/
def NullFails (operation : Operation) : Prop :=
  ∀ places values, values.collection = none →
    ∃ exception, run values (lower places operation) = .raised exception ∧
      (exception.location = places.location ∨ OfArgument places values exception)

/-- Code that ends in a check of the collection, which only arguments precede. -/
inductive Checks (places : Places) : List Instruction → Prop where
  | requireNonnull (rest : List Instruction) :
      Checks places (.requireNonnull .collection places.location :: rest)
  | call (function : RuntimeFunction) (hplaced : function ≠ .stringBytes)
      (rest : List Instruction) :
      Checks places (.call function .collection places.location :: rest)
  | evaluate (index : Nat) {rest : List Instruction} (h : Checks places rest) :
      Checks places (.evaluate index :: rest)
  | key (index : Nat) {location : SourceLocation}
      (hlocation : location = places.argument index ∨ location = places.location)
      {rest : List Instruction} (h : Checks places rest) :
      Checks places (stringBytesAccess (.argument index) location ++ rest)
  | other {rest : List Instruction} (h : Checks places rest) : Checks places (.other :: rest)

theorem nullException_location {function : RuntimeFunction} (h : function ≠ .stringBytes)
    (location : SourceLocation) : (function.check.nullException location).location = location := by
  cases function <;> first | rfl | exact absurd rfl h

theorem Checks.run_raised {places : Places} {code : List Instruction} (h : Checks places code)
    {values : Values} (hnull : values.collection = none) :
    ∃ exception, run values code = .raised exception ∧
      (exception.location = places.location ∨ OfArgument places values exception) := by
  have hcollection : values.isNull .collection = true := by
    rw [Values.isNull, hnull]
    rfl
  induction h with
  | requireNonnull rest =>
    refine ⟨⟨"null reference", places.location⟩, ?_, .inl rfl⟩
    simp only [run, step, hcollection, if_true]
  | call function hplaced rest =>
    refine ⟨_, ?_, .inl (nullException_location hplaced places.location)⟩
    simp only [run, step, hcollection, if_true]
  | evaluate index h ih =>
    cases hvalue : values.argument index with
    | value object =>
      obtain ⟨exception, hrun, hplace⟩ := ih
      refine ⟨exception, ?_, hplace⟩
      simp only [run, step, hvalue, hrun]
    | raised exception =>
      refine ⟨exception, ?_, .inr ⟨index, .inl hvalue⟩⟩
      simp only [run, step, hvalue]
  | @key index location hlocation rest h ih =>
    by_cases hkey : values.argument index = .value none
    · -- the key itself is null
      refine ⟨⟨"null reference", location⟩, ?_, .inr ⟨index, .inr ⟨hkey, hlocation⟩⟩⟩
      simp [stringBytesAccess, run, step, Values.isNull, hkey]
    · obtain ⟨exception, hrun, hplace⟩ := ih
      refine ⟨exception, ?_, hplace⟩
      simp [stringBytesAccess, run, step, Values.isNull, hkey, hrun]
  | other h ih =>
    obtain ⟨exception, hrun, hplace⟩ := ih
    refine ⟨exception, ?_, hplace⟩
    simp only [run, step, hrun]

theorem sliceBounds_checks {places : Places} {rest : List Instruction} (h : Checks places rest)
    (hasStart hasEnd hasStep : Bool) :
    Checks places (sliceBounds hasStart hasEnd hasStep ++ rest) := by
  have hstep : Checks places ((if hasStep then [.evaluate 2] else []) ++ rest) := by
    cases hasStep
    · exact h
    · exact .evaluate 2 h
  have hend : Checks places ((if hasEnd then [.evaluate 1] else []) ++
      ((if hasStep then [.evaluate 2] else []) ++ rest)) := by
    cases hasEnd
    · exact hstep
    · exact .evaluate 1 hstep
  rw [sliceBounds, List.append_assoc, List.append_assoc]
  cases hasStart
  · exact hend
  · exact .evaluate 0 hend

theorem lower_checks (places : Places) {operation : Operation}
    (h : ∀ array hasKey, operation ≠ .forEach array hasKey) :
    Checks places (lower places operation) := by
  cases operation with
  | length type | stringLength => exact .requireNonnull _
  | index type =>
    cases type with
    | list | buffer => exact .evaluate 0 (.call _ (by decide) _)
    | dict => exact .evaluate 0 (.key 0 (.inl rfl) (.call _ (by decide) _))
  | slice type hasStart hasEnd hasStep =>
    cases type with
    | list | dict | buffer =>
      exact sliceBounds_checks (.call _ (by decide) _) hasStart hasEnd hasStep
  | forEach array hasKey => exact absurd rfl (h array hasKey)
  | listCall method =>
    cases method with
    | resize => exact .evaluate 0 (.call _ (by decide) _)
    | append => exact .evaluate 0 (.other (.call _ (by decide) _))
  | dictCall method =>
    have hcall : (match method with
        | .contains => RuntimeFunction.mapContains
        | .remove => .mapRemove) ≠ .stringBytes := by
      cases method <;> decide
    exact .evaluate 0 (.key 0 (.inl rfl) (.call _ hcall _))
  | bufferCall method =>
    cases method with
    | resize | clear | append => exact .requireNonnull _
  | stringCall arguments | stringMethod => exact .requireNonnull _
  | assignElement type =>
    cases type with
    | list => exact .evaluate 0 (.call _ (by decide) _)
    | dict => exact .evaluate 0 (.evaluate 1 (.key 0 (.inr rfl) (.other (.call _ (by decide) _))))
    | buffer => exact .evaluate 0 (.evaluate 1 (.call _ (by decide) _))

theorem forEach_faults (places : Places) (array hasKey : Bool) {values : Values}
    (h : values.collection = none) :
    run values (lower places (.forEach array hasKey)) = .faulted := by
  have hcollection : values.isNull .collection = true := by
    rw [Values.isNull, h]
    rfl
  simp only [lower, run, step, hcollection, if_true]

/-- An operation fails cleanly on null references, whatever its arguments do,
    exactly if it is not the loop over the elements. -/
theorem null_fails_iff (operation : Operation) :
    NullFails operation ↔ ∀ array hasKey, operation ≠ .forEach array hasKey := by
  constructor
  · rintro h array hasKey rfl
    obtain ⟨exception, hrun, _⟩ := h ⟨nativeFile, fun _ => nativeFile⟩
      ⟨none, fun _ => .value none⟩ rfl
    rw [forEach_faults _ array hasKey rfl] at hrun
    cases hrun
  · intro h places values hnull
    exact (lower_checks places h).run_raised hnull

/-- `for (value in values)` on a null list. -/
theorem forEach_null_list : run ⟨none, fun _ => .value none⟩
    (lower ⟨⟨"main.cw".toList, 3, 5⟩, fun _ => nativeFile⟩ (.forEach true false)) = .faulted ∧
      ¬ ∀ operation, NullFails operation := by
  refine ⟨rfl, fun h => ?_⟩
  obtain ⟨exception, hrun, _⟩ := h (.forEach true false) ⟨nativeFile, fun _ => nativeFile⟩
    ⟨none, fun _ => .value none⟩ rfl
  rw [forEach_faults _ true false rfl] at hrun
  cases hrun

end Cwhip.CodeGen.NullCollections
