/-
  Cwhip.Runtime.Paths

  Lexical operations on paths (`RuntimeOS.c`): `normalize`, `join`, `basename` and
  `dirname`, on the C strings and buffers they allocate.

  `normalize_path` keeps a stack of marks, where each component in its output starts;
  a mark is before the separator, if there is one.
-/

import Cwhip.Lib.BlockArray
import Cwhip.Runtime.Dict

namespace Cwhip.Runtime.Paths

open Cwhip.Lib Cwhip.Lib.BlockArray

/-- The error codes that are set. -/
inductive PathErrno where
  | invalid
  | noMemory
  | nameTooLong
  deriving DecidableEq

inductive PathStop where
  | errno (errno : PathErrno)
  | fault (stop : BlockStop)
  deriving DecidableEq

def slash : UInt8 := 0x2f

def dot : UInt8 := 0x2e

/-! ## Strings -/

/-- `native_string`, of a String with these bytes. -/
def nativeString (available : Nat → Bool) (bytes : Bytes) : Except PathStop Bytes :=
  if sizeMax - 1 < bytes.length ∨ 0 ∈ bytes then .error (.errno .invalid)
  else if available (bytes.length + 1) = false then .error (.errno .noMemory)
  else .ok bytes

/-- What is in front of the terminator. -/
def terminated : List (Option UInt8) → Except BlockStop Bytes
  | [] => .error .outside
  | none :: _ => .error .indeterminate
  | some byte :: rest => if byte = 0 then .ok [] else (byte :: ·) <$> terminated rest

def readTerminated : BlockM UInt8 Bytes := fun s =>
  match terminated s.cells with
  | .ok bytes => .ok bytes s
  | .error stop => .error stop s

/-! ## `normalize_path` -/

/-- `result` and `marks`; their lengths are `output_length` and `component_count`. -/
structure NormalizeBuffers where
  result : BlockArray UInt8
  marks : BlockArray Nat

abbrev NormalizeM := EStateM BlockStop NormalizeBuffers

def inResult {β : Type} (op : BlockM UInt8 β) : NormalizeM β := fun s =>
  match op s.result with
  | .ok value result => .ok value { s with result }
  | .error stop result => .error stop { s with result }

def inMarks {β : Type} (op : BlockM Nat β) : NormalizeM β := fun s =>
  match op s.marks with
  | .ok value marks => .ok value { s with marks }
  | .error stop marks => .error stop { s with marks }

/-- Whether the byte is a separator, where there is one. -/
def slashAt (present : Bool) (index : Nat) : NormalizeM Bool := do
  if present = true then
    let byte ← inResult (getAt index)
    return byte == slash
  else return false

/-- The component in front, from its mark on, if it is as long as `..`. -/
def previousComponent (previousStart : Nat) : NormalizeM Bytes := do
  let s ← get
  let separated ← slashAt (decide (previousStart < s.result.length)) previousStart
  let start := if separated then previousStart + 1 else previousStart
  if s.result.length - start = 2 then inResult (read start 2) else return []

/-- `..` removes the component before it, or is dropped; if not, it is a component. -/
def cancelComponent (absolute : Bool) : NormalizeM Bool := do
  let s ← get
  if s.marks.length = 0 then return absolute
  else
    let previousStart ← inMarks (getAt (s.marks.length - 1))
    let previous ← previousComponent previousStart
    if previous = [dot, dot] then return absolute
    else
      inResult (setLength previousStart)
      inMarks (setLength (s.marks.length - 1))
      return true

/-- `marks[component_count++] = output_length`. -/
def appendMark : NormalizeM Unit := do
  let s ← get
  inMarks (write s.marks.length [s.result.length])
  inMarks (setLength (s.marks.length + 1))

/-- Bytes at `result + output_length`. -/
def appendBytes (bytes : Bytes) : NormalizeM Unit := do
  let s ← get
  inResult (write s.result.length bytes)
  inResult (setLength (s.result.length + bytes.length))

def appendComponent (component : Bytes) : NormalizeM Unit := do
  appendMark
  let s ← get
  let separated ← slashAt (s.result.length ≠ 0) (s.result.length - 1)
  if s.result.length ≠ 0 ∧ separated = false then appendBytes [slash]
  appendBytes component

def takeComponent (absolute : Bool) (component : Bytes) : NormalizeM Unit := do
  if component ≠ [] ∧ component ≠ [dot] then
    let cancelled ← if component = [dot, dot] then cancelComponent absolute else pure false
    if cancelled = false then appendComponent component

def normalizeLoop (input : Bytes) (absolute : Bool) : Nat → Nat → NormalizeM Unit
  | 0, _ => throw .endless
  | fuel + 1, index =>
    if index < input.length then do
      let start := index + ((input.drop index).takeWhile (· == slash)).length
      let component := (input.drop start).takeWhile (· != slash)
      takeComponent absolute component
      normalizeLoop input absolute fuel (start + component.length)
    else pure ()

/-- An empty output becomes `.`, and the output is terminated. -/
def finishOutput : NormalizeM Bytes := do
  let s ← get
  if s.result.length = 0 then appendBytes [dot]
  let s ← get
  inResult (write s.result.length [0])
  inResult readTerminated

def normalizeInto (input : Bytes) : NormalizeM Bytes := do
  let absolute := decide (input.head? = some slash)
  if absolute = true then appendBytes [slash]
  normalizeLoop input absolute (input.length + 1) 0
  finishOutput

/-- The longest C string `normalize_path` takes; `sizeof(size_t)` is 8. -/
def longestInput : Nat := sizeMax / 8 - 2

def normalizePath (available : Nat → Bool) (input : Bytes) : Except PathStop Bytes :=
  if longestInput < input.length then .error (.errno .nameTooLong)
  else if available (input.length + 2) = false ∨ available ((input.length + 2) * 8) = false then
    .error (.errno .noMemory)
  else
    match normalizeInto input ⟨allocated (input.length + 2), allocated (input.length + 2)⟩ with
    | .ok text _ => .ok text
    | .error stop _ => .error (.fault stop)

/-! ## The operations -/

/-- `cwhip_path_normalize` -/
def pathNormalize (available : Nat → Bool) (path : Bytes) : Except PathStop Bytes := do
  let input ← nativeString available path
  normalizePath available input

/-- Where the second path goes in `cwhip_path_join`: behind a separator. -/
def joinAt (length : Nat) : BlockM UInt8 Nat := do
  let byte ← if length ≠ 0 then getAt (length - 1) else pure slash
  if byte ≠ slash then
    write length [slash]
    return length + 1
  else return length

/-- The concatenation in `cwhip_path_join`. -/
def joinInto (first second : Bytes) : BlockM UInt8 Bytes := do
  write 0 first
  let length ← joinAt first.length
  write length (second ++ [0])
  readTerminated

/-- `cwhip_path_join` -/
def pathJoin (available : Nat → Bool) (left right : Bytes) : Except PathStop Bytes := do
  let first ← nativeString available left
  let second ← nativeString available right
  if second.head? = some slash then normalizePath available second
  else if sizeMax - second.length - 2 < first.length then throw (.errno .nameTooLong)
  else if available (first.length + second.length + 2) = false then throw (.errno .noMemory)
  else
    match joinInto first second (allocated (first.length + second.length + 2)) with
    | .ok joined _ => normalizePath available joined
    | .error stop _ => throw (.fault stop)

/-- The loop of `trim_trailing_slashes`, last byte first. -/
def trimReversed : Bytes → Bytes
  | last :: before :: rest =>
    if last = slash then trimReversed (before :: rest) else last :: before :: rest
  | bytes => bytes

def trimTrailingSlashes (path : Bytes) : Bytes := (trimReversed path.reverse).reverse

/-- Where the last separator is: `strrchr`. -/
def lastSlash : Bytes → Option Nat
  | [] => none
  | byte :: rest =>
    match lastSlash rest with
    | some index => some (index + 1)
    | none => if byte = slash then some 0 else none

/-- `cwhip_path_basename` -/
def pathBasename (available : Nat → Bool) (path : Bytes) : Except PathStop Bytes := do
  let value ← nativeString available path
  let value := trimTrailingSlashes value
  if value = [slash] then return value
  match lastSlash value with
  | none => return value
  | some index => return value.drop (index + 1)

/-- `cwhip_path_dirname` -/
def pathDirname (available : Nat → Bool) (path : Bytes) : Except PathStop Bytes := do
  let value ← nativeString available path
  let value := trimTrailingSlashes value
  match lastSlash value with
  | none => if available 2 = false then throw (.errno .noMemory) else return [dot]
  | some 0 => if available 2 = false then throw (.errno .noMemory) else return [slash]
  | some index => return value.take index

end Cwhip.Runtime.Paths
