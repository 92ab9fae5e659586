/-
  Cwhip.Runtime.StringOps

  The String methods that allocate their result (`RuntimeGc.c`): `slice`,
  `trim`, `split`, `replace`.  Every allocation is a collection, and the
  finalizers a collection runs may change the receiver and the argument, so an
  operation takes what each of its collections does to them as a parameter.

  A pointer into a String is a pointer into its current block: it dangles once
  a finalizer made the String grow out of that block.
-/

import Cwhip.Lib.Except
import Cwhip.Lib.GrowVec
import Cwhip.Runtime.StringBytes

namespace Cwhip.Runtime

open Cwhip.Lib

/-- How a native operation can end other than by returning. -/
inductive NativeFault where
  /-- It reads cells that are not there. -/
  | read (fault : CellFault)
  /-- It writes past the end of the list it fills. -/
  | overrun
  /-- It raises this exception. -/
  | raises (message : String)
  deriving DecidableEq, Repr

/-- The operation touched memory outside a live allocation. -/
def NativeFault.isMemory : NativeFault → Bool
  | raises _ => false
  | _ => true

/-- The buffers of the two Strings an operation works on. -/
structure Strings where
  receiver : GrowVec UInt8
  argument : GrowVec UInt8

/-- What the finalizers of one collection do to them.  Whatever operations they
    use, no buffer ever gives capacity back. -/
structure StringsUpdate where
  apply : Strings → Strings
  receiver_grows : ∀ s, s.receiver.capacity ≤ (apply s).receiver.capacity
  argument_grows : ∀ s, s.argument.capacity ≤ (apply s).argument.capacity

namespace StringsUpdate

/-- The finalizers leave both Strings alone. -/
def none : StringsUpdate := ⟨id, fun _ => Nat.le_refl _, fun _ => Nat.le_refl _⟩

/-- Appending bytes to the receiver (`cwhip_string_append_bytes`), one at a time. -/
def appendReceiver (bytes : Bytes) : StringsUpdate where
  apply s := { s with receiver := bytes.foldl (fun v byte => v.append 0 8 byte) s.receiver }
  receiver_grows s := by
    induction bytes generalizing s with
    | nil => exact Nat.le_refl _
    | cons byte rest ih =>
      have hone := s.receiver.capacity_le_append 0 8 byte
      exact Nat.le_trans hone (ih { s with receiver := s.receiver.append 0 8 byte })
  argument_grows _ := Nat.le_refl _

end StringsUpdate

/-- The Strings and the number of collections the operation has caused. -/
structure StringState where
  strings : Strings
  collections : Nat

/-- What the finalizers of the operation's collections do, in order. -/
abbrev StringFinalizers := Nat → StringsUpdate

/-- One allocation. -/
def StringState.collect (finalizers : StringFinalizers) (s : StringState) : StringState :=
  ⟨(finalizers s.collections).apply s.strings, s.collections + 1⟩

/-- After this many allocations. -/
def StringState.after (finalizers : StringFinalizers) (s : StringState) : Nat → StringState
  | 0 => s
  | count + 1 => (s.after finalizers count).collect finalizers

/-- Where `cwhip_string_new` copies its bytes from. -/
inductive ByteSource where
  | null
  /-- A pointer into the receiver's block. -/
  | receiver (block start : Nat)
  /-- Native memory of the operation itself. -/
  | native (bytes : Bytes)
  deriving DecidableEq, Repr

def readFault {α : Type} : Except CellFault α → Except NativeFault α
  | .ok a => .ok a
  | .error fault => .error (.read fault)

def readSource (s : StringState) (source : ByteSource) (length : Nat) :
    Except NativeFault Bytes :=
  match source with
  | .null => .ok []
  | .receiver block start => readFault (s.strings.receiver.readAt block start length)
  | .native bytes => .ok (bytes.take length)

/-- The final copy, skipped for an empty String. -/
def copySource (s : StringState) (source : ByteSource) (length : Nat) : Except NativeFault Bytes :=
  if length = 0 then .ok [] else readSource s source length

/-- `cwhip_string_new`: check, allocate the object, allocate its buffer, copy.
    The result is the new String's bytes. -/
def stringNew (finalizers : StringFinalizers) (s : StringState) (source : ByteSource)
    (length : Nat) : Except NativeFault (Bytes × StringState) := do
  ensure (length ≤ int64Max ∧ (source = .null → length = 0)) (.raises "String length out of bounds")
  let bytes ← readSource s source length
  ensure (validUtf8 bytes = true) (.raises "String bytes are not valid UTF-8")
  let s := (s.collect finalizers).collect finalizers
  let copied ← copySource s source length
  return (copied, s)

/-- The pointer argument of the calls below: null for an empty range. -/
def rangeSource (s : StringState) (start length : Nat) : ByteSource :=
  if length = 0 then .null else .receiver s.strings.receiver.block start

/-- `cwhip_string_method_slice`. -/
def stringSlice (finalizers : StringFinalizers) (s : StringState) (first last : Int) :
    Except NativeFault (Bytes × StringState) := do
  let buffer := s.strings.receiver
  let start := normalizeStringBound first buffer.length
  let stop := normalizeStringBound last buffer.length
  ensure (utf8Boundary buffer.value start = true ∧ utf8Boundary buffer.value stop = true)
    (.raises "String range splits a UTF-8 character")
  stringNew finalizers s (rangeSource s start (stop - start)) (stop - start)

/-- The bounds `trim` computes with its two loops. -/
def trimBounds (bytes : Bytes) : Nat × Nat :=
  let first := (bytes.takeWhile asciiWhitespace).length
  (first, bytes.length - ((bytes.drop first).reverse.takeWhile asciiWhitespace).length)

/-- `cwhip_string_method_trim`. -/
def stringTrim (finalizers : StringFinalizers) (s : StringState) :
    Except NativeFault (Bytes × StringState) :=
  let bounds := trimBounds s.strings.receiver.value
  stringNew finalizers s (rangeSource s bounds.1 (bounds.2 - bounds.1)) (bounds.2 - bounds.1)

/-! ## Replace -/

/-- The copying loop of `replace`. -/
def replaceFrom (data target replacement : Bytes) : Nat → Nat → Bytes
  | 0, start => data.drop start
  | fuel + 1, start =>
    match findBytes data target start with
    | none => data.drop start
    | some found =>
      (data.drop start).take (found - start) ++ replacement ++
        replaceFrom data target replacement fuel (found + target.length)

/-- The length `replace` allocates for its output. -/
def replaceLength (data target replacement : Bytes) : Nat :=
  let matched := (splitFields data target).length - 1
  if target.length ≤ replacement.length then
    data.length + matched * (replacement.length - target.length)
  else data.length - matched * (target.length - replacement.length)

/-- `cwhip_string_method_replace`; all reading is done before the allocation. -/
def stringReplace (finalizers : StringFinalizers) (s : StringState) (replacement : Bytes) :
    Except NativeFault (Bytes × StringState) := do
  let data := s.strings.receiver.value
  let target := s.strings.argument.value
  ensure (target ≠ []) (.raises "String.replace target cannot be empty")
  ensure (replaceLength data target replacement ≤ int64Max) (.raises "String length out of bounds")
  let output := replaceFrom data target replacement data.length 0
  ensure (output.length ≤ replaceLength data target replacement) .overrun
  stringNew finalizers s (if output = [] then .null else .native output) output.length

/-! ## Split -/

/-- The search of `split`'s second scan: the separator is read through the
    pointer and length taken before the list was allocated. -/
def findCached (s : StringState) (block length start : Nat) : Except NativeFault (Option Nat) :=
  if searchPositions s.strings.receiver.length length start = [] then .ok none
  else do
    let separator ← readFault (s.strings.argument.readAt block 0 length)
    return findBytes s.strings.receiver.value separator start

/-- One field of the second scan: its bytes, and where the next one starts.  A
    receiver that has become shorter makes the unsigned length wrap around. -/
def splitField (finalizers : StringFinalizers) (s : StringState) (block length start : Nat) :
    Except NativeFault (Bytes × Option Nat × StringState) := do
  let found ← findCached s block length start
  let stop := found.getD s.strings.receiver.length
  let count := if start ≤ stop then stop - start else 2 ^ 64 + stop - start
  let (bytes, s) ← stringNew finalizers s (rangeSource s start count) count
  return (bytes, found.map (· + length), s)

/-- The second scan, which fills a list of a fixed number of elements.  The
    elements were allocated null, and those it does not reach stay so. -/
def splitLoop (finalizers : StringFinalizers) (block length : Nat) :
    Nat → Nat → StringState → Except NativeFault (List (Option Bytes) × StringState)
  | 0, start, s => do
    let _ ← splitField finalizers s block length start
    .error .overrun
  | remaining + 1, start, s => do
    let (bytes, next, s) ← splitField finalizers s block length start
    match next with
    | none => return (some bytes :: List.replicate remaining none, s)
    | some start => do
      let (rest, s) ← splitLoop finalizers block length remaining start s
      return (some bytes :: rest, s)

/-- `cwhip_string_method_split`. -/
def stringSplit (finalizers : StringFinalizers) (s : StringState) :
    Except NativeFault (List (Option Bytes) × StringState) := do
  let separator := s.strings.argument
  ensure (separator.value ≠ []) (.raises "String.split separator cannot be empty")
  let count := (splitFields s.strings.receiver.value separator.value).length
  ensure (count ≤ int64Max) (.raises "String split result is too large")
  splitLoop finalizers separator.block separator.length count 0 (s.collect finalizers)

end Cwhip.Runtime
