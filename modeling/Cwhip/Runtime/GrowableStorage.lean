/-
  Cwhip.Runtime.GrowableStorage

  Lists, buffers and the bytes of Strings as they grow, shrink and move
  (`RuntimeGc.c`).

  An operation works on an array in memory and may stop half way, so what is left
  of the array then is part of its result.
-/

import Cwhip.Lib.BlockArray
import Cwhip.Runtime.Dict
import Cwhip.Runtime.Heap
import Cwhip.Runtime.Slices
import Cwhip.Runtime.StringStore

namespace Cwhip.Runtime

open Cwhip.Lib Cwhip.Lib.BlockArray
open Cwhip.Runtime.StringStore (normalizeStringIndex)

/-- What `memset` makes of an element. -/
def ArrayValue.zeroed : ArrayValue := ⟨0, 0, 0, 0⟩

/-- `sizeof(CwhipArrayValue)` -/
def arrayValueSize : Nat := 32

/-- The most elements there is memory for. -/
def arrayLimit : Nat := sizeMax / arrayValueSize

/-! ## Lists -/

/-- The loop of `cwhip_array_resize`. -/
def arrayCapacity (double : Nat → Nat) (capacity requested : Nat) : Option Nat :=
  capacityLoop double (min (int64Max / 2) (arrayLimit / 2)) 64 (if capacity = 0 then 1
    else capacity) requested

/-- `cwhip_array_resize` -/
def arrayResize (available : Nat → Bool) (length : Int64) : BlockM ArrayValue Unit := do
  let s ← get
  if length.toInt < 0 then throw (.raised "list length must not be negative")
  let newLength := unsigned length.toInt
  if arrayLimit < newLength then throw (.raised "list length exceeds allocation limit")
  if s.capacity < newLength then
    match arrayCapacity doubled s.capacity newLength with
    | none => throw .endless
    | some capacity =>
      realloc available arrayValueSize (if arrayLimit < capacity then newLength else capacity)
  if newLength < s.length then
    write newLength (List.replicate (s.length - newLength) ArrayValue.zeroed)
  else
    write s.length (List.replicate (newLength - s.length) ArrayValue.null)
  setLength newLength

/-- `cwhip_array_append` -/
def arrayAppend (available : Nat → Bool) (value : ArrayValue) : BlockM ArrayValue Unit := do
  let s ← get
  if int64Max ≤ s.length then throw (.raised "list length exceeds int64 range")
  arrayResize available (Int64.ofNat (s.length + 1))
  let s ← get
  write (s.length - 1) [value]

/-! ## Buffers -/

/-- The loop of `buffer_reserve`. -/
def bufferCapacity (double : Nat → Nat) (capacity requested : Nat) : Option Nat :=
  capacityLoop double (min (int64Max / 2) (sizeMax / 2)) 64 (if capacity = 0 then 8
    else capacity) requested

/-- `buffer_reserve` -/
def bufferReserve (available : Nat → Bool) (capacity : Nat) : BlockM UInt8 Unit := do
  if sizeMax < capacity then throw .aborted
  let s ← get
  if s.capacity < capacity then
    match bufferCapacity doubled s.capacity capacity with
    | none => throw .endless
    | some grown => realloc available 1 grown

/-- `cwhip_buffer_new`, in the memory of the new buffer. -/
def bufferNew (available : Nat → Bool) (length : Int64) : BlockM UInt8 Unit := do
  if length.toInt < 0 then throw (.raised "buffer length cannot be negative")
  if sizeMax < unsigned length.toInt then throw (.raised "buffer length exceeds allocation limit")
  if 0 < length.toInt then
    if available (unsigned length.toInt) = false then throw .aborted
    set (BlockArray.zeroed (0 : UInt8) (unsigned length.toInt))

/-- `cwhip_buffer_resize` -/
def bufferResize (available : Nat → Bool) (length : Int64) : BlockM UInt8 Unit := do
  let s ← get
  if length.toInt < 0 then throw (.raised "buffer length cannot be negative")
  let newLength := unsigned length.toInt
  if int64Max < newLength ∨
    sizeMax < newLength then throw (.raised "buffer length exceeds allocation limit")
  if s.length < newLength then
    bufferReserve available newLength
    write s.length (List.replicate (newLength - s.length) 0)
  setLength newLength

/-- `cwhip_buffer_clear` -/
def bufferClear (available : Nat → Bool) : BlockM UInt8 Unit := bufferResize available 0

/-- `cwhip_buffer_append` -/
def bufferAppend (available : Nat → Bool) (value : UInt64) : BlockM UInt8 Unit := do
  let s ← get
  if int64Max ≤ s.length then throw (.raised "buffer length out of bounds")
  bufferReserve available (s.length + 1)
  write s.length [value.toUInt8]
  setLength (s.length + 1)

/-- `normalize_collection_index` -/
def normalizeCollectionIndex (index : Int64) (length : Nat) : Int :=
  if index.toInt < 0 then index.toInt + length else index.toInt

/-- The bytes `cwhip_buffer_slice_ex` copies from its receiver, after the allocation
    of the copy. -/
def bufferSliced (available : Nat → Bool) (first count : Nat) : BlockM UInt8 Bytes := do
  if count ≠ 0 then
    if available count = false then throw .aborted
  read first count

/-- `cwhip_buffer_set` -/
def bufferSet (index : Int64) (value : UInt64) : BlockM UInt8 Unit := do
  let s ← get
  let normalized := normalizeCollectionIndex index s.length
  if normalized < 0 ∨ (s.length : Int) ≤
    normalized then throw (.raised "buffer index out of bounds")
  write normalized.toNat [value.toUInt8]

/-! ## Strings -/

/-- `utf8_boundary` -/
def boundaryAt (index : Nat) : BlockM UInt8 Bool := do
  let s ← get
  if index = s.length then return true
  else if index < s.length then
    let bytes ← read index 1
    return bytes.all fun byte => (byte &&& 0xc0) != 0x80
  else return false

/-- `cwhip_string_method_insert`, where the other String has these bytes. -/
def stringInsert (available : Nat → Bool) (index : Int64) (other : Bytes) : BlockM UInt8 Unit := do
  let s ← get
  let normalized := normalizeStringIndex index.toInt s.length
  if normalized < 0 ∨ (s.length : Int) <
    normalized then throw (.raised "String insertion index out of bounds")
  let boundary ← boundaryAt normalized.toNat
  if boundary = false then throw (.raised "String insertion index splits a UTF-8 character")
  if int64Max < s.length ∨ int64Max - s.length < other.length ∨ sizeMax < other.length then
    throw (.raised "String length out of bounds")
  if other.length ≠ 0 then
    if available other.length = false then throw .aborted
    bufferReserve available (unsigned (s.length + other.length))
    let tail ← read normalized.toNat (s.length - normalized.toNat)
    write (normalized.toNat + other.length) tail
    write normalized.toNat other
    setLength (unsigned (s.length + other.length))

/-- `cwhip_string_method_remove_range` -/
def stringRemoveRange (first last : Int64) : BlockM UInt8 Unit := do
  let s ← get
  let start := normalizeStringBound first.toInt s.length
  let stop := normalizeStringBound last.toInt s.length
  let boundaryStart ← boundaryAt start
  let boundaryStop ← boundaryAt stop
  if boundaryStart = false ∨
    boundaryStop = false then throw (.raised "String range splits a UTF-8 character")
  if start < stop then
    let tail ← read stop (s.length - stop)
    write start tail
    setLength (s.length - (stop - start))

end Cwhip.Runtime
