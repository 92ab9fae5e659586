/-
  Cwhip.Runtime.Dict

  Dicts (`CwhipMap` in `RuntimeGc.c`): an array of entries in insertion order,
  and buckets that hold 1-based indices into it and are searched by linear
  probing.  Removing an entry moves the later ones down and rebuilds the
  buckets.

  Every loop over the buckets runs on fuel, one unit for each bucket; a loop
  that found none of them empty would go on for ever.
-/

import Cwhip.Lib.OpenAddressing
import Cwhip.Runtime.DictSlice

namespace Cwhip.Runtime

open Cwhip.Lib

variable {V : Type}

/-- How a call on a dict can end other than by returning or raising. -/
inductive MapFault where
  /-- It reads past the end of an array. -/
  | outOfBounds
  /-- Its loop does not end. -/
  | endless
  | aborts
  deriving DecidableEq, Repr

/-- `sizeof(CwhipMapEntry)`. -/
def sizeofMapEntry : Nat := 56

/-- `map_key_hash`. -/
def mapKeyHash (key : Bytes) : UInt64 :=
  key.foldl (fun hash byte => (hash ^^^ byte.toUInt64) * 1099511628211) 14695981039346656037

/-- `CwhipMapEntry`. -/
structure CwhipMapEntry (V : Type) where
  key : Bytes
  hash : UInt64
  value : V

/-- `CwhipMap`: the entries in use, room for entries, and the buckets. -/
structure CwhipMap (V : Type) where
  entries : List (CwhipMapEntry V)
  capacity : Nat
  buckets : List Nat

namespace CwhipMap

/-- The map `cwhip_gc_alloc_map` returns. -/
def empty : CwhipMap V := ⟨[], 0, []⟩

/-- The loop of `map_find_index`. -/
def findFrom (map : CwhipMap V) (key : Bytes) (hash : UInt64) (mask : Nat) :
    Nat → Nat → Except MapFault (Option Nat)
  | 0, _ => .ok none
  | probes + 1, bucket => do
    let stored ← require map.buckets[bucket]? .outOfBounds
    if stored = 0 then
      return none
    let index := stored - 1
    let entry ← require map.entries[index]? .outOfBounds
    if entry.hash = hash ∧ entry.key = key then
      return some index
    map.findFrom key hash mask probes ((bucket + 1) &&& mask)

/-- `map_find_index`. -/
def findIndex (map : CwhipMap V) (key : Bytes) (hash : UInt64) : Except MapFault (Option Nat) :=
  if map.buckets.length = 0 then .ok none
  else
    let mask := map.buckets.length - 1
    map.findFrom key hash mask map.buckets.length (hash.toNat &&& mask)

/-- The loop that looks for an empty bucket and stores an index in it. -/
def storeIndex (buckets : List Nat) (mask index : Nat) : Nat → Nat → Except MapFault (List Nat)
  | 0, _ => .error .endless
  | probes + 1, bucket => do
    let stored ← require buckets[bucket]? .outOfBounds
    if stored ≠ 0 then
      storeIndex buckets mask index probes ((bucket + 1) &&& mask)
    else
      return buckets.set bucket (index + 1)

/-- The loop of `map_rebuild_index`, from the entry with some index on. -/
def rebuildFrom (mask : Nat) (buckets : List Nat) (index : Nat) :
    List (CwhipMapEntry V) → Except MapFault (List Nat)
  | [] => .ok buckets
  | entry :: rest => do
    let buckets ← storeIndex buckets mask index buckets.length (entry.hash.toNat &&& mask)
    rebuildFrom mask buckets (index + 1) rest

/-- `map_rebuild_index`. -/
def rebuildIndex (map : CwhipMap V) (capacity : Nat) : Except MapFault (CwhipMap V) := do
  ensure (8 ≤ capacity ∧ capacity &&& (capacity - 1) = 0 ∧ capacity ≤ sizeMax / 8) .aborts
  let buckets ← rebuildFrom (capacity - 1) (List.replicate capacity 0) 0 map.entries
  return { map with buckets }

/-- Room for one more entry. -/
def reserveEntry (map : CwhipMap V) : Except MapFault (CwhipMap V) :=
  if map.entries.length = map.capacity then do
    let capacity := if map.capacity = 0 then 4 else map.capacity * 2 % 2 ^ 64
    ensure (map.capacity ≤ capacity ∧ capacity ≤ sizeMax / sizeofMapEntry) .aborts
    return { map with capacity }
  else
    return map

/-- The loop that doubles the number of buckets. -/
def growBuckets (length : Nat) : Nat → Nat → Except MapFault Nat
  | 0, _ => .error .endless
  | fuel + 1, bucketCapacity =>
    if length + 1 > bucketCapacity / 2 then do
      ensure (bucketCapacity ≤ sizeMax / 2) .aborts
      growBuckets length fuel (bucketCapacity * 2)
    else .ok bucketCapacity

/-- Buckets for one more entry. -/
def reserveBucket (map : CwhipMap V) : Except MapFault (CwhipMap V) :=
  if map.buckets.length = 0 ∨ map.entries.length + 1 > map.buckets.length / 2 then do
    let bucketCapacity ← growBuckets map.entries.length 64
      (if map.buckets.length = 0 then 8 else map.buckets.length)
    map.rebuildIndex bucketCapacity
  else
    return map

/-- The entry appended, and its index stored. -/
def appendEntry (map : CwhipMap V) (entry : CwhipMapEntry V) : Except MapFault (CwhipMap V) := do
  let mask := map.buckets.length - 1
  let buckets ← storeIndex map.buckets mask map.entries.length map.buckets.length
    (entry.hash.toNat &&& mask)
  return { map with entries := map.entries ++ [entry], buckets }

/-- `cwhip_map_set`. -/
def set (map : CwhipMap V) (key : Bytes) (value : V) : Except MapFault (CwhipMap V) := do
  ensure (key.length ≤ sizeMax) .aborts
  let hash := mapKeyHash key
  match ← map.findIndex key hash with
  | some existing =>
    return { map with entries := map.entries.modify existing fun entry => { entry with value } }
  | none =>
    ensure (map.entries.length < int64Max) .aborts
    let map ← map.reserveEntry
    let map ← map.reserveBucket
    map.appendEntry ⟨key, hash, value⟩

/-- `cwhip_map_get`. -/
def get (map : CwhipMap V) (key : Bytes) : Except MapFault (Except String V) := do
  ensure (key.length ≤ sizeMax) .aborts
  match ← map.findIndex key (mapKeyHash key) with
  | some index =>
    let entry ← require map.entries[index]? .outOfBounds
    return .ok entry.value
  | none => return .error "dict key not found"

/-- `cwhip_map_contains`. -/
def contains (map : CwhipMap V) (key : Bytes) : Except MapFault Bool := do
  ensure (key.length ≤ sizeMax) .aborts
  let index ← map.findIndex key (mapKeyHash key)
  return index.isSome

/-- `cwhip_map_entry_at`. -/
def entryAt (map : CwhipMap V) (index : Nat) : Except String (Bytes × V) := do
  let entry ← require map.entries[index]? "dict iteration index out of bounds"
  return (entry.key, entry.value)

/-- `cwhip_map_remove`. -/
def remove (map : CwhipMap V) (key : Bytes) : Except MapFault (CwhipMap V × Bool) := do
  ensure (key.length ≤ sizeMax) .aborts
  match ← map.findIndex key (mapKeyHash key) with
  | none => return (map, false)
  | some index =>
    let map := { map with entries := map.entries.eraseIdx index }
    if map.buckets.length ≠ 0 then
      let map ← map.rebuildIndex map.buckets.length
      return (map, true)
    else
      return (map, true)

/-- One entry of `cwhip_map_slice_ex`. -/
def copyEntry (source copy : CwhipMap V) (index : Int) : Except MapFault (CwhipMap V) := do
  ensure (0 ≤ index) .outOfBounds
  let entry ← require source.entries[index.toNat]? .outOfBounds
  copy.set entry.key entry.value

/-- `cwhip_map_slice_ex`, on a dict that no finalizer changes. -/
def slice (source : CwhipMap V) (start stop : Option Int) : Except MapFault (CwhipMap V) :=
  let first := normalizeSliceBound start source.entries.length 1 true
  let last := normalizeSliceBound stop source.entries.length 1 false
  (sliceIndices first 1 (spanLength first last)).foldlM source.copyEntry empty

end CwhipMap

end Cwhip.Runtime
