/-
  Cwhip.Runtime.DictSound

  A dict refines its entries as an association list, whatever the hashes of the
  keys.

  `CwhipMap.Indexed` is the invariant: keys are distinct, each entry has the
  hash of its key, there is room for the entries, and the buckets index the
  hashes at a load of at most one half.  `findIndex_present` and
  `findIndex_absent` say all that a search can return, and each operation has one
  lemma that gives its result and the invariant of the dict it leaves.
-/

import Cwhip.Runtime.Dict
import Mathlib.Data.List.InsertIdx
import Mathlib.Data.List.Nodup

namespace Cwhip.Runtime

open Cwhip.Lib
open List (getElem?_eq_getElem getElem?_map length_map map_append map_map mem_of_getElem?)

variable {V : Type}

/-! ## Masks -/

/-- A number of buckets the runtime uses. -/
def IsBucketCapacity (capacity : Nat) : Prop := ∃ bits, 3 ≤ bits ∧ capacity = 2 ^ bits

theorem IsBucketCapacity.eight_le {capacity : Nat} (h : IsBucketCapacity capacity) :
    8 ≤ capacity := by
  obtain ⟨bits, hbits, rfl⟩ := h
  exact Nat.pow_le_pow_right (by decide : 0 < 2) hbits

/-- A power of two is a mask for its remainders. -/
theorem IsBucketCapacity.mask {capacity : Nat} (h : IsBucketCapacity capacity) (bucket : Nat) :
    bucket &&& (capacity - 1) = bucket % capacity := by
  obtain ⟨bits, _, rfl⟩ := h
  exact Nat.and_two_pow_sub_one_eq_mod bucket bits

theorem IsBucketCapacity.two_dvd {capacity : Nat} (h : IsBucketCapacity capacity) :
    2 * (capacity / 2) = capacity := by
  obtain ⟨bits, hbits, rfl⟩ := h
  obtain ⟨less, rfl⟩ : ∃ less, bits = less + 1 := ⟨bits - 1, by omega⟩
  rw [Nat.pow_succ]
  omega

theorem IsBucketCapacity.double {capacity : Nat} (h : IsBucketCapacity capacity) :
    IsBucketCapacity (capacity * 2) := by
  obtain ⟨bits, hbits, rfl⟩ := h
  exact ⟨bits + 1, by omega, rfl⟩

theorem bucketAt_zero {buckets : List Nat} (h : IsBucketCapacity buckets.length) (hash : Nat) :
    hash &&& (buckets.length - 1) = bucketAt buckets hash 0 := by
  rw [h.mask]
  rfl

/-- One probe further wraps around at the end of the buckets. -/
theorem bucketAt_succ {buckets : List Nat} (h : IsBucketCapacity buckets.length) (hash step : Nat) :
    (bucketAt buckets hash step + 1) &&& (buckets.length - 1) = bucketAt buckets hash
    (step + 1) := by
  rw [h.mask, bucketAt, Nat.mod_add_mod]
  rfl

theorem IsBucketCapacity.ne_nil {buckets : List Nat} (h : IsBucketCapacity buckets.length) :
    buckets ≠ [] := by
  rintro rfl
  have hpos := h.eight_le
  cases hpos

namespace CwhipMap

/-! ## The invariant -/

/-- The hashes of the entries, in their order. -/
def hashes (map : CwhipMap V) : List Nat := map.entries.map fun entry => entry.hash.toNat

/-- The entries as an association list. -/
def value (map : CwhipMap V) : List (Bytes × V) :=
  map.entries.map fun entry => (entry.key, entry.value)

theorem hashes_length (map : CwhipMap V) : map.hashes.length = map.entries.length :=
  length_map _

theorem value_keys (map : CwhipMap V) :
    map.value.map Prod.fst = map.entries.map CwhipMapEntry.key := by
  rw [value, map_map]
  rfl

theorem value_length (map : CwhipMap V) : map.value.length = map.entries.length :=
  length_map _

/-- What every operation keeps. -/
structure Indexed (map : CwhipMap V) : Prop where
  distinct : (map.entries.map CwhipMapEntry.key).Nodup
  hashed : ∀ entry ∈ map.entries, entry.hash = mapKeyHash entry.key
  keyLengths : ∀ entry ∈ map.entries, entry.key.length ≤ sizeMax
  room : map.entries.length ≤ map.capacity
  roomBits : map.capacity = 0 ∨ ∃ bits, 2 ≤ bits ∧ bits ≤ 58 ∧ map.capacity = 2 ^ bits
  unindexed : map.buckets.length = 0 ∨ IsBucketCapacity map.buckets.length
  bucketLimit : map.buckets.length ≤ sizeMax / 8
  load : 2 * map.entries.length ≤ map.buckets.length
  indexes : Indexes map.buckets map.hashes

theorem indexed_empty : (empty : CwhipMap V).Indexed := by
  refine ⟨List.nodup_nil, nofun, nofun, Nat.le_refl _, .inl rfl, .inl rfl, Nat.zero_le _,
    Nat.le_refl _, ?_⟩
  exact indexes_empty 0

/-! ## Searching -/

/-- What `map_find_index` asks of an entry. -/
def matchesAt (map : CwhipMap V) (key : Bytes) (hash : UInt64) (index : Nat) : Bool :=
  match map.entries[index]? with
  | some entry => entry.hash = hash ∧ entry.key = key
  | none => false

/-- The loop of a search is the search of the probe sequence. -/
theorem findFrom_eq {map : CwhipMap V} (hindexes : Indexes map.buckets map.hashes)
    (hcapacity : IsBucketCapacity map.buckets.length) (key : Bytes) (hash : UInt64)
    (probes step : Nat) :
    map.findFrom key hash (map.buckets.length - 1) probes (bucketAt map.buckets hash.toNat step)
      = .ok (probeFind map.buckets (map.matchesAt key hash) hash.toNat probes step) := by
  induction probes generalizing step with
  | zero => rfl
  | succ probes ih =>
    have hget := visited_getElem hcapacity.ne_nil hash.toNat step
    rw [findFrom, probeFind, hget]
    cases hvisited : visited map.buckets hash.toNat step with
    | zero => rfl
    | succ index =>
      rw [hvisited] at hget
      have hlt := hindexes.stored _ index hget
      rw [hashes_length] at hlt
      have hentry := getElem?_eq_getElem hlt
      simp only [require, bind, Except.bind, Nat.succ_ne_zero, if_false, Nat.add_sub_cancel, hentry,
        matchesAt, bucketAt_succ hcapacity, decide_eq_true_eq]
      split
      · rfl
      · exact ih (step + 1)

theorem findIndex_eq {map : CwhipMap V} (h : map.Indexed) (key : Bytes) (hash : UInt64) :
    map.findIndex key hash = .ok
      (probeFind map.buckets (map.matchesAt key hash) hash.toNat map.buckets.length 0) := by
  rw [findIndex]
  split
  · next hzero =>
    rw [hzero]
    rfl
  · next hpos =>
    obtain hzero | hcapacity := h.unindexed
    · exact absurd hzero hpos
    · show map.findFrom key hash (map.buckets.length - 1) map.buckets.length
        (hash.toNat &&& (map.buckets.length - 1)) = _
      rw [bucketAt_zero hcapacity]
      exact findFrom_eq h.indexes hcapacity key hash _ 0

/-- A key that is not stored is not found, and the search ends. -/
theorem findIndex_absent {map : CwhipMap V} (h : map.Indexed) {key : Bytes}
    (hkey : key ∉ map.entries.map CwhipMapEntry.key) (hash : UInt64) :
    map.findIndex key hash = .ok none := by
  rw [findIndex_eq h, probeFind_none h.indexes]
  intro index hlt
  rw [hashes_length] at hlt
  rw [matchesAt, getElem?_eq_getElem hlt]
  have hother : map.entries[index].key ≠ key := by
    intro heq
    exact hkey (List.mem_map.mpr ⟨_, List.getElem_mem hlt, heq⟩)
  simp [hother]

/-- A stored key is found at its place. -/
theorem findIndex_present {map : CwhipMap V} (h : map.Indexed) {index : Nat}
    {entry : CwhipMapEntry V} (hentry : map.entries[index]? = some entry) :
    map.findIndex entry.key (mapKeyHash entry.key) = .ok (some index) := by
  have hhash := h.hashed entry (mem_of_getElem? hentry)
  rw [findIndex_eq h, @probeFind_eq _ _ h.indexes _ index]
  · rw [hashes, getElem?_map, hentry, ← hhash]
    rfl
  · rw [matchesAt, hentry, ← hhash]
    simp
  · intro other hlt hmatches
    rw [hashes_length] at hlt
    simp only [matchesAt, getElem?_eq_getElem hlt, decide_eq_true_eq] at hmatches
    have hsame : (map.entries.map CwhipMapEntry.key)[other]? =
        (map.entries.map CwhipMapEntry.key)[index]? := by
      rw [getElem?_map, getElem?_map, hentry, getElem?_eq_getElem hlt]
      exact congrArg some hmatches.2
    exact (List.getElem?_inj (by rwa [length_map]) h.distinct).mp hsame

/-! ## Storing -/

theorem storeIndex_eq {buckets : List Nat} (h : IsBucketCapacity buckets.length)
    (index hash probes step : Nat) :
    storeIndex buckets (buckets.length - 1) index probes (bucketAt buckets hash step)
      = (require (probeFree buckets hash probes step) .endless).map
          fun bucket => buckets.set bucket (index + 1) := by
  induction probes generalizing step with
  | zero => rfl
  | succ probes ih =>
    rw [storeIndex, probeFree, visited_getElem h.ne_nil]
    simp only [require, bind, Except.bind]
    by_cases hempty : visited buckets hash step = 0
    · simp only [hempty, ne_eq, not_true_eq_false, if_false, if_true]
      rfl
    · simp only [hempty, ne_eq, not_false_eq_true, if_false, if_true, bucketAt_succ h]
      exact ih (step + 1)

/-- There is a free bucket, and the new index goes there. -/
theorem storeIndex_indexes {buckets hashes : List Nat} (hcapacity : IsBucketCapacity buckets.length)
    (h : Indexes buckets hashes) (hroom : hashes.length < buckets.length) (hash : Nat) :
    ∃ after, storeIndex buckets (buckets.length - 1) hashes.length buckets.length
        (hash &&& (buckets.length - 1)) = .ok after ∧
      after.length = buckets.length ∧ Indexes after (hashes ++ [hash]) := by
  obtain ⟨target, hfree, hlt, hempty, hfull⟩ := probeFree_exists h hroom hash
  refine ⟨_, ?_, List.length_set, h.insert hlt hempty hfull⟩
  rw [bucketAt_zero hcapacity, storeIndex_eq hcapacity, hfree]
  rfl

/-- Rebuilding stores every entry anew. -/
theorem rebuildFrom_indexes {entries : List (CwhipMapEntry V)} {buckets hashes : List Nat}
    (hcapacity : IsBucketCapacity buckets.length) (h : Indexes buckets hashes)
    (hroom : hashes.length + entries.length ≤ buckets.length) :
    ∃ after, rebuildFrom (buckets.length - 1) buckets hashes.length entries = .ok after ∧
      after.length = buckets.length ∧
      Indexes after (hashes ++ entries.map fun entry => entry.hash.toNat) := by
  induction entries generalizing buckets hashes with
  | nil => exact ⟨buckets, rfl, rfl, by simpa using h⟩
  | cons entry rest ih =>
    rw [List.length_cons] at hroom
    obtain ⟨stored, hstore, hlength, hstored⟩ :=
      storeIndex_indexes hcapacity h (by omega) entry.hash.toNat
    obtain ⟨after, hrest, hafter, hindexes⟩ := ih (by rwa [hlength]) hstored (by
      rw [List.length_append, List.length_singleton, hlength]
      omega)
    rw [List.length_append, List.length_singleton, hlength] at hrest
    refine ⟨after, ?_, by omega, ?_⟩
    · rw [rebuildFrom, hstore]
      exact hrest
    · rw [List.append_assoc] at hindexes
      exact hindexes

theorem rebuildIndex_indexes {map : CwhipMap V} {capacity : Nat}
    (hcapacity : IsBucketCapacity capacity)
    (hlimit : capacity ≤ sizeMax / 8) (hroom : map.entries.length ≤ capacity) :
    ∃ buckets, map.rebuildIndex capacity = .ok { map with buckets } ∧
      buckets.length = capacity ∧ Indexes buckets map.hashes := by
  have hlength : (List.replicate capacity 0).length = capacity := List.length_replicate
  have hrebuild := @rebuildFrom_indexes V map.entries _ _ (by rwa [hlength])
    (indexes_empty capacity) (by simpa using hroom)
  rw [hlength] at hrebuild
  obtain ⟨buckets, hbuckets, hafter, hindexes⟩ := hrebuild
  refine ⟨buckets, ?_, hafter, hindexes⟩
  have hchecks : 8 ≤ capacity ∧ capacity &&& (capacity - 1) = 0 ∧ capacity ≤ sizeMax / 8 := by
    refine ⟨hcapacity.eight_le, ?_, hlimit⟩
    rw [hcapacity.mask, Nat.mod_self]
  show (ensure _ _ >>= fun _ => _) = _
  rw [ensure, if_pos hchecks]
  show (rebuildFrom (capacity - 1) (List.replicate capacity 0) ([] : List Nat).length map.entries
    >>= fun _ => _) = _
  rw [hbuckets]
  rfl

/-! ## Outcomes -/

/-- A computation that gives a value with some property, or aborts at a limit. -/
def Returns {α : Type} (x : Except MapFault α) (limit : Prop) (property : α → Prop) : Prop :=
  match x with
  | .ok a => property a
  | .error fault => fault = .aborts ∧ limit

theorem Returns.bind {α β : Type} {x : Except MapFault α} {f : α → Except MapFault β} {limit : Prop}
    {p : α → Prop} {q : β → Prop} (h : Returns x limit p) (hf : ∀ a, p a → Returns (f a) limit q) :
    Returns (x >>= f) limit q := by
  cases x with
  | ok a => exact hf a h
  | error fault => exact h

theorem Returns.of_ok {α : Type} {x : Except MapFault α} {a : α} {limit : Prop} {p : α → Prop}
    (h : x = .ok a) (hp : p a) : Returns x limit p := by
  rw [h]
  exact hp

theorem Returns.ok_bind {α β : Type} {x : Except MapFault α} {a : α} {f : α → Except MapFault β}
    {limit : Prop} {q : β → Prop} (h : x = .ok a) (hf : Returns (f a) limit q) :
    Returns (x >>= f) limit q := by
  rw [h]
  exact hf

theorem Returns.mono {α : Type} {x : Except MapFault α} {limit limit' : Prop} {p q : α → Prop}
    (h : Returns x limit p) (hlimit : limit → limit') (hp : ∀ a, p a → q a) :
    Returns x limit' q := by
  cases x with
  | ok a => exact hp a h
  | error fault => exact ⟨h.1, hlimit h.2⟩

theorem returns_ensure {c limit : Prop} [Decidable c] (h : ¬ c → limit) :
    Returns (ensure c .aborts) limit fun _ => c := by
  unfold ensure
  split
  · next hc => exact hc
  · next hc => exact ⟨rfl, h hc⟩

/-- The most entries for which a dict asks for memory. -/
def entryLimit : Nat := 2 ^ 58

/-! ## Room -/

/-- Room for one entry, doubled until the limit. -/
theorem reserveEntry_returns {map : CwhipMap V} (h : map.Indexed) :
    Returns map.reserveEntry (entryLimit ≤ map.entries.length) fun after =>
      ∃ capacity, after = { map with capacity } ∧ map.entries.length < capacity ∧
        ∃ bits, 2 ≤ bits ∧ bits ≤ 58 ∧ capacity = 2 ^ bits := by
  rw [reserveEntry]
  split
  · next hfull =>
    obtain hzero | ⟨bits, hbits, hlimit, hcapacity⟩ := h.roomBits
    · rw [hzero]
      exact ⟨4, rfl, by omega, 2, by decide, by decide, rfl⟩
    · have hpos : map.capacity ≠ 0 := by
        rw [hcapacity]
        exact Nat.ne_of_gt (Nat.two_pow_pos bits)
      have hle : 2 ^ bits ≤ 2 ^ 58 := Nat.pow_le_pow_right (by decide) hlimit
      have hwrap : map.capacity * 2 % 2 ^ 64 = map.capacity * 2 := by
        apply Nat.mod_eq_of_lt
        omega
      rw [if_neg hpos, hwrap]
      apply Returns.bind (returns_ensure ?_)
      · rintro _ ⟨_, hsize⟩
        refine ⟨map.capacity * 2,
          rfl, by omega, bits + 1, by omega, ?_, by rw [hcapacity, Nat.pow_succ]⟩
        by_contra hlarge
        have hmost : bits = 58 := by omega
        rw [hcapacity, hmost] at hsize
        revert hsize
        decide
      · intro hchecks
        by_contra hless
        apply hchecks
        refine ⟨by omega, ?_⟩
        have hbits : bits ≤ 57 := by
          by_contra hlarge
          have hmost : bits = 58 := by omega
          rw [hfull, hcapacity, hmost] at hless
          exact hless (Nat.le_refl _)
        have hsmall : 2 ^ bits ≤ 2 ^ 57 := Nat.pow_le_pow_right (by decide) hbits
        have hsize : 2 ^ 58 ≤ sizeMax / sizeofMapEntry := by decide
        omega
  · next hroom =>
    have hle := h.room
    refine ⟨map.capacity, rfl, by omega, ?_⟩
    obtain hzero | hbits := h.roomBits
    · omega
    · exact hbits

/-- The buckets double until at most half of them are used. -/
theorem growBuckets_eq {length bucketCapacity : Nat} (hcapacity : IsBucketCapacity bucketCapacity)
    (hload : 2 * length ≤ bucketCapacity) (hlength : length < entryLimit) :
    ∃ grown, growBuckets length 64 bucketCapacity = .ok grown ∧ IsBucketCapacity grown ∧
      2 * (length + 1) ≤ grown ∧ (grown = bucketCapacity ∨ grown ≤ sizeMax / 8) := by
  have height := hcapacity.eight_le
  have htwo := hcapacity.two_dvd
  rw [entryLimit] at hlength
  by_cases hroom : length + 1 > bucketCapacity / 2
  · have hdouble : ¬ length + 1 > bucketCapacity * 2 / 2 := by
      rw [Nat.mul_div_cancel _ (by decide)]
      omega
    have hmax : bucketCapacity ≤ sizeMax / 2 := by
      rw [sizeMax]
      omega
    refine ⟨bucketCapacity * 2, ?_, hcapacity.double, by omega, .inr ?_⟩
    · rw [growBuckets, if_pos hroom, ensure, if_pos hmax]
      show growBuckets length 63 (bucketCapacity * 2) = _
      rw [growBuckets, if_neg hdouble]
    · rw [sizeMax]
      omega
  · refine ⟨bucketCapacity, ?_, hcapacity, by omega, .inl rfl⟩
    rw [growBuckets, if_neg hroom]

theorem reserveBucket_eq {map : CwhipMap V} (hunindexed : map.buckets.length = 0 ∨
      IsBucketCapacity map.buckets.length) (hlimit : map.buckets.length ≤ sizeMax / 8)
    (hload : 2 * map.entries.length ≤ map.buckets.length)
    (hindexes : Indexes map.buckets map.hashes)
    (hlength : map.entries.length < entryLimit) :
    ∃ buckets, map.reserveBucket = .ok { map with buckets } ∧ IsBucketCapacity buckets.length ∧
      buckets.length ≤ sizeMax / 8 ∧ 2 * (map.entries.length + 1) ≤ buckets.length ∧
      Indexes buckets map.hashes := by
  rw [reserveBucket]
  split
  · have hstart : IsBucketCapacity (if map.buckets.length = 0 then 8 else map.buckets.length) := by
      split
      · exact ⟨3, by decide, rfl⟩
      · next hpos => exact hunindexed.resolve_left hpos
    have hstartLoad : 2 * map.entries.length
        ≤ (if map.buckets.length = 0 then 8 else map.buckets.length) := by
      split <;> omega
    have hstartLimit : (if map.buckets.length = 0 then 8 else map.buckets.length) ≤
        sizeMax / 8 := by
      split
      · decide
      · exact hlimit
    obtain ⟨grown, hgrow, hcapacity, hroom, hsize⟩ := growBuckets_eq hstart hstartLoad hlength
    have hgrown : grown ≤ sizeMax / 8 := by
      obtain rfl | hle := hsize
      · exact hstartLimit
      · exact hle
    obtain ⟨buckets, hrebuild, hbuckets, hindexed⟩ :=
      @rebuildIndex_indexes V map grown hcapacity hgrown (by omega)
    refine ⟨buckets, ?_, by rwa [hbuckets], by rwa [hbuckets], by rwa [hbuckets], hindexed⟩
    rw [hgrow]
    exact hrebuild
  · next hroom =>
    rw [not_or, Nat.not_lt] at hroom
    have hcapacity := hunindexed.resolve_left hroom.1
    exact ⟨map.buckets, rfl, hcapacity, hlimit, by omega, hindexes⟩

/-! ## The operations on association lists -/

theorem find?_key {entries : List (Bytes × V)} {entry : Bytes × V}
    (hdistinct : (entries.map Prod.fst).Nodup) (hentry : entry ∈ entries) :
    entries.find? (fun other => other.1 = entry.1) = some entry := by
  cases hfind : entries.find? (fun other => other.1 = entry.1) with
  | none =>
    rw [List.find?_eq_none] at hfind
    exact absurd (decide_eq_true rfl) (hfind entry hentry)
  | some other =>
    have hmem := List.mem_of_find?_eq_some hfind
    have hkey : other.1 = entry.1 := by simpa using List.find?_some hfind
    rw [List.inj_on_of_nodup_map hdistinct hmem hentry hkey]

theorem find?_absent {entries : List (Bytes × V)} {key : Bytes}
    (hkey : key ∉ entries.map Prod.fst) : entries.find? (fun other => other.1 = key) = none := by
  rw [List.find?_eq_none]
  intro entry hentry hsame
  exact hkey (List.mem_map.mpr ⟨entry, hentry, by simpa using hsame⟩)

theorem eraseIdx_eq_filter {entries : List (Bytes × V)} {index : Nat} {entry : Bytes × V}
    (hdistinct : (entries.map Prod.fst).Nodup) (hentry : entries[index]? = some entry) :
    entries.eraseIdx index = entries.filter fun other => other.1 ≠ entry.1 := by
  induction entries generalizing index with
  | nil => simp at hentry
  | cons head rest ih =>
    rw [List.map_cons, List.nodup_cons] at hdistinct
    cases index with
    | zero =>
      obtain rfl : head = entry := by simpa using hentry
      rw [List.eraseIdx_zero, List.tail_cons, List.filter_cons_of_neg (by simp), eq_comm,
        List.filter_eq_self]
      intro other hother
      have hne : other.1 ≠ head.1 := by
        intro heq
        exact hdistinct.1 (List.mem_map.mpr ⟨other, hother, heq⟩)
      simpa using hne
    | succ index =>
      rw [List.getElem?_cons_succ] at hentry
      have hne : head.1 ≠ entry.1 := by
        intro heq
        exact hdistinct.1 (heq ▸ List.mem_map.mpr ⟨entry, mem_of_getElem? hentry, rfl⟩)
      rw [List.eraseIdx_cons_succ, List.filter_cons_of_pos (by simpa using hne),
        ih hdistinct.2 hentry]

theorem modify_eq_mapSet {entries : List (CwhipMapEntry V)} {index : Nat} {entry : CwhipMapEntry V}
    (hdistinct : (entries.map CwhipMapEntry.key).Nodup) (hentry : entries[index]? = some entry)
    (value : V) :
    (entries.modify index fun entry => { entry with value }).map (fun entry =>
      (entry.key, entry.value))
      = mapSet (entries.map fun entry => (entry.key, entry.value)) entry.key value := by
  have hmem : entry.key ∈ (entries.map fun entry => (entry.key, entry.value)).map Prod.fst := by
    rw [map_map]
    exact List.mem_map.mpr ⟨entry, mem_of_getElem? hentry, rfl⟩
  rw [mapSet, if_pos hmem]
  apply List.ext_getElem?
  intro other
  simp only [getElem?_map, List.getElem?_modify, Option.map_map]
  by_cases hother : index = other
  · subst hother
    rw [hentry]
    simp
  · cases hget : entries[other]? with
    | none => rfl
    | some found =>
      have hne : found.key ≠ entry.key := by
        intro heq
        have hsame : (entries.map CwhipMapEntry.key)[other]? =
            (entries.map CwhipMapEntry.key)[index]? := by
          rw [getElem?_map, getElem?_map, hget, hentry]
          exact congrArg some heq
        have hlt := (List.getElem?_eq_some_iff.mp hget).1
        exact hother ((List.getElem?_inj (by rwa [length_map]) hdistinct).mp hsame).symm
      simp [hother, hne]

/-! ## The operations -/

theorem mem_keys {map : CwhipMap V} {key : Bytes} (h : key ∈ map.entries.map CwhipMapEntry.key) :
    ∃ (index : Nat) (entry : CwhipMapEntry V), map.entries[index]? = some entry ∧
    entry.key = key := by
  obtain ⟨entry, hentry, hkey⟩ := List.mem_map.mp h
  obtain ⟨index, hindex⟩ := List.mem_iff_getElem?.mp hentry
  exact ⟨index, entry, hindex, hkey⟩

theorem Indexed.modify {map : CwhipMap V} (h : map.Indexed) (index : Nat) (value : V) :
    CwhipMap.Indexed
      { map with entries := map.entries.modify index fun entry => { entry with value } } := by
  have hkeys : (map.entries.modify index fun entry => { entry with value }).map
      (fun entry : CwhipMapEntry V => (entry.key, entry.hash))
        = map.entries.map fun entry : CwhipMapEntry V => (entry.key, entry.hash) := by
    apply List.ext_getElem?
    intro other
    rw [getElem?_map, getElem?_map, List.getElem?_modify]
    cases map.entries[other]? with
    | none => rfl
    | some entry =>
      show some ((if index = other then _ else _ : CwhipMapEntry V).key, _) = _
      split <;> rfl
  have hproject : ∀ {α : Type} (f : Bytes × UInt64 → α),
      (map.entries.modify index fun entry => { entry with value }).map
          (fun entry : CwhipMapEntry V => f (entry.key, entry.hash))
        = map.entries.map (fun entry : CwhipMapEntry V => f (entry.key, entry.hash)) := by
    intro α f
    have hmap := congrArg (List.map f) hkeys
    rwa [map_map, map_map] at hmap
  have hmember : ∀ entry ∈ map.entries.modify index (fun entry => { entry with value }),
      ∃ old ∈ map.entries, old.key = entry.key ∧ old.hash = entry.hash := by
    intro entry hentry
    have hmem : (entry.key, entry.hash) ∈ map.entries.map fun entry => (entry.key, entry.hash) := by
      rw [← hkeys]
      exact List.mem_map.mpr ⟨entry, hentry, rfl⟩
    obtain ⟨old, hold, heq⟩ := List.mem_map.mp hmem
    exact ⟨old, hold, (Prod.mk.inj heq).1, (Prod.mk.inj heq).2⟩
  have hlength : (map.entries.modify index fun entry => { entry with value }).length
      = map.entries.length := List.length_modify ..
  refine ⟨?_, ?_, ?_, ?_, h.roomBits, h.unindexed, h.bucketLimit, ?_, ?_⟩
  · have hdistinct := h.distinct
    rwa [← hproject Prod.fst] at hdistinct
  · intro entry hentry
    obtain ⟨old, hold, hkey, hhash⟩ := hmember entry hentry
    rw [← hkey, ← hhash]
    exact h.hashed old hold
  · intro entry hentry
    obtain ⟨old, hold, hkey, _⟩ := hmember entry hentry
    rw [← hkey]
    exact h.keyLengths old hold
  · show _ ≤ map.capacity
    rw [hlength]
    exact h.room
  · show 2 * _ ≤ map.buckets.length
    rw [hlength]
    exact h.load
  · have hindexes := h.indexes
    have hhashes := hproject fun pair => pair.2.toNat
    rw [hashes, ← hhashes] at hindexes
    exact hindexes

/-- A new key goes behind all others. -/
theorem appendEntry_indexed {map : CwhipMap V} {key : Bytes} {value : V}
    (hdistinct : (map.entries.map CwhipMapEntry.key).Nodup)
    (hnew : key ∉ map.entries.map CwhipMapEntry.key)
    (hhashed : ∀ entry ∈ map.entries, entry.hash = mapKeyHash entry.key)
    (hkeys : ∀ entry ∈ map.entries, entry.key.length ≤ sizeMax) (hkey : key.length ≤ sizeMax)
    (hroom : map.entries.length < map.capacity)
    (hbits : ∃ bits, 2 ≤ bits ∧ bits ≤ 58 ∧ map.capacity = 2 ^ bits)
    (hcapacity : IsBucketCapacity map.buckets.length) (hlimit : map.buckets.length ≤ sizeMax / 8)
    (hload : 2 * (map.entries.length + 1) ≤ map.buckets.length)
    (hindexes : Indexes map.buckets map.hashes) :
    ∃ after, map.appendEntry ⟨key, mapKeyHash key, value⟩ = .ok after ∧ after.Indexed ∧
      after.value = map.value ++ [(key, value)] := by
  obtain ⟨buckets, hstore, hlength, hstored⟩ :=
    storeIndex_indexes hcapacity hindexes (by rw [hashes_length]; omega) (mapKeyHash key).toNat
  rw [hashes_length] at hstore
  refine ⟨{ map with entries := map.entries ++ [⟨key, mapKeyHash key, value⟩], buckets }, ?_, ?_,
    ?_⟩
  · show (storeIndex map.buckets (map.buckets.length - 1) map.entries.length map.buckets.length
      ((mapKeyHash key).toNat &&& (map.buckets.length - 1)) >>= fun _ => _) = _
    rw [hstore]
    rfl
  · have hlast : (map.entries ++ [(⟨key, mapKeyHash key, value⟩ : CwhipMapEntry V)]).length
        = map.entries.length + 1 := List.length_append
    refine ⟨?_, ?_, ?_, ?_, .inr hbits, ?_, ?_, ?_, ?_⟩
    · show ((map.entries ++ [_]).map CwhipMapEntry.key).Nodup
      rw [map_append, List.nodup_append]
      refine ⟨hdistinct, List.pairwise_singleton _ _, ?_⟩
      rintro old hold last hlast rfl
      obtain rfl : old = key := by simpa using hlast
      exact hnew hold
    · intro entry hentry
      rw [List.mem_append, List.mem_singleton] at hentry
      obtain hold | rfl := hentry
      · exact hhashed entry hold
      · rfl
    · intro entry hentry
      rw [List.mem_append, List.mem_singleton] at hentry
      obtain hold | rfl := hentry
      · exact hkeys entry hold
      · exact hkey
    · rw [hlast]
      exact hroom
    · exact .inr (by rwa [hlength])
    · rwa [hlength]
    · rwa [hlast, hlength]
    · show Indexes buckets ((map.entries ++ [_]).map _)
      rw [map_append]
      exact hstored
  · exact map_append

/-- Setting replaces the value of a stored key and appends a new one. -/
theorem set_returns {map : CwhipMap V} (h : map.Indexed) (key : Bytes) (value : V) :
    Returns (map.set key value)
    (sizeMax < key.length ∨ entryLimit ≤ map.entries.length) fun after =>
      after.Indexed ∧ after.value = mapSet map.value key value := by
  apply Returns.bind (returns_ensure fun hlong => .inl (Nat.lt_of_not_le hlong))
  intro _ hkey
  by_cases hmem : key ∈ map.entries.map CwhipMapEntry.key
  · obtain ⟨index, entry, hentry, rfl⟩ := mem_keys hmem
    apply Returns.ok_bind (findIndex_present h hentry)
    exact ⟨h.modify index value, modify_eq_mapSet h.distinct hentry value⟩
  · apply Returns.ok_bind (findIndex_absent h hmem _)
    have hmax : entryLimit ≤ int64Max := by decide
    apply Returns.bind (returns_ensure fun hlong => .inr (by omega))
    intro _ _
    apply Returns.bind ((reserveEntry_returns h).mono Or.inr fun _ reserved => reserved)
    rintro _ ⟨capacity, rfl, hroom, bits, hsmall, hbits, hcapacity⟩
    have hlength : map.entries.length < entryLimit := by
      have hle : 2 ^ bits ≤ 2 ^ 58 := Nat.pow_le_pow_right (by decide) hbits
      rw [entryLimit]
      omega
    obtain ⟨buckets, hreserve, hbuckets, hlimit, hload, hindexes⟩ :=
      @reserveBucket_eq V { map with capacity } h.unindexed h.bucketLimit h.load h.indexes hlength
    rw [hreserve]
    obtain ⟨after, happend, hafter, hvalue⟩ :=
      @appendEntry_indexed V { map with capacity, buckets } key value h.distinct hmem h.hashed
        h.keyLengths hkey hroom ⟨bits, hsmall, hbits, hcapacity⟩ hbuckets hlimit hload hindexes
    refine Returns.of_ok happend ⟨hafter, ?_⟩
    rw [hvalue, mapSet, if_neg (by rwa [value_keys])]
    rfl

/-- The value of a key in an association list. -/
def mapGet (entries : List (Bytes × V)) (key : Bytes) : Except String V :=
  match entries.find? fun entry => entry.1 = key with
  | some entry => .ok entry.2
  | none => .error "dict key not found"

/-- A value is that of its key in the list of entries. -/
theorem get_returns {map : CwhipMap V} (h : map.Indexed) (key : Bytes) :
    Returns (map.get key) (sizeMax < key.length) fun result => result = mapGet map.value key := by
  apply Returns.bind (returns_ensure fun hlong => Nat.lt_of_not_le hlong)
  intro _ _
  by_cases hmem : key ∈ map.entries.map CwhipMapEntry.key
  · obtain ⟨index, entry, hentry, rfl⟩ := mem_keys hmem
    apply Returns.ok_bind (findIndex_present h hentry)
    have hvalue : (entry.key, entry.value) ∈ map.value :=
      List.mem_map.mpr ⟨entry, mem_of_getElem? hentry, rfl⟩
    have hfind := find?_key (by rw [value_keys]; exact h.distinct) hvalue
    apply Returns.ok_bind (require_eq_ok.mpr hentry)
    show Except.ok entry.value = mapGet map.value entry.key
    rw [mapGet, hfind]
  · apply Returns.ok_bind (findIndex_absent h hmem _)
    show Except.error _ = mapGet map.value key
    rw [mapGet, find?_absent (by rwa [value_keys])]

theorem contains_returns {map : CwhipMap V} (h : map.Indexed) (key : Bytes) :
    Returns (map.contains key) (sizeMax < key.length) fun result =>
      result = decide (key ∈ map.value.map Prod.fst) := by
  apply Returns.bind (returns_ensure fun hlong => Nat.lt_of_not_le hlong)
  intro _ _
  rw [value_keys]
  by_cases hmem : key ∈ map.entries.map CwhipMapEntry.key
  · obtain ⟨index, entry, hentry, rfl⟩ := mem_keys hmem
    apply Returns.ok_bind (findIndex_present h hentry)
    exact (decide_eq_true hmem).symm
  · apply Returns.ok_bind (findIndex_absent h hmem _)
    exact (decide_eq_false hmem).symm

/-- Removing keeps the order of the other entries. -/
theorem remove_returns {map : CwhipMap V} (h : map.Indexed) (key : Bytes) :
    Returns (map.remove key) (sizeMax < key.length) fun result =>
      result.1.Indexed ∧ result.1.value = map.value.filter (fun entry => entry.1 ≠ key) ∧
        result.2 = decide (key ∈ map.value.map Prod.fst) := by
  apply Returns.bind (returns_ensure fun hlong => Nat.lt_of_not_le hlong)
  intro _ _
  rw [value_keys]
  by_cases hmem : key ∈ map.entries.map CwhipMapEntry.key
  · obtain ⟨index, entry, hentry, rfl⟩ := mem_keys hmem
    apply Returns.ok_bind (findIndex_present h hentry)
    have hlt := (List.getElem?_eq_some_iff.mp hentry).1
    have hlength : (map.entries.eraseIdx index).length + 1 = map.entries.length := by
      rw [List.length_eraseIdx_of_lt hlt]
      omega
    have hload := h.load
    -- an entry is there, so the dict has buckets
    have hcapacity := h.unindexed.resolve_left (by omega)
    obtain ⟨buckets, hrebuild, hbuckets, hindexes⟩ :=
      @rebuildIndex_indexes V { map with entries := map.entries.eraseIdx index } _ hcapacity
        h.bucketLimit (show (map.entries.eraseIdx index).length ≤ map.buckets.length by omega)
    have hpos : map.buckets.length ≠ 0 := by omega
    show Returns (if map.buckets.length ≠ 0 then _ else _) _ _
    rw [if_pos hpos, hrebuild]
    have hsub := List.eraseIdx_sublist map.entries index
    refine ⟨⟨?_, ?_, ?_, ?_, h.roomBits, ?_, ?_, ?_, hindexes⟩, ?_, (decide_eq_true hmem).symm⟩
    · exact h.distinct.sublist (hsub.map _)
    · exact fun entry hentry => h.hashed entry (hsub.subset hentry)
    · exact fun entry hentry => h.keyLengths entry (hsub.subset hentry)
    · have hroom := h.room
      show (map.entries.eraseIdx index).length ≤ map.capacity
      omega
    · exact .inr (by rwa [hbuckets])
    · rw [hbuckets]
      exact h.bucketLimit
    · show 2 * (map.entries.eraseIdx index).length ≤ buckets.length
      omega
    · have hvalue : map.value[index]? = some (entry.key, entry.value) := by
        rw [value, getElem?_map, hentry]
        rfl
      have herase := eraseIdx_eq_filter (by rw [value_keys]; exact h.distinct) hvalue
      rw [← herase]
      exact (List.eraseIdx_map _ _ _).symm
  · apply Returns.ok_bind (findIndex_absent h hmem _)
    refine ⟨h, ?_, (decide_eq_false hmem).symm⟩
    symm
    rw [List.filter_eq_self]
    intro entry hentry
    have hne : entry.1 ≠ key := by
      rintro rfl
      rw [← value_keys] at hmem
      exact hmem (List.mem_map.mpr ⟨entry, hentry, rfl⟩)
    simpa using hne

theorem entryAt_eq (map : CwhipMap V) (index : Nat) :
    map.entryAt index = require map.value[index]? "dict iteration index out of bounds" := by
  rw [entryAt, value, getElem?_map]
  cases map.entries[index]? <;> rfl

/-- Copying inserts the entries of a slice one after another. -/
theorem copyEntries_returns {source : CwhipMap V} (h : source.Indexed) (first count : Nat)
    (hrange : first + count ≤ source.entries.length) :
    Returns ((sliceIndices first 1 count).foldlM source.copyEntry empty)
      (entryLimit < source.entries.length) fun copy =>
        copy.Indexed ∧ copy.value = (source.value.drop first).take count := by
  induction count with
  | zero => exact ⟨indexed_empty, rfl⟩
  | succ count ih =>
    have hlt : first + count < source.entries.length := by omega
    have hentry := getElem?_eq_getElem hlt
    have hindices : sliceIndices first 1 (count + 1)
        = sliceIndices first 1 count ++ [((first + count : Nat) : Int)] := by
      simp [sliceIndices, List.range_succ]
    rw [hindices, List.foldlM_append]
    apply Returns.bind (ih (by omega))
    rintro copy ⟨hcopy, hvalue⟩
    have htake : (source.value.drop first).take (count + 1) = copy.value
        ++ [(source.entries[first + count].key, source.entries[first + count].value)] := by
      have hget : source.value[first + count]?
          = some (source.entries[first + count].key, source.entries[first + count].value) := by
        rw [value, getElem?_map, hentry]
        rfl
      rw [List.take_add_one, List.getElem?_drop, ← hvalue, hget]
      rfl
    have hnodup : (((source.value.drop first).take (count + 1)).map Prod.fst).Nodup := by
      have hdistinct := h.distinct
      rw [← value_keys] at hdistinct
      exact hdistinct.sublist (((List.take_sublist _ _).trans (List.drop_sublist _ _)).map _)
    have hnew : source.entries[first + count].key ∉ copy.value.map Prod.fst := by
      rw [htake, map_append, List.nodup_append] at hnodup
      intro hmem
      exact hnodup.2.2 _ hmem _ (by simp) rfl
    have hset := set_returns hcopy source.entries[first + count].key
      source.entries[first + count].value
    rw [mapSet, if_neg hnew, ← htake] at hset
    -- the copy is shorter than the source before each entry
    have hlengths : copy.entries.length < source.entries.length := by
      rw [← value_length, hvalue, List.length_take, List.length_drop, value_length]
      omega
    have hkey := h.keyLengths _ (List.getElem_mem hlt)
    have hone : source.copyEntry copy ((first + count : Nat) : Int)
        = copy.set source.entries[first + count].key source.entries[first + count].value := by
      simp only [copyEntry, ensure, Int.natCast_nonneg, if_true, Int.toNat_natCast, hentry, require,
        bind, Except.bind]
    rw [List.foldlM_cons, hone]
    apply Returns.bind (hset.mono (fun hlimit => ?_) fun _ set => set)
    · exact fun after set => set
    · omega

/-- A slice is the Python slice of the entries. -/
theorem slice_returns {source : CwhipMap V} (h : source.Indexed) (start stop : Option Int) :
    Returns (source.slice start stop) (entryLimit < source.entries.length) fun copy =>
      copy.Indexed ∧ copy.value = dictSliceSpec source.value start stop := by
  have hfirst := normalizeSliceBound_forward start source.entries.length
    (by decide : (0 : Int) < 1) true
  rw [slice, dictSliceSpec, value_length]
  obtain hrange | hzero := spanLength_range start stop source.entries.length
  · have hcopy := copyEntries_returns h _ _ hrange
    rwa [Int.toNat_of_nonneg hfirst.1] at hcopy
  · rw [hzero, List.take_zero]
    exact ⟨indexed_empty, rfl⟩

theorem Indexed.length_le {map : CwhipMap V} (h : map.Indexed) : map.entries.length ≤
    entryLimit := by
  have hroom := h.room
  obtain hzero | ⟨bits, _, hlimit, hcapacity⟩ := h.roomBits
  · omega
  · have hle : 2 ^ bits ≤ 2 ^ 58 := Nat.pow_le_pow_right (by decide) hlimit
    rw [entryLimit]
    omega

theorem slice_eq {source : CwhipMap V} (h : source.Indexed) (start stop : Option Int) :
    ∃ copy, source.slice start stop = .ok copy ∧
      copy.Indexed ∧ copy.value = dictSliceSpec source.value start stop := by
  have hreturns := slice_returns h start stop
  have hlength := h.length_le
  cases hslice : source.slice start stop with
  | ok copy =>
    rw [hslice] at hreturns
    exact ⟨copy, rfl, hreturns⟩
  | error fault =>
    rw [hslice] at hreturns
    exact absurd hreturns.2 (Nat.not_lt.mpr hlength)

/-- What a caller can see of a dict in use. -/
structure Sound (map : CwhipMap V) : Prop where
  distinct : (map.entries.map CwhipMapEntry.key).Nodup
  found : ∀ (index : Nat) (entry : CwhipMapEntry V), map.entries[index]? = some entry →
    map.findIndex entry.key (mapKeyHash entry.key) = .ok (some index)
  absent : ∀ key ∉ map.entries.map CwhipMapEntry.key, map.findIndex key (mapKeyHash key) = .ok none
  bucketCapacity : map.buckets.length = 0 ∨
    8 ≤ map.buckets.length ∧ ∃ bits, map.buckets.length = 2 ^ bits
  load : 2 * map.entries.length ≤ map.buckets.length

/-- A dict whose index is right is right in every operation. -/
theorem Indexed.sound {map : CwhipMap V} (h : map.Indexed) : map.Sound := by
  refine ⟨h.distinct, fun _ _ hentry => findIndex_present h hentry,
    fun key hkey => findIndex_absent h hkey _, ?_, h.load⟩
  obtain hzero | hcapacity := h.unindexed
  · exact .inl hzero
  · have height := hcapacity.eight_le
    obtain ⟨bits, _, hbits⟩ := hcapacity
    exact .inr ⟨height, bits, hbits⟩

end CwhipMap

end Cwhip.Runtime
