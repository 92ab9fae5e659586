/-
  Cwhip.Lib.OpenAddressing

  Linear probing over buckets that hold 1-based indices into a list of hashes,
  and 0 where nothing is stored.

  A stored index is reached from its hash through buckets that are not empty.
  Storing fills an empty bucket, so it breaks no such way; and as long as a
  bucket is empty, a search for one ends.
-/

import Mathlib.Data.List.Basic
import Mathlib.Data.List.Count
import Mathlib.Data.Nat.Find

namespace Cwhip.Lib

/-- The bucket that a search from a hash visits after some steps. -/
def bucketAt (buckets : List Nat) (hash step : Nat) : Nat := (hash + step) % buckets.length

/-- What that bucket holds. -/
def visited (buckets : List Nat) (hash step : Nat) : Nat :=
    buckets.getD (bucketAt buckets hash step) 0

/-- The first index on the way that passes a test. -/
def probeFind (buckets : List Nat) (test : Nat → Bool) (hash : Nat) : Nat → Nat → Option Nat
  | 0, _ => none
  | fuel + 1, step =>
    match visited buckets hash step with
    | 0 => none
    | index + 1 => if test index then some index else probeFind buckets test hash fuel (step + 1)

/-- The first empty bucket on the way. -/
def probeFree (buckets : List Nat) (hash : Nat) : Nat → Nat → Option Nat
  | 0, _ => none
  | fuel + 1, step =>
    if visited buckets hash step = 0 then some (bucketAt buckets hash step)
    else probeFree buckets hash fuel (step + 1)

structure Indexes (buckets hashes : List Nat) : Prop where
  stored : ∀ (bucket index : Nat), buckets[bucket]? = some (index + 1) → index < hashes.length
  reached : ∀ (index hash : Nat), hashes[index]? = some hash → ∃ step < buckets.length,
    visited buckets hash step = index + 1 ∧ ∀ before < step, visited buckets hash before ≠ 0
  occupied : (buckets.countP fun stored => stored != 0) ≤ hashes.length

theorem bucketAt_lt {buckets : List Nat} (h : buckets ≠ []) (hash step : Nat) :
    bucketAt buckets hash step < buckets.length :=
  Nat.mod_lt _ (List.length_pos_iff.mpr h)

theorem visited_getElem {buckets : List Nat} (h : buckets ≠ []) (hash step : Nat) :
    buckets[bucketAt buckets hash step]? = some (visited buckets hash step) := by
  have hlt := bucketAt_lt h hash step
  rw [visited, List.getD_eq_getElem?_getD, List.getElem?_eq_getElem hlt]
  rfl

/-- A probe sequence visits every bucket. -/
theorem exists_step {buckets : List Nat} {bucket : Nat} (h : bucket < buckets.length) (hash : Nat) :
    ∃ step < buckets.length, bucketAt buckets hash step = bucket := by
  have hpos : 0 < buckets.length := by omega
  have hmod := Nat.mod_lt hash hpos
  refine ⟨(bucket + (buckets.length - hash % buckets.length)) % buckets.length, Nat.mod_lt _ hpos,
    ?_⟩
  rw [bucketAt, Nat.add_mod_mod, ← Nat.mod_add_mod]
  have hsum : hash % buckets.length + (bucket + (buckets.length - hash % buckets.length))
      = bucket + buckets.length := by omega
  rw [hsum, Nat.add_mod_right, Nat.mod_eq_of_lt h]

/-! ## Finding -/

theorem probeFind_some {buckets : List Nat} {test : Nat → Bool} {hash fuel step index : Nat}
    (h : probeFind buckets test hash fuel step = some index) :
    test index = true ∧ ∃ after, visited buckets hash after = index + 1 := by
  induction fuel generalizing step with
  | zero => cases h
  | succ fuel ih =>
    rw [probeFind] at h
    split at h
    · cases h
    · next found hfound =>
      split at h
      · next htest =>
        obtain rfl := Option.some.inj h
        exact ⟨htest, step, hfound⟩
      · exact ih h

/-- A search ends at a free bucket where nothing passes its test. -/
theorem probeFind_none {buckets hashes : List Nat} (h : Indexes buckets hashes) {test : Nat → Bool}
    (htest : ∀ index < hashes.length, test index = false) (hash fuel step : Nat) :
    probeFind buckets test hash fuel step = none := by
  cases hfind : probeFind buckets test hash fuel step with
  | none => rfl
  | some index =>
    obtain ⟨hpass, after, hafter⟩ := probeFind_some hfind
    have hne : buckets ≠ [] := by
      rintro rfl
      cases hafter
    have hlt := h.stored _ index ((visited_getElem hne hash after).trans (congrArg some hafter))
    rw [htest index hlt] at hpass
    cases hpass

theorem probeFind_walk {buckets : List Nat} {test : Nat → Bool} {hash target index : Nat}
    (htarget : visited buckets hash target = index + 1) (hpass : test index = true)
    (honly : ∀ step other, visited buckets hash step = other + 1 → test other = true →
    other = index)
    (hfull : ∀ before < target, visited buckets hash before ≠ 0) (fuel step : Nat)
    (hstep : step ≤ target) (hfuel : target < step + fuel) :
    probeFind buckets test hash fuel step = some index := by
  induction fuel generalizing step with
  | zero => omega
  | succ fuel ih =>
    rw [probeFind]
    by_cases hend : step = target
    · rw [hend, htarget]
      exact if_pos hpass
    · have hbefore := hfull step (by omega)
      cases hvisited : visited buckets hash step with
      | zero => exact absurd hvisited hbefore
      | succ other =>
        dsimp only
        split
        · next htest => rw [honly step other hvisited htest]
        · exact ih (step + 1) (by omega) (by omega)

/-- A stored index that passes the test is found. -/
theorem probeFind_eq {buckets hashes : List Nat} (h : Indexes buckets hashes) {test : Nat → Bool}
    {index hash : Nat} (hhash : hashes[index]? = some hash) (hpass : test index = true)
    (honly : ∀ other < hashes.length, test other = true → other = index) :
    probeFind buckets test hash buckets.length 0 = some index := by
  obtain ⟨target, htarget, hvisited, hfull⟩ := h.reached index hash hhash
  refine probeFind_walk hvisited hpass ?_ hfull buckets.length 0 (Nat.zero_le _) (by omega)
  intro step other hother htest
  have hne : buckets ≠ [] := by
    rintro rfl
    cases htarget
  exact honly other (h.stored _ other ((visited_getElem hne hash step).trans
    (congrArg some hother))) htest

/-! ## Storing -/

theorem probeFree_walk {buckets : List Nat} {hash target : Nat}
    (htarget : visited buckets hash target = 0)
    (hfull : ∀ before < target, visited buckets hash before ≠ 0) (fuel step : Nat)
    (hstep : step ≤ target) (hfuel : target < step + fuel) :
    probeFree buckets hash fuel step = some (bucketAt buckets hash target) := by
  induction fuel generalizing step with
  | zero => omega
  | succ fuel ih =>
    rw [probeFree]
    by_cases hend : step = target
    · rw [hend]
      exact if_pos htarget
    · rw [if_neg (hfull step (by omega))]
      exact ih (step + 1) (by omega) (by omega)

/-- A table that is not full has a free bucket. -/
theorem probeFree_exists {buckets hashes : List Nat} (h : Indexes buckets hashes)
    (hroom : hashes.length < buckets.length) (hash : Nat) :
    ∃ target, probeFree buckets hash buckets.length 0 = some (bucketAt buckets hash target) ∧
      target < buckets.length ∧ visited buckets hash target = 0 ∧
      ∀ before < target, visited buckets hash before ≠ 0 := by
  have hempty : ∃ stored ∈ buckets, stored = 0 := by
    by_contra hnone
    have hall : (buckets.countP fun stored => stored != 0) = buckets.length := by
      rw [List.countP_eq_length]
      intro stored hstored
      by_contra hzero
      exact hnone ⟨stored, hstored, by simpa using hzero⟩
    have hoccupied := h.occupied
    omega
  obtain ⟨stored, hstored, rfl⟩ := hempty
  obtain ⟨bucket, hlt, hget⟩ := List.getElem_of_mem hstored
  obtain ⟨step, hstep, hat⟩ := exists_step hlt hash
  have hzero : visited buckets hash step = 0 := by
    rw [visited, hat, List.getD_eq_getElem?_getD, List.getElem?_eq_getElem hlt, hget]
    rfl
  have hexists : ∃ step, visited buckets hash step = 0 := ⟨step, hzero⟩
  have hfirst := Nat.find_spec hexists
  have hleast := Nat.find_min' hexists hzero
  refine ⟨Nat.find hexists,
    ?_, by omega, hfirst, fun before hbefore => Nat.find_min hexists hbefore⟩
  exact probeFree_walk hfirst (fun before hbefore => Nat.find_min hexists hbefore) buckets.length 0
    (Nat.zero_le _) (by omega)

theorem visited_set {buckets : List Nat} (hne : buckets ≠ []) (bucket stored hash step : Nat) :
    visited (buckets.set bucket stored) hash step
      = if bucketAt buckets hash step = bucket then stored else visited buckets hash step := by
  have hlt := bucketAt_lt hne hash step
  have hat : bucketAt (buckets.set bucket stored) hash step = bucketAt buckets hash step := by
    rw [bucketAt, List.length_set]
    rfl
  rw [visited, hat, List.getD_eq_getElem?_getD, List.getElem?_set]
  split
  · next heq =>
    rw [if_pos heq.symm, if_pos (heq ▸ hlt)]
    rfl
  · next hother =>
    rw [if_neg (fun heq => hother heq.symm)]
    rw [visited, List.getD_eq_getElem?_getD]

/-- Storing in the first free bucket keeps every index in reach. -/
theorem Indexes.insert {buckets hashes : List Nat} (h : Indexes buckets hashes) {hash target : Nat}
    (htarget : target < buckets.length) (hempty : visited buckets hash target = 0)
    (hfull : ∀ before < target, visited buckets hash before ≠ 0) :
    Indexes (buckets.set (bucketAt buckets hash target) (hashes.length + 1))
    (hashes ++ [hash]) := by
  have hne : buckets ≠ [] := by
    rintro rfl
    cases htarget
  have hlt := bucketAt_lt hne hash target
  have hget := visited_getElem hne hash target
  rw [hempty] at hget
  refine ⟨?_, ?_, ?_⟩
  · intro bucket index hstored
    rw [List.length_append, List.length_singleton]
    rw [List.getElem?_set] at hstored
    split at hstored
    · have hindex := Option.some.inj hstored
      omega
    · have hold := h.stored bucket index hstored
      omega
  · intro index other hother
    rw [List.length_set]
    by_cases hindex : index < hashes.length
    · -- the way to an old index has no empty bucket, so it is not touched
      rw [List.getElem?_append_left hindex] at hother
      obtain ⟨step, hstep, hvisited, hbefore⟩ := h.reached index other hother
      have hsame : ∀ step, visited buckets other step ≠ 0 →
          visited (buckets.set (bucketAt buckets hash target) (hashes.length + 1)) other step
            = visited buckets other step := by
        intro step hnonempty
        rw [visited_set hne, if_neg]
        intro hat
        have hzero := visited_getElem hne other step
        rw [hat, hget] at hzero
        exact hnonempty (Option.some.inj hzero).symm
      refine ⟨step, hstep, ?_, ?_⟩
      · rw [hsame step (by omega), hvisited]
      · intro before hlt
        rw [hsame before (hbefore before hlt)]
        exact hbefore before hlt
    · -- the new index is reached by its own probes, which met no empty bucket
      rw [List.getElem?_append_right (by omega)] at hother
      have hzero : index - hashes.length = 0 := by
        by_contra hpos
        rw [List.getElem?_eq_none (by simp; omega)] at hother
        cases hother
      rw [hzero] at hother
      obtain rfl : hash = other := Option.some.inj hother
      have hself : index = hashes.length := by omega
      refine ⟨target, htarget, ?_, ?_⟩
      · rw [visited_set hne, if_pos rfl, hself]
      · intro before hlt
        rw [visited_set hne]
        split
        · exact Nat.succ_ne_zero _
        · exact hfull before hlt
  · -- one bucket more is occupied
    have hcount := h.occupied
    have hzero : buckets[bucketAt buckets hash target] = 0 := by
      rw [List.getElem?_eq_getElem hlt] at hget
      exact Option.some.inj hget
    rw [List.length_append, List.length_singleton, List.countP_set hlt, hzero]
    simp
    omega

theorem indexes_empty (capacity : Nat) : Indexes (List.replicate capacity 0) [] := by
  refine ⟨?_, nofun, ?_⟩
  · intro bucket index hstored
    rw [List.getElem?_replicate] at hstored
    split at hstored
    · cases Option.some.inj hstored
    · cases hstored
  · simp

end Cwhip.Lib
