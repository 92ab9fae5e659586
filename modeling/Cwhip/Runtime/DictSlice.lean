/-
  Cwhip.Runtime.DictSlice

  Slices of dicts (`cwhip_map_slice_ex` in `RuntimeGc.c`) under whatever the
  finalizers of the slice's own allocation do to the dict.

  An entry cell holds a pointer to the bytes of its key.  Removing an entry
  frees those bytes and moves the later cells down, so a cell past the new
  length may keep a pointer to freed bytes; a slice whose bounds were computed
  before the removal still reads that cell.
-/

import Cwhip.Runtime.Slices

namespace Cwhip.Runtime

open Cwhip.Lib

variable {V : Type}

/-! ## Association lists -/

/-- `cwhip_map_set` on the entries in insertion order. -/
def mapSet (entries : List (Bytes × V)) (key : Bytes) (value : V) : List (Bytes × V) :=
  if key ∈ entries.map Prod.fst then
    entries.map (fun entry => if entry.1 = key then (key, value) else entry)
  else entries ++ [(key, value)]

/-- Setting entries one after the other. -/
def mapSetAll (entries : List (Bytes × V)) : List (Bytes × V) :=
  entries.foldl (fun copy entry => mapSet copy entry.1 entry.2) []

theorem mapSet_length (entries : List (Bytes × V)) (key : Bytes) (value : V) :
    (mapSet entries key value).length
      = if key ∈ entries.map Prod.fst then entries.length else entries.length + 1 := by
  unfold mapSet
  split
  · exact List.length_map _
  · simp

theorem foldl_mapSet_length_le (entries copy : List (Bytes × V)) :
    (entries.foldl (fun copy entry => mapSet copy entry.1 entry.2) copy).length
      ≤ copy.length + entries.length := by
  induction entries generalizing copy with
  | nil => exact Nat.le_refl _
  | cons entry rest ih =>
    have hone := mapSet_length copy entry.1 entry.2
    have hrest := ih (mapSet copy entry.1 entry.2)
    simp only [List.foldl_cons, List.length_cons]
    split at hone <;> omega

variable {entries copy : List (Bytes × V)}

/-- Only distinct keys each add an entry. -/
theorem foldl_mapSet_length_eq
    (h : (entries.foldl (fun copy entry => mapSet copy entry.1 entry.2) copy).length
      = copy.length + entries.length) :
    entries.foldl (fun copy entry => mapSet copy entry.1 entry.2) copy = copy ++ entries := by
  induction entries generalizing copy with
  | nil => simp
  | cons entry rest ih =>
    have hone := mapSet_length copy entry.1 entry.2
    have hrest := foldl_mapSet_length_le rest (mapSet copy entry.1 entry.2)
    simp only [List.foldl_cons, List.length_cons] at h ⊢
    by_cases hkey : entry.1 ∈ copy.map Prod.fst
    · rw [if_pos hkey] at hone
      omega
    · rw [if_neg hkey] at hone
      rw [ih (by omega), mapSet, if_neg hkey, List.append_assoc]
      rfl

theorem foldl_mapSet_append (hdistinct : ((copy ++ entries).map Prod.fst).Nodup) :
    entries.foldl (fun copy entry => mapSet copy entry.1 entry.2) copy = copy ++ entries := by
  induction entries generalizing copy with
  | nil => simp
  | cons entry rest ih =>
    have hkey : entry.1 ∉ copy.map Prod.fst := by
      rw [List.map_append, List.nodup_append] at hdistinct
      intro hmem
      exact hdistinct.2.2 _ hmem _ (by simp) rfl
    have hset : mapSet copy entry.1 entry.2 = copy ++ [entry] := by
      rw [mapSet, if_neg hkey]
    rw [List.foldl_cons, hset, ih (by simpa using hdistinct), List.append_assoc]
    rfl

theorem mapSetAll_eq (hdistinct : (entries.map Prod.fst).Nodup) :
    mapSetAll entries = entries :=
  @foldl_mapSet_append V entries [] hdistinct

/-- As many entries as keys are kept exactly if they are the same entries. -/
theorem mapSetAll_eq_iff {distinct : List (Bytes × V)} (hdistinct : (distinct.map Prod.fst).Nodup)
    (hlength : entries.length = distinct.length) :
    mapSetAll entries = distinct ↔ entries = distinct := by
  constructor
  · intro h
    have hfold := @foldl_mapSet_length_eq V entries [] (by
      have hlen := congrArg List.length h
      unfold mapSetAll at hlen
      simp only [List.length_nil, Nat.zero_add]
      omega)
    rw [← h]
    exact hfold.symm
  · rintro rfl
    exact mapSetAll_eq hdistinct

/-! ## Dicts -/

/-- An entry cell: address and length of the key's bytes, and the value. -/
structure EntryCell (V : Type) where
  key : Nat
  keyLength : Nat
  value : V

/-- The bytes of a key, `none` if they were freed.  Those of an empty key are
    never read. -/
def EntryCell.keyBytes (cell : EntryCell V) (memory : Nat → Option Bytes) : Option Bytes :=
  if cell.keyLength = 0 then some [] else memory cell.key

/-- A dict: its entry cells in insertion order, the bytes at each key address
    (`none` once freed), and the entries these stand for. -/
structure Dict (V : Type) where
  cells : GrowVec (EntryCell V)
  memory : Nat → Option Bytes
  entries : List (Bytes × V)
  holds : cells.value.map (fun cell => (cell.keyBytes memory, cell.value))
    = entries.map (fun entry => (some entry.1, entry.2))
  distinct : (entries.map Prod.fst).Nodup

/-- What the finalizers of one collection do to a dict. -/
structure DictUpdate (V : Type) where
  apply : Dict V → Dict V
  grows : ∀ d, d.cells.capacity ≤ (apply d).cells.capacity

/-- Read one entry: its cell, then the bytes of its key. -/
def Dict.readEntry (d : Dict V) (index : Int) : Except NativeFault (Bytes × V) := do
  let cell ← readFault (d.cells.readIndex index)
  let key ← require (cell.keyBytes d.memory) (.read .dangling)
  return (key, cell.value)

/-- `cwhip_map_slice_ex`: bounds, allocation, then one `cwhip_map_set` per entry. -/
def dictSlice (update : DictUpdate V) (source : Dict V) (start stop : Option Int) :
    Except NativeFault (List (Bytes × V)) :=
  let first := normalizeSliceBound start source.cells.length 1 true
  let last := normalizeSliceBound stop source.cells.length 1 false
  (sliceIndices first 1 (spanLength first last)).foldlM (fun copy index => do
    let entry ← (update.apply source).readEntry index
    return mapSet copy entry.1 entry.2) []

def dictSliceSpec (value : List (Bytes × V)) (start stop : Option Int) : List (Bytes × V) :=
  let first := normalizeSliceBound start value.length 1 true
  let last := normalizeSliceBound stop value.length 1 false
  (value.drop first.toNat).take (spanLength first last)

def Dict.sliceIndices (d : Dict V) (start stop : Option Int) : List Int :=
  let first := normalizeSliceBound start d.cells.length 1 true
  let last := normalizeSliceBound stop d.cells.length 1 false
  Runtime.sliceIndices first 1 (spanLength first last)

theorem Dict.entries_length (d : Dict V) : d.entries.length = d.cells.length := by
  have hlength := congrArg List.length d.holds
  rw [List.length_map, List.length_map, GrowVec.value_length] at hlength
  exact hlength.symm

theorem Dict.readEntry_eq (d : Dict V) {index : Nat} {entry : Bytes × V}
    (h : d.entries[index]? = some entry) : d.readEntry index = .ok entry := by
  obtain ⟨hlt, _⟩ := List.getElem?_eq_some_iff.mp h
  rw [d.entries_length] at hlt
  obtain ⟨cell, hcell, hread⟩ := GrowVec.readIndex_eq (Nat.le_refl d.cells.capacity)
    (Int.natCast_nonneg index) (by omega)
  have hvalue : d.cells.value[index]? = some cell := by
    rw [GrowVec.getElem?_value hlt]
    exact hcell
  have hholds := congrArg (fun l => l[index]?) d.holds
  simp only [List.getElem?_map, hvalue, h, Option.map_some, Option.some.injEq,
    Prod.mk.injEq] at hholds
  unfold Dict.readEntry
  simp only [hread, readFault, hholds.1, require, bind, Except.bind, pure, Except.pure, hholds.2]

/-- Entries are read one after another. -/
theorem Dict.mapM_readEntry (d : Dict V) (first count : Nat)
    (hrange : first + count ≤ d.cells.length) :
    (Runtime.sliceIndices first 1 count).mapM d.readEntry
      = .ok ((d.entries.drop first).take count) := by
  induction count with
  | zero => rfl
  | succ count ih =>
    have hlt : first + count < d.entries.length := by
      rw [d.entries_length]
      omega
    have hentry : d.readEntry ((first + count : Nat) : Int)
        = .ok d.entries[first + count] := d.readEntry_eq (List.getElem?_eq_getElem hlt)
    have hindices : Runtime.sliceIndices first 1 (count + 1)
        = Runtime.sliceIndices first 1 count ++ [((first + count : Nat) : Int)] := by
      simp [Runtime.sliceIndices, List.range_succ]
    have htake : (d.entries.drop first).take (count + 1)
        = (d.entries.drop first).take count ++ [d.entries[first + count]] := by
      rw [List.take_add_one, List.getElem?_drop, List.getElem?_eq_getElem hlt]
      rfl
    rw [hindices, htake, List.mapM_append, ih (by omega), List.mapM_cons, hentry]
    rfl

/-- A slice reads the dict after its update. -/
theorem dictSlice_reads (update : DictUpdate V) (source : Dict V) (start stop : Option Int) :
    dictSlice update source start stop
      = ((source.sliceIndices start stop).mapM (update.apply source).readEntry).map mapSetAll :=
  foldlM_eq_mapM

theorem Dict.mapM_sliceIndices (d : Dict V) (start stop : Option Int) :
    (d.sliceIndices start stop).mapM d.readEntry = .ok (dictSliceSpec d.entries start stop) := by
  have hfirst := normalizeSliceBound_forward start d.cells.length (by decide : (0 : Int) < 1) true
  unfold Dict.sliceIndices dictSliceSpec
  rw [d.entries_length]
  dsimp only
  rcases spanLength_range start stop d.cells.length with hrange | hzero
  · have hread := d.mapM_readEntry _ _ hrange
    rwa [Int.toNat_of_nonneg hfirst.1] at hread
  · rw [hzero, List.take_zero]
    rfl

/-- A slice is right exactly if all its reads are. -/
theorem dictSlice_eq (update : DictUpdate V) (source : Dict V) (start stop : Option Int) :
    dictSlice update source start stop = .ok (dictSliceSpec source.entries start stop) ↔
      ∀ index ∈ source.sliceIndices start stop,
        (update.apply source).readEntry index = source.readEntry index := by
  have hbefore := source.mapM_sliceIndices start stop
  have hdistinct : ((dictSliceSpec source.entries start stop).map Prod.fst).Nodup := by
    refine List.Nodup.sublist (List.Sublist.map _ ?_) source.distinct
    exact (List.take_sublist _ _).trans (List.drop_sublist _ _)
  rw [dictSlice_reads, ← mapM_ok_iff hbefore]
  cases hafter : (source.sliceIndices start stop).mapM (update.apply source).readEntry with
  | error fault => simp [Except.map]
  | ok entries =>
    simp only [Except.map, Except.ok.injEq]
    apply mapSetAll_eq_iff hdistinct
    rw [mapM_length hafter, mapM_length hbefore]

/-! ## Snapshots -/

/-- The snapshot `for each` takes of a dict: a slice from 0 to its length. -/
def dictSnapshot (update : DictUpdate V) (source : Dict V) :
    Except NativeFault (List (Bytes × V)) :=
  dictSlice update source (some 0) (some source.cells.length)

theorem dictSliceSpec_snapshot (value : List (Bytes × V)) :
    dictSliceSpec value (some 0) (some value.length) = value := by
  unfold dictSliceSpec
  rw [normalizeSliceBound_zero, normalizeSliceBound_length]
  simp [spanLength_zero]

theorem Dict.sliceIndices_snapshot (d : Dict V) :
    d.sliceIndices (some 0) (some d.cells.length) = Runtime.sliceIndices 0 1 d.cells.length := by
  unfold Dict.sliceIndices
  rw [normalizeSliceBound_zero, normalizeSliceBound_length]
  dsimp only
  rw [spanLength_zero]

theorem dictSnapshot_reads (update : DictUpdate V) (source : Dict V) :
    dictSnapshot update source =
      ((sliceIndices 0 1 source.cells.length).mapM (update.apply source).readEntry).map
      mapSetAll := by
  rw [← source.sliceIndices_snapshot]
  exact dictSlice_reads update source _ _

/-- So is a snapshot. -/
theorem dictSnapshot_eq (update : DictUpdate V) (source : Dict V) :
    dictSnapshot update source = .ok source.entries ↔
      ∀ index ∈ sliceIndices 0 1 source.cells.length,
        (update.apply source).readEntry index = source.readEntry index := by
  have hiff := dictSlice_eq update source (some 0) (some source.cells.length)
  have hspec := dictSliceSpec_snapshot source.entries
  rw [source.entries_length] at hspec
  rwa [hspec, source.sliceIndices_snapshot] at hiff

end Cwhip.Runtime
