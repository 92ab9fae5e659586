/-
  Cwhip.Runtime.Slices

  Slices of buffers, lists and dicts, and the snapshots `for each` takes, under
  whatever the finalizers of the slice's own allocation do to the receiver
  (`RuntimeGc.c`).

  The bounds are computed before the allocation and the elements are read after
  it, through the receiver's current block.  No block ever shrinks, so buffer
  and list slices stay inside it; the keys of removed dict entries are freed
  while the cells that pointed to them remain.
-/

import Cwhip.Runtime.StringOps

namespace Cwhip.Runtime

open Cwhip.Lib

/-! ## Bounds -/

/-- `normalize_slice_bound`; a bound that is not given is `none`. -/
def normalizeSliceBound (bound : Option Int) (length : Nat) (step : Int) (isStart : Bool) : Int :=
  match bound with
  | none =>
    if isStart then (if 0 < step then 0 else length - 1) else (if 0 < step then length else -1)
  | some bound =>
    let normalized := if bound < 0 then bound + length else bound
    if 0 < step then
      if normalized < 0 then 0 else if length < normalized then length else normalized
    else
      if normalized < -1 then -1 else if length ≤ normalized then length - 1 else normalized

theorem normalizeSliceBound_forward (bound : Option Int) (length : Nat) {step : Int}
    (hstep : 0 < step) (isStart : Bool) :
    0 ≤ normalizeSliceBound bound length step isStart ∧
      normalizeSliceBound bound length step isStart ≤ length := by
  cases bound with
  | none => cases isStart <;> simp [normalizeSliceBound, hstep]
  | some bound =>
    simp only [normalizeSliceBound, if_pos hstep]
    generalize (if bound < 0 then bound + (length : Int) else bound) = normalized
    constructor <;> grind

theorem normalizeSliceBound_backward (bound : Option Int) (length : Nat) {step : Int}
    (hstep : ¬ 0 < step) (isStart : Bool) :
    -1 ≤ normalizeSliceBound bound length step isStart ∧
      normalizeSliceBound bound length step isStart ≤ length - 1 := by
  cases bound with
  | none => cases isStart <;> simp [normalizeSliceBound, hstep] <;> omega
  | some bound =>
    simp only [normalizeSliceBound, if_neg hstep]
    generalize (if bound < 0 then bound + (length : Int) else bound) = normalized
    constructor <;> grind

/-- The number of elements `cwhip_array_slice_ex` allocates. -/
def sliceCount (first last step : Int) : Nat :=
  if 0 < step ∧ first < last then 1 + ((last - first).toNat - 1) / step.toNat
  else if step < 0 ∧ last < first then 1 + ((first - last).toNat - 1) / (-step).toNat
  else 0

/-- The indices its copying loop visits. -/
def sliceIndices (first step : Int) (count : Nat) : List Int :=
  (List.range count).map (fun turn : Nat => first + (turn : Int) * step)

theorem sliceIndices_range (start stop : Option Int) (length : Nat) (step : Int) :
    let first := normalizeSliceBound start length step true
    let last := normalizeSliceBound stop length step false
    ∀ index ∈ sliceIndices first step (sliceCount first last step), 0 ≤ index ∧ index < length := by
  intro first last index hindex
  simp only [sliceIndices, List.mem_map, List.mem_range] at hindex
  obtain ⟨turn, hturn, rfl⟩ := hindex
  unfold sliceCount at hturn
  split at hturn
  · -- forward: the last index visited lies before `last`
    rename_i hforward
    obtain ⟨hstep, hlt⟩ := hforward
    have hfirst := normalizeSliceBound_forward start length hstep true
    have hlast := normalizeSliceBound_forward stop length hstep false
    have hle : turn ≤ ((last - first).toNat - 1) / step.toNat := by omega
    have hmul : turn * step.toNat ≤ (last - first).toNat - 1 :=
      Nat.le_trans (Nat.mul_le_mul_right _ hle) (Nat.div_mul_le_self _ _)
    have hcast : (turn : Int) * step = ((turn * step.toNat : Nat) : Int) := by
      rw [Int.natCast_mul, Int.toNat_of_nonneg (Int.le_of_lt hstep)]
    rw [hcast]
    omega
  · split at hturn
    · -- backward
      rename_i hbackward
      obtain ⟨hstep, hlt⟩ := hbackward
      have hfirst := normalizeSliceBound_backward start length (by omega : ¬ 0 < step) true
      have hlast := normalizeSliceBound_backward stop length (by omega : ¬ 0 < step) false
      have hle : turn ≤ ((first - last).toNat - 1) / (-step).toNat := by omega
      have hmul : turn * (-step).toNat ≤ (first - last).toNat - 1 :=
        Nat.le_trans (Nat.mul_le_mul_right _ hle) (Nat.div_mul_le_self _ _)
      have hcast : (turn : Int) * step = -((turn * (-step).toNat : Nat) : Int) := by
        rw [Int.natCast_mul, Int.toNat_of_nonneg (by omega : 0 ≤ -step), Int.mul_neg, Int.neg_neg]
      rw [hcast]
      omega
    · omega

/-! ## Buffers and lists -/

/-- What the finalizers of one collection do to a buffer or list. -/
structure CellsUpdate (α : Type) where
  apply : GrowVec α → GrowVec α
  grows : ∀ v, v.capacity ≤ (apply v).capacity

/-- The length of a slice with step one. -/
def spanLength (first last : Int) : Nat := if first < last then (last - first).toNat else 0

theorem sliceCount_one (first last : Int) : sliceCount first last 1 = spanLength first last := by
  unfold sliceCount spanLength
  by_cases hlt : first < last
  · rw [if_pos ⟨by decide, hlt⟩, if_pos hlt, Int.toNat_one, Nat.div_one]
    omega
  · rw [if_neg (fun h => hlt h.2), if_neg (fun h => absurd h.1 (by decide)), if_neg hlt]

/-- `cwhip_buffer_slice_ex`: bounds, allocation, copy. -/
def bufferSlice (update : CellsUpdate UInt8) (source : GrowVec UInt8) (start stop : Option Int) :
    Except NativeFault Bytes :=
  let first := normalizeSliceBound start source.length 1 true
  let last := normalizeSliceBound stop source.length 1 false
  if spanLength first last = 0 then .ok []
  else readFault ((update.apply source).readCells first.toNat (spanLength first last))

def bufferSliceSpec (value : Bytes) (start stop : Option Int) : Bytes :=
  let first := normalizeSliceBound start value.length 1 true
  let last := normalizeSliceBound stop value.length 1 false
  (value.drop first.toNat).take (spanLength first last)

variable {α : Type}

/-- `cwhip_array_slice_ex`: bounds, allocation, copying loop. -/
def listSlice (update : CellsUpdate α) (source : GrowVec α) (start stop : Option Int) (step : Int) :
    Except NativeFault (List α) := do
  ensure (step ≠ 0) (.raises "list slice step cannot be zero")
  let first := normalizeSliceBound start source.length step true
  let last := normalizeSliceBound stop source.length step false
  let count := sliceCount first last step
  ensure (count ≤ int64Max) (.raises "list slice length exceeds int64 range")
  readFault ((sliceIndices first step count).mapM (update.apply source).readIndex)

def listSliceSpec (value : List α) (start stop : Option Int) (step : Int) :
    Except NativeFault (List α) := do
  ensure (step ≠ 0) (.raises "list slice step cannot be zero")
  let first := normalizeSliceBound start value.length step true
  let last := normalizeSliceBound stop value.length step false
  let count := sliceCount first last step
  ensure (count ≤ int64Max) (.raises "list slice length exceeds int64 range")
  return (sliceIndices first step count).filterMap (fun index => value[index.toNat]?)

/-- The cells in use still hold what they held, as far as `indices` go. -/
def CellsKept (v v' : GrowVec α) (indices : List Int) : Prop :=
  ∀ index ∈ indices, v'.cells[index.toNat]? = v.cells[index.toNat]?

def listSliceIndices (length : Nat) (start stop : Option Int) (step : Int) : List Int :=
  let first := normalizeSliceBound start length step true
  let last := normalizeSliceBound stop length step false
  sliceIndices first step (sliceCount first last step)

theorem spanLength_range (start stop : Option Int) (length : Nat) :
    let first := normalizeSliceBound start length 1 true
    let last := normalizeSliceBound stop length 1 false
    first.toNat + spanLength first last ≤ length ∨ spanLength first last = 0 := by
  intro first last
  have hfirst := normalizeSliceBound_forward start length (by decide : (0 : Int) < 1) true
  have hlast := normalizeSliceBound_forward stop length (by decide : (0 : Int) < 1) false
  unfold spanLength
  split
  · left
    omega
  · right
    rfl

/-- The cells a buffer slice copies still hold what they held. -/
def SpanKept (v v' : GrowVec α) (start stop : Option Int) : Prop :=
  let first := normalizeSliceBound start v.length 1 true
  let last := normalizeSliceBound stop v.length 1 false
  (v'.cells.drop first.toNat).take (spanLength first last)
    = (v.cells.drop first.toNat).take (spanLength first last)

theorem bufferSlice_reads (update : CellsUpdate UInt8) (source : GrowVec UInt8)
    (start stop : Option Int) :
    bufferSlice update source start stop
      = .ok (((update.apply source).cells.drop
          (normalizeSliceBound start source.length 1 true).toNat).take
        (spanLength (normalizeSliceBound start source.length 1 true)
          (normalizeSliceBound stop source.length 1 false))) := by
  unfold bufferSlice
  dsimp only
  split
  · rename_i hzero
    rw [hzero, List.take_zero]
  · rename_i hpos
    have hrange := (spanLength_range start stop source.length).resolve_right hpos
    rw [GrowVec.readCells_eq (update.grows source) hrange]
    rfl

theorem bufferSlice_eq (update : CellsUpdate UInt8) (source : GrowVec UInt8)
    (start stop : Option Int) :
    bufferSlice update source start stop = .ok (bufferSliceSpec source.value start stop) ↔
      SpanKept source (update.apply source) start stop := by
  rw [bufferSlice_reads, Except.ok.injEq]
  unfold bufferSliceSpec SpanKept
  rw [GrowVec.value_length]
  dsimp only
  rcases spanLength_range start stop source.length with hrange | hzero
  · rw [GrowVec.take_drop_cells hrange]
  · simp [hzero]

theorem filterMap_eq_iff {ι β : Type} {f g : ι → Option β} {indices : List ι}
    (hf : ∀ index ∈ indices, (f index).isSome) (hg : ∀ index ∈ indices, (g index).isSome) :
    indices.filterMap f = indices.filterMap g ↔ ∀ index ∈ indices, f index = g index := by
  induction indices with
  | nil => simp
  | cons index rest ih =>
    obtain ⟨x, hx⟩ := Option.isSome_iff_exists.mp (hf index (by simp))
    obtain ⟨y, hy⟩ := Option.isSome_iff_exists.mp (hg index (by simp))
    have hrest := ih (fun i hi => hf i (by simp [hi])) (fun i hi => hg i (by simp [hi]))
    rw [List.filterMap_cons_some hx, List.filterMap_cons_some hy, List.cons.injEq, hrest,
      List.forall_mem_cons, hx, hy, Option.some.injEq]

theorem getElem?_cells_isSome {v v' : GrowVec α} (hgrows : v.capacity ≤ v'.capacity) {index : Int}
    (hlow : 0 ≤ index) (hhigh : index < v.length) : (v'.cells[index.toNat]?).isSome := by
  obtain ⟨x, hx, _⟩ := GrowVec.readIndex_eq hgrows hlow hhigh
  rw [hx]
  rfl

theorem filterMap_value (v : GrowVec α) {indices : List Int}
    (hrange : ∀ index ∈ indices, 0 ≤ index ∧ index < v.length) :
    indices.filterMap (fun index => v.value[index.toNat]?)
      = indices.filterMap (fun index => v.cells[index.toNat]?) := by
  apply List.filterMap_congr
  intro index hindex
  obtain ⟨hlow, hhigh⟩ := hrange index hindex
  exact GrowVec.getElem?_value (by omega)

theorem listSlice_eq (update : CellsUpdate α) (source : GrowVec α) (start stop : Option Int)
    (step : Int) :
    listSlice update source start stop step = listSliceSpec source.value start stop step ↔
      ∀ result, listSliceSpec source.value start stop step = .ok result →
        CellsKept source (update.apply source)
          (listSliceIndices source.length start stop step) := by
  have hrange := sliceIndices_range start stop source.length step
  dsimp only at hrange
  unfold listSlice listSliceSpec listSliceIndices
  rw [GrowVec.value_length]
  dsimp only
  generalize sliceCount (normalizeSliceBound start source.length step true)
    (normalizeSliceBound stop source.length step false) step = count at *
  generalize sliceIndices (normalizeSliceBound start source.length step true) step count
    = indices at *
  by_cases hstep : step ≠ 0
  · by_cases hcount : count ≤ int64Max
    · have hread := GrowVec.mapM_readIndex (update.grows source) hrange
      have hiff := filterMap_eq_iff
        (fun index hindex => getElem?_cells_isSome (update.grows source) (hrange index hindex).1
          (hrange index hindex).2)
        (fun index hindex => getElem?_cells_isSome (Nat.le_refl source.capacity)
          (hrange index hindex).1 (hrange index hindex).2)
      simp only [ensure, if_pos hstep, if_pos hcount, bind, Except.bind, pure, Except.pure, hread,
        readFault, filterMap_value source hrange, Except.ok.injEq, forall_eq', CellsKept]
      exact hiff
    · simp [ensure, hstep, hcount, bind, Except.bind]
  · simp [ensure, hstep, bind, Except.bind]

/-- The cells are read after the collection, by the bounds from before it. -/
theorem listSlice_reads (update : CellsUpdate α) (source : GrowVec α) (start stop : Option Int)
    (step : Int) :
    listSlice update source start stop step =
      (listSliceSpec source.value start stop step).map fun _ =>
        (listSliceIndices source.length start stop step).filterMap fun index =>
          (update.apply source).cells[index.toNat]? := by
  have hrange := sliceIndices_range start stop source.length step
  dsimp only at hrange
  have hread := GrowVec.mapM_readIndex (update.grows source) hrange
  unfold listSlice listSliceSpec listSliceIndices
  rw [GrowVec.value_length]
  by_cases hstep : step ≠ 0
  · rw [ensure_bind hstep, ensure_bind hstep]
    dsimp only
    by_cases hcount : sliceCount (normalizeSliceBound start source.length step true)
        (normalizeSliceBound stop source.length step false) step ≤ int64Max
    · rw [ensure_bind hcount, ensure_bind hcount, hread]
      rfl
    · rw [ensure_bind_error hcount, ensure_bind_error hcount]
      rfl
  · rw [ensure_bind_error hstep, ensure_bind_error hstep]
    rfl

/-! ## Snapshots -/

theorem normalizeSliceBound_zero (length : Nat) :
    normalizeSliceBound (some 0) length 1 true = 0 := by
  have hnonneg : ¬ (length : Int) < 0 := by omega
  simp [normalizeSliceBound, hnonneg]

theorem normalizeSliceBound_length (length : Nat) :
    normalizeSliceBound (some length) length 1 false = length := by
  have hnonneg : ¬ (length : Int) < 0 := by omega
  simp [normalizeSliceBound, hnonneg]

theorem spanLength_zero (length : Nat) : spanLength 0 length = length := by
  unfold spanLength
  split <;> omega

theorem listSliceIndices_snapshot (length : Nat) :
    listSliceIndices length (some 0) (some length) 1 = sliceIndices 0 1 length := by
  unfold listSliceIndices
  rw [normalizeSliceBound_zero, normalizeSliceBound_length]
  dsimp only
  rw [sliceCount_one, spanLength_zero]

/-- The snapshot `for each` takes of a list: a slice from 0 to its length. -/
def listSnapshot (update : CellsUpdate α) (source : GrowVec α) : Except NativeFault (List α) :=
  listSlice update source (some 0) (some source.length) 1

theorem filterMap_range (value : List α) (count : Nat) :
    (List.range count).filterMap (fun index => value[index]?) = value.take count := by
  induction count with
  | zero => rfl
  | succ count ih =>
    rw [List.range_succ, List.filterMap_append, ih, List.take_add_one]
    cases hlast : value[count]? with
    | none => rw [List.filterMap_cons_none hlast]; rfl
    | some x => rw [List.filterMap_cons_some hlast]; rfl

theorem filterMap_sliceIndices (value : List α) (count : Nat) :
    (sliceIndices 0 1 count).filterMap (fun index => value[index.toNat]?) = value.take count := by
  have hcells : (sliceIndices 0 1 count).filterMap (fun index => value[index.toNat]?)
      = (List.range count).filterMap (fun index => value[index]?) := by
    rw [sliceIndices, List.filterMap_map]
    apply List.filterMap_congr
    intro index _
    simp
  rw [hcells, filterMap_range]

theorem listSliceSpec_snapshot {value : List α} (hlength : value.length ≤ int64Max) :
    listSliceSpec value (some 0) (some value.length) 1 = .ok value := by
  unfold listSliceSpec
  rw [normalizeSliceBound_zero, normalizeSliceBound_length]
  simp only [sliceCount_one, spanLength_zero, filterMap_sliceIndices, List.take_length]
  simp [ensure, hlength, bind, Except.bind, pure, Except.pure]

theorem listSnapshot_eq (update : CellsUpdate α) {source : GrowVec α}
    (hlength : source.length ≤ int64Max) :
    listSnapshot update source = .ok source.value ↔
      CellsKept source (update.apply source) (sliceIndices 0 1 source.length) := by
  have hiff := listSlice_eq update source (some 0) (some source.length) 1
  have hspec := listSliceSpec_snapshot (source.value_length.symm ▸ hlength)
  rw [GrowVec.value_length] at hspec
  rw [hspec, listSliceIndices_snapshot] at hiff
  unfold listSnapshot
  rw [hiff]
  simp

end Cwhip.Runtime
