/-
  Cwhip.Runtime.SliceArithmetic

  `normalize_slice_bound`, `cwhip_buffer_slice_ex`, `cwhip_map_slice_ex` and
  `cwhip_array_slice_ex` (`RuntimeGc.c`) with their 64-bit arithmetic: every
  signed result is checked, so a run in which one overflows ends in `overflow`.

  The bounds come with the flags the generated code passes; a bound that was
  omitted is passed as 0 and never looked at.
-/

import Cwhip.Lib.MachineInt
import Cwhip.Runtime.DictSound
import Mathlib.Tactic.Ring

namespace Cwhip.Runtime

open Cwhip.Lib

/-- How a slice can end other than by returning. -/
inductive SliceFault where
  /-- A signed computation leaves the 64-bit range. -/
  | overflow
  /-- Its copying loop does not end. -/
  | endless
  | native (fault : NativeFault)
  | map (fault : MapFault)
  deriving DecidableEq, Repr

def nativeFault {α : Type} : Except NativeFault α → Except SliceFault α
  | .ok a => .ok a
  | .error fault => .error (.native fault)

def mapFault {α : Type} : Except MapFault α → Except SliceFault α
  | .ok a => .ok a
  | .error fault => .error (.map fault)

def int64 (x : Int) : Except SliceFault Int := signed .overflow x

/-- A list or buffer as the runtime leaves it: each operation that sets a
    length refuses one above `INT64_MAX`. -/
structure BoundedCells (α : Type) extends GrowVec α where
  bounded : length ≤ int64Max

/-! ## Bounds -/

def countFromEnd64 (bound : Int64) (length : Nat) : Except SliceFault Int :=
  if bound.toInt < 0 then int64 (bound.toInt + asSigned length) else .ok bound.toInt

/-- `normalize_slice_bound`. -/
def normalizeSliceBound64 (bound : Int64) (length : Nat) (step : Int) (isStart hasBound : Bool) :
    Except SliceFault Int := do
  if hasBound = false then
    if isStart then
      if 0 < step then return 0 else int64 (asSigned length - 1)
    else
      return if 0 < step then asSigned length else -1
  else
    let normalized ← countFromEnd64 bound length
    if 0 < step then
      if normalized < 0 then return 0
      else if length < unsigned normalized then return asSigned length
      else return normalized
    else
      if normalized < -1 then return -1
      else if asSigned length ≤ normalized then int64 (asSigned length - 1)
      else return normalized

/-- A bound as the source has it: a value, or omitted. -/
def boundOf (bound : Int64) (hasBound : Bool) : Option Int :=
  if hasBound then some bound.toInt else none

theorem normalizeSliceBound64_eq (bound : Int64) {length : Nat} (hlength : length ≤ int64Max)
    (step : Int) (isStart hasBound : Bool) :
    normalizeSliceBound64 bound length step isStart hasBound
      = .ok (normalizeSliceBound (boundOf bound hasBound) length step isStart) := by
  have hlow := bound.le_toInt
  have hhigh := bound.toInt_lt
  unfold int64Max at hlength
  have hsigned : asSigned length = (length : Int) := asSigned_of_lt (by omega)
  have hlast : int64 ((length : Int) - 1) = .ok ((length : Int) - 1) :=
    signed_of_fits _ ⟨by omega, by omega⟩
  have hcount : countFromEnd64 bound length
      = .ok (if bound.toInt < 0 then bound.toInt + (length : Int) else bound.toInt) := by
    unfold countFromEnd64
    rw [hsigned]
    split
    · -- the sum of a negative bound and a length that fits
      exact signed_of_fits _ ⟨by omega, by omega⟩
    · rfl
  unfold normalizeSliceBound64
  rw [hsigned, hcount]
  cases hasBound with
  | false =>
    simp only [boundOf, if_true, normalizeSliceBound]
    cases isStart with
    | false => simp [pure, Except.pure]
    | true =>
      simp only [if_true, hlast]
      split <;> rfl
  | true =>
    simp only [boundOf, if_true, normalizeSliceBound, Bool.true_eq_false, if_false, bind,
      Except.bind]
    generalize hnormalized : (if bound.toInt < 0 then bound.toInt + (length : Int)
      else bound.toInt) = normalized
    have hrange : normalized < 2 ^ 63 := by
      split at hnormalized <;> omega
    rw [hlast]
    by_cases hstep : 0 < step
    · simp only [if_pos hstep]
      by_cases hneg : normalized < 0
      · simp only [if_pos hneg]
        rfl
      · -- compared with the length as an unsigned number
        have hunsigned : length < unsigned normalized ↔ (length : Int) < normalized := by
          have hcast := unsigned_of_nonneg (x := normalized) (by omega) (by omega)
          omega
        simp only [if_neg hneg, hunsigned]
        split <;> rfl
    · simp only [if_neg hstep]
      split
      · rfl
      · split <;> rfl

/-! ## Lengths -/

def spanLength64 (first last : Int) : Except SliceFault Nat :=
  if first < last then (int64 (last - first)).map unsigned else .ok 0

/-- `stride` for a negative step: `(uint64_t)(-(step + 1)) + 1`. -/
def backwardStride (step : Int) : Except SliceFault Nat := do
  let successor ← int64 (step + 1)
  let opposite ← int64 (-successor)
  return unsigned (unsigned opposite + 1)

/-- `1 + (distance - 1) / stride` in `uint64_t`. -/
def strideCount (distance stride : Nat) : Nat :=
  unsigned (1 + (unsigned ((distance : Int) - 1) / stride : Nat))

/-- The length `cwhip_array_slice_ex` computes. -/
def sliceLength64 (first last step : Int) : Except SliceFault Nat :=
  if 0 < step ∧ first < last then do
    let distance ← int64 (last - first)
    return strideCount (unsigned distance) (unsigned step)
  else if step < 0 ∧ last < first then do
    let distance ← int64 (first - last)
    let stride ← backwardStride step
    return strideCount (unsigned distance) stride
  else
    .ok 0

theorem spanLength64_eq {first last : Int} (hfirst : 0 ≤ first) (hlast : last < 2 ^ 63) :
    spanLength64 first last = .ok (spanLength first last) := by
  unfold spanLength64 spanLength
  split
  · have hdistance : int64 (last - first) = .ok (last - first) :=
      signed_of_fits _ ⟨by omega, by omega⟩
    have hunsigned : unsigned (last - first) = (last - first).toNat := by
      have hcast := unsigned_of_nonneg (x := last - first) (by omega) (by omega)
      omega
    rw [hdistance, ← hunsigned]
    rfl
  · rfl

theorem strideCount_eq {distance : Nat} (hpos : 0 < distance) (hlt : distance < 2 ^ 64)
    (stride : Nat) : strideCount distance stride = 1 + (distance - 1) / stride := by
  unfold strideCount
  have hpred : unsigned ((distance : Int) - 1) = distance - 1 := by
    have hcast := unsigned_of_nonneg (x := (distance : Int) - 1) (by omega) (by omega)
    omega
  have hle : (distance - 1) / stride ≤ distance - 1 := Nat.div_le_self _ _
  rw [hpred]
  generalize (distance - 1) / stride = quotient at hle ⊢
  have hcast := unsigned_of_nonneg (x := 1 + (quotient : Int)) (by omega) (by omega)
  omega

theorem backwardStride_eq {step : Int} (hlow : -2 ^ 63 ≤ step) (hneg : step < 0) :
    backwardStride step = .ok (-step).toNat := by
  unfold backwardStride
  have hsuccessor : int64 (step + 1) = .ok (step + 1) := signed_of_fits _ ⟨by omega, by omega⟩
  have hopposite : int64 (-(step + 1)) = .ok (-(step + 1)) :=
    signed_of_fits _ ⟨by omega, by omega⟩
  have hunsigned := unsigned_of_nonneg (x := -(step + 1)) (by omega) (by omega)
  have hstride := unsigned_of_nonneg (x := (unsigned (-(step + 1)) : Int) + 1) (by omega) (by omega)
  rw [hsuccessor]
  simp only [bind, Except.bind, hopposite, pure, Except.pure, Except.ok.injEq]
  omega

theorem sliceLength64_eq {first last : Int} (step : Int64)
    (hfirst : -1 ≤ first ∧ first < 2 ^ 63) (hlast : -1 ≤ last ∧ last < 2 ^ 63)
    (hforward : 0 < step.toInt → 0 ≤ first) (hbackward : step.toInt < 0 → first < 2 ^ 63 - 1) :
    sliceLength64 first last step.toInt = .ok (sliceCount first last step.toInt) := by
  have hlow := step.le_toInt
  have hhigh := step.toInt_lt
  unfold sliceLength64 sliceCount
  split
  · rename_i hcase
    have hnonneg := hforward hcase.1
    have hdistance : int64 (last - first) = .ok (last - first) :=
      signed_of_fits _ ⟨by omega, by omega⟩
    have hlength := unsigned_of_nonneg (x := last - first) (by omega) (by omega)
    have hstride := unsigned_of_nonneg (x := step.toInt) (by omega) (by omega)
    have hlengthNat : unsigned (last - first) = (last - first).toNat := by omega
    have hstrideNat : unsigned step.toInt = step.toInt.toNat := by omega
    rw [hdistance]
    simp only [bind, Except.bind, pure, Except.pure]
    rw [hlengthNat, hstrideNat, strideCount_eq (by omega) (by omega)]
  · split
    · rename_i hcase
      have hless := hbackward hcase.1
      have hdistance : int64 (first - last) = .ok (first - last) :=
        signed_of_fits _ ⟨by omega, by omega⟩
      have hlength := unsigned_of_nonneg (x := first - last) (by omega) (by omega)
      have hlengthNat : unsigned (first - last) = (first - last).toNat := by omega
      rw [hdistance]
      simp only [bind, Except.bind, pure, Except.pure, backwardStride_eq hlow hcase.1]
      rw [hlengthNat, strideCount_eq (by omega) (by omega)]
    · rfl

/-! ## Copying -/

/-- `index += step`, left out after the last element. -/
def advance64 (copied length : Nat) (index step : Int) : Except SliceFault Int :=
  if copied < length then int64 (index + step) else .ok index

/-- The loop of `cwhip_array_slice_ex`: what was copied, and the next index. -/
def copyCells64 {α : Type} (source : GrowVec α) (length : Nat) (step : Int) :
    Nat → List α → Int → Except SliceFault (List α)
  | 0, _, _ => .error .endless
  | fuel + 1, copied, index =>
    if copied.length < length then do
      let value ← nativeFault (readFault (source.readIndex index))
      let next ← advance64 (copied.length + 1) length index step
      copyCells64 source length step fuel (copied ++ [value]) next
    else
      .ok copied

theorem sliceIndices_succ (first step : Int) (count : Nat) :
    sliceIndices first step (count + 1) = sliceIndices first step count ++
    [first + count * step] := by
  simp [sliceIndices, List.range_succ]

theorem sliceIndices_cons (first step : Int) (count : Nat) :
    sliceIndices first step (count + 1) = first :: sliceIndices (first + step) step count := by
  simp only [sliceIndices, List.range_succ_eq_map, List.map_cons, List.map_map]
  congr 1
  · simp
  · apply List.map_congr_left
    intro turn _
    show first + ((turn + 1 : Nat) : Int) * step = first + step + (turn : Int) * step
    push_cast
    ring

theorem copyCells64_eq {α : Type} {source : GrowVec α} {first step : Int} {length : Nat}
    (hread : ∀ turn < length, ∃ value, source.readIndex (first + (turn : Int) * step) = .ok value)
    (hfits : ∀ turn < length, FitsSigned (first + (turn : Int) * step)) (fuel : Nat) :
    ∀ (copied : List α) (index : Int), copied.length ≤ length → length - copied.length < fuel →
      (copied.length < length → index = first + (copied.length : Int) * step) →
      (sliceIndices first step copied.length).mapM source.readIndex = .ok copied →
      ∃ values, copyCells64 source length step fuel copied index = .ok values ∧
        (sliceIndices first step length).mapM source.readIndex = .ok values := by
  induction fuel with
  | zero =>
    intro copied index hle hfuel
    omega
  | succ fuel ih =>
    intro copied index hle hfuel hindex hcopied
    unfold copyCells64
    by_cases hmore : copied.length < length
    · obtain ⟨value, hvalue⟩ := hread copied.length hmore
      have hnext : (sliceIndices first step (copied ++ [value]).length).mapM source.readIndex
          = .ok (copied ++ [value]) := by
        rw [List.length_append, List.length_singleton, sliceIndices_succ, List.mapM_append, hcopied]
        simp only [bind, Except.bind, List.mapM_cons, List.mapM_nil, hvalue, pure, Except.pure]
      rw [if_pos hmore, hindex hmore, hvalue]
      simp only [readFault, nativeFault, bind, Except.bind, advance64]
      have hlength : (copied ++ [value]).length = copied.length + 1 := by simp
      by_cases hlast : copied.length + 1 < length
      · have hstep : first + (copied.length : Int) * step + step
            = first + ((copied.length + 1 : Nat) : Int) * step := by
          push_cast
          ring
        have hsum : int64 (first + (copied.length : Int) * step + step)
            = .ok (first + ((copied.length + 1 : Nat) : Int) * step) := by
          rw [hstep]
          exact signed_of_fits _ (hfits _ hlast)
        rw [if_pos hlast, hsum]
        apply ih _ _ (by omega) (by omega) ?_ hnext
        intro _
        rw [hlength]
      · rw [if_neg hlast]
        apply ih _ _ (by omega) (by omega) ?_ hnext
        intro hless
        omega
    · have hdone : copied.length = length := by omega
      rw [if_neg hmore, ← hdone]
      exact ⟨copied, rfl, hcopied⟩

/-- `cwhip_array_slice_ex`. -/
def listSliceEx {α : Type} (update : CellsUpdate α) (source : BoundedCells α)
    (start stop step : Int64) (hasStart hasEnd : Bool) : Except SliceFault (List α) := do
  ensure (step.toInt ≠ 0) (.native (.raises "list slice step cannot be zero"))
  let first ← normalizeSliceBound64 start source.length step.toInt true hasStart
  let last ← normalizeSliceBound64 stop source.length step.toInt false hasEnd
  let length ← sliceLength64 first last step.toInt
  ensure (length ≤ int64Max) (.native (.raises "list slice length exceeds int64 range"))
  copyCells64 (update.apply source.toGrowVec) length step.toInt (length + 1) [] first

/-- `cwhip_buffer_slice_ex`. -/
def bufferSliceEx (update : CellsUpdate UInt8) (source : BoundedCells UInt8) (start stop : Int64)
    (hasStart hasEnd : Bool) : Except SliceFault Bytes := do
  let first ← normalizeSliceBound64 start source.length 1 true hasStart
  let last ← normalizeSliceBound64 stop source.length 1 false hasEnd
  let length ← spanLength64 first last
  if length ≠ 0 then
    nativeFault (readFault ((update.apply source.toGrowVec).readCells first.toNat length))
  else
    return []

variable {V : Type}

/-- The loop of `cwhip_map_slice_ex`. -/
def copyEntries64 (source : CwhipMap V) (last : Int) :
    Nat → CwhipMap V → Int → Except SliceFault (CwhipMap V)
  | 0, _, _ => .error .endless
  | fuel + 1, copy, index =>
    if index < last then do
      let copy ← mapFault (source.copyEntry copy index)
      let index ← int64 (index + 1)
      copyEntries64 source last fuel copy index
    else
      .ok copy

theorem copyEntries64_eq (source : CwhipMap V) {last : Int} (hlast : last < 2 ^ 63) (count : Nat) :
    ∀ (copy : CwhipMap V) (index : Int), 0 ≤ index → index + count = last →
      copyEntries64 source last (count + 1) copy index
        = mapFault ((sliceIndices index 1 count).foldlM source.copyEntry copy) := by
  induction count with
  | zero =>
    intro copy index _ hcount
    have hdone : ¬ index < last := by omega
    rw [copyEntries64, if_neg hdone]
    rfl
  | succ count ih =>
    intro copy index hindex hcount
    have hmore : index < last := by omega
    have hsum : int64 (index + 1) = .ok (index + 1) := signed_of_fits _ ⟨by omega, by omega⟩
    rw [copyEntries64, if_pos hmore, sliceIndices_cons, List.foldlM_cons]
    cases source.copyEntry copy index with
    | error fault => rfl
    | ok copy' =>
      simp only [mapFault, bind, Except.bind, hsum]
      exact ih copy' (index + 1) (by omega) (by omega)

/-- `cwhip_map_slice_ex`, on a dict that no finalizer changes. -/
def dictSliceEx (source : CwhipMap V) (start stop : Int64) (hasStart hasEnd : Bool) :
    Except SliceFault (CwhipMap V) := do
  let first ← normalizeSliceBound64 start source.entries.length 1 true hasStart
  let last ← normalizeSliceBound64 stop source.entries.length 1 false hasEnd
  copyEntries64 source last (spanLength first last + 1) CwhipMap.empty first

end Cwhip.Runtime
