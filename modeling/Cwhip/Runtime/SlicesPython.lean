/-
  Cwhip.Runtime.SlicesPython

  The slices of lists, buffers and dicts select what the same slice selects in
  Python, compute nothing that overflows, and read only cells in use.

  The order is: bounds are Python's bounds, the counted indices are Python's
  range, and the loops visit the counted indices.
-/

import Cwhip.Lib.PythonSlice
import Cwhip.Runtime.SliceArithmetic

namespace Cwhip.Runtime

open Cwhip.Lib

/-! ## Bounds -/

theorem normalizeSliceBound_start (start : Option Int) (length : Nat) {step : Int}
    (hstep : step ≠ 0) :
    normalizeSliceBound start length step true = pythonStart start length step := by
  cases start with
  | none =>
    simp only [normalizeSliceBound, pythonStart, pythonLower, pythonUpper, if_true]
    split <;> split <;> omega
  | some bound =>
    simp only [normalizeSliceBound, pythonStart, pythonClamp, pythonLower, pythonUpper]
    generalize (if bound < 0 then bound + (length : Int) else bound) = normalized
    grind

theorem normalizeSliceBound_stop (stop : Option Int) (length : Nat) {step : Int}
    (hstep : step ≠ 0) :
    normalizeSliceBound stop length step false = pythonStop stop length step := by
  cases stop with
  | none =>
    simp only [normalizeSliceBound, pythonStop, pythonLower, pythonUpper, Bool.false_eq_true,
      if_false]
    split <;> split <;> omega
  | some bound =>
    simp only [normalizeSliceBound, pythonStop, pythonClamp, pythonLower, pythonUpper]
    generalize (if bound < 0 then bound + (length : Int) else bound) = normalized
    grind

/-! ## Indices -/

theorem strides_succ {distance stride : Nat} (hdistance : 0 < distance) (hstride : 0 < stride) :
    1 + (distance - 1) / stride
      = if stride < distance then 1 + (1 + (distance - stride - 1) / stride) else 1 := by
  split
  · have hsub : distance - 1 = distance - stride - 1 + stride := by omega
    rw [hsub, Nat.add_div_right _ hstride]
    omega
  · rw [Nat.div_eq_of_lt (by omega)]

theorem sliceCount_succ {first last step : Int}
    (h : 0 < step ∧ first < last ∨ step < 0 ∧ last < first) :
    sliceCount first last step = sliceCount (first + step) last step + 1 := by
  unfold sliceCount
  rcases h with ⟨hstep, hlt⟩ | ⟨hstep, hlt⟩
  · have hone := @strides_succ (last - first).toNat step.toNat (by omega) (by omega)
    have hrest : (last - (first + step)).toNat = (last - first).toNat - step.toNat := by omega
    rw [if_pos ⟨hstep, hlt⟩, hone, hrest]
    by_cases hmore : first + step < last
    · rw [if_pos (by omega), if_pos ⟨hstep, hmore⟩]
      omega
    · rw [if_neg (by omega), if_neg (by omega), if_neg (by omega)]
  · have hone := @strides_succ (first - last).toNat (-step).toNat (by omega) (by omega)
    have hrest : (first + step - last).toNat = (first - last).toNat - (-step).toNat := by omega
    rw [if_neg (by omega), if_pos ⟨hstep, hlt⟩, hone, hrest]
    by_cases hmore : last < first + step
    · rw [if_pos (by omega), if_neg (by omega), if_pos ⟨hstep, hmore⟩]
      omega
    · rw [if_neg (by omega), if_neg (by omega), if_neg (by omega)]

theorem sliceIndices_eq_range (first last step : Int) :
    sliceIndices first step (sliceCount first last step) = pythonRange first last step := by
  fun_induction pythonRange first last step with
  | case1 first hmore ih =>
    rw [sliceCount_succ hmore, sliceIndices_cons, ih]
  | case2 first hdone =>
    have hzero : sliceCount first last step = 0 := by
      unfold sliceCount
      rw [if_neg (by omega), if_neg (by omega)]
    rw [hzero]
    rfl

theorem listSliceIndices_eq (length : Nat) (start stop : Option Int) {step : Int}
    (hstep : step ≠ 0) :
    listSliceIndices length start stop step = pythonIndices start stop step length := by
  unfold listSliceIndices pythonIndices
  rw [normalizeSliceBound_start start length hstep, normalizeSliceBound_stop stop length hstep]
  exact sliceIndices_eq_range _ _ _

theorem pythonIndices_range {start stop : Option Int} {step : Int} (hstep : step ≠ 0) {length : Nat}
    {index : Int} (h : index ∈ pythonIndices start stop step length) :
    0 ≤ index ∧ index < length := by
  rw [← listSliceIndices_eq length start stop hstep] at h
  exact sliceIndices_range start stop length step index h

theorem normalizeSliceBound_between (bound : Option Int) (length : Nat) (step : Int)
    (isStart : Bool) :
    -1 ≤ normalizeSliceBound bound length step isStart ∧
      normalizeSliceBound bound length step isStart ≤ length := by
  by_cases hstep : 0 < step
  · have hforward := normalizeSliceBound_forward bound length hstep isStart
    omega
  · have hbackward := normalizeSliceBound_backward bound length hstep isStart
    omega

theorem sliceCount_le (start stop : Option Int) (length : Nat) (step : Int) :
    sliceCount (normalizeSliceBound start length step true)
      (normalizeSliceBound stop length step false) step ≤ length := by
  unfold sliceCount
  split
  · rename_i hcase
    have hfirst := normalizeSliceBound_forward start length hcase.1 true
    have hlast := normalizeSliceBound_forward stop length hcase.1 false
    have hle := Nat.div_le_self
      ((normalizeSliceBound stop length step false
        - normalizeSliceBound start length step true).toNat - 1) step.toNat
    omega
  · split
    · rename_i hcase
      have hback : ¬ 0 < step := by omega
      have hfirst := normalizeSliceBound_backward start length hback true
      have hlast := normalizeSliceBound_backward stop length hback false
      have hle := Nat.div_le_self
        ((normalizeSliceBound start length step true
          - normalizeSliceBound stop length step false).toNat - 1) (-step).toNat
      omega
    · exact Nat.zero_le _

/-! ## Elements -/

/-- The elements of a sequence at these indices, all of them and in order. -/
def Selects {α : Type} (result sequence : List α) (indices : List Int) : Prop :=
  result.map some = indices.map fun index => sequence[index.toNat]?

theorem readIndex_some {α : Type} {v : GrowVec α} {index : Int} {value : α}
    (h : v.readIndex index = .ok value) : some value = v.cells[index.toNat]? := by
  unfold GrowVec.readIndex at h
  split at h
  · split at h
    · rename_i hcell
      cases h
      exact hcell.symm
    · cases h
  · cases h

theorem selects_take_drop {α : Type} {sequence : List α} {first count : Nat}
    (h : first + count ≤ sequence.length) :
    Selects ((sequence.drop first).take count) sequence (sliceIndices first 1 count) := by
  unfold Selects
  induction count with
  | zero => rfl
  | succ count ih =>
    have hlt : first + count < sequence.length := by omega
    have htake : (sequence.drop first).take (count + 1)
        = (sequence.drop first).take count ++ [sequence[first + count]] := by
      rw [List.take_add_one, List.getElem?_drop, List.getElem?_eq_getElem hlt]
      rfl
    have hindex : ((first : Int) + (count : Int) * 1).toNat = first + count := by omega
    rw [htake, sliceIndices_succ, List.map_append, List.map_append, ih (by omega)]
    simp only [List.map_cons, List.map_nil, hindex, List.getElem?_eq_getElem hlt]

theorem Selects.of_cells {α : Type} {v v' : GrowVec α} {indices : List Int} {result : List α}
    (hrange : ∀ index ∈ indices, 0 ≤ index ∧ index < v.length)
    (h : Selects result v'.cells indices) (hkept : CellsKept v v' indices) :
    Selects result v.value indices := by
  unfold Selects at h ⊢
  rw [h]
  apply List.map_congr_left
  intro index hindex
  have hlt := hrange index hindex
  rw [hkept index hindex, GrowVec.getElem?_value (by omega)]

theorem listSliceEx_selects {α : Type} (update : CellsUpdate α) (source : BoundedCells α)
    (start stop step : Int64) (hstep : step.toInt ≠ 0) (hasStart hasEnd : Bool) :
    ∃ result, listSliceEx update source start stop step hasStart hasEnd = .ok result ∧
      Selects result (update.apply source.toGrowVec).cells
        (pythonIndices (boundOf start hasStart)
        (boundOf stop hasEnd) step.toInt source.length) := by
  have hbounded := source.bounded
  have hcount := sliceCount_le (boundOf start hasStart)
    (boundOf stop hasEnd) source.length step.toInt
  have hrange := sliceIndices_range (boundOf start hasStart) (boundOf stop hasEnd) source.length
    step.toInt
  have hindices := listSliceIndices_eq source.length (boundOf start hasStart)
    (boundOf stop hasEnd) hstep
  have hfirst := normalizeSliceBound_between (boundOf start hasStart) source.length step.toInt true
  have hlast := normalizeSliceBound_between (boundOf stop hasEnd) source.length step.toInt false
  have hforward := fun h : 0 < step.toInt =>
    normalizeSliceBound_forward (boundOf start hasStart) source.length h true
  have hbackward := fun h : ¬ 0 < step.toInt =>
    normalizeSliceBound_backward (boundOf start hasStart) source.length h true
  unfold int64Max at hbounded
  unfold listSliceIndices at hindices
  dsimp only at hindices hrange
  unfold listSliceEx
  rw [ensure_bind hstep, normalizeSliceBound64_eq start source.bounded,
    normalizeSliceBound64_eq stop source.bounded]
  generalize normalizeSliceBound (boundOf start hasStart) source.length step.toInt true = first at *
  generalize normalizeSliceBound (boundOf stop hasEnd) source.length step.toInt false = last at *
  have hlength : sliceLength64 first last step.toInt = .ok (sliceCount first last step.toInt) := by
    apply sliceLength64_eq step (by omega) (by omega)
    · exact fun h => (hforward h).1
    · intro h
      have := hbackward (by omega)
      omega
  simp only [bind, Except.bind, hlength, ensure]
  rw [if_pos (Nat.le_trans hcount source.bounded), ← hindices]
  -- every index of the loop is an index of the source
  have hturn : ∀ turn < sliceCount first last step.toInt,
      0 ≤ first + (turn : Int) * step.toInt ∧ first + (turn : Int) * step.toInt < source.length :=
    fun turn h => hrange _ (List.mem_map.mpr ⟨turn, List.mem_range.mpr h, rfl⟩)
  obtain ⟨values, hvalues, hread⟩ := @copyCells64_eq α (update.apply source.toGrowVec) first
    step.toInt (sliceCount first last step.toInt)
    (fun turn h => by
      obtain ⟨value, _, hvalue⟩ := GrowVec.readIndex_eq (update.grows source.toGrowVec)
        (hturn turn h).1 (hturn turn h).2
      exact ⟨value, hvalue⟩)
    (fun turn h => by
      have := hturn turn h
      exact ⟨by omega, by omega⟩)
    (sliceCount first last step.toInt + 1) [] first (Nat.zero_le _) (by simp) (by simp) rfl
  exact ⟨values, hvalues, mapM_map_eq hread fun _ _ h => readIndex_some h⟩

theorem spanIndices_eq (length : Nat) (start stop : Option Int) :
    sliceIndices (normalizeSliceBound start length 1 true) 1
        (spanLength (normalizeSliceBound start length 1 true)
          (normalizeSliceBound stop length 1 false))
      = pythonIndices start stop 1 length := by
  rw [← sliceCount_one]
  exact listSliceIndices_eq length start stop (by decide)

theorem selects_span {α : Type} {sequence : List α} {length : Nat}
    (hlength : length ≤ sequence.length)
    (start stop : Option Int) :
    Selects
      ((sequence.drop (normalizeSliceBound start length 1 true).toNat).take
        (spanLength (normalizeSliceBound start length 1 true)
          (normalizeSliceBound stop length 1 false)))
      sequence (pythonIndices start stop 1 length) := by
  have hfirst := normalizeSliceBound_forward start length (by decide : (0 : Int) < 1) true
  rw [← spanIndices_eq]
  rcases spanLength_range start stop length with hrange | hzero
  · have hselects := @selects_take_drop α sequence _ _ (Nat.le_trans hrange hlength)
    rwa [Int.toNat_of_nonneg hfirst.1] at hselects
  · rw [hzero, List.take_zero]
    rfl

theorem bufferSliceEx_selects (update : CellsUpdate UInt8) (source : BoundedCells UInt8)
    (start stop : Int64) (hasStart hasEnd : Bool) :
    ∃ result, bufferSliceEx update source start stop hasStart hasEnd = .ok result ∧
      Selects result (update.apply source.toGrowVec).cells
        (pythonIndices (boundOf start hasStart) (boundOf stop hasEnd) 1 source.length) := by
  have hbounded := source.bounded
  have hgrows := update.grows source.toGrowVec
  have hfits := source.fits
  have hfirst := normalizeSliceBound_forward (boundOf start hasStart) source.length
    (by decide : (0 : Int) < 1) true
  have hlast := normalizeSliceBound_forward (boundOf stop hasEnd) source.length
    (by decide : (0 : Int) < 1) false
  have hrange := spanLength_range (boundOf start hasStart) (boundOf stop hasEnd) source.length
  have hselects := selects_span (Nat.le_trans hfits hgrows : source.length ≤
    (update.apply source.toGrowVec).cells.length)
    (boundOf start hasStart) (boundOf stop hasEnd)
  unfold int64Max at hbounded
  dsimp only at hrange
  unfold bufferSliceEx
  rw [normalizeSliceBound64_eq start source.bounded, normalizeSliceBound64_eq stop source.bounded]
  generalize normalizeSliceBound (boundOf start hasStart) source.length 1 true = first at *
  generalize normalizeSliceBound (boundOf stop hasEnd) source.length 1 false = last at *
  have hspan := @spanLength64_eq first last (by omega) (by omega)
  refine ⟨_, ?_, hselects⟩
  simp only [bind, Except.bind, hspan]
  by_cases hzero : spanLength first last = 0
  · rw [if_neg (by omega), hzero, List.take_zero]
    rfl
  · rw [if_pos hzero, GrowVec.readCells_eq hgrows (hrange.resolve_right hzero)]
    rfl

theorem dictSliceEx_selects {V : Type} {source : CwhipMap V} (h : source.Indexed)
    (start stop : Int64) (hasStart hasEnd : Bool) :
    ∃ result, dictSliceEx source start stop hasStart hasEnd = .ok result ∧ result.Indexed ∧
      Selects result.value source.value
        (pythonIndices (boundOf start hasStart) (boundOf stop hasEnd) 1 source.entries.length) := by
  have hlimit := h.length_le
  have hbounded : source.entries.length ≤ int64Max := Nat.le_trans hlimit (by decide)
  obtain ⟨result, hresult, hindexed, hvalue⟩ :=
    CwhipMap.slice_eq h (boundOf start hasStart) (boundOf stop hasEnd)
  have hselects := selects_span (Nat.le_of_eq source.value_length.symm)
    (boundOf start hasStart) (boundOf stop hasEnd)
  have hfirst := normalizeSliceBound_forward (boundOf start hasStart) source.entries.length
    (by decide : (0 : Int) < 1) true
  have hlast := normalizeSliceBound_forward (boundOf stop hasEnd) source.entries.length
    (by decide : (0 : Int) < 1) false
  unfold dictSliceSpec at hvalue
  rw [CwhipMap.value_length] at hvalue
  dsimp only at hvalue
  unfold CwhipMap.entryLimit at hlimit
  unfold CwhipMap.slice at hresult
  dsimp only at hresult
  refine ⟨result, ?_, hindexed, hvalue ▸ hselects⟩
  unfold dictSliceEx
  rw [normalizeSliceBound64_eq start hbounded, normalizeSliceBound64_eq stop hbounded]
  generalize normalizeSliceBound (boundOf start hasStart) source.entries.length 1 true = first at *
  generalize normalizeSliceBound (boundOf stop hasEnd) source.entries.length 1 false = last at *
  simp only [bind, Except.bind]
  by_cases hless : first < last
  · have hend : first + (spanLength first last : Int) = last := by
      unfold spanLength
      rw [if_pos hless]
      omega
    rw [copyEntries64_eq source (by omega) _ _ _ hfirst.1 hend, hresult]
    rfl
  · have hzero : spanLength first last = 0 := by
      unfold spanLength
      rw [if_neg hless]
    rw [hzero] at hresult ⊢
    cases hresult
    rw [copyEntries64, if_neg hless]

/-- Slicing: list slices select Python's indices for every step, buffer and
    dict slices those with step one.  Each index is one of the receiver, and
    no signed computation overflows, as these return.  Lists and buffers are
    read as the finalizers of the slice's own allocation leave them. -/
theorem slices_select {α V : Type} (listUpdate : CellsUpdate α) (list : BoundedCells α)
    (bufferUpdate : CellsUpdate UInt8) (buffer : BoundedCells UInt8) {dict : CwhipMap V}
    (hdict : dict.Indexed) (start stop step : Int64) (hstep : step ≠ 0) (hasStart hasEnd : Bool) :
    let indices := pythonIndices (boundOf start hasStart) (boundOf stop hasEnd)
    ((∀ index ∈ indices step.toInt list.length, 0 ≤ index ∧ index < list.length) ∧
      ∃ result, listSliceEx listUpdate list start stop step hasStart hasEnd = .ok result ∧
        Selects result (listUpdate.apply list.toGrowVec).cells (indices step.toInt list.length) ∧
        (CellsKept list.toGrowVec (listUpdate.apply list.toGrowVec)
            (indices step.toInt list.length) →
          Selects result list.value (indices step.toInt list.length))) ∧
    ((∀ index ∈ indices 1 buffer.length, 0 ≤ index ∧ index < buffer.length) ∧
      ∃ result, bufferSliceEx bufferUpdate buffer start stop hasStart hasEnd = .ok result ∧
        Selects result (bufferUpdate.apply buffer.toGrowVec).cells (indices 1 buffer.length) ∧
        (CellsKept buffer.toGrowVec (bufferUpdate.apply buffer.toGrowVec)
            (indices 1 buffer.length) →
          Selects result buffer.value (indices 1 buffer.length))) ∧
    ((∀ index ∈ indices 1 dict.entries.length, 0 ≤ index ∧ index < dict.entries.length) ∧
      ∃ result, dictSliceEx dict start stop hasStart hasEnd = .ok result ∧ result.Indexed ∧
        Selects result.value dict.value (indices 1 dict.entries.length)) := by
  intro indices
  have hstepInt : step.toInt ≠ 0 := fun h => hstep (Int64.toInt_inj.mp h)
  have hone : (1 : Int) ≠ 0 := by decide
  refine ⟨⟨fun index h => pythonIndices_range hstepInt h, ?_⟩,
    ⟨fun index h => pythonIndices_range hone h, ?_⟩,
    ⟨fun index h => pythonIndices_range hone h, ?_⟩⟩
  · obtain ⟨result, hresult, hselects⟩ :=
      listSliceEx_selects listUpdate list start stop step hstepInt hasStart hasEnd
    exact ⟨result, hresult, hselects,
      hselects.of_cells fun index h => pythonIndices_range hstepInt h⟩
  · obtain ⟨result, hresult, hselects⟩ :=
      bufferSliceEx_selects bufferUpdate buffer start stop hasStart hasEnd
    exact ⟨result, hresult, hselects, hselects.of_cells fun index h => pythonIndices_range hone h⟩
  · exact dictSliceEx_selects hdict start stop hasStart hasEnd

/-- `[1, 2, 3][::INT64_MIN]` is `[3]`. -/
theorem slices_select_min :
    pythonIndices none none Int64.minValue.toInt 3 = [2] ∧
    ∃ result, listSliceEx ⟨id, fun _ => Nat.le_refl _⟩
        ⟨GrowVec.ofList 0 [1, 2, 3], by decide⟩ 0 0 Int64.minValue false false
          = .ok result ∧ Selects result [1, 2, 3]
            (pythonIndices none none Int64.minValue.toInt 3) := by
  refine ⟨?_, ?_⟩
  · rw [pythonIndices, pythonRange_cons (by decide), pythonRange_nil (by decide)]
    rfl
  · have hall := slices_select ⟨id, fun _ => Nat.le_refl _⟩
      (⟨GrowVec.ofList 0 [1, 2, 3], by decide⟩ : BoundedCells Nat) ⟨id, fun _ => Nat.le_refl _⟩
      ⟨GrowVec.ofList 0 [], by decide⟩ (CwhipMap.indexed_empty (V := Nat)) 0 0 Int64.minValue
      (by decide) false false
    obtain ⟨result, hresult, _, hkept⟩ := hall.1.2
    exact ⟨result, hresult, hkept fun _ _ => rfl⟩

end Cwhip.Runtime
