/-
  Cwhip.Runtime.StringOpsSound

  When the String methods compute what they should, whatever finalizers their
  own allocations run.

  `replace` always does: it has read everything before it allocates.  `slice`
  and `trim` hand a pointer into the receiver to the allocation of the result,
  so they copy what the receiver's block holds after it.
-/

import Mathlib.Algebra.GroupWithZero.Nat
import Cwhip.Runtime.StringOps

namespace Cwhip.Runtime

open Cwhip.Lib

/-! ## What the operations compute from a value -/

/-- A new String with these bytes. -/
def newSpec (bytes : Bytes) : Except NativeFault Bytes := do
  ensure (bytes.length ≤ int64Max) (.raises "String length out of bounds")
  ensure (validUtf8 bytes = true) (.raises "String bytes are not valid UTF-8")
  return bytes

/-- `slice` of a value. -/
def sliceSpec (value : Bytes) (first last : Int) : Except NativeFault Bytes := do
  let start := normalizeStringBound first value.length
  let stop := normalizeStringBound last value.length
  ensure (utf8Boundary value start = true ∧ utf8Boundary value stop = true)
    (.raises "String range splits a UTF-8 character")
  newSpec ((value.drop start).take (stop - start))

/-- `trim` of a value. -/
def trimSpec (value : Bytes) : Except NativeFault Bytes :=
  newSpec ((value.drop (trimBounds value).1).take ((trimBounds value).2 - (trimBounds value).1))

/-- `replace` of a value: the fields, with the replacement in between. -/
def replaceSpec (value target replacement : Bytes) : Except NativeFault Bytes := do
  ensure (target ≠ []) (.raises "String.replace target cannot be empty")
  newSpec (replacement.intercalate (splitFields value target))

/-- `split` of a value. -/
def splitSpec (value separator : Bytes) : Except NativeFault (List (Option Bytes)) := do
  ensure (separator ≠ []) (.raises "String.split separator cannot be empty")
  ensure ((splitFields value separator).length ≤ int64Max)
    (.raises "String split result is too large")
  let fields ← (splitFields value separator).mapM newSpec
  return fields.map some

/-! ## Copying a range of the receiver -/

/-- The value an operation returns. -/
def returned {α : Type} (result : Except NativeFault (α × StringState)) : Except NativeFault α :=
  result.map Prod.fst

/-- The state after both collections of a String allocation. -/
def StringState.allocated (finalizers : StringFinalizers) (s : StringState) : StringState :=
  (s.collect finalizers).collect finalizers

/-- A range of the receiver's bytes is where it was and what it was. -/
def Undisturbed (s s' : StringState) (start length : Nat) : Prop :=
  s'.strings.receiver.block = s.strings.receiver.block ∧
    (s'.strings.receiver.cells.drop start).take length
      = (s.strings.receiver.value.drop start).take length

theorem allocated_grows (finalizers : StringFinalizers) (s : StringState) :
    s.strings.receiver.capacity ≤ (s.allocated finalizers).strings.receiver.capacity :=
  Nat.le_trans ((finalizers _).receiver_grows _) ((finalizers _).receiver_grows _)

variable {s : StringState} {start length : Nat} {finalizers : StringFinalizers}

theorem range_length (hrange : start + length ≤ s.strings.receiver.length) :
    ((s.strings.receiver.value.drop start).take length).length = length := by
  rw [List.length_take, List.length_drop, GrowVec.value_length]
  omega

theorem stringNew_range (finalizers : StringFinalizers)
    (hrange : start + length ≤ s.strings.receiver.length) :
    returned (stringNew finalizers s (rangeSource s start length) length) =
      (newSpec ((s.strings.receiver.value.drop start).take length) >>= fun bytes =>
        if bytes = [] then .ok []
        else if (s.allocated finalizers).strings.receiver.block = s.strings.receiver.block then
          .ok (((s.allocated finalizers).strings.receiver.cells.drop start).take length)
        else .error (.read .dangling)) := by
  have hlength := range_length hrange
  by_cases hzero : length = 0
  · subst hzero
    simp [stringNew, rangeSource, readSource, copySource, newSpec, returned, ensure, validUtf8,
      bind, Except.bind, pure, Except.pure, Except.map]
  · have hne : (s.strings.receiver.value.drop start).take length ≠ [] := by
      intro hnil
      rw [hnil] at hlength
      exact hzero hlength.symm
    have hread : readSource s (.receiver s.strings.receiver.block start) length
        = .ok ((s.strings.receiver.value.drop start).take length) := by
      simp only [readSource]
      rw [GrowVec.readAt_eq (Nat.le_refl _) hrange, if_pos rfl, GrowVec.take_drop_cells hrange]
      rfl
    have hcopy : readSource (s.allocated finalizers) (.receiver s.strings.receiver.block start)
        length = readFault (if (s.allocated finalizers).strings.receiver.block
          = s.strings.receiver.block
          then .ok (((s.allocated finalizers).strings.receiver.cells.drop start).take length)
          else .error .dangling) := by
      simp only [readSource]
      rw [GrowVec.readAt_eq (allocated_grows finalizers s) hrange]
    unfold StringState.allocated at hcopy
    simp only [stringNew, rangeSource, if_neg hzero, copySource, hread, hcopy]
    by_cases hmax : length ≤ int64Max
    · by_cases hvalid : validUtf8 ((s.strings.receiver.value.drop start).take length) = true
      · simp only [newSpec, ensure, hlength, hmax, hvalid, bind, Except.bind, pure, Except.pure,
          returned, Except.map, StringState.allocated]
        by_cases hblock : ((s.collect finalizers).collect finalizers).strings.receiver.block
            = s.strings.receiver.block
        · simp [hblock, readFault, hne]
        · simp [hblock, readFault, hne]
      · simp [newSpec, ensure, hlength, hmax, hvalid, bind, Except.bind, returned, Except.map]
    · simp [newSpec, ensure, hlength, hmax, bind, Except.bind, returned, Except.map]

/-- A range is copied exactly unless allocating changes it. -/
theorem stringNew_range_iff (finalizers : StringFinalizers)
    (hrange : start + length ≤ s.strings.receiver.length) :
    returned (stringNew finalizers s (rangeSource s start length) length)
        = newSpec ((s.strings.receiver.value.drop start).take length) ↔
      ∀ bytes, newSpec ((s.strings.receiver.value.drop start).take length) = .ok bytes →
        bytes ≠ [] → Undisturbed s (s.allocated finalizers) start length := by
  rw [stringNew_range finalizers hrange]
  cases hspec : newSpec ((s.strings.receiver.value.drop start).take length) with
  | error fault => simp [bind, Except.bind]
  | ok bytes =>
    have hbytes : (s.strings.receiver.value.drop start).take length = bytes := by
      simp only [newSpec, bind_eq_ok, pure_eq_ok] at hspec
      obtain ⟨_, _, _, _, h⟩ := hspec
      exact h
    simp only [bind, Except.bind, Except.ok.injEq, forall_eq']
    by_cases hnil : bytes = []
    · simp [hnil]
    · rw [if_neg hnil]
      unfold Undisturbed
      rw [hbytes]
      split
      · rename_i hblock
        simp [hblock, hnil]
      · rename_i hblock
        simp [hblock, hnil]

/-! ## Slice and trim -/

/-- What is trimmed lies inside the text. -/
theorem trimBounds_le (bytes : Bytes) :
    (trimBounds bytes).1 + ((trimBounds bytes).2 - (trimBounds bytes).1) ≤ bytes.length := by
  have hfirst : (bytes.takeWhile asciiWhitespace).length ≤ bytes.length :=
    (List.takeWhile_sublist _).length_le
  simp only [trimBounds]
  omega

/-- The copy at the end of `slice` and `trim`: the range of the receiver, through
    the block it had. -/
def copiedRange (finalizers : StringFinalizers) (s : StringState) (start length : Nat)
    (bytes : Bytes) : Except NativeFault Bytes :=
  if bytes = [] then .ok []
  else if (s.allocated finalizers).strings.receiver.block = s.strings.receiver.block then
    .ok (((s.allocated finalizers).strings.receiver.cells.drop start).take length)
  else .error (.read .dangling)

/-- A slice is the copy of its range. -/
theorem stringSlice_eq (finalizers : StringFinalizers) (s : StringState) (first last : Int) :
    returned (stringSlice finalizers s first last) =
      (sliceSpec s.strings.receiver.value first last >>=
        copiedRange finalizers s (normalizeStringBound first s.strings.receiver.length)
          (normalizeStringBound last s.strings.receiver.length
            - normalizeStringBound first s.strings.receiver.length)) := by
  have hstart := normalizeStringBound_le first s.strings.receiver.length
  have hstop := normalizeStringBound_le last s.strings.receiver.length
  have hrange : normalizeStringBound first s.strings.receiver.length
      + (normalizeStringBound last s.strings.receiver.length
        - normalizeStringBound first s.strings.receiver.length)
      ≤ s.strings.receiver.length := by omega
  have hcopy := stringNew_range finalizers hrange
  unfold stringSlice sliceSpec
  rw [GrowVec.value_length]
  by_cases hbounds : utf8Boundary s.strings.receiver.value
        (normalizeStringBound first s.strings.receiver.length) = true ∧
      utf8Boundary s.strings.receiver.value
        (normalizeStringBound last s.strings.receiver.length) = true
  · rw [ensure_bind hbounds, ensure_bind hbounds]
    exact hcopy
  · rw [ensure_bind_error hbounds, ensure_bind_error hbounds]
    rfl

/-- So is a trimmed text. -/
theorem stringTrim_eq (finalizers : StringFinalizers) (s : StringState) :
    returned (stringTrim finalizers s) =
      (trimSpec s.strings.receiver.value >>=
        copiedRange finalizers s (trimBounds s.strings.receiver.value).1
          ((trimBounds s.strings.receiver.value).2 - (trimBounds s.strings.receiver.value).1)) := by
  have hrange := trimBounds_le s.strings.receiver.value
  rw [GrowVec.value_length] at hrange
  exact stringNew_range finalizers hrange

/-! ## Replace -/

theorem replaceFrom_eq (data target replacement : Bytes) (fuel start : Nat) :
    replaceFrom data target replacement fuel start
      = replacement.intercalate (fieldsFrom data target fuel start) := by
  induction fuel generalizing start with
  | zero => simp [replaceFrom, fieldsFrom]
  | succ fuel ih =>
    unfold replaceFrom fieldsFrom
    cases hfind : findBytes data target start with
    | none => simp
    | some found =>
      simp only
      rw [List.intercalate_cons_of_ne_nil (fieldsFrom_ne_nil _ _ _ _), ih]

theorem intercalate_length (separator : Bytes) {fields : List Bytes} (hne : fields ≠ []) :
    (separator.intercalate fields).length
      = (fields.map List.length).sum + (fields.length - 1) * separator.length := by
  induction fields with
  | nil => exact absurd rfl hne
  | cons field rest ih =>
    cases rest with
    | nil => simp
    | cons next rest =>
      rw [List.intercalate_cons_of_ne_nil (by simp), List.length_append, List.length_append,
        ih (by simp)]
      simp only [List.map_cons, List.sum_cons, List.length_cons]
      have hmul : (rest.length + 1 + 1 - 1) * separator.length
          = (rest.length + 1 - 1) * separator.length + separator.length := by
        rw [Nat.add_sub_cancel, Nat.add_sub_cancel, Nat.succ_mul]
      omega

/-- The length counted first is that of the result. -/
theorem replaceFrom_length (data target replacement : Bytes) :
    (replaceFrom data target replacement data.length 0).length
      = replaceLength data target replacement := by
  have hne := fieldsFrom_ne_nil data target data.length 0
  have hdata := intercalate_length target hne
  have hout := intercalate_length replacement hne
  rw [intercalate_fieldsFrom, List.drop_zero] at hdata
  rw [replaceFrom_eq]
  unfold replaceLength splitFields
  dsimp only
  generalize (fieldsFrom data target data.length 0).length - 1 = matched at *
  generalize ((fieldsFrom data target data.length 0).map List.length).sum = total at *
  rw [hout, hdata]
  split
  · rename_i hle
    rw [Nat.mul_sub]
    have hmul := Nat.mul_le_mul_left matched hle
    omega
  · rename_i hlt
    rw [Nat.mul_sub]
    have hmul := Nat.mul_le_mul_left matched (Nat.le_of_not_le hlt)
    omega

theorem stringNew_native (finalizers : StringFinalizers) (s : StringState) (bytes : Bytes) :
    returned (stringNew finalizers s (.native bytes) bytes.length) = newSpec bytes := by
  by_cases hmax : bytes.length ≤ int64Max
  · by_cases hvalid : validUtf8 bytes = true
    · by_cases hnil : bytes = []
      · subst hnil
        simp [stringNew, readSource, copySource, newSpec, ensure, validUtf8, returned, bind,
          Except.bind, pure, Except.pure, Except.map]
      · simp [stringNew, readSource, copySource, newSpec, ensure, hmax, hvalid, hnil,
          returned, bind,
          Except.bind, pure, Except.pure, Except.map]
    · simp [stringNew, readSource, newSpec, ensure, hmax, hvalid, returned, bind, Except.bind,
        Except.map]
  · simp [stringNew, newSpec, ensure, hmax, returned, bind, Except.bind, Except.map]

/-- Replacing computes its result before it allocates. -/
theorem stringReplace_eq (finalizers : StringFinalizers) (s : StringState) (replacement : Bytes) :
    returned (stringReplace finalizers s replacement)
      = replaceSpec s.strings.receiver.value s.strings.argument.value replacement := by
  have hlength := replaceFrom_length s.strings.receiver.value s.strings.argument.value replacement
  have houtput := replaceFrom_eq s.strings.receiver.value s.strings.argument.value replacement
    s.strings.receiver.value.length 0
  unfold stringReplace replaceSpec splitFields
  dsimp only
  rw [← houtput, ← hlength]
  generalize replaceFrom s.strings.receiver.value s.strings.argument.value replacement
    s.strings.receiver.value.length 0 = output
  by_cases htarget : s.strings.argument.value ≠ []
  · by_cases hmax : output.length ≤ int64Max
    · by_cases hnil : output = []
      · subst hnil
        simp [ensure, htarget, stringNew, readSource, copySource, newSpec, validUtf8, returned,
          bind, Except.bind, pure, Except.pure, Except.map]
      · have hpos : output.length ≠ 0 := fun h => hnil (List.eq_nil_of_length_eq_zero h)
        by_cases hvalid : validUtf8 output = true
        · simp [ensure, htarget, stringNew, readSource, copySource, newSpec, hvalid, returned,
            bind, Except.bind, pure, Except.pure, Except.map, hmax, hnil]
        · simp [ensure, htarget, stringNew, readSource, newSpec, hvalid, returned,
            bind, Except.bind, Except.map, hmax, hnil]
    · simp [ensure, htarget, newSpec, hmax, bind, Except.bind, returned, Except.map]
  · simp [ensure, htarget, bind, Except.bind, returned, Except.map]

end Cwhip.Runtime
