/-
  Cwhip.Runtime.StringSearch

  `find`, `split` and `replace` of String (`RuntimeGc.c`) against what they are for:
  the least occurrence, the fields between the leftmost occurrences, and these with
  the replacement between them.

  `replace` counts the matches, computes the length of its output from them, and
  searches again to write it; here these passes are written out, with lengths
  modulo 2^64.
-/

import Cwhip.Lib.MachineInt
import Cwhip.Lib.Occurrences
import Cwhip.Runtime.SplitScan
import Cwhip.Runtime.StringTexts
import Mathlib.Algebra.Order.BigOperators.Group.List
import Mathlib.Algebra.Order.Group.Nat

namespace Cwhip.Runtime

open Cwhip.Lib
open Cwhip.Lib.Utf8 (WellFormed charBoundary_zero)

/-! ## Searching -/

variable {data needle target replacement field : Bytes} {start position count block length : Nat}
  {finalizers : StringFinalizers} {s : StringState}

/-- `cwhip_string_method_find` -/
def stringFind (data needle : Bytes) : Int :=
  match findBytes data needle 0 with
  | some found => found
  | none => -1

theorem fieldsFrom_fields (hneedle : needle ≠ []) (fuel : Nat) (hstart : start ≤ data.length)
    (hfuel : data.length ≤ start + fuel) :
    Fields needle (data.drop start) (fieldsFrom data needle fuel start) := by
  have hlast {start : Nat} (hstart : start ≤ data.length) (h : findBytes data needle start = none) :
      Fields needle (data.drop start) [data.drop start] := by
    refine .last fun position hoccurs => ?_
    exact findBytes_none_iff.mp h (start + position) (Nat.le_add_right _ _)
      ((occursAt_drop hstart).mp hoccurs)
  induction fuel generalizing start with
  | zero =>
    rw [fieldsFrom]
    apply hlast hstart
    cases hfind : findBytes data needle start with
    | none => rfl
    | some found =>
      obtain ⟨hle, hbound, _⟩ := findBytes_some hfind
      have hpos := List.length_pos_iff.mpr hneedle
      omega
  | succ fuel ih =>
    rw [fieldsFrom]
    split
    · rename_i hfind
      exact hlast hstart hfind
    · rename_i found hfind
      obtain ⟨hle, hbound, hhit⟩ := findBytes_some hfind
      obtain ⟨_, _, hleast⟩ := findBytes_least hfind
      have hpos := List.length_pos_iff.mpr hneedle
      have hlength : ((data.drop start).take (found - start)).length = found - start := by
        rw [List.length_take, List.length_drop]
        omega
      -- the field, the needle, and what is behind it
      have hsplit : data.drop start =
          (data.drop start).take (found - start) ++
              (needle ++ data.drop (found + needle.length)) := by
        conv_lhs => rw [← List.take_append_drop (found - start) (data.drop start)]
        rw [List.drop_drop, Nat.add_sub_cancel' hle]
        conv_lhs => rw [← List.take_append_drop needle.length (data.drop found)]
        rw [hhit, List.drop_drop]
      have hfields : Fields needle ((data.drop start).take (found - start) ++
          (needle ++ data.drop (found + needle.length)))
          ((data.drop start).take (found - start) :: fieldsFrom data needle fuel
              (found + needle.length)) := by
        refine .cons ?_ (ih hbound (by omega))
        intro position hposition
        rw [← hsplit, occursAt_drop hstart]
        rw [hlength] at hposition
        exact hleast (start + position) (Nat.le_add_right _ _) (by omega)
      rwa [← hsplit] at hfields

theorem splitFields_fields (hneedle : needle ≠ []) :
    Fields needle data (splitFields data needle) := by
  have hfields := fieldsFrom_fields hneedle data.length (Nat.zero_le data.length)
    (Nat.le_add_left _ _)
  rwa [List.drop_zero] at hfields

/-! ## Counting and writing -/

variable {a b remaining : Nat} {output : Output} {bytes : Bytes} {s' : StringState}
  {fields : List Bytes}

theorem unsigned_add (h : a + b < 2 ^ 64) : unsigned (a + b) = a + b := by
  have hsum := unsigned_natCast h
  rwa [Int.natCast_add] at hsum

theorem unsigned_sub (hle : b ≤ a) (h : a < 2 ^ 64) : unsigned (a - b) = a - b := by
  have hdifference := unsigned_natCast (Nat.lt_of_le_of_lt (Nat.sub_le a b) h)
  rwa [Int.natCast_sub hle] at hdifference

/-- The counting pass of `replace` and `split`. -/
def countFrom (data needle : Bytes) : Nat → Nat → Nat → Nat
  | 0, _, count => count
  | fuel + 1, position, count =>
    match findBytes data needle position with
    | none => count
    | some found =>
      countFrom data needle fuel (unsigned (found + needle.length)) (unsigned (count + 1))

/-- The length of the output of `replace`. -/
def resultLength (length target replacement matched : Nat) : Except NativeFault Nat :=
  if target ≤ replacement then
    let growth := unsigned (replacement - target)
    if int64Max < length ∨ (growth ≠ 0 ∧ (int64Max - length) / growth < matched) then
      .error (.raises "String length out of bounds")
    else .ok (unsigned (length + unsigned (matched * growth)))
  else .ok (unsigned (length - unsigned (matched * unsigned (target - replacement))))

/-- The output that `replace` allocates, and what is written of it. -/
structure Output where
  capacity : Nat
  written : Bytes
  deriving DecidableEq

def Output.write (output : Output) (bytes : Bytes) : Except NativeFault Output :=
  if output.written.length + bytes.length ≤ output.capacity then
    .ok { output with written := output.written ++ bytes }
  else .error .overrun

/-- What the tail of the source is, from a position on. -/
def sourceRange (data : Bytes) (position length : Nat) : Bytes := (data.drop position).take length

/-- The writing pass of `replace`. -/
def writeFrom (data target replacement : Bytes) : Nat → Nat → Output → Except NativeFault Output
  | 0, position, output =>
    output.write (sourceRange data position (unsigned (data.length - position)))
  | fuel + 1, position, output =>
    match findBytes data target position with
    | none => output.write (sourceRange data position (unsigned (data.length - position)))
    | some found => do
      let output ← output.write (sourceRange data position (unsigned (found - position)))
      let output ← output.write replacement
      writeFrom data target replacement fuel (unsigned (found + target.length)) output

/-- `replace` up to the String it makes of its output. -/
def replaceOutput (data target replacement : Bytes) : Except NativeFault Output := do
  let capacity ← resultLength data.length target.length replacement.length
    (countFrom data target data.length 0 0)
  writeFrom data target replacement data.length 0 ⟨capacity, []⟩

theorem countFrom_eq (hdata : data.length ≤ int64Max) (fuel : Nat)
    (hcount : count + fuel < 2 ^ 64) :
    countFrom data needle fuel position count = count +
    ((fieldsFrom data needle fuel position).length - 1) := by
  induction fuel generalizing position count with
  | zero => rfl
  | succ fuel ih =>
    rw [countFrom, fieldsFrom]
    cases hfound : findBytes data needle position with
    | none => rfl
    | some found =>
      obtain ⟨_, hbound, _⟩ := findBytes_some hfound
      have hmax : int64Max = 2 ^ 63 - 1 := rfl
      have hposition : unsigned (found + needle.length) = found + needle.length :=
        unsigned_add (by omega)
      have hnext : unsigned (count + 1) = count + 1 := unsigned_add (a := count) (b := 1) (by omega)
      have hfields := List.length_pos_iff.mpr (fieldsFrom_ne_nil data needle fuel
        (found + needle.length))
      dsimp only
      rw [hposition, hnext, ih (by omega), List.length_cons]
      omega

theorem matched_le (data needle : Bytes) :
    ((splitFields data needle).length - 1) * needle.length ≤ data.length := by
  have hlength := intercalate_length needle (fieldsFrom_ne_nil data needle data.length 0)
  rw [intercalate_fieldsFrom, List.drop_zero] at hlength
  rw [splitFields]
  omega

theorem resultLength_eq (hdata : data.length ≤ int64Max) (htarget : target.length ≤ int64Max)
    (hreplacement : replacement.length ≤ int64Max) :
    resultLength data.length target.length replacement.length ((splitFields data target).length - 1)
    =
      if replaceLength data target replacement ≤ int64Max then .ok
      (replaceLength data target replacement)
      else .error (.raises "String length out of bounds") := by
  have hfit := matched_le data target
  have hmax : int64Max = 2 ^ 63 - 1 := rfl
  rw [resultLength, replaceLength]
  dsimp only
  generalize (splitFields data target).length - 1 = matched at hfit ⊢
  by_cases hgrow : target.length ≤ replacement.length
  · have hgrowth : unsigned (replacement.length - target.length) = replacement.length -
        target.length :=
      unsigned_sub hgrow (by omega)
    rw [if_pos hgrow, if_pos hgrow, hgrowth]
    generalize replacement.length - target.length = growth
    have hcheck : (int64Max < data.length ∨ growth ≠ 0 ∧ (int64Max - data.length) / growth <
        matched) ↔
        ¬ data.length + matched * growth ≤ int64Max := by
      rcases Nat.eq_zero_or_pos growth with rfl | hpos
      · simp [hdata]
      · rw [Nat.div_lt_iff_lt_mul hpos]
        have hne : growth ≠ 0 := Nat.ne_of_gt hpos
        simp only [hne, ne_eq, not_false_eq_true, true_and]
        omega
    by_cases hfits : data.length + matched * growth ≤ int64Max
    · rw [if_neg fun h => hcheck.mp h hfits, if_pos hfits]
      have hproduct : unsigned (matched * growth) = matched * growth := by
        have hcast := unsigned_natCast (n := matched * growth) (by omega)
        rwa [Int.natCast_mul] at hcast
      rw [hproduct]
      exact congrArg Except.ok (unsigned_add (by omega))
    · rw [if_pos (hcheck.mpr hfits), if_neg hfits]
  · have hshrink : unsigned (target.length - replacement.length) = target.length -
        replacement.length :=
      unsigned_sub (by omega) (by omega)
    rw [if_neg hgrow, if_neg hgrow, hshrink]
    have hless : matched * (target.length - replacement.length) ≤ data.length :=
      Nat.le_trans (Nat.mul_le_mul_left _ (Nat.sub_le _ _)) hfit
    generalize target.length - replacement.length = shrunk at hless
    have hproduct : unsigned (matched * shrunk) = matched * shrunk := by
      have hcast := unsigned_natCast (n := matched * shrunk) (by omega)
      rwa [Int.natCast_mul] at hcast
    rw [hproduct, if_pos (by omega)]
    exact congrArg Except.ok (unsigned_sub hless (by omega))

theorem Output.write_of_fits (h : (output.written ++ bytes).length ≤ output.capacity) :
    output.write bytes = .ok { output with written := output.written ++ bytes } := by
  rw [List.length_append] at h
  exact if_pos h

theorem sourceRange_tail (hposition : position ≤ data.length) (hdata : data.length ≤ int64Max) :
    sourceRange data position (unsigned (data.length - position)) = data.drop position := by
  have hmax : int64Max = 2 ^ 63 - 1 := rfl
  rw [unsigned_sub hposition (by omega), sourceRange]
  apply List.take_of_length_le
  rw [List.length_drop]

theorem writeFrom_eq (hdata : data.length ≤ int64Max) (fuel : Nat)
    (hposition : position ≤ data.length)
    (hfits : (output.written ++ replaceFrom data target replacement fuel position).length
    ≤ output.capacity) :
    writeFrom data target replacement fuel position output =
      .ok { output with
        written := output.written ++ replaceFrom data target replacement fuel position } := by
  have hmax : int64Max = 2 ^ 63 - 1 := rfl
  induction fuel generalizing position output with
  | zero =>
    rw [writeFrom, sourceRange_tail hposition hdata]
    exact Output.write_of_fits hfits
  | succ fuel ih =>
    rw [replaceFrom] at hfits ⊢
    rw [writeFrom]
    cases hfind : findBytes data target position with
    | none =>
      rw [hfind] at hfits
      dsimp only
      rw [sourceRange_tail hposition hdata]
      exact Output.write_of_fits hfits
    | some found =>
      obtain ⟨hle, hbound, _⟩ := findBytes_some hfind
      rw [hfind] at hfits
      dsimp only at hfits ⊢
      rw [unsigned_sub hle (by omega), unsigned_add (by omega)]
      simp only [← List.append_assoc] at hfits ⊢
      -- what is written later fits only if what is written now does
      have hrest := hfits
      rw [List.length_append] at hfits
      have hreplacement := hfits
      rw [List.length_append] at hreplacement
      have hrange : output.write (sourceRange data position (found - position)) = .ok
          { output with written := output.written ++ (data.drop position).take (found -
              position) } := by
        apply Output.write_of_fits
        show (output.written ++ (data.drop position).take (found - position)).length ≤
          output.capacity
        omega
      rw [hrange, ok_bind, Output.write_of_fits, ok_bind]
      · exact ih hbound hrest
      · show (output.written ++ (data.drop position).take (found - position) ++ replacement).length
          ≤ output.capacity
        omega

theorem replaceOutput_eq (hdata : data.length ≤ int64Max) (htarget : target.length ≤ int64Max)
    (hreplacement : replacement.length ≤ int64Max) :
    replaceOutput data target replacement =
      if (replacement.intercalate (splitFields data target)).length ≤ int64Max then
        .ok ⟨(replacement.intercalate (splitFields data target)).length,
        replacement.intercalate (splitFields data target)⟩
      else .error (.raises "String length out of bounds") := by
  have hmax : int64Max = 2 ^ 63 - 1 := rfl
  have hlength := replaceFrom_length data target replacement
  have hwritten := replaceFrom_eq data target replacement data.length 0
  have hcount : countFrom data target data.length 0 0 = (splitFields data target).length - 1 := by
    rw [countFrom_eq hdata _ (by omega), Nat.zero_add]
    rfl
  rw [replaceOutput, hcount, resultLength_eq hdata htarget hreplacement, ← hlength,
    splitFields, ← hwritten]
  split
  · rw [ok_bind, writeFrom_eq hdata _ (Nat.zero_le _) (Nat.le_refl _)]
    rfl
  · rfl

/-! ## What the methods are for -/

/-- A value of a String: UTF-8, of a length that `int64_t` holds. -/
def StringValue (bytes : Bytes) : Prop := WellFormed bytes ∧ bytes.length ≤ int64Max

/-- The search is for the least occurrence. -/
def FindsLeast (data needle : Bytes) : Prop :=
  (stringFind data needle = -1 ∧ ∀ position, ¬ OccursAt data needle position) ∨
    ∃ position : Nat, stringFind data needle = position ∧ OccursAt data needle position ∧
      ∀ earlier < position, ¬ OccursAt data needle earlier

/-- `split` returns the fields between the leftmost occurrences, and no null element;
    `replace` returns these with the replacement between them, in an output of that
    length; results that are too long for `int64_t` are refused. -/
structure SearchAndRewrite (finalizers : StringFinalizers) (s : StringState) (replacement : Bytes)
    (fields : List Bytes) : Prop where
  between : Fields s.strings.argument.value s.strings.receiver.value fields
  joined : s.strings.argument.value.intercalate fields = s.strings.receiver.value
  apart : ∀ field ∈ fields, ∀ position, ¬ OccursAt field s.strings.argument.value position
  find : FindsLeast s.strings.receiver.value s.strings.argument.value
  split : returned (stringSplit finalizers s) =
    if fields.length ≤ int64Max then .ok (fields.map some)
    else .error (.raises "String split result is too large")
  output : replaceOutput s.strings.receiver.value s.strings.argument.value replacement =
    if (replacement.intercalate fields).length ≤ int64Max then
      .ok ⟨(replacement.intercalate fields).length, replacement.intercalate fields⟩
    else .error (.raises "String length out of bounds")
  replace : returned (stringReplace finalizers s replacement) =
    if (replacement.intercalate fields).length ≤ int64Max then .ok (replacement.intercalate fields)
    else .error (.raises "String length out of bounds")

theorem findsLeast (data needle : Bytes) : FindsLeast data needle := by
  rw [FindsLeast, stringFind]
  cases hfind : findBytes data needle 0 with
  | none => exact .inl ⟨rfl, fun position => findBytes_none_iff.mp hfind position (Nat.zero_le _)⟩
  | some found =>
    obtain ⟨_, hoccurs, hleast⟩ := findBytes_least hfind
    exact .inr ⟨found, rfl, hoccurs, fun earlier => hleast earlier (Nat.zero_le _)⟩

theorem splitFields_values (hdata : StringValue data) (hneedle : StringValue needle)
    (hne : needle ≠ []) : ∀ field ∈ splitFields data needle, StringValue field := by
  intro field hmem
  refine ⟨fieldsFrom_wellFormed hneedle.1 hne _ (charBoundary_zero hdata.1) field hmem, ?_⟩
  -- a field is no longer than all of them with the needle between them
  have hlength := intercalate_length needle (fieldsFrom_ne_nil data needle data.length 0)
  rw [intercalate_fieldsFrom, List.drop_zero] at hlength
  have hle : field.length ≤ ((fieldsFrom data needle data.length 0).map List.length).sum :=
    List.le_sum_of_mem (List.mem_map_of_mem hmem)
  have hmax := hdata.2
  omega

theorem mapM_newSpec (h : ∀ field ∈ fields, StringValue field) :
    fields.mapM newSpec = .ok fields := by
  induction fields with
  | nil => rfl
  | cons field fields ih =>
    obtain ⟨hwellFormed, hlength⟩ := h field List.mem_cons_self
    have hfield : newSpec field = .ok field := by
      rw [newSpec, ensure_bind hlength, ensure_bind ((validUtf8_iff field).mpr hwellFormed)]
      rfl
    rw [List.mapM_cons, hfield, ih fun other hmem => h other (List.mem_cons_of_mem _ hmem)]
    rfl

theorem stringReplace_returns (finalizers : StringFinalizers)
    (hreceiver : WellFormed s.strings.receiver.value)
    (htarget : WellFormed s.strings.argument.value) (hreplacement : WellFormed replacement)
    (hne : s.strings.argument.value ≠ []) :
    returned (stringReplace finalizers s replacement) =
      if (replacement.intercalate
      (splitFields s.strings.receiver.value s.strings.argument.value)).length ≤ int64Max then
        .ok (replacement.intercalate
        (splitFields s.strings.receiver.value s.strings.argument.value))
      else .error (.raises "String length out of bounds") := by
  have hvalid : validUtf8 (replacement.intercalate
      (splitFields s.strings.receiver.value s.strings.argument.value)) = true := by
    rw [validUtf8_iff, splitFields, ← replaceFrom_eq]
    exact replaceFrom_wellFormed htarget hne hreplacement _ (charBoundary_zero hreceiver)
  rw [stringReplace_eq, replaceSpec, ensure_bind hne, newSpec]
  split
  · rename_i hfits
    rw [ensure_bind hfits, ensure_bind hvalid]
    rfl
  · rename_i hlong
    rw [ensure_bind_error hlong]

theorem fieldStart_le {separator : Bytes} {index : Nat} (h : index < fields.length) :
    fieldStart fields separator.length index ≤ (separator.intercalate fields).length := by
  induction fields generalizing index with
  | nil => exact absurd h (Nat.not_lt_zero _)
  | cons field fields ih =>
    cases index with
    | zero => exact Nat.zero_le _
    | succ index =>
      have hindex : index < fields.length := Nat.lt_of_succ_lt_succ h
      have hrest := ih hindex
      rw [fieldStart_cons, List.intercalate_cons_of_ne_nil (List.ne_nil_of_length_pos (by omega)),
        List.length_append, List.length_append]
      omega

/-- The methods do what they are for exactly if every field stays as the first scan saw
    it until the second one has copied it, whatever the collections run in between. -/
theorem searchAndRewrite_iff (finalizers : StringFinalizers) (s : StringState) (replacement : Bytes)
    (hreceiver : StringValue s.strings.receiver.value)
    (hargument : StringValue s.strings.argument.value)
    (hreplacement : StringValue replacement) (hne : s.strings.argument.value ≠ []) :
    (∃ fields, SearchAndRewrite finalizers s replacement fields) ↔
      ((splitFields s.strings.receiver.value s.strings.argument.value).length ≤ int64Max →
        FieldsStay finalizers (s.collect finalizers) s.strings.argument.block
          s.strings.argument.length 0
          (splitFields s.strings.receiver.value s.strings.argument.value)) := by
  have hfields : Fields s.strings.argument.value s.strings.receiver.value
      (splitFields s.strings.receiver.value s.strings.argument.value) := splitFields_fields hne
  have hvalues := splitFields_values hreceiver hargument hne
  have hscan : returned (splitLoop finalizers s.strings.argument.block s.strings.argument.length
        (splitFields s.strings.receiver.value s.strings.argument.value).length 0
          (s.collect finalizers)) =
      .ok ((splitFields s.strings.receiver.value s.strings.argument.value).map some) ↔ _ :=
    splitLoop_ok_iff hfields.ne_nil (fun field hmem => (hvalues field hmem).2)
        (Nat.zero_le _) fun index hindex => by
      have hstart : fieldStart _ s.strings.argument.value.length (index + 1) ≤ _ :=
        fieldStart_le hindex
      rw [hfields.intercalate_eq, GrowVec.value_length] at hstart
      rw [Nat.zero_add]
      exact .inl (Nat.le_trans hstart hreceiver.2)
  have hsplit := stringSplit_eq finalizers s
  rw [if_neg hne] at hsplit
  constructor
  · rintro ⟨fields, h⟩ hcount
    obtain rfl := h.between.unique hfields
    have hreturned := h.split
    rw [hsplit, if_pos hcount, if_pos hcount] at hreturned
    exact (hscan.mp hreturned).2
  · intro h
    refine ⟨_, hfields, hfields.intercalate_eq, fun field hmem => hfields.not_occursAt hne hmem,
      findsLeast _ _, ?_,
      replaceOutput_eq hreceiver.2 hargument.2 hreplacement.2,
      stringReplace_returns finalizers hreceiver.1 hargument.1 hreplacement.1 hne⟩
    rw [hsplit]
    split
    · rename_i hcount
      exact hscan.mpr ⟨rfl, h hcount⟩
    · rfl

/-- Two separators side by side, one at the end, and a longer replacement.  While the
    last field is copied, which is empty, a finalizer appends to the receiver and makes
    it leave its block. -/
theorem searchAndRewrite_adjacent :
    ∃ fields, SearchAndRewrite (fun collection => if collection = 7 then .appendReceiver [120]
      else .none) ⟨⟨.ofList 0 [97, 44, 44, 98, 44], .ofList 1 [44]⟩, 0⟩ [45, 45] fields := by
  have hvalue {bytes : Bytes} (hbytes : validUtf8 bytes = true ∧ bytes.length ≤ int64Max) :
      StringValue bytes :=
    ⟨(validUtf8_iff bytes).mp hbytes.1, hbytes.2⟩
  refine (searchAndRewrite_iff (fun collection => if collection = 7 then .appendReceiver [120]
    else .none)
    ⟨⟨.ofList 0 [97, 44, 44, 98, 44], .ofList 1 [44]⟩, 0⟩ _ (hvalue (by decide))
      (hvalue (by decide))
    (hvalue (by decide)) (by decide)).mpr fun _ => ?_
  show FieldsStay _ _ 1 1 0 [[97], [], [98], []]
  refine fieldsStay_cons.mpr ⟨⟨⟨[44], by decide, by decide, by decide⟩,
    .inr ⟨⟨[97], by decide, by decide⟩, by decide⟩⟩, ?_⟩
  refine fieldsStay_cons.mpr ⟨⟨⟨[44], by decide, by decide, by decide⟩, .inl rfl⟩, ?_⟩
  refine fieldsStay_cons.mpr ⟨⟨⟨[44], by decide, by decide, by decide⟩,
    .inr ⟨⟨[98], by decide, by decide⟩, by decide⟩⟩, ?_⟩
  refine fieldsStay_cons.mpr ⟨⟨⟨by decide, .inl (by decide)⟩, .inl rfl⟩, ?_⟩
  exact fun index h => absurd h (Nat.not_lt_zero index)

/-- A finalizer of the first collection appends to the receiver what it is split by. -/
theorem split_of_growing_receiver :
    ¬ ∃ fields, SearchAndRewrite (fun collection => if collection = 0 then .appendReceiver [44, 98]
      else .none) ⟨⟨.ofList 0 [97], .ofList 0 [44]⟩, 0⟩ [45] fields := by
  rintro ⟨fields, h⟩
  have hsplit := h.split
  have hrun : returned (stringSplit (fun collection => if collection = 0 then .appendReceiver [44,
      98] else .none) ⟨⟨.ofList 0 [97], .ofList 0 [44]⟩, 0⟩) = .error .overrun := by decide
  rw [hrun] at hsplit
  split at hsplit
  · cases hsplit
  · cases hsplit

end Cwhip.Runtime
