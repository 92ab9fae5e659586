/-
  Cwhip.Runtime.WriteLines

  Writing to a file (`cwhip_file_write` and `cwhip_file_write_line` in
  `RuntimeStdlib.c`), and what `cwhip_file_read_lines` makes of the lines.

  `fwrite` may stop early and `fputc` may fail; what they do comes with the call.
-/

import Cwhip.Runtime.ReadLines

namespace Cwhip.Runtime

open Cwhip.Lib Cwhip.Lib.Utf8

/-! ## The runtime -/

/-- The bytes `fwrite` takes at most, and whether `fputc` succeeds. -/
structure WriteAnswer where
  taken : Nat
  newline : Bool

/-- `EINVAL`, `EOVERFLOW`, and `errno` or `EIO` for what the stream refuses. -/
inductive WriteError where
  | invalid
  | overflow
  | stream
  deriving DecidableEq

/-- The file after a call, its result, and the error that it sets or clears. -/
structure Writing where
  file : Bytes
  result : Nat
  error : Option WriteError

/-- `cwhip_file_write`, at the end of the file; a handle or a String may be null. -/
def fileWrite (answer : WriteAnswer) (file : Bytes) (handle : Bool) : Option Bytes → Writing
  | none => ⟨file, 0, some .invalid⟩
  | some data =>
    let written := min answer.taken data.length
    if handle = false then ⟨file, 0, some .invalid⟩
    else ⟨file ++ data.take written, min written int64Max, if written = data.length then none
      else some .stream⟩

/-- `cwhip_file_write_line` -/
def fileWriteLine (answer : WriteAnswer) (file : Bytes) (handle : Bool) : Option Bytes → Writing
  | none => ⟨file, 0, some .invalid⟩
  | some line =>
    let written := min answer.taken line.length
    if handle = false then ⟨file, 0, some .invalid⟩
    else if written ≠ line.length then ⟨file ++ line.take written, min written int64Max,
      some .stream⟩
    else if answer.newline = false then ⟨file ++ line.take written, min written int64Max,
      some .stream⟩
    else if int64Max ≤ written then ⟨file ++ line.take written ++ [lineFeed], int64Max,
      some .overflow⟩
    else ⟨file ++ line.take written ++ [lineFeed], written + 1, none⟩

/-- A call to one of them on an open file. -/
structure WriteCall where
  answer : WriteAnswer
  data : Bytes
  line : Bool

/-- What the call is asked to write. -/
def WriteCall.text (call : WriteCall) : Bytes := call.data ++ if call.line then [lineFeed] else []

def WriteCall.run (call : WriteCall) (file : Bytes) : Writing :=
  if call.line then fileWriteLine call.answer file true (some call.data)
  else fileWrite call.answer file true (some call.data)

/-- The file after calls, and the errors they leave. -/
def writeAll (file : Bytes) : List WriteCall → Bytes × List (Option WriteError)
  | [] => (file, [])
  | call :: calls =>
    let after := writeAll (call.run file).file calls
    (after.1, (call.run file).error :: after.2)

/-! ## What is written -/

variable {call : WriteCall} {calls : List WriteCall}

/-- The result is the number of bytes that are appended, a beginning of the text,
    but for a line feed behind the longest text. -/
theorem WriteCall.run_spec (call : WriteCall) (hlength : call.data.length ≤ int64Max)
    (file : Bytes) :
    ∃ count, (call.run file).file = file ++ call.text.take count ∧
      (call.run file).result = min count int64Max ∧ count ≤ call.text.length ∧
      ((call.run file).error = none → count = call.text.length) := by
  have htake : ∀ {written : Nat}, written ≤ call.data.length →
      call.text.take written = call.data.take written := List.take_append_of_le_length
  have hwritten : min call.answer.taken call.data.length ≤ call.data.length := Nat.min_le_right _ _
  have hless : call.data.length ≤ call.text.length := by simp [WriteCall.text]
  unfold WriteCall.run
  cases hline : call.line with
  | false =>
    have htext : call.text = call.data := by simp [WriteCall.text, hline]
    refine ⟨_, by rw [htake hwritten]; rfl, rfl, hwritten.trans hless, ?_⟩
    rw [htext, if_neg Bool.false_ne_true, fileWrite, if_neg (by decide)]
    intro hnone
    by_contra hne
    rw [if_neg hne] at hnone
    cases hnone
  | true =>
    have htext : call.text = call.data ++ [lineFeed] := by simp [WriteCall.text, hline]
    have hend : call.text.length = call.data.length + 1 := by rw [htext, List.length_append]; rfl
    rw [if_pos rfl, fileWriteLine, if_neg (by decide)]
    split
    · refine ⟨_, by rw [htake hwritten], rfl, hwritten.trans hless, by rintro ⟨⟩⟩
    · next hall =>
      rw [not_not.mp hall]
      have hwhole : file ++ call.data.take call.data.length ++ [lineFeed]
          = file ++ call.text.take call.text.length := by
        rw [List.take_length, List.take_length, htext, List.append_assoc]
      split
      · exact ⟨_, by rw [htake (Nat.le_refl _)], rfl, hless, by rintro ⟨⟩⟩
      · split
        · exact ⟨_, hwhole, by dsimp only; omega, Nat.le_refl _, by rintro ⟨⟩⟩
        · exact ⟨_, hwhole, by dsimp only; omega, Nat.le_refl _, fun _ => rfl⟩

/-- Calls without an error append their texts. -/
theorem writeAll_texts (hlength : ∀ call ∈ calls, call.data.length ≤ int64Max) (file : Bytes)
    (hclear : ∀ error ∈ (writeAll file calls).2, error = none) :
    (writeAll file calls).1 = file ++ calls.flatMap WriteCall.text := by
  induction calls generalizing file with
  | nil => rw [writeAll, List.flatMap_nil, List.append_nil]
  | cons call calls ih =>
    obtain ⟨hfirst, hrest⟩ := List.forall_mem_cons.mp hclear
    obtain ⟨count, hfile, _, _, hall⟩ := call.run_spec (hlength call List.mem_cons_self) file
    rw [hall hfirst, List.take_length] at hfile
    rw [writeAll, ih (fun other hother => hlength other (List.mem_cons_of_mem _ hother)) _ hrest,
      hfile, List.append_assoc, List.flatMap_cons]

/-! ## Written and read -/

variable {texts : List Bytes}

/-- Texts as the lines of a file. -/
def fileLines (texts : List Bytes) : Bytes := texts.flatMap fun text => text ++ [lineFeed]

theorem fileLines_cons (text : Bytes) (texts : List Bytes) :
    fileLines (text :: texts) = text ++ lineFeed :: fileLines texts := by
  rw [fileLines, List.flatMap_cons, List.append_assoc]
  rfl

theorem fileLines_wellFormed (h : ∀ text ∈ texts, WellFormed text) :
    WellFormed (fileLines texts) := by
  induction texts with
  | nil => exact .nil
  | cons text texts ih =>
    obtain ⟨htext, hrest⟩ := List.forall_mem_cons.mp h
    have hfeed : WellFormed [lineFeed] := ⟨[Char.ofNat 10], by decide +kernel⟩
    rw [fileLines_cons]
    exact htext.append (hfeed.append (ih hrest))

theorem count_fileLines (texts : List Bytes) :
    (fileLines texts).count lineFeed = texts.length + (texts.map (List.count lineFeed)).sum := by
  induction texts with
  | nil => rfl
  | cons text texts ih =>
    rw [fileLines_cons, List.count_append, List.count_cons_self, ih, List.map_cons, List.sum_cons,
      List.length_cons]
    omega

theorem returnedLines_fileLines (hfree : ∀ text ∈ texts, lineFeed ∉ text) :
    returnedLines (fileLines texts) = texts.map stripReturn := by
  induction texts with
  | nil => decide +kernel
  | cons text texts ih =>
    obtain ⟨hfirst, hrest⟩ := List.forall_mem_cons.mp hfree
    rw [fileLines_cons, returnedLines, endedParts_cons hfirst, finalPart_cons hfirst, List.map_cons,
      List.cons_append, List.map_cons, ← ih hrest, returnedLines]

theorem stripReturn_eq_iff (bytes : Bytes) : stripReturn bytes = bytes ↔
    bytes.getLast? ≠ some carriageReturn := by
  rw [stripReturn]
  split
  · next hlast =>
    obtain ⟨front, rfl⟩ := List.getLast?_eq_some_iff.mp hlast
    simp
  · next hlast => exact iff_of_true rfl hlast

/-- The lines of the file are the texts exactly if no line feed is in them, and no
    carriage return at the end of one. -/
theorem returnedLines_eq_iff (texts : List Bytes) : returnedLines (fileLines texts) = texts ↔
    ∀ text ∈ texts, lineFeed ∉ text ∧ text.getLast? ≠ some carriageReturn := by
  constructor
  · intro hsame
    -- each line feed ends a line, so there are no more of them than texts
    have hfree : ∀ text ∈ texts, lineFeed ∉ text := by
      have hlength := congrArg List.length hsame
      rw [returnedLines, List.length_append, List.length_map, endedParts_length, count_fileLines]
        at hlength
      have hzero : (texts.map (List.count lineFeed)).sum = 0 := by omega
      intro text htext
      exact List.count_eq_zero.mp
        (List.sum_eq_zero_iff_forall_eq_nat.mp hzero _ (List.mem_map_of_mem htext))
    rw [returnedLines_fileLines hfree] at hsame
    intro text htext
    have hstrip := List.map_inj_left.mp (hsame.trans (List.map_id texts).symm) text htext
    exact ⟨hfree text htext, (stripReturn_eq_iff text).mp hstrip⟩
  · intro h
    rw [returnedLines_fileLines fun text htext => (h text htext).1]
    have hstrip : texts.map stripReturn = texts.map id :=
      List.map_inj_left.mpr fun text htext => (stripReturn_eq_iff text).mpr (h text htext).2
    rw [hstrip, List.map_id]

/-- Lines that are written one after the other without an error, and read without
    one, are the lines that were written exactly if no line feed is in them, and no
    carriage return at the end of one. -/
theorem written_lines_read_iff (alloc : Nat → Bool) (streamError : Bool)
    (hlines : ∀ call ∈ calls, call.line = true ∧ call.data.length ≤ int64Max ∧ WellFormed call.data)
    (hclear : ∀ error ∈ (writeAll [] calls).2, error = none) :
    ∃ reading, readLines alloc streamError (writeAll [] calls).1 = .ok reading ∧
      ((∀ size, alloc size = true) → streamError = false → (writeAll [] calls).1.length ≤ int64Max →
        reading.error = none) ∧
      (reading.error = none → (reading.lines = calls.map WriteCall.data ↔
        ∀ call ∈ calls, lineFeed ∉ call.data ∧ call.data.getLast? ≠ some carriageReturn)) := by
  have hfile : (writeAll [] calls).1 = fileLines (calls.map WriteCall.data) := by
    rw [writeAll_texts (fun call hcall => (hlines call hcall).2.1) [] hclear, fileLines,
      List.flatMap_map]
    refine List.flatMap_congr fun call hcall => ?_
    rw [WriteCall.text, (hlines call hcall).1]
    rfl
  have hwell : WellFormed (fileLines (calls.map WriteCall.data)) :=
    fileLines_wellFormed (List.forall_mem_map.mpr fun call hcall => (hlines call hcall).2.2)
  obtain ⟨reading, hreading, hreturned, herror⟩ := readLines_spec alloc streamError _ hwell
  refine ⟨reading, hfile ▸ hreading, hfile ▸ herror, fun hnone => ?_⟩
  rw [hreturned hnone, returnedLines_eq_iff, List.forall_mem_map]

/-- Two lines, the second one empty. -/
def writtenCalls : List WriteCall := [⟨⟨8, true⟩, [0x61], true⟩, ⟨⟨8, true⟩, [], true⟩]

theorem written_lines_read_sample : ∃ reading,
    readLines (fun _ => true) false (writeAll [] writtenCalls).1 = .ok reading ∧
      reading.lines = [[0x61], []] := by
  have ha : WellFormed [0x61] := ⟨"a".toList, by decide +kernel⟩
  obtain ⟨reading, hreading, herror, hiff⟩ := @written_lines_read_iff writtenCalls
    (fun _ => true) false (by simp [writtenCalls, int64Max, ha, WellFormed.nil]) (by decide)
  exact ⟨reading, hreading, (hiff (herror (fun _ => rfl) rfl (by decide))).mpr (by decide)⟩

end Cwhip.Runtime
