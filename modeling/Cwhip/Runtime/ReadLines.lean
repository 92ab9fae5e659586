/-
  Cwhip.Runtime.ReadLines

  Reading the lines of a file (`read_line_bytes` and `cwhip_file_read_lines` in
  `RuntimeStdlib.c`).

  A line that the stream ends counts as no line when nothing is left of it, and
  this is asked only after a carriage return has been taken off its end.
-/

import Cwhip.Lib.Lines
import Cwhip.Runtime.TextDecode

namespace Cwhip.Runtime

open Cwhip.Lib Cwhip.Lib.Utf8

/-! ## The runtime -/

def lineFeed : UInt8 := 0x0a

def carriageReturn : UInt8 := 0x0d

/-- `ENOMEM`, `EOVERFLOW`, and `EIO` for a stream in error. -/
inductive ReadError where
  | noMemory
  | overflow
  | io
  deriving DecidableEq

/-- The capacity asked for when a line has filled its buffer. -/
def grownCapacity (capacity : Nat) : Nat :=
  if int64Max / 2 < capacity then int64Max else capacity * 2

/-- The loop of `read_line_bytes` on the bytes that `fgetc` returns, the capacity
    and the line so far: the line, what is left of the stream, and whether it has
    ended.  `alloc` says which sizes can be allocated. -/
def readCharacters (alloc : Nat → Bool) :
    Bytes → Nat → Bytes → Except ReadError (Bytes × Bytes × Bool)
  | [], _, bytes => .ok (bytes, [], true)
  | character :: rest, capacity, bytes =>
    if character = lineFeed then .ok (bytes, rest, false)
    else if bytes.length = int64Max then .error .overflow
    else if bytes.length = capacity then
      if alloc (grownCapacity capacity) then
        readCharacters alloc rest (grownCapacity capacity) (bytes ++ [character])
      else .error .noMemory
    else readCharacters alloc rest capacity (bytes ++ [character])

/-- The line without a carriage return at its end. -/
def stripReturn (bytes : Bytes) : Bytes :=
  if bytes.getLast? = some carriageReturn then bytes.dropLast else bytes

/-- `read_line_bytes`: the line, if there is one, and what is left. -/
def readLineBytes (alloc : Nat → Bool) (stream : Bytes) :
    Except ReadError (Option (Bytes × Bytes)) :=
  if alloc 128 then do
    let (bytes, rest, ended) ← readCharacters alloc stream 128 []
    let used := stripReturn bytes
    if ended = true ∧ used = [] then .ok none else .ok (some (used, rest))
  else .error .noMemory

/-- The lines of a call, and the error it leaves. -/
structure Reading where
  lines : List Bytes
  error : Option ReadError
  deriving DecidableEq

/-! ## Characters -/

/-- What the loop has read: a part of the stream without line feeds, up to one
    or to the end. -/
structure LineRead (stream bytes part line rest : Bytes) (ended : Bool) : Prop where
  line_eq : line = bytes ++ part
  free : lineFeed ∉ part
  bounded : line.length ≤ int64Max
  stream_eq : stream = if ended then part else part ++ lineFeed :: rest
  rest_eq : ended = true → rest = []

variable {bytes line rest stream : Bytes} {alloc : Nat → Bool}

theorem readCharacters_spec (alloc : Nat → Bool) (stream : Bytes) {capacity : Nat}
    (hbytes : bytes.length ≤ int64Max) {ended : Bool}
    (h : readCharacters alloc stream capacity bytes = .ok (line, rest, ended)) :
    ∃ part, LineRead stream bytes part line rest ended := by
  induction stream generalizing capacity bytes with
  | nil =>
    cases h
    exact ⟨[], (List.append_nil _).symm, List.not_mem_nil, hbytes, rfl, fun _ => rfl⟩
  | cons character stream ih =>
    rw [readCharacters] at h
    split at h
    · next hfeed =>
      cases h
      exact ⟨[], (List.append_nil _).symm, List.not_mem_nil, hbytes, by rw [hfeed]; rfl,
        fun h => nomatch h⟩
    · next hfeed =>
      split at h
      · cases h
      · next hfull =>
        have hnext : (bytes ++ [character]).length ≤ int64Max := by
          rw [List.length_append, List.length_singleton]
          omega
        -- with a new buffer or without one, the loop goes on after the byte
        suffices hrest : ∃ capacity',
            readCharacters alloc stream capacity' (bytes ++ [character]) = .ok (line,
                rest, ended) by
          obtain ⟨capacity', hrest⟩ := hrest
          obtain ⟨part, hpart⟩ := ih hnext hrest
          refine ⟨character :: part, ?_, ?_, hpart.bounded, ?_, hpart.rest_eq⟩
          · rw [hpart.line_eq, List.append_assoc, List.singleton_append]
          · rw [List.mem_cons, not_or]
            exact ⟨Ne.symm hfeed, hpart.free⟩
          · rw [hpart.stream_eq]
            split <;> rfl
        split at h
        · split at h
          · exact ⟨_, h⟩
          · cases h
        · exact ⟨_, h⟩

theorem readCharacters_ok (halloc : ∀ size, alloc size = true) (stream : Bytes)
    (h : bytes.length + stream.length ≤ int64Max) (capacity : Nat) :
    ∃ result, readCharacters alloc stream capacity bytes = .ok result := by
  induction stream generalizing capacity bytes with
  | nil => exact ⟨_, rfl⟩
  | cons character stream ih =>
    rw [List.length_cons] at h
    have hnext : (bytes ++ [character]).length + stream.length ≤ int64Max := by
      rw [List.length_append, List.length_singleton]
      omega
    rw [readCharacters, halloc, if_pos rfl, if_neg (show ¬ bytes.length = int64Max by omega)]
    split
    · exact ⟨_, rfl⟩
    · split
      · exact ih hnext _
      · exact ih hnext _

theorem readLineBytes_some (h : readLineBytes alloc stream = .ok (some (line, rest))) :
    ∃ part bytes ended, LineRead stream [] part bytes rest ended ∧ line = stripReturn part ∧
      (ended = true → line ≠ []) := by
  rw [readLineBytes] at h
  split at h
  · obtain ⟨⟨bytes, rest', ended⟩, hread, h⟩ := bind_eq_ok.mp h
    dsimp only at h
    obtain ⟨part, hpart⟩ := readCharacters_spec alloc stream (Nat.zero_le _) hread
    have hbytes : bytes = part := hpart.line_eq
    split at h
    · cases h
    · next hsome =>
      cases h
      exact ⟨part, bytes, ended, hpart, by rw [hbytes], fun hended hnil => hsome ⟨hended, hnil⟩⟩
  · cases h

theorem stripReturn_nil_iff :
    stripReturn bytes = [] ↔ bytes = [] ∨ bytes = [carriageReturn] := by
  rw [stripReturn]
  rcases List.eq_nil_or_concat bytes with rfl | ⟨front, last, rfl⟩
  · simp
  · simp only [List.concat_eq_append, List.getLast?_concat, Option.some.injEq, List.dropLast_concat]
    split
    · next hlast =>
      rw [hlast]
      simp
    · next hlast =>
      have hother : front ++ [last] ≠ [carriageReturn] := by
        intro hsame
        have hend := congrArg List.getLast? hsame
        rw [List.getLast?_concat] at hend
        exact hlast (Option.some.inj hend)
      simp [hother]

theorem readLineBytes_none
    (h : readLineBytes alloc stream = .ok none) : stream = [] ∨ stream = [carriageReturn] := by
  rw [readLineBytes] at h
  split at h
  · obtain ⟨⟨bytes, rest, ended⟩, hread, h⟩ := bind_eq_ok.mp h
    dsimp only at h
    obtain ⟨part, hpart⟩ := readCharacters_spec alloc stream (Nat.zero_le _) hread
    split at h
    · next hnone =>
      have hbytes : bytes = part := hpart.line_eq
      rw [hpart.stream_eq, if_pos hnone.1, ← hbytes]
      exact stripReturn_nil_iff.mp hnone.2
    · cases h
  · cases h

theorem readLineBytes_shorter
    (h : readLineBytes alloc stream = .ok (some (line, rest))) : rest.length < stream.length := by
  obtain ⟨part, bytes, ended, hread, hline, hne⟩ := readLineBytes_some h
  have hstream := hread.stream_eq
  cases hended : ended with
  | true =>
    rw [hended, if_pos rfl] at hstream
    rw [hread.rest_eq hended, hstream, List.length_nil, List.length_pos_iff]
    rintro rfl
    exact hne hended (by rw [hline]; rfl)
  | false =>
    rw [hended] at hstream
    rw [hstream, if_neg Bool.false_ne_true, List.length_append, List.length_cons]
    omega

/-- The loop of `cwhip_file_read_lines`, on a stream that is in error or not
    once its bytes are read. -/
def readLines (alloc : Nat → Bool) (streamError : Bool) (stream : Bytes) :
    Except NativeFault Reading :=
  match _h : readLineBytes alloc stream with
  | .error error => .ok ⟨[], some error⟩
  | .ok none => .ok ⟨[], if streamError then some .io else none⟩
  | .ok (some (line, rest)) => do
    let value ← newSpec line
    let after ← readLines alloc streamError rest
    return ⟨value :: after.lines, after.error⟩
termination_by stream.length
decreasing_by exact readLineBytes_shorter _h

/-- The lines of a content, without the carriage returns at their ends. -/
def contentLines (content : Bytes) : List Bytes := (lines lineFeed content).map stripReturn

/-! ## Texts -/

theorem wellFormed_cut {front : Bytes} {byte : UInt8} (hascii : isContinuation byte = false)
    (h : WellFormed (front ++ byte :: rest)) : WellFormed front ∧ WellFormed (byte :: rest) := by
  have hboundary : CharBoundary (front ++ byte :: rest) front.length := by
    apply charBoundary_of_lead h
    · intro other hother
      rw [List.getElem?_append_right (Nat.le_refl _), Nat.sub_self, List.getElem?_cons_zero]
        at hother
      rw [← Option.some.inj hother]
      exact hascii
    · rw [List.length_append]
      omega
  obtain ⟨hbefore, hafter, -⟩ := hboundary
  rw [List.take_left] at hbefore
  rw [List.drop_left] at hafter
  exact ⟨hbefore, hafter⟩

theorem wellFormed_line {part : Bytes} (h : WellFormed (part ++ lineFeed :: rest)) :
    WellFormed part ∧ WellFormed rest := by
  obtain ⟨hpart, hrest⟩ := wellFormed_cut (show isContinuation lineFeed = false from rfl) h
  refine ⟨hpart, ?_⟩
  have hfeed : encode [Char.ofNat 10] = [lineFeed] := by decide +kernel
  apply wellFormed_of_append
  rw [hfeed]
  exact hrest

theorem wellFormed_stripReturn (h : WellFormed bytes) : WellFormed (stripReturn bytes) := by
  rw [stripReturn]
  split
  · next hlast =>
    obtain ⟨front, rfl⟩ := List.getLast?_eq_some_iff.mp hlast
    rw [List.dropLast_concat]
    exact (wellFormed_cut (show isContinuation carriageReturn = false from rfl) h).1
  · exact h

theorem stripReturn_length_le (bytes : Bytes) : (stripReturn bytes).length ≤ bytes.length := by
  rw [stripReturn]
  split
  · rw [List.length_dropLast]
    omega
  · exact Nat.le_refl _

/-! ## Reading -/

/-- The lines that are returned: nothing is left of a final carriage return. -/
def returnedLines (content : Bytes) : List Bytes :=
  (endedParts lineFeed content).map stripReturn ++
    if stripReturn (finalPart lineFeed content) = [] then []
    else [stripReturn (finalPart lineFeed content)]

theorem readLines_spec (alloc : Nat → Bool) (streamError : Bool) (stream : Bytes)
    (h : WellFormed stream) :
    ∃ reading, readLines alloc streamError stream = .ok reading ∧
      (reading.error = none → reading.lines = returnedLines stream) ∧
      ((∀ size, alloc size = true) → streamError = false → stream.length ≤ int64Max →
        reading.error = none) := by
  induction hlength : stream.length using Nat.strong_induction_on generalizing stream with
  | h length ih =>
    rw [readLines]
    split
    · next error hread =>
      refine ⟨_, rfl, ?_, ?_⟩
      · intro hnone
        cases hnone
      intro halloc _ hbounded
      -- with memory for every line no read fails
      obtain ⟨result, hresult⟩ := readCharacters_ok halloc stream
        (show ([] : Bytes).length + stream.length ≤ int64Max by rw [List.length_nil]; omega) 128
      rw [readLineBytes, if_pos (halloc 128), hresult] at hread
      simp only [bind, Except.bind] at hread
      split at hread <;> cases hread
    · next hread =>
      refine ⟨_, rfl, ?_, fun _ herror _ => by rw [herror]; rfl⟩
      intro _
      show [] = returnedLines stream
      rcases readLineBytes_none hread with rfl | rfl
      · decide +kernel
      · decide +kernel
    · next line rest hread =>
      obtain ⟨part, bytes, ended, hpart, rfl, hne⟩ := readLineBytes_some hread
      have hshorter := readLineBytes_shorter hread
      have hstream := hpart.stream_eq
      have hbounded : (stripReturn part).length ≤ int64Max := by
        have hline : bytes = part := hpart.line_eq
        exact (stripReturn_length_le part).trans (hline ▸ hpart.bounded)
      have hwell : WellFormed part ∧ WellFormed rest := by
        cases hended : ended with
        | true =>
          rw [hended, if_pos rfl] at hstream
          rw [hpart.rest_eq hended, ← hstream]
          exact ⟨h, .nil⟩
        | false =>
          rw [hended, if_neg Bool.false_ne_true] at hstream
          exact wellFormed_line (hstream ▸ h)
      -- the induction is on what is left of the stream
      obtain ⟨after, hafter, hlines, herror⟩ := ih rest.length (hlength ▸ hshorter) rest hwell.2 rfl
      rw [newSpec_ok hbounded (wellFormed_stripReturn hwell.1), hafter]
      refine ⟨_, rfl, ?_, fun halloc hstreamError hlong => herror halloc hstreamError (by omega)⟩
      intro hnone
      show stripReturn part :: after.lines = _
      rw [hlines hnone]
      cases hended : ended with
      | true =>
        rw [hended, if_pos rfl] at hstream
        obtain ⟨hparts, hfinal⟩ := parts_free hpart.free
        rw [hpart.rest_eq hended, hstream, returnedLines, returnedLines, hparts, hfinal,
          if_neg (hne hended)]
        rfl
      | false =>
        rw [hended, if_neg Bool.false_ne_true] at hstream
        rw [hstream, returnedLines, returnedLines, endedParts_cons hpart.free,
          finalPart_cons hpart.free, List.map_cons, List.cons_append]

theorem returnedLines_iff (content : Bytes) :
    returnedLines content = contentLines content ↔ finalPart lineFeed content ≠
    [carriageReturn] := by
  rw [returnedLines, contentLines, lines, List.map_append, List.append_cancel_left_eq]
  by_cases hnil : finalPart lineFeed content = []
  · rw [hnil]
    decide +kernel
  · rw [if_neg hnil, List.map_singleton]
    by_cases hreturn : finalPart lineFeed content = [carriageReturn]
    · rw [hreturn]
      decide +kernel
    · rw [if_neg (fun hstrip => (stripReturn_nil_iff.mp hstrip).elim hnil hreturn)]
      exact ⟨fun _ => hreturn, fun _ => rfl⟩

/-- `readLines` of a well-formed content returns, without an error if the reads
    and the allocations succeed, and then with the lines of the content, as many
    as its line feeds and one more for a last part that is not empty, exactly
    when this part is not one carriage return. -/
theorem read_lines_iff (alloc : Nat → Bool) (streamError : Bool) {content : Bytes}
    (h : WellFormed content) :
    ∃ reading, readLines alloc streamError content = .ok reading ∧
      ((∀ size, alloc size = true) → streamError = false → content.length ≤ int64Max →
        reading.error = none) ∧
      (reading.error = none →
        (reading.lines = contentLines content ∧
          reading.lines.length = content.count lineFeed + (if finalPart lineFeed content = [] then 0
          else 1) ↔
        finalPart lineFeed content ≠ [carriageReturn])) := by
  obtain ⟨reading, hreading, hlines, herror⟩ := readLines_spec alloc streamError content h
  refine ⟨reading, hreading, herror, fun hnone => ?_⟩
  have hcount : (contentLines content).length
      = content.count lineFeed + if finalPart lineFeed content = [] then 0 else 1 := by
    rw [contentLines, List.length_map, lines_length]
  rw [hlines hnone, ← hcount, ← returnedLines_iff]
  exact ⟨fun h => h.1, fun h => ⟨h, congrArg List.length h⟩⟩

/-- `a`, a line feed, and a final carriage return. -/
def returnContent : Bytes := [0x61, lineFeed, carriageReturn]

theorem returnContent_wellFormed : WellFormed returnContent := ⟨"a\n\r".toList, by decide +kernel⟩

/-- Three lines, the second of which is empty, and no line feed at the end. -/
def mixedContent : Bytes := [0x61, carriageReturn, lineFeed, carriageReturn, lineFeed, 0x62]

theorem mixedContent_wellFormed : WellFormed mixedContent :=
    ⟨"a\r\n\r\nb".toList, by decide +kernel⟩

/-- All lines of the mixed content are returned, those of the other are not. -/
theorem read_lines_mixed :
    (∃ reading, readLines (fun _ => true) false mixedContent = .ok reading ∧
      reading.lines = [[0x61], [], [0x62]]) ∧
    ∃ reading, readLines (fun _ => true) false returnContent = .ok reading ∧
      reading.lines ≠ contentLines returnContent := by
  constructor
  · obtain ⟨reading, hreading, herror, hiff⟩ :=
      read_lines_iff (fun _ => true) false mixedContent_wellFormed
    have hlines := (hiff (herror (fun _ => rfl) rfl (by decide))).mpr (by decide +kernel)
    exact ⟨reading, hreading, hlines.1.trans (by decide +kernel)⟩
  · obtain ⟨reading, hreading, herror, hiff⟩ :=
      read_lines_iff (fun _ => true) false returnContent_wellFormed
    refine ⟨reading, hreading, fun hlines => ?_⟩
    have hlength : reading.lines.length = (contentLines returnContent).length := by rw [hlines]
    rw [contentLines, List.length_map, lines_length] at hlength
    exact (hiff (herror (fun _ => rfl) rfl (by decide))).mp ⟨hlines, hlength⟩ (by decide +kernel)

/-- The content has two lines, and one is returned. -/
theorem returnContent_loses : ¬ ∀ (alloc : Nat → Bool) (streamError : Bool) (content : Bytes),
    WellFormed content → ∀ reading, readLines alloc streamError content = .ok reading →
      reading.error = none → reading.lines = contentLines content := by
  intro h
  obtain ⟨reading, hreading, hlines, herror⟩ :=
    readLines_spec (fun _ => true) false returnContent returnContent_wellFormed
  have hnone := herror (fun _ => rfl) rfl (by decide)
  have hsame := h _ _ _ returnContent_wellFormed reading hreading hnone
  rw [hlines hnone] at hsame
  exact absurd hsame (by decide +kernel)

end Cwhip.Runtime
