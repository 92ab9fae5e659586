/-
  Cwhip.CodeGen.StringConstants

  String literals from their source text to the constants in emitted code
  (`CodeGeneratorPrint.cpp`).

  Two codings meet: the lexer resolves the escapes of the language, and
  `llvmBytes` writes the escapes of LLVM.
-/

import Cwhip.Lib.Numerals
import Cwhip.Parser.LexerRuns
import Cwhip.Parser.Utf8Validators

namespace Cwhip.CodeGen

open Cwhip.Lib (numeral numeral_toDigits digitValue)
open Cwhip.Lib.Utf8 (WellFormed)
open Cwhip.Parser
open Cwhip.Runtime (byte_cases)

/-! ## Literals -/

/-- The escapes of the grammar, with the characters they stand for. -/
def escapes : List (Char × Char) :=
  [('e', '\x1b'), ('n', '\n'), ('r', '\r'), ('t', '\t'), ('\\', '\\'), ('"', '"')]

/-- A character that stands for itself between double quotes. -/
def DoubleChar (value : Char) : Prop := value ≠ '"' ∧ value ≠ '\\' ∧ value ≠ '\r' ∧ value ≠ '\n'

instance (value : Char) : Decidable (DoubleChar value) := inferInstanceAs (Decidable (_ ∧ _))

/-- Ways to write a text between double quotes: `DOUBLE_STRING` of the grammar. -/
inductive Spells : Text → Text → Prop where
  | nil : Spells [] []
  | plain {value : Char} {text spelled : Text} (hvalue : DoubleChar value)
      (h : Spells text spelled) :
      Spells (value :: text) (value :: spelled)
  | escape {entry : Char × Char} {text spelled : Text} (hentry : entry ∈ escapes)
      (h : Spells text spelled) :
      Spells (entry.2 :: text) ('\\' :: entry.1 :: spelled)

theorem exists_spells (text : Text) : ∃ spelled, Spells text spelled := by
  induction text with
  | nil => exact ⟨[], .nil⟩
  | cons value text ih =>
    obtain ⟨spelled, h⟩ := ih
    by_cases hvalue : DoubleChar value
    · exact ⟨value :: spelled, .plain hvalue h⟩
    · -- what cannot stand for itself has an escape
      have hescape : ∃ escaped, (escaped, value) ∈ escapes := by
        unfold DoubleChar at hvalue
        simp only [ne_eq, not_and_or, not_not] at hvalue
        rcases hvalue with rfl | rfl | rfl | rfl
        · exact ⟨'"', by decide⟩
        · exact ⟨'\\', by decide⟩
        · exact ⟨'r', by decide⟩
        · exact ⟨'n', by decide⟩
      obtain ⟨escaped, hentry⟩ := hescape
      exact ⟨'\\' :: escaped :: spelled, .escape hentry h⟩

theorem unescape_of_mem {entry : Char × Char} (h : entry ∈ escapes) : unescape entry.1 =
    some entry.2 := by
  revert entry
  decide

variable {start location : SourceLocation} {value : Char} {rest spelled : Text} {bytes : Bytes}

theorem stringValue_plain (h : DoubleChar value) :
    stringValue '"' start (value :: rest) location =
      (stringValue '"' start rest (location.after value) >>= fun behind => pure (value :: behind.1,
      behind.2 + 1)) := by
  obtain ⟨hquote, hbackslash, hcr, hlf⟩ := h
  have hescape : startsEscape '"' value = false := by simp [startsEscape, hbackslash]
  rw [stringValue.eq_def]
  dsimp only
  rw [if_neg hquote, if_neg (not_or.mpr ⟨hlf, hcr⟩), hescape, if_neg Bool.false_ne_true]

theorem stringValue_escape {escaped meant : Char} (h : unescape escaped = some meant) :
    stringValue '"' start ('\\' :: escaped :: rest) location =
      (stringValue '"' start rest ((location.after '\\').after escaped) >>= fun behind =>
        pure (meant :: behind.1, behind.2 + 2)) := by
  have hmeant (location : SourceLocation) : escapedCharacter escaped location = .ok meant := by
    rw [escapedCharacter, h]
  rw [stringValue.eq_def]
  dsimp only
  rw [if_neg (by decide), if_neg (by decide), if_pos (by decide), hmeant]
  rfl

theorem stringValue_of_spells {text : Text} (h : Spells text spelled)
    (start location : SourceLocation) (after : Text) :
    stringValue '"' start (spelled ++ '"' :: after) location = .ok (text, spelled.length) := by
  induction h generalizing location with
  | nil =>
    rw [List.nil_append, stringValue.eq_def]
    exact if_pos rfl
  | plain hvalue _ ih =>
    rw [List.cons_append, stringValue_plain hvalue, ih]
    rfl
  | escape hentry _ ih =>
    rw [List.cons_append, List.cons_append, stringValue_escape (unescape_of_mem hentry), ih]
    rfl

theorem bytesOf_textOf (bytes : Bytes) : bytesOf (textOf bytes) = bytes := by
  rw [bytesOf, textOf, List.map_map]
  apply List.map_id''
  intro byte
  apply UInt8.toNat_inj.mp
  show (Char.ofNat byte.toNat).toNat.toUInt8.toNat = byte.toNat
  rw [toNat_ofNat_byte]
  exact Nat.mod_eq_of_lt byte.toNat_lt

theorem toUInt8_ofNat (byte : UInt8) : (Char.ofNat byte.toNat).toUInt8 = byte :=
  (List.cons.inj (bytesOf_textOf [byte])).1

theorem scanToken_of_spells (hbytes : WellFormed bytes) (h : Spells (textOf bytes) spelled)
    (depth : Nat) {s : LexerState} {after : Text} (hs : s.rest = '"' :: (spelled ++ '"' :: after)) :
    scanToken depth s =
      .ok ([⟨.string, textOf bytes, s.location, true⟩], s.advance (spelled.length + 2)) := by
  have hpeek : s.peek 0 = '"' := peek_of_head (by rw [hs]; rfl)
  have hrest : (s.advance 1).rest = spelled ++ '"' :: after := by
    rw [LexerState.advance_rest, hs]
    rfl
  have hvalid : isValidUtf8 (bytesOf (textOf bytes)) = true := by
    rw [bytesOf_textOf]
    exact (isValidUtf8_iff bytes).mpr hbytes
  have hstring : scanString '"' s =
      .ok (⟨.string, textOf bytes, s.location, true⟩, s.advance (spelled.length + 2)) := by
    rw [scanString, hrest, stringValue_of_spells h]
    show (if isValidUtf8 (bytesOf (textOf bytes)) = false then _ else _) = _
    rw [hvalid]
    rfl
  unfold scanToken
  dsimp only
  rw [hpeek, if_neg (by simp), if_neg (by decide), if_neg (by simp; decide), if_pos (.inl rfl),
    hstring]
  rfl

/-! ## Constants -/

/-- Two uppercase hexadecimal digits, filled up with zeros. -/
def hexadecimal (byte : UInt8) : Text :=
  let digits := (Nat.toDigits 16 byte.toNat).map Char.toUpper
  List.replicate (2 - digits.length) '0' ++ digits

def llvmByte (byte : UInt8) : Text :=
  if 0x20 ≤ byte ∧ byte ≤ 0x7e ∧ byte ≠ '"'.toUInt8 ∧
    byte ≠ '\\'.toUInt8 then [Char.ofNat byte.toNat]
  else '\\' :: hexadecimal byte

def llvmBytes (bytes : Bytes) : Text := bytes.flatMap llvmByte

def stringName (nextString : Nat) : Text := "@.cw.string.".toList ++ decimal nextString

/-- The name of the constant, and the line that is added to `stringGlobals_`. -/
def internString (nextString : Nat) (bytes : Bytes) : Text × Text :=
  (stringName nextString,
    stringName nextString ++ " = private unnamed_addr constant [".toList ++ decimal bytes.length ++
      " x i8] c\"".toList ++ llvmBytes bytes ++ "\"\n".toList)

/-! ## What LLVM reads -/

/-- What stands behind a backslash, if it makes an escape: the byte, and how many
    characters it takes.  A backslash stands for itself, two hexadecimal digits for
    a byte. -/
def lexedEscape : Text → Option (UInt8 × Nat)
  | [] => none
  | first :: rest =>
    if first = '\\' then some (first.toUInt8, 1)
    else do
      let high ← digitValue 16 first
      let low ← rest.head? >>= digitValue 16
      return (UInt8.ofNat (16 * high + low), 2)

/-- The bytes of a string, behind so many characters. -/
def unescapeLexed : Nat → Text → Bytes
  | _, [] => []
  | skip + 1, _ :: rest => unescapeLexed skip rest
  | 0, value :: rest =>
    match if value = '\\' then lexedEscape rest else none with
    | some (byte, length) => byte :: unescapeLexed length rest
    | none => value.toUInt8 :: unescapeLexed 0 rest

def behind (front text : Text) : Option Text :=
  if text.take front.length = front then some (text.drop front.length) else none

/-- A line that defines a string: its name, the length of its array, and its bytes.
    The string ends at the next quote, and the line ends there. -/
def readString (line : Text) : Option (Text × Nat × Bytes) := do
  let name := line.takeWhile fun value => value ≠ ' '
  let rest ← behind " = private unnamed_addr constant [".toList (line.drop name.length)
  let digits := rest.takeWhile Char.isDigit
  let length ← numeral 10 digits
  let rest ← behind " x i8] c\"".toList (rest.drop digits.length)
  let escaped := rest.takeWhile fun value => value ≠ '"'
  let _ ← behind "\"\n".toList (rest.drop escaped.length)
  return (name, length, unescapeLexed 0 escaped)

theorem hexadecimal_digits (byte : UInt8) :
    (hexadecimal byte).map (digitValue 16) = [some (byte.toNat / 16), some (byte.toNat % 16)] ∧
      ∀ value ∈ hexadecimal byte, value ≠ '\\' ∧ value ≠ '"' := by
  have hdigits : (hexadecimal byte).map (digitValue 16) = [some (byte.toNat / 16),
      some (byte.toNat % 16)] ∧
      ((hexadecimal byte).all fun value => value ≠ '\\' && value ≠ '"') = true := by
    revert byte
    apply byte_cases
    decide +kernel
  refine ⟨hdigits.1, fun value hvalue => ?_⟩
  have hplain := List.all_eq_true.mp hdigits.2 value hvalue
  rwa [Bool.and_eq_true, decide_eq_true_eq, decide_eq_true_eq] at hplain

theorem hexadecimal_eq (byte : UInt8) :
    ∃ first second, hexadecimal byte = [first, second] ∧ first ≠ '\\' ∧
      digitValue 16 first = some (byte.toNat / 16) ∧ digitValue 16 second =
      some (byte.toNat % 16) := by
  obtain ⟨hdigits, hvalues⟩ := hexadecimal_digits byte
  generalize hexadecimal byte = digits at hdigits hvalues ⊢
  obtain ⟨first, rest, rfl, hfirst, hrest⟩ := List.map_eq_cons_iff.mp hdigits
  obtain ⟨second, rest, rfl, hsecond, hrest⟩ := List.map_eq_cons_iff.mp hrest
  obtain rfl := List.map_eq_nil_iff.mp hrest
  exact ⟨first, second, rfl, (hvalues first List.mem_cons_self).1, hfirst, hsecond⟩

theorem unescapeLexed_llvmByte (byte : UInt8) (rest : Text) :
    unescapeLexed 0 (llvmByte byte ++ rest) = byte :: unescapeLexed 0 rest := by
  rw [llvmByte]
  split
  · rename_i hplain
    have hbackslash : Char.ofNat byte.toNat ≠ '\\' := fun h =>
      hplain.2.2.2 (by rw [← h, toUInt8_ofNat])
    rw [List.singleton_append, unescapeLexed, if_neg hbackslash, toUInt8_ofNat]
  · obtain ⟨first, second, heq, hfirst, hhigh, hlow⟩ := hexadecimal_eq byte
    have hlexed : lexedEscape (first :: second :: rest) = some (byte, 2) := by
      rw [lexedEscape, if_neg hfirst, hhigh]
      show (digitValue 16 second >>= fun low => some (UInt8.ofNat (16 * (byte.toNat / 16) + low),
        2)) = _
      rw [hlow]
      show some (UInt8.ofNat (16 * (byte.toNat / 16) + byte.toNat % 16), 2) = _
      rw [Nat.div_add_mod, UInt8.ofNat_toNat]
    rw [heq, List.cons_append, List.cons_append, List.singleton_append, unescapeLexed,
      if_pos rfl, hlexed]
    rfl

theorem unescapeLexed_llvmBytes (bytes : Bytes) : unescapeLexed 0 (llvmBytes bytes) = bytes := by
  induction bytes with
  | nil => rfl
  | cons byte bytes ih =>
    show unescapeLexed 0 (llvmByte byte ++ llvmBytes bytes) = _
    rw [unescapeLexed_llvmByte, ih]

theorem ne_quote_of_mem_llvmBytes (h : value ∈ llvmBytes bytes) : value ≠ '"' := by
  obtain ⟨byte, _, hmem⟩ := List.mem_flatMap.mp h
  rw [llvmByte] at hmem
  split at hmem
  · rename_i hplain
    obtain rfl := List.mem_singleton.mp hmem
    intro hquote
    refine hplain.2.2.1 ?_
    rw [← hquote, toUInt8_ofNat]
  · rcases List.mem_cons.mp hmem with rfl | hmem
    · decide
    · exact ((hexadecimal_digits byte).2 value hmem).2

theorem behind_append (front text : Text) : behind front (front ++ text) = some text := by
  rw [behind, List.take_left, if_pos rfl, List.drop_left]

theorem takeWhile_front {kind : Char → Bool} {front : Text} (h : ∀ value ∈ front, kind value = true)
    (hrest : ∀ value ∈ rest.head?, kind value = false) : (front ++ rest).takeWhile kind =
    front := by
  rw [List.takeWhile_append_of_pos h]
  cases rest with
  | nil => rw [List.takeWhile_nil, List.append_nil]
  | cons value rest =>
    rw [List.takeWhile_cons, hrest value rfl, if_neg Bool.false_ne_true, List.append_nil]

theorem readString_parts {name digits escaped : Text} {length : Nat} (hname : ' ' ∉ name)
    (hdigits : ∀ c ∈ digits, c.isDigit = true) (hlength : numeral 10 digits = some length)
    (hescaped : '"' ∉ escaped) :
    readString (name ++ (" = private unnamed_addr constant [".toList ++
      (digits ++ (" x i8] c\"".toList ++ (escaped ++ "\"\n".toList))))) =
      some (name, length, unescapeLexed 0 escaped) := by
  have hspace (value : Char) (hmem : value ∈ name) : decide (value ≠ ' ') = true :=
    decide_eq_true fun h => hname (h ▸ hmem)
  have hquote (value : Char) (hmem : value ∈ escaped) : decide (value ≠ '"') = true :=
    decide_eq_true fun h => hescaped (h ▸ hmem)
  have hopen : " = private unnamed_addr constant [".toList = ' ' ::
    "= private unnamed_addr constant [".toList := by decide
  have htype : " x i8] c\"".toList = ' ' :: "x i8] c\"".toList := by decide
  have hclose : "\"\n".toList = '"' :: ['\n'] := by decide
  rw [readString]
  dsimp only
  rw [takeWhile_front hspace (by simp [hopen]), List.drop_left, behind_append]
  show (numeral 10 _ >>= _) = _
  rw [takeWhile_front hdigits (by simp [htype]), hlength]
  show (behind _ _ >>= _) = _
  rw [List.drop_left, behind_append]
  show (behind _ _ >>= _) = _
  rw [takeWhile_front hquote (by simp [hclose]), List.drop_left]
  have hend := behind_append "\"\n".toList []
  rw [List.append_nil] at hend
  rw [hend]
  rfl

theorem readString_internString (nextString : Nat) (bytes : Bytes) :
    readString (internString nextString bytes).2 =
      some ((internString nextString bytes).1, bytes.length, bytes) := by
  have hname : ' ' ∉ stringName nextString := by
    intro hmem
    rcases List.mem_append.mp hmem with hfront | hdigit
    · exact absurd hfront (by decide)
    · exact absurd (isDigit_of_mem_decimal hdigit) (by decide)
  have hquote : '"' ∉ llvmBytes bytes := fun hmem => ne_quote_of_mem_llvmBytes hmem rfl
  have hparts := readString_parts hname (fun c => isDigit_of_mem_decimal)
    (numeral_toDigits bytes.length) hquote
  rw [unescapeLexed_llvmBytes] at hparts
  rw [internString, ← hparts]
  simp only [List.append_assoc]

/-- A literal of any well-formed bytes can be written, and however it is written and
    wherever it stands, LLVM reads these bytes from the constant of its token, in an
    array of their length. -/
theorem literals_survive {bytes : Bytes} (hbytes : WellFormed bytes) :
    (∃ spelled, Spells (textOf bytes) spelled) ∧
      ∀ (spelled : Text), Spells (textOf bytes) spelled → ∀ (depth nextString : Nat)
        (s : LexerState) (after : Text),
        s.rest = '"' :: (spelled ++ '"' :: after) →
        ∃ token s', scanToken depth s = .ok ([token], s') ∧ token.type = .string ∧ s'.rest = after ∧
          readString (internString nextString (bytesOf token.text)).2 =
            some ((internString nextString (bytesOf token.text)).1, bytes.length, bytes) := by
  refine ⟨exists_spells _, ?_⟩
  intro spelled hspelled depth nextString s after hs
  refine ⟨_, _, scanToken_of_spells hbytes hspelled depth hs, rfl, ?_, ?_⟩
  · have hsplit : s.rest = ('"' :: (spelled ++ ['"'])) ++ after := by
      rw [hs, List.cons_append, List.append_assoc, List.singleton_append]
    rw [LexerState.advance_rest, hsplit]
    exact List.drop_left' (by simp)
  · rw [bytesOf_textOf]
    exact readString_internString nextString bytes

/-- A quote, a backslash, a newline, a NUL and a character of two bytes. -/
theorem literals_survive_escaped :
    ∃ token s', scanToken 0
        ⟨['"', '\\', '"', '\\', '\\', '\\', 'n', '\x00', '\xc3', '\xa9', '"', '\n'],
          ⟨[], 1, 1⟩, false⟩ =
          .ok ([token], s') ∧ token.type = .string ∧ s'.rest = ['\n'] ∧
      readString (internString 7 (bytesOf token.text)).2 =
        some ((internString 7 (bytesOf token.text)).1, 6,
        [0x22, 0x5c, 0x0a, 0x00, 0xc3, 0xa9]) := by
  have hbytes : WellFormed [0x22, 0x5c, 0x0a, 0x00, 0xc3, 0xa9] :=
    ⟨['"', '\\', '\n', '\x00', 'é'], by decide +kernel⟩
  have hspelled : Spells (textOf [0x22, 0x5c, 0x0a, 0x00, 0xc3, 0xa9])
      ['\\', '"', '\\', '\\', '\\', 'n', '\x00', '\xc3', '\xa9'] := by
    have hquote : ('"', '"') ∈ escapes := by decide
    have hbackslash : ('\\', '\\') ∈ escapes := by decide
    have hnewline : ('n', '\n') ∈ escapes := by decide
    have hplain : DoubleChar '\x00' ∧ DoubleChar '\xc3' ∧ DoubleChar '\xa9' := by decide
    exact .escape hquote (.escape hbackslash (.escape hnewline
      (.plain hplain.1 (.plain hplain.2.1 (.plain hplain.2.2 .nil)))))
  exact (literals_survive hbytes).2 _ hspelled 0 7 _ ['\n'] rfl

end Cwhip.CodeGen
