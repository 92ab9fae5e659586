/-
  Cwhip.Packages.Identifiers

  The names that packages may have (`identifier` in `PackageRegistry.cpp`,
  `valid_identifier` in `cwhip-pkg.py`), and the identifiers of the lexer.

  Both tables of keywords miss `callback`; but for it, the names that are accepted
  are the identifiers.
-/

import Cwhip.Packages.Version
import Mathlib.Data.List.TakeWhile
import Cwhip.Lib.Utf8Text
import Cwhip.Parser.LexerRuns

namespace Cwhip.Packages

open Cwhip.CodeGen (isIdentifier isIdentifierStart isIdentifierPart isIdentifierPart_bounds
    isIdentifierPart_of_mem)
open Cwhip.Lib.Utf8
open Cwhip.Parser

/-! ## The checks -/

/-- `std::isalpha`, in the C locale. -/
def isAlpha (character : Char) : Bool :=
  ('A' ≤ character && character ≤ 'Z') || ('a' ≤ character && character ≤ 'z')

def isAlnum (character : Char) : Bool := isAlpha character || isDigit character

/-- The keywords of `identifier`. -/
def registryKeywords : List Text :=
  ["start", "int", "bool", "float", "unsigned", "strg", "list", "dict", "buffer", "handle", "any",
    "type", "if",
    "else", "while", "do", "for", "in", "is", "break", "continue", "and", "or", "not", "print",
      "raise", "try",
    "except", "finally", "class", "namespace", "include", "inline", "import", "as", "from",
      "public", "protected",
    "private", "virtual", "super", "null", "true", "false", "return", "void"].map String.toList

/-- `identifier`; a character is a byte. -/
def identifier (value : Text) : Bool :=
  match value with
  | [] => false
  | front :: rest =>
    (isAlpha front || front = '_') && rest.all (fun character => isAlnum character ||
      character = '_') && ! registryKeywords.contains (value.map lowerAscii)

/-- `CWHIP_KEYWORDS` -/
def cwhipKeywords : List Text :=
  ["start", "int", "bool", "float", "unsigned", "strg", "list", "dict", "buffer", "handle", "any",
    "type", "if",
    "else", "while", "do", "for", "in", "is", "break", "continue", "and", "or", "not", "print",
      "raise", "try",
    "except", "finally", "class", "namespace", "include", "inline", "import", "as", "from",
      "public", "protected",
    "private", "virtual", "super", "null", "true", "false", "return", "void"].map String.toList

/-- `IDENTIFIER_PATTERN.fullmatch`; a character is a code point. -/
def identifierPattern (value : Text) : Bool :=
  match value with
  | [] => false
  | first :: rest =>
    (('A' ≤ first && first ≤ 'Z') || ('a' ≤ first && first ≤ 'z') || first = '_') &&
      rest.all fun c =>
        ('A' ≤ c && c ≤ 'Z') || ('a' ≤ c && c ≤ 'z') || ('0' ≤ c && c ≤ '9') || c = '_'

/-- `valid_identifier`; the case is only changed in a text that matches, which is
    all ASCII. -/
def validIdentifier (value : Text) : Bool :=
  identifierPattern value && ! cwhipKeywords.contains (value.map lowerAscii)

/-- The lexer makes the whole text one identifier. -/
def LexedAsIdentifier (value : Text) : Prop :=
  ∀ fileName, ∃ first last, tokenize value fileName = .ok [first, last] ∧
    first.type = .identifier ∧ first.text = value ∧ last.type = .endOfFile

/-! ## What they accept -/

theorem isAlpha_or_underscore (c : Char) : (isAlpha c || c = '_') = isIdentifierStart c := by
  rw [isAlpha, isIdentifierStart, Bool.or_comm ('A' ≤ c && c ≤ 'Z')]
  rfl

theorem isAlnum_or_underscore (c : Char) : (isAlnum c || c = '_') = isIdentifierPart c := by
  rw [isIdentifierPart, ← isAlpha_or_underscore, isAlnum, isDigit, Bool.or_right_comm]

theorem identifier_eq (value : Text) :
    identifier value = (isIdentifier value && ! registryKeywords.contains
    (value.map lowerAscii)) := by
  cases value with
  | nil => rfl
  | cons front rest =>
    simp only [identifier, isIdentifier, isAlpha_or_underscore, isAlnum_or_underscore]

theorem identifierPattern_eq (value : Text) : identifierPattern value = isIdentifier value := by
  cases value with
  | nil => rfl
  | cons first rest =>
    have hpart (c : Char) : (('A' ≤ c && c ≤ 'Z') || ('a' ≤ c && c ≤ 'z') || ('0' ≤ c && c ≤ '9') ||
        c = '_') = isIdentifierPart c := isAlnum_or_underscore c
    rw [identifierPattern, isIdentifier]
    simp only [hpart]
    exact congrArg (· && _) (isAlpha_or_underscore first)

theorem validIdentifier_eq (value : Text) : validIdentifier value = identifier value := by
  rw [validIdentifier, identifierPattern_eq, identifier_eq]
  rfl

theorem mem_keywords_iff (text : Text) :
    (∃ type, (text, type) ∈ keywords) ↔ text ∈ registryKeywords ∨ text = "callback".toList := by
  have hkeywords : ∀ entry ∈ keywords, entry.1 ∈ registryKeywords ∨
    entry.1 = "callback".toList := by decide
  have hregistry : ∀ name ∈ registryKeywords, name ∈ keywords.map Prod.fst := by decide
  have hcallback : "callback".toList ∈ keywords.map Prod.fst := by decide
  constructor
  · rintro ⟨type, hmem⟩
    exact hkeywords _ hmem
  · intro h
    have hmem : text ∈ keywords.map Prod.fst := h.elim (hregistry text) fun heq => heq ▸ hcallback
    obtain ⟨⟨name, type⟩, hentry, rfl⟩ := List.mem_map.mp hmem
    exact ⟨type, hentry⟩

theorem wordType_eq_identifier (value : Text) :
    wordType value = .identifier ↔
      ¬ (value.map lowerAscii ∈ registryKeywords ∨ value.map lowerAscii = "callback".toList) := by
  rw [wordType]
  split
  · rename_i hstring
    subst hstring
    exact iff_of_true rfl (by decide)
  · rw [← mem_keywords_iff]
    cases hlookup : keywords.lookup (value.map lowerAscii) with
    | none =>
      refine iff_of_true rfl ?_
      rintro ⟨type, hmem⟩
      have hne := List.lookup_eq_none_iff.mp hlookup _ hmem
      exact absurd hne (by simp)
    | some type =>
      obtain ⟨before, after, hentry, _⟩ := List.lookup_eq_some_iff.mp hlookup
      have hmem : (value.map lowerAscii, type) ∈ keywords := by
        rw [hentry]
        exact List.mem_append_right _ List.mem_cons_self
      exact iff_of_false (keywords_literal _ hmem).2.2.2.2 fun h => h ⟨type, hmem⟩

/-! ## The lexer -/

theorem tokenize_identifier {value : Text} (h : isIdentifier value = true)
    (htype : wordType value = .identifier)
    (fileName : Text) :
    tokenize value fileName = .ok [⟨.identifier, value, ⟨fileName, 1, 1⟩, false⟩,
      endToken (SourceLocation.over ⟨fileName, 1, 1⟩ value)] := by
  cases value with
  | nil => cases h
  | cons first rest =>
    rw [isIdentifier, Bool.and_eq_true] at h
    obtain ⟨hstart, hall⟩ := h
    have hword := (isIdentifier_takeWhile rest hstart).1
    have hwhole : (first :: rest).takeWhile isIdentifierPart = first :: rest := by
      rw [hword, List.takeWhile_eq_self_iff.mpr fun c hmem => List.all_eq_true.mp hall c hmem]
    have hscan : scanWord ⟨first :: rest, ⟨fileName, 1, 1⟩, false⟩
        = (⟨.identifier, first :: rest, ⟨fileName, 1, 1⟩, false⟩,
          ⟨[], SourceLocation.over ⟨fileName, 1, 1⟩ (first :: rest), false⟩) := by
      unfold scanWord
      dsimp only [LexerState.scanned, LexerState.advance]
      rw [hwhole, htype, List.drop_length, List.take_length]
      rfl
    have htoken : scanToken 0 ⟨first :: rest, ⟨fileName, 1, 1⟩, false⟩
        = .ok ([⟨.identifier, first :: rest, ⟨fileName, 1, 1⟩, false⟩],
          ⟨[], SourceLocation.over ⟨fileName, 1, 1⟩ (first :: rest), false⟩) := by
      rw [scanToken_word rfl hstart, hscan]
    exact tokenize_single (List.cons_ne_nil _ _) (skipTrivia_word rfl hstart) htoken rfl

theorem lexedAsIdentifier_iff (value : Text) :
    LexedAsIdentifier value ↔ isIdentifier value = true ∧ wordType value = .identifier := by
  constructor
  · intro h
    obtain ⟨first, last, hrun, htype, rfl, _⟩ := h []
    have hplaces := tokenize_lexes first.text []
    rw [hrun] at hplaces
    obtain ⟨_, after, _, _, hbegins⟩ := hplaces first List.mem_cons_self
    rw [Begins, htype] at hbegins
    exact hbegins.2
  · rintro ⟨hidentifier, htype⟩ fileName
    exact ⟨_, _, tokenize_identifier hidentifier htype fileName, rfl, rfl, rfl⟩

/-! ## Agreement -/

theorem isIdentifierStart_of_lower {c : Char} (h : isIdentifierStart (lowerAscii c) = true) :
    isIdentifierStart c = true := by
  rw [lowerAscii] at h
  split at h
  · rename_i hupper
    simp [isIdentifierStart, hupper]
  · exact h

theorem isIdentifierPart_of_lower {c : Char} (h : isIdentifierPart (lowerAscii c) = true) :
    isIdentifierPart c = true := by
  rw [lowerAscii] at h
  split at h
  · rename_i hupper
    simp [isIdentifierPart, isIdentifierStart, hupper]
  · exact h

theorem isIdentifier_of_lower {value : Text} (h : isIdentifier (value.map lowerAscii) = true) :
    isIdentifier value = true := by
  cases value with
  | nil => exact h
  | cons first rest =>
    rw [List.map_cons, isIdentifier, Bool.and_eq_true, List.all_map] at h
    rw [isIdentifier, isIdentifierStart_of_lower h.1, Bool.true_and, List.all_eq_true]
    exact fun c hc => isIdentifierPart_of_lower (List.all_eq_true.mp h.2 c hc)

theorem lexedAsIdentifier_iff_identifier (value : Text) :
    LexedAsIdentifier value ↔ identifier value = true ∧ value.map lowerAscii ≠
    "callback".toList := by
  rw [lexedAsIdentifier_iff, wordType_eq_identifier, identifier_eq, Bool.and_eq_true,
    Bool.not_eq_true',
    ← Bool.not_eq_true, List.contains_iff_mem, not_or, and_assoc]

theorem isIdentifier_ascii {value : Text} (h : isIdentifier value = true) : ∀ c ∈ value,
    c.toNat ≤ 0x7f := by
  intro c hc
  have hbounds := isIdentifierPart_bounds (isIdentifierPart_of_mem h hc)
  omega

theorem lexedAsIdentifier_encode (value : Text) :
    LexedAsIdentifier (textOf (encode value)) ↔ LexedAsIdentifier value := by
  by_cases hascii : ∀ c ∈ value, c.toNat ≤ 0x7f
  · have hsame : textOf (encode value) = value := by
      have hbyte : ∀ c ∈ value, Char.ofNat (UInt8.ofNat c.toNat).toNat = c := by
        intro c hc
        have hle := hascii c hc
        rw [UInt8.toNat_ofNat_of_lt' (by show c.toNat < 256; omega), Char.ofNat_toNat]
      rw [textOf, encode_of_ascii hascii, List.map_map]
      exact (List.map_congr_left hbyte).trans (List.map_id _)
    rw [hsame]
  · rw [lexedAsIdentifier_iff, lexedAsIdentifier_iff]
    refine iff_of_false (fun h => hascii fun c hc => ?_) fun h => hascii (isIdentifier_ascii h.1)
    -- the bytes of another character are beyond ASCII too
    by_contra hbeyond
    rcases encodeChar_ascii c with ⟨byte, hbyte, hle⟩ | hhigh
    · have hother : String.utf8EncodeChar (Char.ofNat byte.toNat) = [byte] := by
        have hvalue : (Char.ofNat byte.toNat).val.toNat = byte.toNat := toNat_ofNat_byte byte
        rw [encodeChar_of_ascii (hvalue.trans_le hle), hvalue, UInt8.ofNat_toNat]
      have hsame : encode [c] = encode [Char.ofNat byte.toNat] := by
        rw [encode_cons, encode_cons, hbyte, hother]
      obtain rfl := List.singleton_inj.mp (encode_injective hsame)
      exact hbeyond (by rw [toNat_ofNat_byte]; exact hle)
    · obtain ⟨byte, hbyte⟩ := List.exists_mem_of_ne_nil _ (encodeChar_ne_nil c)
      have hmem : Char.ofNat byte.toNat ∈ textOf (encode value) :=
        List.mem_map_of_mem (List.mem_flatMap.mpr ⟨c, hc, hbyte⟩)
      have hlow := isIdentifier_ascii h.1 _ hmem
      have hhere := hhigh byte hbyte
      rw [toNat_ofNat_byte] at hlow
      omega

/-- The registry's check and `cwhip-pkg`'s agree with the lexer exactly on the
    texts that are not `callback`, in any case of letters. -/
theorem identifier_agrees_iff (value : Text) :
    ((identifier value = true ↔ LexedAsIdentifier value) ↔ value.map lowerAscii ≠ "callback".toList)
    ∧
    ((validIdentifier value = true ↔ LexedAsIdentifier (textOf (encode value))) ↔
      value.map lowerAscii ≠ "callback".toList) := by
  have hregistry : (identifier value = true ↔ LexedAsIdentifier value) ↔
      value.map lowerAscii ≠ "callback".toList := by
    rw [lexedAsIdentifier_iff_identifier]
    constructor
    · intro h hcallback
      have hidentifier : identifier value = true := by
        have hshape : isIdentifier value = true := isIdentifier_of_lower (hcallback ▸ by decide)
        rw [identifier_eq, hshape, hcallback]
        decide
      exact (h.mp hidentifier).2 hcallback
    · exact fun hother => ⟨fun h => ⟨h, hother⟩, And.left⟩
  refine ⟨hregistry, ?_⟩
  rw [validIdentifier_eq, lexedAsIdentifier_encode]
  exact hregistry

/-- Both checks accept `callback`, which is a keyword. -/
theorem callback_accepted :
    identifier "callback".toList = true ∧ validIdentifier "callback".toList = true ∧
      ¬ LexedAsIdentifier "callback".toList := by
  refine ⟨by decide, by decide, fun h => ?_⟩
  exact ((lexedAsIdentifier_iff_identifier _).mp h).2 (by decide)

end Cwhip.Packages
