/-
  Cwhip.Parser.Utf8Validators

  The lexer, the runtime and the decoder of process output check UTF-8 with code
  of their own.  Each of them accepts the encodings of texts, and nothing else.
-/

import Cwhip.Parser.Lexer
import Cwhip.Runtime.TextDecode

namespace Cwhip.Parser

open Cwhip.Lib.Utf8
open Cwhip.Runtime

/-! ## A sequence at the front -/

/-- Lead byte and tail of a sequence, if one is at the front. -/
def StartsSequence (lead : UInt8) (rest : Bytes) : Prop :=
  0 < (leadByte lead).need ∧ (leadByte lead).need ≤ rest.length ∧
    TailOk (leadByte lead).low (leadByte lead).high (rest.take (leadByte lead).need)

variable {rest bytes : Bytes} {lead : UInt8} {fuel : Nat}

theorem encodeChar_append_wellFormed {c : Char} :
    WellFormed (String.utf8EncodeChar c ++ rest) ↔ WellFormed rest := by
  constructor
  · intro h
    have hone : encode [c] = String.utf8EncodeChar c := by simp
    rw [← hone] at h
    exact wellFormed_of_append h
  · exact fun h => h.encodeChar_append c

theorem wellFormed_cons_iff (hlead : ¬ lead < 0x80) :
    WellFormed (lead :: rest) ↔ StartsSequence lead rest ∧
    WellFormed (rest.drop (leadByte lead).need) := by
  constructor
  · rintro ⟨text, htext⟩
    cases text with
    | nil => cases htext
    | cons c text =>
      obtain ⟨first, tail, hchar, hsequence⟩ := isSequence_encodeChar c
      rw [encode_cons, hchar, List.cons_append, List.cons.injEq] at htext
      obtain ⟨rfl, rfl⟩ := htext
      rcases hsequence with ⟨hascii, _⟩ | ⟨hneed, hlength, htail⟩
      · exact absurd hascii hlead
      · rw [← hlength]
        refine ⟨⟨hneed, ?_, ?_⟩, ?_⟩
        · rw [← hlength, List.length_append]
          exact Nat.le_add_right _ _
        · rw [← hlength, List.take_left]
          exact htail
        · rw [List.drop_left]
          exact ⟨text, rfl⟩
  · rintro ⟨⟨hneed, hlength, htail⟩, hrest⟩
    obtain ⟨c, hc⟩ := exists_encodeChar (.inr ⟨hneed, List.length_take_of_le hlength, htail⟩)
    have hsplit : lead :: rest = String.utf8EncodeChar c ++ rest.drop (leadByte lead).need := by
      rw [hc, List.cons_append, List.take_append_drop]
    rw [hsplit]
    exact hrest.encodeChar_append c

theorem wellFormed_ascii_cons (hlead : lead < 0x80) :
    WellFormed (lead :: rest) ↔ WellFormed rest := by
  have hsequence : IsSequence lead [] := .inl ⟨hlead, rfl⟩
  obtain ⟨c, hc⟩ := exists_encodeChar hsequence
  have hsplit : lead :: rest = String.utf8EncodeChar c ++ rest := by rw [hc, List.singleton_append]
  rw [hsplit]
  exact encodeChar_append_wellFormed

/-! ## The lexer -/

theorem sequenceOf_eq (lead : UInt8) :
    sequenceOf lead = if 0 < (leadByte lead).need then
      some ((leadByte lead).need + 1, (leadByte lead).low, (leadByte lead).high) else none := by
  revert lead
  apply byte_cases
  decide +kernel

theorem continuation_iff {low high byte : UInt8} : continuation low high byte = true ↔ low ≤ byte ∧
    byte ≤ high := by
  rw [continuation, Bool.and_eq_true, decide_eq_true_eq, decide_eq_true_eq]

theorem tailOk_iff_all {tail : Bytes} : TailOk 0x80 0xbf tail ↔ tail.all (continuation 0x80 0xbf) =
    true := by
  induction tail with
  | nil => exact iff_of_true trivial rfl
  | cons next rest ih =>
    rw [TailOk, ih, List.all_cons, Bool.and_eq_true, continuation_iff, and_assoc]

theorem isValidUtf8From_cons (hlead : ¬ lead < 0x80) :
    isValidUtf8From (fuel + 1) (lead :: rest) = true ↔
      StartsSequence lead rest ∧ isValidUtf8From fuel (rest.drop (leadByte lead).need) = true := by
  have habove : ¬ lead ≤ 0x7f := by
    rw [UInt8.le_iff_toNat_le]
    rw [UInt8.lt_iff_toNat_lt] at hlead
    change ¬ lead.toNat < 128 at hlead
    show ¬ lead.toNat ≤ 127
    omega
  conv_lhs => unfold isValidUtf8From
  rw [if_neg habove, sequenceOf_eq]
  by_cases hneed : 0 < (leadByte lead).need
  · rw [if_pos hneed]
    obtain ⟨need, hsucc⟩ := Nat.exists_eq_succ_of_ne_zero (Nat.ne_of_gt hneed)
    cases rest with
    | nil =>
      refine iff_of_false Bool.false_ne_true ?_
      rintro ⟨⟨_, hlength, _⟩, _⟩
      exact absurd hlength (Nat.not_le.mpr hneed)
    | cons second more =>
      show (if _ then false else if _ then false else if _ then false else isValidUtf8From fuel _) =
        true ↔ _
      rw [StartsSequence, hsucc, List.take_succ_cons, TailOk, tailOk_iff_all]
      have hshort : (second :: more).length + 1 < need.succ + 1 ↔
        ¬ need.succ ≤ (second :: more).length := by omega
      have hbounds : second < (leadByte lead).low ∨ (leadByte lead).high < second ↔
          ¬ ((leadByte lead).low ≤ second ∧ second ≤ (leadByte lead).high) := by
        rw [not_and_or, UInt8.not_le, UInt8.not_le]
      rw [show need.succ + 1 - 2 = need from by omega, show need.succ + 1 - 1 = need.succ from rfl]
      simp only [hshort, hbounds, ite_not, ← Bool.not_eq_true]
      split <;> rename_i hlength
      · split <;> rename_i hsecond
        · split <;> rename_i hmore
          · have hle : need ≤ more.length := Nat.le_of_succ_le_succ hlength
            simp [hsecond, hmore, hle]
          · simp [hmore]
        · simp only [Bool.false_eq_true, false_iff]
          rintro ⟨⟨_, _, hlow, hhigh, _⟩, _⟩
          exact hsecond ⟨hlow, hhigh⟩
      · simp only [Bool.false_eq_true, false_iff]
        rintro ⟨⟨_, hle, _⟩, _⟩
        exact hlength hle
  · rw [if_neg hneed]
    refine iff_of_false ?_ fun h => hneed h.1.1
    cases rest with
    | nil | cons second more => exact Bool.false_ne_true

theorem isValidUtf8From_iff (hfuel : bytes.length ≤ fuel) :
    isValidUtf8From fuel bytes = true ↔ WellFormed bytes := by
  induction fuel generalizing bytes with
  | zero =>
    obtain rfl := List.length_eq_zero_iff.mp (Nat.le_zero.mp hfuel)
    exact iff_of_true rfl .nil
  | succ fuel ih =>
    cases bytes with
    | nil => exact iff_of_true rfl .nil
    | cons lead rest =>
      have hrest : rest.length ≤ fuel := Nat.le_of_succ_le_succ hfuel
      by_cases hlead : lead < 0x80
      · have hbelow : lead ≤ 0x7f := by
          rw [UInt8.lt_iff_toNat_lt] at hlead
          rw [UInt8.le_iff_toNat_le]
          change lead.toNat < 128 at hlead
          show lead.toNat ≤ 127
          omega
        conv_lhs => unfold isValidUtf8From
        rw [if_pos hbelow, wellFormed_ascii_cons hlead]
        exact ih hrest
      · rw [isValidUtf8From_cons hlead, wellFormed_cons_iff hlead, ih]
        rw [List.length_drop]
        omega

theorem isValidUtf8_iff (bytes : Bytes) : isValidUtf8 bytes = true ↔ WellFormed bytes :=
  isValidUtf8From_iff (Nat.le_refl _)

/-! ## The decoder -/

/-- How often the loop of `scan_utf8` takes the branch that writes a replacement. -/
def replacementsFrom : Nat → Bytes → Nat
  | 0, _ => 0
  | _ + 1, [] => 0
  | fuel + 1, lead :: rest =>
    if lead < 0x80 then replacementsFrom fuel rest
    else
      let scan := scanSequence lead rest
      (if scan.valid then 0 else 1) + replacementsFrom fuel ((lead :: rest).drop scan.taken)

def replacements (bytes : Bytes) : Nat := replacementsFrom bytes.length bytes

theorem scanSequence_valid_iff (lead : UInt8) (rest : Bytes) :
    ((scanSequence lead rest).valid = true ↔ StartsSequence lead rest) ∧
      ((scanSequence lead rest).valid = true → (scanSequence lead rest).taken =
      (leadByte lead).need + 1) := by
  by_cases hneed : 0 < (leadByte lead).need
  · obtain ⟨htaken, hlength, htail, hvalid, _, hlongest⟩ :=
      scanTail_spec (leadByte lead).low (leadByte lead).high (leadByte lead).need rest
    rw [scanSequence_eq hneed]
    refine ⟨?_, fun h => congrArg Nat.succ (hvalid.mp h)⟩
    constructor
    · intro h
      rw [hvalid.mp h] at hlength htail
      exact ⟨hneed, hlength, htail⟩
    · rintro ⟨_, hwhole, hok⟩
      apply hvalid.mpr
      -- a shorter tail would not be the longest
      by_contra hshort
      exact hlongest _ (by omega) (Nat.le_refl _) hwhole hok
  · rw [scanSequence, if_neg hneed]
    refine ⟨iff_of_false Bool.false_ne_true fun h => hneed h.1, fun h =>
      absurd h Bool.false_ne_true⟩

theorem replacementsFrom_eq_zero (hfuel : bytes.length ≤ fuel) :
    replacementsFrom fuel bytes = 0 ↔ WellFormed bytes := by
  induction fuel generalizing bytes with
  | zero =>
    obtain rfl := List.length_eq_zero_iff.mp (Nat.le_zero.mp hfuel)
    exact iff_of_true rfl .nil
  | succ fuel ih =>
    cases bytes with
    | nil => exact iff_of_true rfl .nil
    | cons lead rest =>
      have hrest : rest.length ≤ fuel := Nat.le_of_succ_le_succ hfuel
      obtain ⟨hvalid, htaken⟩ := scanSequence_valid_iff lead rest
      rw [replacementsFrom]
      by_cases hlead : lead < 0x80
      · rw [if_pos hlead, wellFormed_ascii_cons hlead]
        exact ih hrest
      · rw [if_neg hlead, wellFormed_cons_iff hlead, ← hvalid]
        by_cases hsequence : (scanSequence lead rest).valid = true
        · simp only [hsequence, htaken hsequence, if_true, Nat.zero_add, List.drop_succ_cons,
            true_and]
          apply ih
          rw [List.length_drop]
          omega
        · refine iff_of_false ?_ fun h => hsequence h.1
          simp [hsequence]

/-! ## Agreement -/

theorem scanUtf8_output_eq_iff (bytes : Bytes) : (scanUtf8 bytes).output = bytes ↔
    WellFormed bytes := by
  obtain ⟨pieces, hpieces⟩ := exists_pieces bytes
  rw [(scanUtf8_eq hpieces).1]
  constructor
  · intro h
    rw [← h]
    exact wellFormed_decodedPieces pieces
  · exact hpieces.decoded_of_wellFormed

/-- The three validators accept the well-formed sequences, so the lexer accepts
    the value of a literal exactly if the runtime does. -/
theorem validators_agree :
    (∀ bytes : Bytes,
      (isValidUtf8 bytes = true ↔ WellFormed bytes) ∧ (validUtf8 bytes = true ↔ WellFormed bytes) ∧
        (replacements bytes = 0 ↔ WellFormed bytes) ∧ ((scanUtf8 bytes).output = bytes ↔
        WellFormed bytes)) ∧
    ∀ (quote : Char) (s : LexerState) (text : Text) (length : Nat),
      stringValue quote s.location (s.advance 1).rest (s.advance 1).location = .ok (text, length) →
      ((∃ token s', scanString quote s = .ok (token, s')) ↔ validUtf8 (bytesOf text) = true) := by
  refine ⟨fun bytes => ⟨isValidUtf8_iff bytes, validUtf8_iff bytes,
    replacementsFrom_eq_zero (Nat.le_refl _),
    scanUtf8_output_eq_iff bytes⟩, ?_⟩
  intro quote s text length htext
  rw [validUtf8_iff, ← isValidUtf8_iff, scanString, htext]
  show (∃ token s',
    (if isValidUtf8 (bytesOf text) = false then _ else _) = Except.ok (token, s')) ↔ _
  by_cases hvalid : isValidUtf8 (bytesOf text) = true
  · rw [if_neg (by simp [hvalid])]
    exact iff_of_true ⟨_, _, rfl⟩ hvalid
  · rw [if_pos (Bool.not_eq_true _ ▸ hvalid)]
    refine iff_of_false ?_ hvalid
    rintro ⟨token, s', h⟩
    cases h

end Cwhip.Parser
