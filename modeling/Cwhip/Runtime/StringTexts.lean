/-
  Cwhip.Runtime.StringTexts

  The byte helpers of `String` on texts: `valid_utf8` accepts the encodings of
  texts, and the fields of `split` and the output of `replace` are texts again.
-/

import Mathlib.Data.List.TakeWhile
import Cwhip.Lib.Utf8Text
import Cwhip.Runtime.StringOpsSound

namespace Cwhip.Runtime

open Cwhip.Lib Cwhip.Lib.Utf8

/-! ## Validation -/

variable {n start : Nat} {a low high byte : UInt8} {data needle : Bytes}

theorem ofNat_le_iff (h : n < 256) (bound : UInt8) :
    UInt8.ofNat n ≤ bound ↔ n ≤ bound.toNat := by
  rw [UInt8.le_iff_toNat_le, UInt8.toNat_ofNat_of_lt' (by simpa using h)]

theorem le_ofNat_iff (h : n < 256) (bound : UInt8) :
    bound ≤ UInt8.ofNat n ↔ bound.toNat ≤ n := by
  rw [UInt8.le_iff_toNat_le, UInt8.toNat_ofNat_of_lt' (by simpa using h)]

theorem ofNat_eq_iff (h : n < 256) (byte : UInt8) : UInt8.ofNat n = byte ↔ n = byte.toNat := by
  rw [← UInt8.toNat_inj, UInt8.toNat_ofNat_of_lt' (by simpa using h)]

theorem continuation_ofNat (h : n < 256) (low high : UInt8) :
    continuation low high (UInt8.ofNat n) = true ↔ low.toNat ≤ n ∧ n ≤ high.toNat := by
  rw [continuation, Bool.and_eq_true, decide_eq_true_eq, decide_eq_true_eq, le_ofNat_iff h,
    ofNat_le_iff h]

theorem validUtf8_one (h : a ≤ 0x7f) (rest : Bytes) : validUtf8 (a :: rest) = validUtf8 rest := by
  conv_lhs => unfold validUtf8
  rw [if_pos h]

theorem validUtf8_two (h : 0xc2 ≤ a ∧ a ≤ 0xdf) (b : UInt8) (rest : Bytes) :
    validUtf8 (a :: b :: rest) = (continuation 0x80 0xbf b && validUtf8 rest) := by
  have hone : ¬ a ≤ 0x7f := fun hle => absurd (UInt8.le_trans h.1 hle) (by decide)
  conv_lhs => unfold validUtf8
  rw [if_neg hone, if_pos h]

theorem validUtf8_three (h : 0xe0 ≤ a ∧ a ≤ 0xef) (b c : UInt8) (rest : Bytes) :
    validUtf8 (a :: b :: c :: rest) =
      (continuation (if a = 0xe0 then 0xa0 else 0x80) (if a = 0xed then 0x9f else 0xbf) b &&
        continuation 0x80 0xbf c && validUtf8 rest) := by
  have hone : ¬ a ≤ 0x7f := fun hle => absurd (UInt8.le_trans h.1 hle) (by decide)
  have htwo : ¬ (0xc2 ≤ a ∧ a ≤ 0xdf) := fun hle => absurd (UInt8.le_trans h.1 hle.2) (by decide)
  conv_lhs => unfold validUtf8
  rw [if_neg hone, if_neg htwo, if_pos h]

theorem validUtf8_four (h : 0xf0 ≤ a ∧ a ≤ 0xf4) (b c d : UInt8) (rest : Bytes) :
    validUtf8 (a :: b :: c :: d :: rest) =
      (continuation (if a = 0xf0 then 0x90 else 0x80) (if a = 0xf4 then 0x8f else 0xbf) b &&
        continuation 0x80 0xbf c && continuation 0x80 0xbf d && validUtf8 rest) := by
  have hone : ¬ a ≤ 0x7f := fun hle => absurd (UInt8.le_trans h.1 hle) (by decide)
  have htwo : ¬ (0xc2 ≤ a ∧ a ≤ 0xdf) := fun hle => absurd (UInt8.le_trans h.1 hle.2) (by decide)
  have hthree : ¬ (0xe0 ≤ a ∧ a ≤ 0xef) := fun hle => absurd (UInt8.le_trans h.1 hle.2) (by decide)
  conv_lhs => unfold validUtf8
  rw [if_neg hone, if_neg htwo, if_neg hthree, if_pos h]

theorem continuation_last (v : Nat) : continuation 0x80 0xbf (UInt8.ofNat (v % 0x40 + 0x80)) =
    true := by
  rw [continuation_ofNat (by omega)]
  show 0x80 ≤ v % 0x40 + 0x80 ∧ v % 0x40 + 0x80 ≤ 0xbf
  omega

/-- The validator passes over a whole character. -/
theorem validUtf8_encodeChar (c : Char) (rest : Bytes) :
    validUtf8 (String.utf8EncodeChar c ++ rest) = validUtf8 rest := by
  have hvalid : c.val.toNat < 0xd800 ∨ (0xdfff < c.val.toNat ∧ c.val.toNat < 0x110000) := c.valid
  unfold String.utf8EncodeChar
  generalize c.val.toNat = v at hvalid
  show validUtf8 ((if v ≤ 0x7f then _ else if v ≤ 0x7ff then _ else if v ≤ 0xffff then _ else _) ++
    rest) = _
  have hbounds : ∀ {n : Nat} (low high : UInt8), n < 256 → low.toNat ≤ n → n ≤ high.toNat →
      low ≤ UInt8.ofNat n ∧ UInt8.ofNat n ≤ high :=
    fun low high hn hlow hhigh => ⟨(le_ofNat_iff hn low).mpr hlow, (ofNat_le_iff hn high).mpr hhigh⟩
  split
  · exact validUtf8_one ((ofNat_le_iff (by omega) _).mpr (by assumption)) rest
  split
  · have hlead := hbounds 0xc2 0xdf (n := v / 64 % 0x20 + 0xc0) (by omega)
      (by show 0xc2 ≤ _; omega) (by show _ ≤ 0xdf; omega)
    show validUtf8 (_ :: _ :: rest) = _
    rw [validUtf8_two hlead, continuation_last, Bool.true_and]
  split
  · have hlead := hbounds 0xe0 0xef (n := v / 4096 % 0x10 + 0xe0) (by omega)
      (by show 0xe0 ≤ _; omega) (by show _ ≤ 0xef; omega)
    show validUtf8 (_ :: _ :: _ :: rest) = _
    rw [validUtf8_three hlead, continuation_last, Bool.and_true]
    have hsecond : continuation (if UInt8.ofNat (v / 4096 % 0x10 + 0xe0) = 0xe0 then 0xa0 else 0x80)
        (if UInt8.ofNat (v / 4096 % 0x10 + 0xe0) = 0xed then 0x9f else 0xbf)
        (UInt8.ofNat (v / 64 % 0x40 + 0x80)) = true := by
      have hbyte : v / 4096 % 0x10 + 0xe0 < 256 := by omega
      rw [continuation_ofNat (by omega)]
      simp only [ofNat_eq_iff hbyte, apply_ite UInt8.toNat]
      show (if _ = 0xe0 then 0xa0 else 0x80) ≤ _ ∧ _ ≤ (if _ = 0xed then 0x9f else 0xbf)
      constructor
      · split <;> omega
      · split <;> omega
    rw [hsecond, Bool.true_and]
  · have hlead := hbounds 0xf0 0xf4 (n := v / 262144 % 0x08 + 0xf0) (by omega)
      (by show 0xf0 ≤ _; omega) (by show _ ≤ 0xf4; omega)
    show validUtf8 (_ :: _ :: _ :: _ :: rest) = _
    rw [validUtf8_four hlead, continuation_last, continuation_last, Bool.and_true, Bool.and_true]
    have hsecond : continuation (if UInt8.ofNat (v / 262144 % 0x08 + 0xf0) = 0xf0 then 0x90
        else 0x80) (if UInt8.ofNat (v / 262144 % 0x08 + 0xf0) = 0xf4 then 0x8f else 0xbf)
        (UInt8.ofNat (v / 4096 % 0x40 + 0x80)) = true := by
      have hbyte : v / 262144 % 0x08 + 0xf0 < 256 := by omega
      rw [continuation_ofNat (by omega)]
      simp only [ofNat_eq_iff hbyte, apply_ite UInt8.toNat]
      show (if _ = 0xf0 then 0x90 else 0x80) ≤ _ ∧ _ ≤ (if _ = 0xf4 then 0x8f else 0xbf)
      constructor
      · split <;> omega
      · split <;> omega
    rw [hsecond, Bool.true_and]

theorem validUtf8_encode (text : List Char) : validUtf8 (encode text) = true := by
  induction text with
  | nil => rfl
  | cons c text ih => rw [encode_cons, validUtf8_encodeChar, ih]

theorem toNat_bounds (h : low ≤ byte ∧ byte ≤ high) :
    low.toNat ≤ byte.toNat ∧ byte.toNat ≤ high.toNat :=
  ⟨UInt8.le_iff_toNat_le.mp h.1, UInt8.le_iff_toNat_le.mp h.2⟩

theorem continuation_bounds (h : continuation low high byte = true) :
    low.toNat ≤ byte.toNat ∧ byte.toNat ≤ high.toNat := by
  rw [continuation, Bool.and_eq_true, decide_eq_true_eq, decide_eq_true_eq] at h
  exact toNat_bounds h

/-- What the validator accepts is characters. -/
theorem wellFormed_of_validUtf8 (bytes : Bytes) (h : validUtf8 bytes = true) :
    WellFormed bytes := by
  cases bytes with
  | nil => exact .nil
  | cons a rest =>
    by_cases hone : a ≤ 0x7f
    · rw [validUtf8_one hone] at h
      obtain ⟨c, hc⟩ := exists_encodeChar_one (UInt8.le_iff_toNat_le.mp hone)
      have htext := (wellFormed_of_validUtf8 rest h).encodeChar_append c
      rwa [hc] at htext
    by_cases htwo : 0xc2 ≤ a ∧ a ≤ 0xdf
    · cases rest with
      | nil => simp [validUtf8, hone, htwo] at h
      | cons b rest =>
        rw [validUtf8_two htwo, Bool.and_eq_true] at h
        obtain ⟨c, hc⟩ := exists_encodeChar_two (toNat_bounds htwo) (continuation_bounds h.1)
        have htext := (wellFormed_of_validUtf8 rest h.2).encodeChar_append c
        rwa [hc] at htext
    by_cases hthree : 0xe0 ≤ a ∧ a ≤ 0xef
    · cases rest with
      | nil => simp [validUtf8, hone, htwo, hthree] at h
      | cons b rest =>
        cases rest with
        | nil => simp [validUtf8, hone, htwo, hthree] at h
        | cons c rest =>
          rw [validUtf8_three hthree, Bool.and_eq_true, Bool.and_eq_true] at h
          -- the lead byte 0xe0 excludes overlong forms, 0xed surrogates
          have hb := continuation_bounds h.1.1
          simp only [apply_ite UInt8.toNat] at hb
          change (if _ then 0xa0 else 0x80) ≤ _ ∧ _ ≤ (if _ then 0x9f else 0xbf) at hb
          have hfirst : a.toNat = 0xe0 → 0xa0 ≤ b.toNat := by
            intro heq
            rw [if_pos (UInt8.toNat_inj.mp heq)] at hb
            exact hb.1
          have hsurrogate : a.toNat = 0xed → b.toNat ≤ 0x9f := by
            intro heq
            rw [if_pos (c := a = 0xed) (UInt8.toNat_inj.mp heq)] at hb
            exact hb.2
          have hrange : 0x80 ≤ b.toNat ∧ b.toNat ≤ 0xbf := by
            split at hb <;> split at hb <;> omega
          obtain ⟨char, hchar⟩ := exists_encodeChar_three (toNat_bounds hthree) hrange
            hfirst hsurrogate (continuation_bounds h.1.2)
          have htext := (wellFormed_of_validUtf8 rest h.2).encodeChar_append char
          rwa [hchar] at htext
    by_cases hfour : 0xf0 ≤ a ∧ a ≤ 0xf4
    · cases rest with
      | nil => simp [validUtf8, hone, htwo, hthree, hfour] at h
      | cons b rest =>
        cases rest with
        | nil => simp [validUtf8, hone, htwo, hthree, hfour] at h
        | cons c rest =>
          cases rest with
          | nil => simp [validUtf8, hone, htwo, hthree, hfour] at h
          | cons d rest =>
            rw [validUtf8_four hfour, Bool.and_eq_true, Bool.and_eq_true, Bool.and_eq_true] at h
            -- 0xf0 excludes overlong forms, 0xf4 what is beyond the last code point
            have hb := continuation_bounds h.1.1.1
            simp only [apply_ite UInt8.toNat] at hb
            change (if _ then 0x90 else 0x80) ≤ _ ∧ _ ≤ (if _ then 0x8f else 0xbf) at hb
            have hfirst : a.toNat = 0xf0 → 0x90 ≤ b.toNat := by
              intro heq
              rw [if_pos (UInt8.toNat_inj.mp heq)] at hb
              exact hb.1
            have hlast : a.toNat = 0xf4 → b.toNat ≤ 0x8f := by
              intro heq
              rw [if_pos (c := a = 0xf4) (UInt8.toNat_inj.mp heq)] at hb
              exact hb.2
            have hrange : 0x80 ≤ b.toNat ∧ b.toNat ≤ 0xbf := by
              split at hb <;> split at hb <;> omega
            obtain ⟨char, hchar⟩ := exists_encodeChar_four (toNat_bounds hfour) hrange hfirst hlast
              (continuation_bounds h.1.1.2) (continuation_bounds h.1.2)
            have htext := (wellFormed_of_validUtf8 rest h.2).encodeChar_append char
            rwa [hchar] at htext
    · unfold validUtf8 at h
      simp [hone, htwo, hthree, hfour] at h
termination_by bytes.length

/-- The validator accepts exactly the encodings of texts. -/
theorem validUtf8_iff (bytes : Bytes) : validUtf8 bytes = true ↔ WellFormed bytes := by
  constructor
  · exact wellFormed_of_validUtf8 bytes
  · rintro ⟨text, rfl⟩
    exact validUtf8_encode text

/-! ## Splitting and replacing -/

/-- A match starts and ends at boundaries. -/
theorem findBytes_boundaries (hdata : WellFormed data) (hneedle : WellFormed needle)
    (hne : needle ≠ []) {found : Nat} (hfound : findBytes data needle start = some found) :
    CharBoundary data found ∧ CharBoundary data (found + needle.length) := by
  obtain ⟨_, hbound, heq⟩ := findBytes_some hfound
  exact charBoundary_of_occurrence hdata hneedle hne hbound heq

/-- Splitting leaves texts. -/
theorem fieldsFrom_wellFormed (hneedle : WellFormed needle) (hne : needle ≠ []) (fuel : Nat)
    (hstart : CharBoundary data start) :
    ∀ field ∈ fieldsFrom data needle fuel start, WellFormed field := by
  induction fuel generalizing start with
  | zero =>
    intro field hfield
    rw [List.mem_singleton.mp hfield]
    exact hstart.2.1
  | succ fuel ih =>
    unfold fieldsFrom
    split
    · intro field hfield
      rw [List.mem_singleton.mp hfield]
      exact hstart.2.1
    · next found hfound =>
      obtain ⟨hhere, hafter⟩ := findBytes_boundaries hstart.wellFormed hneedle hne hfound
      intro field hfield
      rcases List.mem_cons.mp hfield with rfl | hfield
      · exact hstart.between hhere (findBytes_some hfound).1
      · exact ih hafter field hfield

/-- So does replacing. -/
theorem replaceFrom_wellFormed {target replacement : Bytes} (htarget : WellFormed target)
    (hne : target ≠ []) (hreplacement : WellFormed replacement) (fuel : Nat)
    (hstart : CharBoundary data start) :
    WellFormed (replaceFrom data target replacement fuel start) := by
  induction fuel generalizing start with
  | zero => exact hstart.2.1
  | succ fuel ih =>
    unfold replaceFrom
    split
    · exact hstart.2.1
    · next found hfound =>
      obtain ⟨hhere, hafter⟩ := findBytes_boundaries hstart.wellFormed htarget hne hfound
      exact ((hstart.between hhere (findBytes_some hfound).1).append hreplacement).append
        (ih hafter)

end Cwhip.Runtime
