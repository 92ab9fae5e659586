/-
  Cwhip.Lib.NumeralOrder

  The order of decimal numerals.  Of two numerals without leading zeros the
  longer one is greater, and numerals of one length are ordered as texts.
-/

import Mathlib.Data.Char
import Mathlib.Data.List.Lex
import Mathlib.Order.Compare
import Mathlib.Tactic.Ring

namespace Cwhip.Lib

def numeralValue (text : List Char) : Nat := Nat.ofDigitChars 10 text 0

/-- A numeral without a leading zero, unless that is its only digit. -/
structure IsNumeral (text : List Char) : Prop where
  ne_nil : text ≠ []
  digits : ∀ c ∈ text, c.isDigit = true
  head : 1 < text.length → text.head? ≠ some '0'

variable {text left right : List Char} {c : Char}

theorem IsNumeral.notMem (h : IsNumeral text) (hc : c.isDigit = false) :
    c ∉ text := by
  intro hmem
  rw [h.digits c hmem] at hc
  cases hc

theorem isNumeral_singleton (hc : c.isDigit = true) : IsNumeral [c] := by
  refine ⟨List.cons_ne_nil _ _, fun d hd => ?_, fun hlong => absurd hlong (Nat.lt_irrefl 1)⟩
  rw [List.mem_singleton.mp hd]
  exact hc

theorem digit_bounds (h : c.isDigit = true) : 48 ≤ c.toNat ∧ c.toNat ≤ 57 := by
  have hrange : '0' ≤ c ∧ c ≤ '9' := by simpa [Char.isDigit, Char.le_def] using h
  exact hrange

theorem ofDigitChars_bounds (h : ∀ c ∈ text, c.isDigit = true) (value : Nat) :
    value * 10 ^ text.length ≤ Nat.ofDigitChars 10 text value ∧
      Nat.ofDigitChars 10 text value < (value + 1) * 10 ^ text.length := by
  induction text generalizing value with
  | nil => simp
  | cons c rest ih =>
    obtain ⟨hlow, hhigh⟩ := digit_bounds (h c List.mem_cons_self)
    obtain ⟨hleft, hright⟩ := ih (fun c hc => h c (List.mem_cons_of_mem _ hc))
      (10 * value + (c.toNat - '0'.toNat))
    have hzero : '0'.toNat = 48 := rfl
    rw [Nat.ofDigitChars_cons, List.length_cons, Nat.pow_succ']
    constructor
    · calc value * (10 * 10 ^ rest.length) = (10 * value) * 10 ^ rest.length := by ring
        _ ≤ (10 * value + (c.toNat - '0'.toNat)) * 10 ^ rest.length :=
          Nat.mul_le_mul_right _ (by omega)
        _ ≤ _ := hleft
    · calc _ < (10 * value + (c.toNat - '0'.toNat) + 1) * 10 ^ rest.length := hright
        _ ≤ (10 * (value + 1)) * 10 ^ rest.length := Nat.mul_le_mul_right _ (by omega)
        _ = _ := by ring

theorem ofDigitChars_lt_iff (hlength : left.length = right.length)
    (hleft : ∀ c ∈ left, c.isDigit = true) (hright : ∀ c ∈ right, c.isDigit = true) (a b : Nat) :
    Nat.ofDigitChars 10 left a < Nat.ofDigitChars 10 right b ↔ a < b ∨ a = b ∧ left < right := by
  induction left generalizing right a b with
  | nil =>
    cases right with
    | nil => simp
    | cons d right => cases hlength
  | cons c left ih =>
    cases right with
    | nil => cases hlength
    | cons d right =>
      have hc := digit_bounds (hleft c List.mem_cons_self)
      have hd := digit_bounds (hright d List.mem_cons_self)
      have hzero : '0'.toNat = 48 := rfl
      have hless : c < d ↔ c.toNat < d.toNat := Iff.rfl
      have heq : c = d ↔ c.toNat = d.toNat := Char.toNat_inj.symm
      rw [Nat.ofDigitChars_cons, Nat.ofDigitChars_cons, ih (Nat.succ.inj hlength)
        (fun c hc => hleft c (List.mem_cons_of_mem _ hc))
        (fun c hc => hright c (List.mem_cons_of_mem _ hc)), List.cons_lt_cons_iff, hless, heq]
      constructor
      · rintro (h | ⟨h, hrest⟩)
        · by_cases hab : a < b
          · exact .inl hab
          · exact .inr ⟨by omega, .inl (by omega)⟩
        · exact .inr ⟨by omega, .inr ⟨by omega, hrest⟩⟩
      · rintro (h | ⟨rfl, h | ⟨h, hrest⟩⟩)
        · exact .inl (by omega)
        · exact .inl (by omega)
        · exact .inr ⟨by omega, hrest⟩

theorem numeralValue_lt_of_length (hleft : IsNumeral left) (hright : IsNumeral right)
    (h : left.length < right.length) : numeralValue left < numeralValue right := by
  have hupper := (ofDigitChars_bounds hleft.digits 0).2
  obtain ⟨first, rest, rfl⟩ := List.exists_cons_of_ne_nil hright.ne_nil
  have hlong : 1 < (first :: rest).length := by
    have hpos := List.length_pos_of_ne_nil hleft.ne_nil
    omega
  -- the first digit of the longer one is not zero
  have hfirst := digit_bounds (hright.digits first List.mem_cons_self)
  have hzero : '0'.toNat = 48 := rfl
  have hne : first.toNat ≠ '0'.toNat := by
    intro heq
    exact hright.head hlong (congrArg some (Char.toNat_inj.mp heq))
  have hlower := (ofDigitChars_bounds (fun c hc => hright.digits c (List.mem_cons_of_mem _ hc))
    (10 * 0 + (first.toNat - '0'.toNat))).1
  calc numeralValue left < (0 + 1) * 10 ^ left.length := hupper
    _ ≤ 1 * 10 ^ rest.length := by
      rw [Nat.zero_add]
      exact Nat.mul_le_mul_left 1 (Nat.pow_le_pow_right (by omega) (Nat.le_of_lt_succ h))
    _ ≤ (10 * 0 + (first.toNat - '0'.toNat)) * 10 ^ rest.length := Nat.mul_le_mul_right _ (by omega)
    _ ≤ numeralValue (first :: rest) := by
      rw [numeralValue, Nat.ofDigitChars_cons]
      exact hlower

theorem numeralValue_lt_iff (hleft : IsNumeral left) (hright : IsNumeral right)
    (h : left.length = right.length) : numeralValue left < numeralValue right ↔ left < right := by
  rw [numeralValue, numeralValue, ofDigitChars_lt_iff h hleft.digits hright.digits]
  simp

theorem numeralValue_inj (hleft : IsNumeral left) (hright : IsNumeral right) :
    numeralValue left = numeralValue right ↔ left = right := by
  constructor
  · intro heq
    rcases Nat.lt_trichotomy left.length right.length with hlt | hlen | hgt
    · exact absurd heq (Nat.ne_of_lt (numeralValue_lt_of_length hleft hright hlt))
    · rcases lt_trichotomy left right with hlt | hsame | hgt
      · exact absurd heq (Nat.ne_of_lt ((numeralValue_lt_iff hleft hright hlen).mpr hlt))
      · exact hsame
      · exact absurd heq (Nat.ne_of_gt ((numeralValue_lt_iff hright hleft hlen.symm).mpr hgt))
    · exact absurd heq (Nat.ne_of_gt (numeralValue_lt_of_length hright hleft hgt))
  · exact congrArg numeralValue

end Cwhip.Lib
