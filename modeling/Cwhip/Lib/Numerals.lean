/-
  Cwhip.Lib.Numerals

  Numbers written in a base: the value of a sequence of digits, and the decimal
  digits of a number.
-/

import Mathlib.Tactic.Common

namespace Cwhip.Lib

def digitValue (base : Nat) (c : Char) : Option Nat :=
  let value :=
    if '0' ≤ c ∧ c ≤ '9' then some (c.toNat - '0'.toNat)
    else if 'a' ≤ c ∧ c ≤ 'z' then some (c.toNat - 'a'.toNat + 10)
    else if 'A' ≤ c ∧ c ≤ 'Z' then some (c.toNat - 'A'.toNat + 10)
    else none
  value.filter fun value => value < base

/-- The value of digits behind others of a value. -/
def numeralFrom (base : Nat) : List Char → Nat → Option Nat
  | [], value => some value
  | c :: rest, value => do
    let digit ← digitValue base c
    numeralFrom base rest (base * value + digit)

/-- The value of a numeral; it has at least one digit. -/
def numeral (base : Nat) (text : List Char) : Option Nat :=
  if text = [] then none else numeralFrom base text 0

/-- The value of a decimal constant, with or without a sign. -/
def signedNumeral : List Char → Option Int
  | '-' :: digits => (numeral 10 digits).map fun value => -(value : Int)
  | text => (numeral 10 text).map Int.ofNat

theorem digitValue_ten {c : Char} (h : c.isDigit = true) : digitValue 10 c =
    some (c.toNat - '0'.toNat) := by
  have hrange : '0' ≤ c ∧ c ≤ '9' := by simpa [Char.isDigit, Char.le_def] using h
  have hless : c.toNat - '0'.toNat < 10 := by
    have hle : c.toNat ≤ '9'.toNat := hrange.2
    have hnine : '9'.toNat = 57 := rfl
    have hzero : '0'.toNat = 48 := rfl
    omega
  unfold digitValue
  dsimp only
  rw [if_pos hrange, Option.filter_some, if_pos (decide_eq_true hless)]

variable {digits text : List Char} {value : Nat}

theorem numeralFrom_digits (h : ∀ c ∈ digits, c.isDigit = true) (value : Nat) :
    numeralFrom 10 digits value = some (Nat.ofDigitChars 10 digits value) := by
  induction digits generalizing value with
  | nil => rw [numeralFrom, Nat.ofDigitChars_nil]
  | cons c rest ih =>
    rw [numeralFrom, digitValue_ten (h c List.mem_cons_self), Nat.ofDigitChars_cons]
    exact ih (fun c hc => h c (List.mem_cons_of_mem _ hc)) _

theorem numeral_toDigits (n : Nat) : numeral 10 (Nat.toDigits 10 n) = some n := by
  have hdigits : ∀ c ∈ Nat.toDigits 10 n, c.isDigit = true := fun c hc =>
    Nat.isDigit_of_mem_toDigits (by omega) (by omega) hc
  rw [numeral, if_neg Nat.toDigits_ne_nil, numeralFrom_digits hdigits,
    Nat.ofDigitChars_ten_toDigits]

theorem numeral_head {base : Nat} (h : numeral base text = some value) :
    ∃ first rest digit, text = first :: rest ∧ digitValue base first = some digit := by
  cases text with
  | nil => cases h
  | cons first rest =>
    rw [numeral, if_neg (List.cons_ne_nil _ _), numeralFrom] at h
    obtain ⟨digit, hdigit, _⟩ := Option.bind_eq_some_iff.mp h
    exact ⟨first, rest, digit, rfl, hdigit⟩

theorem signedNumeral_of_numeral (h : numeral 10 text = some value) :
    signedNumeral text = some (value : Int) := by
  obtain ⟨first, rest, digit, rfl, hdigit⟩ := numeral_head h
  unfold signedNumeral
  split
  · rename_i heq
    rw [(List.cons.inj heq).1] at hdigit
    cases hdigit
  · rw [h]
    rfl

theorem signedNumeral_neg (h : numeral 10 digits = some value) :
    signedNumeral ('-' :: digits) = some (-(value : Int)) := by
  rw [signedNumeral, h]
  rfl

end Cwhip.Lib
