/-
  Cwhip.Runtime.StringNumbers

  `cwhip_string_to_int` and `cwhip_string_to_unsigned` (`RuntimeGc.c`).  Every
  unsigned computation is checked, so a run in which one wraps around ends in
  `wrapped`.

  `readDigits` is the loop of both.  Its guard divides a limit, and
  `guard_iff` says that this is the exact test whether one more digit stays
  within the limit.
-/

import Cwhip.Lib.MachineInt
import Cwhip.Runtime.FormatFieldText

namespace Cwhip.Runtime.StringNumbers

open Cwhip.Lib Cwhip.Lib.Utf8 Cwhip.Runtime.StringStore

/-- How a conversion stops: it raises, or 64-bit arithmetic wraps around. -/
inductive ConversionStop where
  | raised (message : String)
  | wrapped
  deriving DecidableEq, Repr

/-- The messages of a conversion. -/
structure Messages where
  invalid : String
  range : String

/-- The result of unsigned arithmetic, if it is a word. -/
def word (x : Int) : Except ConversionStop Nat :=
  if 0 ≤ x ∧ x < 2 ^ 64 then .ok x.toNat else .error .wrapped

/-- `digit < '0' || digit > '9'`, negated. -/
def isDigit (byte : UInt8) : Bool := 0x30 ≤ byte && byte ≤ 0x39

/-- The loop over the digits. -/
def readDigits (messages : Messages) (limit : Nat) : Bytes → Nat → Except ConversionStop Nat
  | [], magnitude => .ok magnitude
  | digit :: rest, magnitude => do
    ensure (isDigit digit = true) (.raised messages.invalid)
    let addend := (digit - 0x30).toNat
    let room ← word (limit - addend)
    ensure (¬ room / 10 < magnitude) (.raised messages.range)
    let tenfold ← word (magnitude * 10)
    let next ← word (tenfold + addend)
    readDigits messages limit rest next

def intMessages : Messages where
  invalid := "string does not contain a valid integer"
  range := "string integer value is out of range"

/-- `cwhip_string_to_int` -/
def stringToInt (bytes : Bytes) : Except ConversionStop Int := do
  ensure (bytes ≠ []) (.raised intMessages.invalid)
  let first := bytes.head?
  let signed := first == some 0x2b || first == some 0x2d
  let negative := first == some 0x2d
  let digits := if signed then bytes.tail else bytes
  ensure (digits ≠ []) (.raised intMessages.invalid)
  let limit := if negative then 2 ^ 63 else 2 ^ 63 - 1
  let magnitude ← readDigits intMessages limit digits 0
  if negative = false then return asSigned magnitude
  if magnitude = 2 ^ 63 then return -2 ^ 63
  Lib.signed .wrapped (-asSigned magnitude)

def unsignedMessages : Messages where
  invalid := "string does not contain a valid unsigned integer"
  range := "string unsigned integer value is out of range"

/-- `cwhip_string_to_unsigned` -/
def stringToUnsigned (bytes : Bytes) : Except ConversionStop Nat := do
  ensure (bytes ≠ []) (.raised unsignedMessages.invalid)
  let digits := if bytes.head? == some 0x2b then bytes.tail else bytes
  ensure (bytes.head? ≠ some 0x2d) (.raised unsignedMessages.invalid)
  ensure (digits ≠ []) (.raised unsignedMessages.invalid)
  readDigits unsignedMessages (2 ^ 64 - 1) digits 0

/-! ## Specification -/

def valueFrom (value : Nat) (digits : Bytes) : Nat :=
  digits.foldl (fun value digit => 10 * value + (digit - 0x30).toNat) value

def decimalValue (digits : Bytes) : Nat := valueFrom 0 digits

/-- `[0-9]+` -/
def Digits (digits : Bytes) : Prop := digits ≠ [] ∧ ∀ digit ∈ digits, isDigit digit = true

/-- `[+-]?[0-9]+`, and the value. -/
inductive IntegerText : Bytes → Int → Prop
  | plain {digits} (h : Digits digits) : IntegerText digits (decimalValue digits)
  | plus {digits} (h : Digits digits) : IntegerText (0x2b :: digits) (decimalValue digits)
  | minus {digits} (h : Digits digits) : IntegerText (0x2d :: digits) (-decimalValue digits)

/-- `[+]?[0-9]+`, and the value. -/
inductive UnsignedText : Bytes → Nat → Prop
  | plain {digits} (h : Digits digits) : UnsignedText digits (decimalValue digits)
  | plus {digits} (h : Digits digits) : UnsignedText (0x2b :: digits) (decimalValue digits)

/-! ## The loop -/

theorem isDigit_iff (byte : UInt8) : isDigit byte = true ↔ 0x30 ≤ byte.toNat ∧
    byte.toNat ≤ 0x39 := by
  rw [isDigit, Bool.and_eq_true, decide_eq_true_eq, decide_eq_true_eq, UInt8.le_iff_toNat_le,
    UInt8.le_iff_toNat_le]
  exact Iff.rfl

theorem digit_le {byte : UInt8} (h : isDigit byte = true) : (byte - 0x30).toNat ≤ 9 := by
  obtain ⟨hlow, hhigh⟩ := (isDigit_iff byte).mp h
  rw [UInt8.toNat_sub_of_le byte 0x30 (UInt8.le_iff_toNat_le.mpr hlow)]
  show byte.toNat - 0x30 ≤ 9
  omega

theorem le_valueFrom (value : Nat) (digits : Bytes) : value ≤ valueFrom value digits := by
  induction digits generalizing value with
  | nil => exact Nat.le_refl _
  | cons digit rest ih =>
    have hstep := ih (10 * value + (digit - 0x30).toNat)
    show value ≤ valueFrom (10 * value + (digit - 0x30).toNat) rest
    omega

variable {limit magnitude : Nat} {digit : UInt8}

theorem guard_iff {addend : Nat} (hlimit : 9 ≤ limit) (haddend : addend ≤ 9) :
    ¬ (limit - addend) / 10 < magnitude ↔ 10 * magnitude + addend ≤ limit := by
  omega

theorem word_ok {n : Nat} (h : n < 2 ^ 64) : word n = .ok n := by
  rw [word, if_pos ⟨by omega, by omega⟩, Int.toNat_natCast]

theorem readDigits_digit (messages : Messages) (hlow : 9 ≤ limit) (hhigh : limit < 2 ^ 64)
    (hdigit : isDigit digit = true) (hfits : 10 * magnitude + (digit - 0x30).toNat ≤ limit)
    (rest : Bytes) :
    readDigits messages limit (digit :: rest) magnitude
      = readDigits messages limit rest (10 * magnitude + (digit - 0x30).toNat) := by
  have haddend := digit_le hdigit
  rw [readDigits, ensure_bind hdigit]
  dsimp only
  generalize (digit - 0x30).toNat = addend at *
  have hroom : word ((limit : Int) - addend) = .ok (limit - addend) := by
    rw [← Int.ofNat_sub (by omega)]
    exact word_ok (by omega)
  have htenfold : word ((magnitude : Int) * 10) = .ok (10 * magnitude) := by
    rw [Int.mul_comm]
    exact @word_ok (10 * magnitude) (by omega)
  have hnext : word (((10 * magnitude : Nat) : Int) + addend) = .ok (10 * magnitude + addend) := by
    rw [← Int.natCast_add]
    exact word_ok (by omega)
  rw [hroom, ok_bind, ensure_bind ((guard_iff hlow haddend).mpr hfits), htenfold, ok_bind,
    hnext, ok_bind]

theorem readDigits_range (messages : Messages) (hlow : 9 ≤ limit) (hhigh : limit < 2 ^ 64)
    (hdigit : isDigit digit = true) (hlarge : ¬ 10 * magnitude + (digit - 0x30).toNat ≤ limit)
    (rest : Bytes) :
    readDigits messages limit (digit :: rest) magnitude = .error (.raised messages.range) := by
  have haddend := digit_le hdigit
  rw [readDigits, ensure_bind hdigit]
  dsimp only
  generalize (digit - 0x30).toNat = addend at *
  have hroom : word ((limit : Int) - addend) = .ok (limit - addend) := by
    rw [← Int.ofNat_sub (by omega)]
    exact word_ok (by omega)
  rw [hroom, ok_bind, ensure_bind_error (fun h => hlarge ((guard_iff hlow haddend).mp h))]

theorem readDigits_spec (messages : Messages) (hlow : 9 ≤ limit) (hhigh : limit < 2 ^ 64)
    (digits : Bytes) (hmagnitude : magnitude ≤ limit) :
    (readDigits messages limit digits magnitude = .ok (valueFrom magnitude digits) ∧
      (∀ digit ∈ digits, isDigit digit = true) ∧ valueFrom magnitude digits ≤ limit) ∨
    ((∃ message, readDigits messages limit digits magnitude = .error (.raised message)) ∧
      ¬ ((∀ digit ∈ digits, isDigit digit = true) ∧ valueFrom magnitude digits ≤ limit)) := by
  induction digits generalizing magnitude with
  | nil => exact .inl ⟨rfl, List.forall_mem_nil _, hmagnitude⟩
  | cons digit rest ih =>
    have hvalue : valueFrom magnitude (digit :: rest)
        = valueFrom (10 * magnitude + (digit - 0x30).toNat) rest := rfl
    rw [hvalue]
    by_cases hdigit : isDigit digit = true
    · by_cases hfits : 10 * magnitude + (digit - 0x30).toNat ≤ limit
      · rw [readDigits_digit messages hlow hhigh hdigit hfits]
        rcases ih hfits with ⟨hread, hrest, hlast⟩ | ⟨hread, hfails⟩
        · exact .inl ⟨hread, List.forall_mem_cons.mpr ⟨hdigit, hrest⟩, hlast⟩
        · exact .inr ⟨hread, fun h => hfails ⟨(List.forall_mem_cons.mp h.1).2, h.2⟩⟩
      · right
        rw [readDigits_range messages hlow hhigh hdigit hfits]
        exact ⟨⟨_, rfl⟩, fun h => hfits (Nat.le_trans (le_valueFrom _ rest) h.2)⟩
    · right
      rw [readDigits, ensure_bind_error hdigit]
      exact ⟨⟨_, rfl⟩, fun h => hdigit (h.1 digit List.mem_cons_self)⟩

/-! ## The conversions -/

theorem readDigits_digits (messages : Messages) (hlow : 9 ≤ limit) (hhigh : limit < 2 ^ 64)
    {digits : Bytes} (hne : digits ≠ []) :
    (readDigits messages limit digits 0 = .ok (decimalValue digits) ∧ Digits digits ∧
      decimalValue digits ≤ limit) ∨
    ((∃ message, readDigits messages limit digits 0 = .error (.raised message)) ∧
      ¬ (Digits digits ∧ decimalValue digits ≤ limit)) := by
  rcases readDigits_spec messages hlow hhigh digits (Nat.zero_le limit) with ⟨hread, hall,
    hvalue⟩ | ⟨hread, hfails⟩
  · exact .inl ⟨hread, ⟨hne, hall⟩, hvalue⟩
  · exact .inr ⟨hread, fun h => hfails ⟨h.1.2, h.2⟩⟩

theorem Digits.head {first : UInt8} {rest : Bytes} (h : Digits (first :: rest)) :
    first ≠ 0x2b ∧ first ≠ 0x2d := by
  have hfirst := (isDigit_iff first).mp (h.2 first List.mem_cons_self)
  constructor
  · rintro rfl
    exact absurd hfirst.1 (by decide)
  · rintro rfl
    exact absurd hfirst.1 (by decide)

theorem unsignedText_iff (bytes : Bytes) (value : Nat) :
    UnsignedText bytes value ↔
      let digits := if bytes.head? == some 0x2b then bytes.tail else bytes
      Digits digits ∧ decimalValue digits = value := by
  constructor
  · rintro (h | h)
    · cases bytes with
      | nil => exact absurd rfl h.1
      | cons first rest =>
        have hhead : ((first :: rest).head? == some 0x2b) = false := by simpa using h.head.1
        rw [hhead]
        exact ⟨h, rfl⟩
    · exact ⟨h, rfl⟩
  · cases bytes with
    | nil => exact fun h => absurd rfl h.1.1
    | cons first rest =>
      by_cases hplus : first = 0x2b
      · subst hplus
        rintro ⟨h, rfl⟩
        exact .plus h
      · have hhead : ((first :: rest).head? == some 0x2b) = false := by simpa using hplus
        rw [hhead]
        rintro ⟨h, rfl⟩
        exact .plain h

theorem stringToUnsigned_spec (bytes : Bytes) :
    (∃ value, stringToUnsigned bytes = .ok value ∧ UnsignedText bytes value ∧ value < 2 ^ 64) ∨
    ((∃ message, stringToUnsigned bytes = .error (.raised message)) ∧
      ∀ value, UnsignedText bytes value → 2 ^ 64 ≤ value) := by
  simp only [unsignedText_iff]
  unfold stringToUnsigned
  by_cases hbytes : bytes ≠ []
  · rw [ensure_bind hbytes]
    dsimp only
    generalize hdigits : (if (bytes.head? == some 0x2b) = true then bytes.tail else bytes) = digits
    by_cases hminus : bytes.head? ≠ some 0x2d
    · rw [ensure_bind hminus]
      by_cases hne : digits ≠ []
      · rw [ensure_bind hne]
        rcases readDigits_digits unsignedMessages (show 9 ≤ 2 ^ 64 - 1 by omega) (by omega) hne with
          ⟨hread, htext, hvalue⟩ | ⟨hread, hfails⟩
        · exact .inl ⟨_, hread, ⟨htext, rfl⟩, by omega⟩
        · refine .inr ⟨hread, ?_⟩
          rintro value ⟨htext, rfl⟩
          by_contra hsmall
          exact hfails ⟨htext, by omega⟩
      · rw [ensure_bind_error hne]
        exact .inr ⟨⟨_, rfl⟩, fun value h => absurd h.1.1 hne⟩
    · rw [ensure_bind_error hminus]
      refine .inr ⟨⟨_, rfl⟩, ?_⟩
      rintro value ⟨htext, _⟩
      -- a minus sign is not skipped, and is no digit
      cases bytes with
      | nil => exact absurd rfl hbytes
      | cons first rest =>
        have hfirst : first = 0x2d := by simpa using hminus
        subst hfirst
        rw [← hdigits] at htext
        exact absurd rfl (@Digits.head 0x2d rest htext).2
  · rw [ensure_bind_error hbytes]
    refine .inr ⟨⟨_, rfl⟩, ?_⟩
    rintro value ⟨htext, _⟩
    rw [not_not.mp hbytes] at htext
    exact absurd rfl htext.1

theorem integerText_iff (bytes : Bytes) (value : Int) :
    IntegerText bytes value ↔
      let digits := if bytes.head? == some 0x2b || bytes.head? == some 0x2d then bytes.tail
      else bytes
      Digits digits ∧
        value = if bytes.head? == some 0x2d then -(decimalValue digits : Int)
            else decimalValue digits := by
  constructor
  · rintro (h | h | h)
    · cases bytes with
      | nil => exact absurd rfl h.1
      | cons first rest =>
        have hplus : ((first :: rest).head? == some 0x2b) = false := by simpa using h.head.1
        have hminus : ((first :: rest).head? == some 0x2d) = false := by simpa using h.head.2
        rw [hplus, hminus]
        exact ⟨h, rfl⟩
    · exact ⟨h, rfl⟩
    · exact ⟨h, rfl⟩
  · cases bytes with
    | nil => exact fun h => absurd rfl h.1.1
    | cons first rest =>
      by_cases hplus : first = 0x2b
      · subst hplus
        rintro ⟨h, rfl⟩
        exact .plus h
      by_cases hminus : first = 0x2d
      · subst hminus
        rintro ⟨h, rfl⟩
        exact .minus h
      · have hplus' : ((first :: rest).head? == some 0x2b) = false := by simpa using hplus
        have hminus' : ((first :: rest).head? == some 0x2d) = false := by simpa using hminus
        rw [hplus', hminus']
        rintro ⟨h, rfl⟩
        exact .plain h

theorem stringToInt_spec (bytes : Bytes) :
    (∃ value, stringToInt bytes = .ok value ∧ IntegerText bytes value ∧ FitsSigned value) ∨
    ((∃ message, stringToInt bytes = .error (.raised message)) ∧
      ∀ value, IntegerText bytes value → ¬ FitsSigned value) := by
  simp only [integerText_iff]
  unfold stringToInt
  by_cases hbytes : bytes ≠ []
  · rw [ensure_bind hbytes]
    dsimp only
    generalize (if (bytes.head? == some 0x2b || bytes.head? == some 0x2d) = true then bytes.tail
      else bytes) = digits
    by_cases hne : digits ≠ []
    · rw [ensure_bind hne]
      cases hnegative : bytes.head? == some 0x2d with
      | false =>
        rw [if_neg Bool.false_ne_true]
        rcases readDigits_digits intMessages (show 9 ≤ 2 ^ 63 - 1 by omega) (by omega) hne with
          ⟨hread, htext, hvalue⟩ | ⟨⟨message, hread⟩, hfails⟩
        · rw [hread, ok_bind, if_pos rfl, asSigned_of_lt (by omega)]
          exact .inl ⟨_, rfl, ⟨htext, rfl⟩, by omega, by omega⟩
        · rw [hread]
          refine .inr ⟨⟨message, rfl⟩, ?_⟩
          rintro value ⟨htext, hvalue⟩ hfits
          have hhigh := hfits.2
          rw [if_neg Bool.false_ne_true] at hvalue
          exact hfails ⟨htext, by omega⟩
      | true =>
        rw [if_pos rfl]
        rcases readDigits_digits intMessages (show 9 ≤ 2 ^ 63 by omega) (by omega) hne with
          ⟨hread, htext, hvalue⟩ | ⟨⟨message, hread⟩, hfails⟩
        · left
          rw [hread, ok_bind, if_neg Bool.noConfusion]
          refine ⟨-(decimalValue digits : Int), ?_, ⟨htext, rfl⟩, by omega, by omega⟩
          split
          · next hleast =>
            rw [hleast]
            rfl
          · next hother =>
            rw [asSigned_of_lt (by omega)]
            exact signed_of_fits _ ⟨by omega, by omega⟩
        · rw [hread]
          refine .inr ⟨⟨message, rfl⟩, ?_⟩
          rintro value ⟨htext, hvalue⟩ hfits
          have hlow := hfits.1
          rw [if_pos rfl] at hvalue
          exact hfails ⟨htext, by omega⟩
    · rw [ensure_bind_error hne]
      exact .inr ⟨⟨_, rfl⟩, fun value h => absurd h.1.1 hne⟩
  · rw [ensure_bind_error hbytes]
    refine .inr ⟨⟨_, rfl⟩, ?_⟩
    rintro value ⟨htext, _⟩
    rw [not_not.mp hbytes] at htext
    exact absurd rfl htext.1

theorem stringToInt_ok_iff (bytes : Bytes) (value : Int) :
    stringToInt bytes = .ok value ↔ IntegerText bytes value ∧ FitsSigned value := by
  have hunique : ∀ {value' : Int}, IntegerText bytes value → IntegerText bytes value' →
      value = value' := by
    intro value' h h'
    exact ((integerText_iff bytes value).mp h).2.trans ((integerText_iff bytes value').mp h').2.symm
  rcases stringToInt_spec bytes with ⟨value', hread, htext, hfits⟩ | ⟨⟨message, hread⟩, hfails⟩
  · rw [hread, Except.ok.injEq]
    constructor
    · rintro rfl
      exact ⟨htext, hfits⟩
    · exact fun h => (hunique h.1 htext).symm
  · rw [hread]
    exact ⟨fun h => (by cases h), fun h => absurd h.2 (hfails value h.1)⟩

theorem stringToUnsigned_ok_iff (bytes : Bytes) (value : Nat) :
    stringToUnsigned bytes = .ok value ↔ UnsignedText bytes value ∧ value < 2 ^ 64 := by
  have hunique : ∀ {value' : Nat}, UnsignedText bytes value → UnsignedText bytes value' →
      value = value' := by
    intro value' h h'
    exact ((unsignedText_iff bytes value).mp h).2.symm.trans
      ((unsignedText_iff bytes value').mp h').2
  rcases stringToUnsigned_spec bytes with ⟨value', hread, htext, hfits⟩ | ⟨⟨message, hread⟩, hfails⟩
  · rw [hread, Except.ok.injEq]
    constructor
    · rintro rfl
      exact ⟨htext, hfits⟩
    · exact fun h => (hunique h.1 htext).symm
  · rw [hread]
    exact ⟨fun h => (by cases h), fun h => absurd h.2 (Nat.not_lt.mpr (hfails value h.1))⟩

/-! ## Formatted numbers -/

theorem valueFrom_digits {text : List Char} (h : ∀ c ∈ text, c.isDigit = true) (value : Nat) :
    valueFrom value (text.map fun c => UInt8.ofNat c.val.toNat) = Nat.ofDigitChars 10 text value ∧
      ∀ digit ∈ text.map (fun c => UInt8.ofNat c.val.toNat), isDigit digit = true := by
  induction text generalizing value with
  | nil => exact ⟨Nat.ofDigitChars_nil.symm, List.forall_mem_nil _⟩
  | cons c rest ih =>
    obtain ⟨hrest, hall⟩ := ih (fun other hother => h other (List.mem_cons_of_mem _ hother))
      (10 * value + (c.toNat - '0'.toNat))
    have hc : 0x30 ≤ c.val.toNat ∧ c.val.toNat ≤ 0x39 := by
      simpa [Char.isDigit, UInt32.le_iff_toNat_le] using h c List.mem_cons_self
    have hbyte : (UInt8.ofNat c.val.toNat).toNat = c.val.toNat :=
      UInt8.toNat_ofNat_of_lt' (by change c.val.toNat < 256; omega)
    have hdigit : isDigit (UInt8.ofNat c.val.toNat) = true := by
      rw [isDigit_iff, hbyte]
      exact hc
    have haddend : (UInt8.ofNat c.val.toNat - 0x30).toNat = c.toNat - '0'.toNat := by
      rw [UInt8.toNat_sub_of_le _ 0x30, hbyte]
      · rfl
      · rw [UInt8.le_iff_toNat_le, hbyte]
        exact hc.1
    rw [List.map_cons, Nat.ofDigitChars_cons, ← hrest, ← haddend]
    exact ⟨rfl, List.forall_mem_cons.mpr ⟨hdigit, hall⟩⟩

theorem digits_spec (n : Nat) :
    Digits (encode (digitText 10 n false)) ∧ decimalValue (encode (digitText 10 n false)) = n := by
  have hchars : digitText 10 n false = Nat.toDigits 10 n := List.map_id'' (fun _ => rfl) _
  have hdigits : ∀ c ∈ Nat.toDigits 10 n, c.isDigit = true := fun c hc =>
    Nat.isDigit_of_mem_toDigits (by omega) (by omega) hc
  obtain ⟨hvalue, hall⟩ := valueFrom_digits hdigits 0
  rw [encode_of_ascii (digitText_ascii (by omega) n false), hchars]
  refine ⟨⟨?_, hall⟩, ?_⟩
  · rw [Ne, List.map_eq_nil_iff]
    exact Nat.toDigits_ne_nil
  · rw [decimalValue, hvalue, Nat.ofDigitChars_ten_toDigits]

theorem integerText_toString (n : Int) : IntegerText (encode (toString n).toList) n := by
  obtain ⟨hdigits, hvalue⟩ := digits_spec n.natAbs
  rw [toString_digits, encode_append]
  by_cases hneg : n < 0
  · have htext := IntegerText.minus hdigits
    have hn : -(n.natAbs : Int) = n := by omega
    rw [hvalue, hn] at htext
    rw [if_pos hneg]
    exact htext
  · have htext := IntegerText.plain hdigits
    have hn : (n.natAbs : Int) = n := by omega
    rw [hvalue, hn] at htext
    rw [if_neg hneg]
    exact htext

theorem unsignedText_toString (n : Nat) : UnsignedText (encode (toString (n : Int)).toList) n := by
  obtain ⟨hdigits, hvalue⟩ := digits_spec n
  have htext := UnsignedText.plain hdigits
  rw [hvalue] at htext
  rw [toString_digits, if_neg (by omega), Int.natAbs_natCast]
  exact htext

theorem formatAppendPlain_number (print : UInt64 → Bytes) {value : DynamicValue} {n : Int}
    (hvalue : (∃ payload : Int64, value = .integer payload ∧ n = payload.toInt) ∨
      ∃ payload : UInt64, value = .unsigned payload ∧ n = payload.toNat) :
    ∃ σ w, Store.formatAppendPlain print [GrowVec.ofList 0 []] 0 value = .ok σ ∧ σ[0]? = some w ∧
      w.value = encode (toString n).toList := by
  -- the conversion of floats has no part in this
  have hprint : PrintsFloats fun _ => [] := ⟨fun _ => List.forall_mem_nil _, fun _ =>
    Nat.succ_pos 127⟩
  have hsame : Store.formatAppendPlain print [GrowVec.ofList 0 []] 0 value
      = Store.formatAppendPlain (fun _ => []) [GrowVec.ofList 0 []] 0 value := by
    rcases hvalue with ⟨payload, rfl, _⟩ | ⟨payload, rfl, _⟩
    · rfl
    · rfl
  have htext : FieldText (fun _ => []) [GrowVec.ofList 0 []] value none (toString n).toList := by
    rcases hvalue with ⟨payload, rfl, rfl⟩ | ⟨payload, rfl, rfl⟩
    · exact .integer rfl
    · exact .unsigned rfl
  have hpresented : value.Presented [GrowVec.ofList 0 []] 0 ∧ value.number = true := by
    rcases hvalue with ⟨payload, rfl, _⟩ | ⟨payload, rfl, _⟩
    · exact ⟨trivial, rfl⟩
    · exact ⟨trivial, rfl⟩
  have hlength : (encode (toString n).toList).length ≤ 21 := by
    have hn : n.natAbs < 10 ^ 20 := by
      rcases hvalue with ⟨payload, _, rfl⟩ | ⟨payload, _, rfl⟩
      · have hlow := payload.le_toInt
        have hhigh := payload.toInt_lt
        omega
      · have hhigh := payload.toNat_lt
        omega
    rw [← (signed_text n).1]
    exact signed_length (by omega) (by omega) hn
  have hspec : FormatSpec.Parsed ⟨none, 0, none, false⟩ :=
    ⟨Nat.zero_le _, fun _ => rfl, fun _ => by decide⟩
  have hfield : padField ⟨none, 0, none, false⟩ value.number (toString n).toList =
      (toString n).toList := by
    rw [hpresented.2]
    show List.replicate (0 - (toString n).toList.length) ' ' ++ (toString n).toList = _
    rw [Nat.zero_sub]
    rfl
  obtain ⟨data, hdata, hread, hfieldLength, helsewhere⟩ :=
    @formatData_text _ hprint _ _ _ hpresented.1 ⟨none, 0, none, false⟩ _ htext Bool.noConfusion
  have happends := @formatAppend_appends _ _ _ (GrowVec.ofList 0 []) rfl (Nat.zero_le _) _ _ hspec
    Bool.noConfusion _ hdata _ hread hfieldLength helsewhere
  rw [hfield] at happends
  have hfits : (GrowVec.ofList 0 ([] : Bytes)).length + (encode (toString n).toList).length ≤
      int64Max := by
    show 0 + _ ≤ 2 ^ 63 - 1
    omega
  obtain ⟨σ, hresult, ⟨w, hw, hcontent⟩, _⟩ := happends.1 hfits
  refine ⟨σ, w, ?_, hw, hcontent⟩
  rw [hsame, Store.formatAppendPlain, formatSpecAppend_eq hprint, hresult]
  rfl

/-- Strings are converted to integers exactly when they are numerals in range,
    to the value they write, without wrap-around, and formatting is undone. -/
theorem conversions (print : UInt64 → Bytes) :
    (∀ bytes value, stringToInt bytes = .ok value ↔ IntegerText bytes value ∧ FitsSigned value) ∧
    (∀ bytes value, stringToUnsigned bytes = .ok value ↔ UnsignedText bytes value ∧
    value < 2 ^ 64) ∧
    (∀ bytes, stringToInt bytes ≠ .error .wrapped ∧ stringToUnsigned bytes ≠ .error .wrapped) ∧
    (∀ payload : Int64, ∃ σ w,
      Store.formatAppendPlain print [GrowVec.ofList 0 []] 0 (.integer payload) = .ok σ ∧
        σ[0]? = some w ∧ stringToInt w.value = .ok payload.toInt) ∧
    ∀ payload : UInt64, ∃ σ w,
      Store.formatAppendPlain print [GrowVec.ofList 0 []] 0 (.unsigned payload) = .ok σ ∧
        σ[0]? = some w ∧ stringToUnsigned w.value = .ok payload.toNat := by
  refine ⟨stringToInt_ok_iff, stringToUnsigned_ok_iff, ?_, ?_, ?_⟩
  · intro bytes
    constructor
    · rcases stringToInt_spec bytes with ⟨value, hread, _⟩ | ⟨⟨message, hread⟩, _⟩
      · rw [hread]
        rintro ⟨⟩
      · rw [hread]
        rintro ⟨⟩
    · rcases stringToUnsigned_spec bytes with ⟨value, hread, _⟩ | ⟨⟨message, hread⟩, _⟩
      · rw [hread]
        rintro ⟨⟩
      · rw [hread]
        rintro ⟨⟩
  · intro payload
    obtain ⟨σ, w, hformat, hw, htext⟩ := formatAppendPlain_number print (.inl ⟨payload, rfl, rfl⟩)
    refine ⟨σ, w, hformat, hw, ?_⟩
    rw [htext, stringToInt_ok_iff]
    exact ⟨integerText_toString _, fitsSigned_toInt payload⟩
  · intro payload
    obtain ⟨σ, w, hformat, hw, htext⟩ := formatAppendPlain_number print (.inr ⟨payload, rfl, rfl⟩)
    refine ⟨σ, w, hformat, hw, ?_⟩
    rw [htext, stringToUnsigned_ok_iff]
    exact ⟨unsignedText_toString _, payload.toNat_lt⟩

end Cwhip.Runtime.StringNumbers
