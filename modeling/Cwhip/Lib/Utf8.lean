/-
  Cwhip.Lib.Utf8

  UTF-8 keeps the order of texts: comparing code points and comparing encoded
  bytes is the same.
-/

import Mathlib.Order.Lattice
import Mathlib.Data.Char
import Mathlib.Data.List.Lex
import Mathlib.Order.Monotone.Basic

namespace Cwhip.Lib

instance instLinearOrderByte : LinearOrder UInt8 where
  le_refl := UInt8.le_refl
  le_trans := fun _ _ _ => UInt8.le_trans
  le_antisymm := fun _ _ => UInt8.le_antisymm
  lt_iff_le_not_ge := fun a b => by
    rw [UInt8.lt_iff_toNat_lt, UInt8.le_iff_toNat_le, UInt8.le_iff_toNat_le]
    omega
  le_total := UInt8.le_total
  toDecidableLE := inferInstance

namespace Utf8

def encode (text : List Char) : List UInt8 := text.flatMap String.utf8EncodeChar

@[simp] theorem encode_nil : encode [] = [] := rfl

@[simp] theorem encode_cons (c : Char) (text : List Char) :
    encode (c :: text) = String.utf8EncodeChar c ++ encode text := List.flatMap_cons

@[simp] theorem encode_append (text text' : List Char) :
    encode (text ++ text') = encode text ++ encode text' := List.flatMap_append

/-- The first byte in which the two differ is smaller in the first one. -/
def DivergeLess (bytes bytes' : List UInt8) : Prop :=
  ∃ common byte rest byte' rest',
    bytes = common ++ byte :: rest ∧ bytes' = common ++ byte' :: rest' ∧ byte < byte'

theorem DivergeLess.here {byte byte' : UInt8} (h : byte < byte') (rest rest' : List UInt8) :
    DivergeLess (byte :: rest) (byte' :: rest') :=
  ⟨[], byte, rest, byte', rest', rfl, rfl, h⟩

theorem DivergeLess.cons {bytes bytes' : List UInt8} (h : DivergeLess bytes bytes')
    (first : UInt8) :
    DivergeLess (first :: bytes) (first :: bytes') := by
  obtain ⟨common, byte, rest, byte', rest', rfl, rfl, hless⟩ := h
  exact ⟨first :: common, byte, rest, byte', rest', rfl, rfl, hless⟩

/-- Where two texts diverge decides their order. -/
theorem DivergeLess.append_lt {bytes bytes' : List UInt8} (h : DivergeLess bytes bytes')
    (rest rest' : List UInt8) : bytes ++ rest < bytes' ++ rest' := by
  obtain ⟨common, byte, tail, byte', tail', rfl, rfl, hless⟩ := h
  rw [List.append_assoc, List.append_assoc]
  exact List.append_left_lt (List.Lex.rel hless)

theorem ofNat_lt {n m : Nat} (hm : m < 256) (h : n < m) : UInt8.ofNat n < UInt8.ofNat m := by
  rw [UInt8.lt_iff_toNat_lt, UInt8.toNat_ofNat_of_lt' (by simpa using lt_trans h hm),
    UInt8.toNat_ofNat_of_lt' (by simpa using hm)]
  exact h

/-- A larger leading digit, or the same and larger digits behind it. -/
theorem DivergeLess.digit {n m : Nat} (hm : m < 256) {bytes bytes' : List UInt8}
    (h : n < m ∨ n = m ∧ DivergeLess bytes bytes') :
    DivergeLess (UInt8.ofNat n :: bytes) (UInt8.ofNat m :: bytes') := by
  rcases h with hless | ⟨rfl, hrest⟩
  · exact .here (ofNat_lt hm hless) _ _
  · exact hrest.cons _

/-! ## Characters -/

theorem DivergeLess.last {v w : Nat} (h : v < w) (hsame : v / 64 = w / 64) :
    DivergeLess [UInt8.ofNat (v % 0x40 + 0x80)] [UInt8.ofNat (w % 0x40 + 0x80)] :=
  .here (ofNat_lt (by omega) (by omega)) _ _

theorem DivergeLess.last_two {v w : Nat} (h : v < w) (hsame : v / 4096 = w / 4096) :
    DivergeLess [UInt8.ofNat (v / 64 % 0x40 + 0x80), UInt8.ofNat (v % 0x40 + 0x80)]
      [UInt8.ofNat (w / 64 % 0x40 + 0x80), UInt8.ofNat (w % 0x40 + 0x80)] := by
  refine .digit (by omega) ?_
  by_cases hrest : v / 64 = w / 64
  · exact .inr ⟨by omega, .last h hrest⟩
  · exact .inl (by omega)

theorem DivergeLess.last_three {v w : Nat} (h : v < w) (hsame : v / 262144 = w / 262144) :
    DivergeLess
      [UInt8.ofNat (v / 4096 % 0x40 + 0x80), UInt8.ofNat (v / 64 % 0x40 + 0x80),
        UInt8.ofNat (v % 0x40 + 0x80)]
      [UInt8.ofNat (w / 4096 % 0x40 + 0x80), UInt8.ofNat (w / 64 % 0x40 + 0x80),
        UInt8.ofNat (w % 0x40 + 0x80)] := by
  refine .digit (by omega) ?_
  by_cases hrest : v / 4096 = w / 4096
  · exact .inr ⟨by omega, .last_two h hrest⟩
  · exact .inl (by omega)

/-- Larger characters have larger encodings, and none is a prefix of another. -/
theorem divergeLess_encodeChar {c d : Char} (h : c < d) :
    DivergeLess (String.utf8EncodeChar c) (String.utf8EncodeChar d) := by
  have hless : c.val.toNat < d.val.toNat := h
  have hmax : d.val.toNat < 0x110000 := by
    have hvalid : d.val.toNat < 0xd800 ∨ (0xdfff < d.val.toNat ∧ d.val.toNat < 0x110000) := d.valid
    omega
  unfold String.utf8EncodeChar
  generalize c.val.toNat = v, d.val.toNat = w at hless hmax
  show DivergeLess (if v ≤ 0x7f then _ else if v ≤ 0x7ff then _ else if v ≤ 0xffff then _ else _)
    (if w ≤ 0x7f then _ else if w ≤ 0x7ff then _ else if w ≤ 0xffff then _ else _)
  -- leading bytes grow with the length of the encoding
  by_cases hone : w ≤ 0x7f
  · rw [if_pos hone, if_pos (by omega)]
    exact .here (ofNat_lt (by omega) (by omega)) _ _
  rw [if_neg hone]
  by_cases htwo : w ≤ 0x7ff
  · rw [if_pos htwo]
    split
    · exact .here (ofNat_lt (by omega) (by omega)) _ _
    · rw [if_pos (by omega)]
      refine .digit (by omega) ?_
      by_cases hlead : v / 64 = w / 64
      · exact .inr ⟨by omega, .last hless hlead⟩
      · exact .inl (by omega)
  rw [if_neg htwo]
  by_cases hthree : w ≤ 0xffff
  · rw [if_pos hthree]
    split
    · exact .here (ofNat_lt (by omega) (by omega)) _ _
    split
    · exact .here (ofNat_lt (by omega) (by omega)) _ _
    · rw [if_pos (by omega)]
      refine .digit (by omega) ?_
      by_cases hlead : v / 4096 = w / 4096
      · exact .inr ⟨by omega, .last_two hless hlead⟩
      · exact .inl (by omega)
  rw [if_neg hthree]
  split
  · exact .here (ofNat_lt (by omega) (by omega)) _ _
  split
  · exact .here (ofNat_lt (by omega) (by omega)) _ _
  split
  · exact .here (ofNat_lt (by omega) (by omega)) _ _
  · refine .digit (by omega) ?_
    by_cases hlead : v / 262144 = w / 262144
    · exact .inr ⟨by omega, .last_three hless hlead⟩
    · exact .inl (by omega)

theorem encodeChar_ne_nil (c : Char) : String.utf8EncodeChar c ≠ [] := String.utf8EncodeChar_ne_nil

/-! ## Texts -/

/-- Encoding keeps the order of texts. -/
theorem encode_lt {text text' : List Char} (h : text < text') : encode text < encode text' := by
  induction text generalizing text' with
  | nil =>
    cases text' with
    | nil => exact absurd h (lt_irrefl _)
    | cons d rest' =>
      rw [encode_nil, encode_cons]
      obtain ⟨byte, bytes, heq⟩ := List.exists_cons_of_ne_nil (encodeChar_ne_nil d)
      rw [heq]
      exact List.Lex.nil
  | cons c rest ih =>
    cases text' with
    | nil => exact absurd h (List.not_lt_nil _)
    | cons d rest' =>
      rw [encode_cons, encode_cons]
      cases h with
      | rel hless => exact (divergeLess_encodeChar hless).append_lt _ _
      | cons hrest => exact List.append_left_lt (ih hrest)

theorem encode_strictMono : StrictMono encode := fun _ _ => encode_lt

theorem encode_le_iff {text text' : List Char} : encode text ≤ encode text' ↔ text ≤ text' :=
  encode_strictMono.le_iff_le

theorem encode_injective : Function.Injective encode := encode_strictMono.injective

end Utf8

end Cwhip.Lib
