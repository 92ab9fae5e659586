/-
  Cwhip.Lib.Utf8Text

  Byte sequences that encode a text, and where they can be cut.

  A cut is good at a character boundary, which the byte behind it tells: a
  continuation byte never starts a character.  As no encoding of a character
  is the beginning of another one, a text found inside the bytes of a text is
  found between characters.
-/

import Mathlib.Data.List.Infix
import Cwhip.Lib.Utf8

namespace Cwhip.Lib.Utf8

def WellFormed (bytes : List UInt8) : Prop := ∃ text, encode text = bytes

/-- The bytes can be cut here into two texts. -/
def CharBoundary (bytes : List UInt8) (index : Nat) : Prop :=
  WellFormed (bytes.take index) ∧ WellFormed (bytes.drop index) ∧ index ≤ bytes.length

theorem WellFormed.nil : WellFormed [] := ⟨[], rfl⟩

variable {bytes rest : List UInt8} {index n : Nat} {text : List Char} {byte a b : UInt8} {c : Char}

theorem WellFormed.append {bytes' : List UInt8} (h : WellFormed bytes) (h' : WellFormed bytes') :
    WellFormed (bytes ++ bytes') := by
  obtain ⟨text, rfl⟩ := h
  obtain ⟨text', rfl⟩ := h'
  exact ⟨text ++ text', encode_append text text'⟩

theorem WellFormed.encodeChar_append (h : WellFormed bytes) (c : Char) :
    WellFormed (String.utf8EncodeChar c ++ bytes) := by
  obtain ⟨text, rfl⟩ := h
  exact ⟨c :: text, encode_cons c text⟩

theorem CharBoundary.wellFormed (h : CharBoundary bytes index) :
    WellFormed bytes := by
  have happend := h.1.append h.2.1
  rwa [List.take_append_drop] at happend

theorem charBoundary_zero (h : WellFormed bytes) : CharBoundary bytes 0 :=
  ⟨.nil, h, Nat.zero_le _⟩

/-! ## Leading and continuation bytes -/

/-- A byte inside a character. -/
def isContinuation (byte : UInt8) : Bool := byte &&& 0xc0 == 0x80

theorem isContinuation_iff (byte : UInt8) :
    isContinuation byte = true ↔ 0x80 ≤ byte.toNat ∧ byte.toNat < 0xc0 := by
  have hall : ∀ n : Fin 256, (UInt8.ofNat n.val &&& 0xc0 == 0x80) = true ↔ 0x80 ≤ n.val ∧
      n.val < 0xc0 := by
    decide +kernel
  have hbyte := hall ⟨byte.toNat, byte.toNat_lt⟩
  rwa [UInt8.ofNat_toNat] at hbyte

theorem isContinuation_ofNat (h : n < 256) :
    isContinuation (UInt8.ofNat n) = true ↔ 0x80 ≤ n ∧ n < 0xc0 := by
  rw [isContinuation_iff, UInt8.toNat_ofNat_of_lt' (by simpa using h)]

/-- A character is a leading byte and continuation bytes. -/
theorem encodeChar_shape (c : Char) :
    ∃ lead rest, String.utf8EncodeChar c = lead :: rest ∧ isContinuation lead = false ∧
      ∀ byte ∈ rest, isContinuation byte = true := by
  have hlast : ∀ v : Nat, isContinuation (UInt8.ofNat (v % 0x40 + 0x80)) = true := by
    intro v
    rw [isContinuation_ofNat (by omega)]
    omega
  have hlead : ∀ n : Nat, n < 256 → (n < 0x80 ∨ 0xc0 ≤ n) →
      isContinuation (UInt8.ofNat n) = false := by
    intro n hn hout
    rw [← Bool.not_eq_true, isContinuation_ofNat hn]
    omega
  unfold String.utf8EncodeChar
  generalize c.val.toNat = v
  show ∃ lead rest, (if v ≤ 0x7f then _ else if v ≤ 0x7ff then _ else if v ≤ 0xffff then _ else _)
    = lead :: rest ∧ _
  have hnone : ∀ byte ∈ ([] : List UInt8), isContinuation byte = true := List.forall_mem_nil _
  split
  · exact ⟨_, _, rfl, hlead _ (by omega) (by omega), hnone⟩
  split
  · exact ⟨_, _, rfl, hlead _ (by omega) (by omega), List.forall_mem_cons.mpr ⟨hlast _, hnone⟩⟩
  split
  · exact ⟨_, _, rfl, hlead _ (by omega) (by omega),
      List.forall_mem_cons.mpr ⟨hlast _, List.forall_mem_cons.mpr ⟨hlast _, hnone⟩⟩⟩
  · exact ⟨_, _, rfl, hlead _ (by omega) (by omega),
      List.forall_mem_cons.mpr ⟨hlast _, List.forall_mem_cons.mpr ⟨hlast _,
        List.forall_mem_cons.mpr ⟨hlast _, hnone⟩⟩⟩⟩

theorem encode_head (h : encode text = byte :: rest) : isContinuation byte = false := by
  cases text with
  | nil => cases h
  | cons c text =>
    obtain ⟨lead, tail, hchar, hlead, _⟩ := encodeChar_shape c
    rw [encode_cons, hchar, List.cons_append, List.cons.injEq] at h
    rw [← h.1]
    exact hlead

/-! ## Cutting -/

/-- A text may be cut before every leading byte. -/
theorem charBoundary_of_lead (h : WellFormed bytes)
    (hlead : ∀ byte, bytes[index]? = some byte → isContinuation byte = false)
    (hindex : index ≤ bytes.length) : CharBoundary bytes index := by
  obtain ⟨text, rfl⟩ := h
  induction text generalizing index with
  | nil =>
    rw [encode_nil, List.length_nil, Nat.le_zero] at hindex
    rw [hindex]
    exact charBoundary_zero ⟨[], rfl⟩
  | cons c text ih =>
    obtain ⟨lead, tail, hchar, _, htail⟩ := encodeChar_shape c
    rw [encode_cons] at hlead hindex ⊢
    generalize hhead : String.utf8EncodeChar c = head at *
    rcases Nat.lt_or_ge index head.length with hinside | hafter
    · -- inside the first character only its beginning starts one
      cases index with
      | zero => exact charBoundary_zero ⟨c :: text, by rw [encode_cons, hhead]⟩
      | succ index =>
        have hbyte : (head ++ encode text)[index + 1]? = some head[index + 1] := by
          rw [List.getElem?_append_left hinside, List.getElem?_eq_getElem hinside]
        have hmem : head[index + 1] ∈ tail := by
          simp only [hchar, List.getElem_cons_succ]
          exact List.getElem_mem _
        have hnot := hlead _ hbyte
        rw [htail _ hmem] at hnot
        cases hnot
    · obtain ⟨offset, rfl⟩ := Nat.exists_eq_add_of_le hafter
      have hrest : CharBoundary (encode text) offset := by
        apply ih
        · intro byte hbyte
          apply hlead byte
          rw [List.getElem?_append_right (Nat.le_add_right _ _), Nat.add_sub_cancel_left]
          exact hbyte
        · rw [List.length_append] at hindex
          omega
      refine ⟨?_, ?_, hindex⟩
      · rw [List.take_length_add_append, ← hhead]
        obtain ⟨before, hbefore⟩ := hrest.1
        exact ⟨c :: before, by rw [encode_cons, hbefore]⟩
      · rw [List.drop_length_add_append]
        exact hrest.2.1

theorem CharBoundary.lead (h : CharBoundary bytes index)
    (hbyte : bytes[index]? = some byte) : isContinuation byte = false := by
  obtain ⟨text, htext⟩ := h.2.1
  have hhead : (bytes.drop index).head? = some byte := by rw [List.head?_drop, hbyte]
  obtain ⟨rest, hrest⟩ := List.head?_eq_some_iff.mp hhead
  rw [hrest] at htext
  exact encode_head htext

/-- What lies between two boundaries is a text. -/
theorem CharBoundary.between {first last : Nat} (hfirst : CharBoundary bytes first)
    (hlast : CharBoundary bytes last) (hle : first ≤ last) :
    WellFormed ((bytes.drop first).take (last - first)) := by
  have hcut : CharBoundary (bytes.drop first) (last - first) := by
    apply charBoundary_of_lead hfirst.2.1
    · intro byte hbyte
      rw [List.getElem?_drop, Nat.add_sub_cancel' hle] at hbyte
      exact hlast.lead hbyte
    · rw [List.length_drop]
      have hlength := hlast.2.2
      omega
  exact hcut.1

/-! ## Texts inside texts -/

/-- The first character of a text is read off its bytes. -/
theorem encodeChar_append_inj {d : Char} {rest' : List UInt8}
    (h : String.utf8EncodeChar c ++ rest = String.utf8EncodeChar d ++ rest') : c = d := by
  rcases lt_trichotomy c d with hless | heq | hless
  · have hbytes := (divergeLess_encodeChar hless).append_lt rest rest'
    rw [h] at hbytes
    exact absurd hbytes (lt_irrefl _)
  · exact heq
  · have hbytes := (divergeLess_encodeChar hless).append_lt rest' rest
    rw [h] at hbytes
    exact absurd hbytes (lt_irrefl _)

theorem wellFormed_of_append (h : WellFormed (encode text ++ rest)) : WellFormed rest := by
  induction text with
  | nil => exact h
  | cons c text ih =>
    apply ih
    obtain ⟨whole, hwhole⟩ := h
    rw [encode_cons, List.append_assoc] at hwhole
    cases whole with
    | nil =>
      have hnil := List.append_eq_nil_iff.mp hwhole.symm
      exact absurd hnil.1 (encodeChar_ne_nil c)
    | cons d whole =>
      rw [encode_cons] at hwhole
      have hsame : d = c := encodeChar_append_inj hwhole
      subst hsame
      exact ⟨whole, List.append_cancel_left hwhole⟩

/-- A text found inside a text begins at a boundary. -/
theorem charBoundary_of_occurrence {needle : List UInt8} (hbytes : WellFormed bytes)
    (hneedle : WellFormed needle) (hne : needle ≠ []) {found : Nat}
    (hfound : found + needle.length ≤ bytes.length)
    (heq : (bytes.drop found).take needle.length = needle) :
    CharBoundary bytes found ∧ CharBoundary bytes (found + needle.length) := by
  obtain ⟨text, htext⟩ := hneedle
  have hdrop : bytes.drop found = encode text ++ bytes.drop (found + needle.length) := by
    rw [← List.take_append_drop needle.length (bytes.drop found), heq, List.drop_drop, htext]
  have hstart : CharBoundary bytes found := by
    apply charBoundary_of_lead hbytes
    · intro byte hbyte
      obtain ⟨first, rest, hfirst⟩ := List.exists_cons_of_ne_nil hne
      rw [htext, hfirst, List.cons_append] at hdrop
      have hhead : bytes[found]? = some first := by rw [← List.head?_drop, hdrop, List.head?_cons]
      rw [hbyte, Option.some.injEq] at hhead
      rw [hhead]
      exact encode_head (htext.trans hfirst)
    · omega
  refine ⟨hstart, ?_⟩
  have hrest : WellFormed (bytes.drop (found + needle.length)) :=
    wellFormed_of_append (hdrop ▸ hstart.2.1)
  refine ⟨?_, hrest, hfound⟩
  have htake : bytes.take (found + needle.length) = bytes.take found ++ needle := by
    rw [List.take_add, heq]
  rw [htake]
  exact hstart.1.append ⟨text, htext⟩

/-! ## Encodings by their bytes -/

theorem exists_char {v : Nat} (h : v < 0xd800 ∨ (0xdfff < v ∧ v < 0x110000)) : ∃ c :
    Char, c.val.toNat = v :=
  ⟨Char.ofNatAux v h, rfl⟩

theorem byte_eq (h : n = byte.toNat) : UInt8.ofNat n = byte := by
  rw [h, UInt8.ofNat_toNat]

theorem exists_encodeChar_one (ha : a.toNat ≤ 0x7f) :
    ∃ c, String.utf8EncodeChar c = [a] := by
  obtain ⟨c, hc⟩ := exists_char (v := a.toNat) (by omega)
  refine ⟨c, ?_⟩
  unfold String.utf8EncodeChar
  rw [hc]
  show (if _ ≤ 0x7f then _ else _) = _
  rw [if_pos ha, byte_eq rfl]

theorem exists_encodeChar_two (ha : 0xc2 ≤ a.toNat ∧ a.toNat ≤ 0xdf)
    (hb : 0x80 ≤ b.toNat ∧ b.toNat ≤ 0xbf) : ∃ c, String.utf8EncodeChar c = [a, b] := by
  obtain ⟨c, hc⟩ := exists_char (v := (a.toNat - 0xc0) * 64 + (b.toNat - 0x80)) (by omega)
  refine ⟨c, ?_⟩
  unfold String.utf8EncodeChar
  rw [hc]
  show (if _ ≤ 0x7f then _ else if _ ≤ 0x7ff then _ else _) = _
  rw [if_neg (by omega), if_pos (by omega), @byte_eq _ a (by omega), @byte_eq _ b (by omega)]

theorem exists_encodeChar_three {c : UInt8} (ha : 0xe0 ≤ a.toNat ∧ a.toNat ≤ 0xef)
    (hb : 0x80 ≤ b.toNat ∧ b.toNat ≤ 0xbf) (hfirst : a.toNat = 0xe0 → 0xa0 ≤ b.toNat)
    (hsurrogate : a.toNat = 0xed → b.toNat ≤ 0x9f) (hc : 0x80 ≤ c.toNat ∧ c.toNat ≤ 0xbf) :
    ∃ char, String.utf8EncodeChar char = [a, b, c] := by
  obtain ⟨char, hchar⟩ := exists_char
    (v := (a.toNat - 0xe0) * 4096 + (b.toNat - 0x80) * 64 + (c.toNat - 0x80)) (by omega)
  refine ⟨char, ?_⟩
  unfold String.utf8EncodeChar
  rw [hchar]
  show (if _ ≤ 0x7f then _ else if _ ≤ 0x7ff then _ else if _ ≤ 0xffff then _ else _) = _
  rw [if_neg (by omega), if_neg (by omega), if_pos (by omega), @byte_eq _ a (by omega),
    @byte_eq _ b (by omega), @byte_eq _ c (by omega)]

theorem exists_encodeChar_four {c d : UInt8} (ha : 0xf0 ≤ a.toNat ∧ a.toNat ≤ 0xf4)
    (hb : 0x80 ≤ b.toNat ∧ b.toNat ≤ 0xbf) (hfirst : a.toNat = 0xf0 → 0x90 ≤ b.toNat)
    (hlast : a.toNat = 0xf4 → b.toNat ≤ 0x8f) (hc : 0x80 ≤ c.toNat ∧ c.toNat ≤ 0xbf)
    (hd : 0x80 ≤ d.toNat ∧ d.toNat ≤ 0xbf) : ∃ char, String.utf8EncodeChar char = [a, b, c, d] := by
  obtain ⟨char, hchar⟩ := exists_char (v := (a.toNat - 0xf0) * 262144 + (b.toNat - 0x80) * 4096 +
    (c.toNat - 0x80) * 64 + (d.toNat - 0x80)) (by omega)
  refine ⟨char, ?_⟩
  unfold String.utf8EncodeChar
  rw [hchar]
  show (if _ ≤ 0x7f then _ else if _ ≤ 0x7ff then _ else if _ ≤ 0xffff then _ else _) = _
  rw [if_neg (by omega), if_neg (by omega), if_neg (by omega), @byte_eq _ a (by omega),
    @byte_eq _ b (by omega), @byte_eq _ c (by omega), @byte_eq _ d (by omega)]

/-! ## ASCII -/

theorem wellFormed_of_ascii (h : ∀ byte ∈ bytes, byte.toNat ≤ 0x7f) :
    WellFormed bytes := by
  induction bytes with
  | nil => exact .nil
  | cons byte rest ih =>
    obtain ⟨c, hc⟩ := exists_encodeChar_one (h byte List.mem_cons_self)
    have htext := (ih fun other hother => h other (List.mem_cons_of_mem _ hother)).encodeChar_append
      c
    rwa [hc] at htext

theorem encodeChar_ascii (c : Char) :
    (∃ byte, String.utf8EncodeChar c = [byte] ∧ byte.toNat ≤ 0x7f) ∨
      ∀ byte ∈ String.utf8EncodeChar c, 0x80 ≤ byte.toNat := by
  have hhigh : ∀ n : Nat, n < 256 → 0x80 ≤ n → 0x80 ≤ (UInt8.ofNat n).toNat := by
    intro n hn hle
    rwa [UInt8.toNat_ofNat_of_lt' (by simpa using hn)]
  have hnone : ∀ byte ∈ ([] : List UInt8), 0x80 ≤ byte.toNat := List.forall_mem_nil _
  unfold String.utf8EncodeChar
  generalize c.val.toNat = v
  show (∃ byte, (if v ≤ 0x7f then _ else if v ≤ 0x7ff then _ else if v ≤ 0xffff then _ else _) =
    [byte] ∧ _) ∨
    ∀ byte ∈ (if v ≤ 0x7f then _ else if v ≤ 0x7ff then _ else if v ≤ 0xffff then _ else _), _
  split
  · refine .inl ⟨_, rfl, ?_⟩
    rw [UInt8.toNat_ofNat_of_lt' (by change v < 256; omega)]
    assumption
  right
  split
  · exact List.forall_mem_cons.mpr ⟨hhigh _ (by omega) (by omega),
      List.forall_mem_cons.mpr ⟨hhigh _ (by omega) (by omega), hnone⟩⟩
  split
  · exact List.forall_mem_cons.mpr ⟨hhigh _ (by omega) (by omega),
      List.forall_mem_cons.mpr ⟨hhigh _ (by omega) (by omega),
        List.forall_mem_cons.mpr ⟨hhigh _ (by omega) (by omega), hnone⟩⟩⟩
  · exact List.forall_mem_cons.mpr ⟨hhigh _ (by omega) (by omega),
      List.forall_mem_cons.mpr ⟨hhigh _ (by omega) (by omega),
        List.forall_mem_cons.mpr ⟨hhigh _ (by omega) (by omega),
          List.forall_mem_cons.mpr ⟨hhigh _ (by omega) (by omega), hnone⟩⟩⟩⟩

theorem encodeChar_of_ascii (h : c.val.toNat ≤ 0x7f) :
    String.utf8EncodeChar c = [UInt8.ofNat c.val.toNat] := by
  unfold String.utf8EncodeChar
  exact if_pos h

theorem encode_of_ascii (h : ∀ c ∈ text, c.val.toNat ≤ 0x7f) :
    encode text = text.map fun c => UInt8.ofNat c.val.toNat := by
  induction text with
  | nil => rfl
  | cons c text ih =>
    rw [encode_cons, encodeChar_of_ascii (h c List.mem_cons_self), List.map_cons,
      ih fun other hother => h other (List.mem_cons_of_mem _ hother)]
    rfl

/-- A text has as many characters as leading bytes. -/
theorem length_filter_encode (text : List Char) :
    ((encode text).filter fun byte => !isContinuation byte).length = text.length := by
  induction text with
  | nil => rfl
  | cons c text ih =>
    obtain ⟨lead, rest, hchar, hlead, hrest⟩ := encodeChar_shape c
    have hnone : rest.filter (fun byte => !isContinuation byte) = [] := by
      rw [List.filter_eq_nil_iff]
      intro byte hbyte
      simp [hrest byte hbyte]
    rw [encode_cons, hchar, List.filter_append, List.length_append, ih,
      List.filter_cons_of_pos (by simp [hlead]), hnone, List.length_cons]
    simp only [List.length_nil, List.length_cons]
    omega

end Cwhip.Lib.Utf8
