/-
  Cwhip.Lib.Utf8Lossy

  Any bytes as a sequence of characters and maximal invalid subparts.

  Where no character starts, the maximal subpart is the longest beginning of
  the bytes that some character also begins with, or one byte if there is no
  such beginning.  A lossy decoder keeps the characters and puts U+FFFD in the
  place of each maximal subpart.
-/

import Cwhip.Lib.Utf8Text

namespace Cwhip.Lib.Utf8

def BeginsChar (bytes : List UInt8) : Prop := ∃ c : Char, bytes <+: String.utf8EncodeChar c

/-- `part` is the maximal subpart at the start of `bytes`. -/
structure MaximalSubpart (part bytes : List UInt8) : Prop where
  starts : part <+: bytes
  nonempty : part ≠ []
  noChar : ∀ c : Char, ¬ String.utf8EncodeChar c <+: bytes
  begins : BeginsChar part ∨ part.length = 1
  longest : ∀ longer, longer <+: bytes → part.length < longer.length → ¬ BeginsChar longer

/-- A piece of a byte sequence. -/
inductive Piece where
  | char (c : Char)
  | subpart (bytes : List UInt8)

/-- U+FFFD. -/
def replacement : List UInt8 := [0xef, 0xbf, 0xbd]

def Piece.bytes : Piece → List UInt8
  | char c => String.utf8EncodeChar c
  | subpart bytes => bytes

/-- What a lossy decoder writes for a piece. -/
def Piece.decoded : Piece → List UInt8
  | char c => String.utf8EncodeChar c
  | subpart _ => replacement

/-- The piece is a subpart of fewer bytes than what replaces it. -/
def Piece.isShort : Piece → Prop
  | char _ => False
  | subpart bytes => bytes.length < 3

/-- The pieces of a byte sequence. -/
inductive Pieces : List UInt8 → List Piece → Prop where
  | nil : Pieces [] []
  | char (c : Char) {rest : List UInt8} {pieces : List Piece} (hrest : Pieces rest pieces) :
      Pieces (String.utf8EncodeChar c ++ rest) (.char c :: pieces)
  | subpart {part rest : List UInt8} {pieces : List Piece}
      (hpart : MaximalSubpart part (part ++ rest))
      (hrest : Pieces rest pieces) : Pieces (part ++ rest) (.subpart part :: pieces)

/-- The lossy decoding of these pieces. -/
def decodedPieces (pieces : List Piece) : List UInt8 := pieces.flatMap Piece.decoded

@[simp] theorem decodedPieces_nil : decodedPieces [] = [] := rfl

@[simp] theorem decodedPieces_cons (piece : Piece) (pieces : List Piece) :
    decodedPieces (piece :: pieces) = piece.decoded ++ decodedPieces pieces := List.flatMap_cons

/-! ## The pieces of a byte sequence are determined -/

variable {part bytes : List UInt8} {pieces : List Piece}

/-- The maximal subpart is determined by the bytes. -/
theorem MaximalSubpart.unique {part' : List UInt8} (h : MaximalSubpart part bytes)
    (h' : MaximalSubpart part' bytes) : part = part' := by
  have hone : ∀ {p q : List UInt8}, MaximalSubpart p bytes → MaximalSubpart q bytes →
      ¬ p.length < q.length := by
    intro p q hp hq hless
    have hpos := List.length_pos_iff.mpr hp.nonempty
    rcases hq.begins with hbegins | hsingle
    · exact hp.longest q hq.starts hless hbegins
    · omega
  have hlength : part.length = part'.length := by
    have hle := hone h h'
    have hge := hone h' h
    omega
  exact (List.prefix_of_prefix_length_le h.starts h'.starts (Nat.le_of_eq hlength)).eq_of_length
    hlength

/-- So are all pieces, one after another. -/
theorem Pieces.unique {pieces' : List Piece} (h : Pieces bytes pieces)
    (h' : Pieces bytes pieces') : pieces = pieces' := by
  induction h generalizing pieces' with
  | nil =>
    generalize hbytes : ([] : List UInt8) = bytes at h'
    cases h' with
    | nil => rfl
    | char c _ =>
      exact absurd (List.append_eq_nil_iff.mp hbytes.symm).1 (encodeChar_ne_nil c)
    | subpart hpart _ => exact absurd (List.append_eq_nil_iff.mp hbytes.symm).1 hpart.nonempty
  | @char c rest pieces _ ih =>
    generalize hbytes : String.utf8EncodeChar c ++ rest = bytes at h'
    cases h' with
    | nil => exact absurd (List.append_eq_nil_iff.mp hbytes).1 (encodeChar_ne_nil c)
    | char d hrest =>
      have hchar := encodeChar_append_inj hbytes
      subst hchar
      rw [ih (List.append_cancel_left hbytes ▸ hrest)]
    | subpart hpart _ => exact absurd ⟨rest, hbytes⟩ (hpart.noChar c)
  | @subpart part rest pieces hpart _ ih =>
    generalize hbytes : part ++ rest = bytes at h' hpart
    cases h' with
    | nil => exact absurd (List.append_eq_nil_iff.mp hbytes).1 hpart.nonempty
    | @char d rest' _ _ => exact absurd ⟨rest', rfl⟩ (hpart.noChar d)
    | @subpart part' rest' _ hpart' hrest =>
      have hsame := hpart.unique hpart'
      subst hsame
      rw [ih (List.append_cancel_left hbytes ▸ hrest)]

theorem pieces_encode (text : List Char) : Pieces (encode text) (text.map .char) := by
  induction text with
  | nil => exact .nil
  | cons c text ih => exact .char c ih

/-- Decoding a text changes nothing. -/
theorem Pieces.decoded_of_wellFormed (h : Pieces bytes pieces)
    (hwell : WellFormed bytes) : decodedPieces pieces = bytes := by
  obtain ⟨text, rfl⟩ := hwell
  rw [h.unique (pieces_encode text)]
  unfold decodedPieces encode
  rw [List.flatMap_map]
  rfl

theorem wellFormed_decodedPieces (pieces : List Piece) : WellFormed (decodedPieces pieces) := by
  induction pieces with
  | nil => exact .nil
  | cons piece pieces ih =>
    rw [decodedPieces_cons]
    cases piece with
    | char c => exact ih.encodeChar_append c
    | subpart bytes => exact ih.encodeChar_append (Char.ofNat 0xfffd)

/-! ## Lengths -/

theorem encodeChar_length_le (c : Char) : (String.utf8EncodeChar c).length ≤ 4 := by
  rw [String.length_utf8EncodeChar]
  exact c.utf8Size_le_four

theorem MaximalSubpart.length_le (h : MaximalSubpart part bytes) :
    part.length ≤ 3 := by
  rcases h.begins with ⟨c, hc⟩ | hsingle
  · by_contra hlong
    have hle := hc.length_le
    have hfour := encodeChar_length_le c
    have hwhole : part = String.utf8EncodeChar c := hc.eq_of_length (by omega)
    exact h.noChar c (hwhole ▸ h.starts)
  · omega

/-- The result is no shorter than the input, and as long only without short subparts. -/
theorem Pieces.length_le (h : Pieces bytes pieces) :
    bytes.length ≤ (decodedPieces pieces).length ∧
      ((decodedPieces pieces).length = bytes.length ↔ ∀ piece ∈ pieces, ¬ piece.isShort) := by
  induction h with
  | nil => simp
  | char c _ ih =>
    obtain ⟨hle, hiff⟩ := ih
    simp only [decodedPieces_cons, Piece.decoded, List.length_append, List.forall_mem_cons]
    refine ⟨by omega, ?_⟩
    rw [← hiff]
    simp [Piece.isShort]
  | subpart hpart _ ih =>
    obtain ⟨hle, hiff⟩ := ih
    have hpartLength := hpart.length_le
    simp only [decodedPieces_cons, Piece.decoded, List.length_append, List.forall_mem_cons,
      replacement,
      List.length_cons, List.length_nil]
    refine ⟨by omega, ?_⟩
    rw [← hiff]
    simp only [Piece.isShort]
    omega

theorem Pieces.length_le_mul (h : Pieces bytes pieces) :
    (decodedPieces pieces).length ≤ 3 * bytes.length := by
  induction h with
  | nil => exact Nat.le_refl _
  | char c _ ih =>
    simp only [decodedPieces_cons, Piece.decoded, List.length_append]
    omega
  | subpart hpart _ ih =>
    have hpos := List.length_pos_iff.mpr hpart.nonempty
    simp only [decodedPieces_cons, Piece.decoded, List.length_append, replacement, List.length_cons,
      List.length_nil]
    omega

/-! ## Cutting -/

theorem BeginsChar.of_prefix (h : BeginsChar bytes) (hpart : part <+: bytes) :
    BeginsChar part := by
  obtain ⟨c, hc⟩ := h
  exact ⟨c, hpart.trans hc⟩

theorem MaximalSubpart.restrict {shorter : List UInt8} (h : MaximalSubpart part bytes)
    (hpart : part <+: shorter) (hshorter : shorter <+: bytes) : MaximalSubpart part shorter where
  starts := hpart
  nonempty := h.nonempty
  noChar c hc := h.noChar c (hc.trans hshorter)
  begins := h.begins
  longest longer hlonger := h.longest longer (hlonger.trans hshorter)

/-- More bytes do not change a subpart that was settled. -/
theorem MaximalSubpart.extend (h : MaximalSubpart part bytes)
    (hsettled : part.length < bytes.length ∨ ¬ BeginsChar part) (more : List UInt8) :
    MaximalSubpart part (bytes ++ more) := by
  have hstarts : part <+: bytes ++ more := h.starts.trans (List.prefix_append _ _)
  have hlongest : ∀ longer, longer <+: bytes ++ more → part.length < longer.length →
      ¬ BeginsChar longer := by
    intro longer hlonger hless hbegins
    rcases hsettled with hnext | hnone
    · -- one byte more than the part is still within the bytes
      have hfirst : longer.take (part.length + 1) <+: bytes := by
        apply List.prefix_of_prefix_length_le ((List.take_prefix _ _).trans hlonger)
          (List.prefix_append _ _)
        rw [List.length_take]
        omega
      refine h.longest _ hfirst ?_ (hbegins.of_prefix (List.take_prefix _ _))
      rw [List.length_take]
      omega
    · exact hnone (hbegins.of_prefix (List.prefix_of_prefix_length_le hstarts hlonger hless.le))
  refine ⟨hstarts, h.nonempty, ?_, h.begins, hlongest⟩
  intro c hc
  rcases Nat.lt_or_ge part.length (String.utf8EncodeChar c).length with hless | hle
  · exact hlongest _ hc hless ⟨c, List.prefix_refl _⟩
  · have hwithin := List.prefix_of_prefix_length_le hc hstarts hle
    exact h.noChar c (hwithin.trans h.starts)

/-- Pieces may be cut between any two. -/
theorem Pieces.front {front later : List Piece} {rest : List UInt8}
    (h : Pieces (front.flatMap Piece.bytes ++ rest) (front ++ later)) :
    Pieces (front.flatMap Piece.bytes) front := by
  induction front with
  | nil => exact .nil
  | cons piece front ih =>
    generalize hbytes : (piece :: front).flatMap Piece.bytes ++ rest = bytes at h
    rw [List.cons_append] at h
    rw [List.flatMap_cons, List.append_assoc] at hbytes
    rw [List.flatMap_cons]
    cases h with
    | char c hrest =>
      exact .char c (ih (List.append_cancel_left hbytes ▸ hrest))
    | @subpart part _ _ hpart hrest =>
      have hsame := List.append_cancel_left hbytes
      refine .subpart (hpart.restrict (List.prefix_append _ _) ?_) (ih (hsame ▸ hrest))
      rw [← hsame]
      exact (List.prefix_append_right_inj _).mpr (List.prefix_append _ _)

theorem Pieces.drop {front later : List Piece} {rest : List UInt8}
    (h : Pieces (front.flatMap Piece.bytes ++ rest) (front ++ later)) : Pieces rest later := by
  induction front with
  | nil => exact h
  | cons piece front ih =>
    generalize hbytes : (piece :: front).flatMap Piece.bytes ++ rest = bytes at h
    rw [List.cons_append] at h
    rw [List.flatMap_cons, List.append_assoc] at hbytes
    cases h with
    | char c hrest | subpart hpart hrest => exact ih (List.append_cancel_left hbytes ▸ hrest)

theorem Pieces.bytes_eq (h : Pieces bytes pieces) :
    pieces.flatMap Piece.bytes = bytes := by
  induction h with
  | nil => rfl
  | char c _ ih | subpart _ _ ih => rw [List.flatMap_cons, ih, Piece.bytes]

end Cwhip.Lib.Utf8
