/-
  Cwhip.Runtime.OutputDecoder

  Decoding process output chunk by chunk (`OutputDecoder` in `process.cw`).

  The end of a chunk that may be the beginning of a character is held back, and
  scanned again with the next chunk in front of it.
-/

import Cwhip.Runtime.TextDecode

namespace Cwhip.Runtime

open Cwhip.Lib Cwhip.Lib.Utf8
open List (append_assoc append_nil flatMap_append flatten_cons map_cons)

/-- `cwhip_process_text_incomplete_tail` -/
def textIncompleteTail (bytes : Bytes) : Nat := if bytes.length = 0 then 0
    else (scanUtf8 bytes).tail

/-- `OutputDecoder` -/
structure OutputDecoder where
  pending : Bytes

def OutputDecoder.new : OutputDecoder := ⟨[]⟩

/-- `decode`: what is given to `textDecode`, and what is held back. -/
def OutputDecoder.decode (decoder : OutputDecoder) (chunk : Option Bytes) : Bytes × OutputDecoder :=
  let pending := (chunk.getD []).foldl (fun pending byte => pending ++ [byte]) decoder.pending
  let complete := pending.length - textIncompleteTail pending
  (pending.take complete, ⟨pending.drop complete⟩)

/-- `finish` -/
def OutputDecoder.finish (decoder : OutputDecoder) : Bytes × OutputDecoder :=
    (decoder.pending, .new)

/-- `decode` of chunks in turn: what was given to `textDecode`, and the decoder. -/
def decodeChunks : List (Option Bytes) → OutputDecoder → List Bytes × OutputDecoder
  | [], decoder => ([], decoder)
  | chunk :: rest, decoder =>
    let decoded := decoder.decode chunk
    let after := decodeChunks rest decoded.2
    (decoded.1 :: after.1, after.2)

/-- The bytes that chunks cut a stream into; a null chunk has none. -/
def streamOf (chunks : List (Option Bytes)) : Bytes :=
    (chunks.map fun chunk => chunk.getD []).flatten

/-! ## The tail -/

theorem scanTail_stopped (low high : UInt8) (need : Nat) (rest : Bytes) :
    ((scanTail low high need rest).truncated = true → (scanTail low high need rest).valid = false) ∧
      ((scanTail low high need rest).valid = false → (scanTail low high need rest).truncated =
        false →
        (scanTail low high need rest).taken < rest.length) := by
  induction need generalizing low high rest with
  | zero => exact ⟨fun h => Bool.noConfusion h, fun h => Bool.noConfusion h⟩
  | succ need ih =>
    cases rest with
    | nil => exact ⟨fun _ => rfl, fun _ h => Bool.noConfusion h⟩
    | cons next rest =>
      rw [scanTail]
      split
      · exact ⟨fun h => Bool.noConfusion h, fun _ _ => Nat.succ_pos _⟩
      · obtain ⟨htruncated, hstopped⟩ := ih 0x80 0xbf rest
        exact ⟨htruncated, fun hvalid hend => Nat.succ_lt_succ (hstopped hvalid hend)⟩

theorem leadByte_need_le (lead : UInt8) : (leadByte lead).need ≤ 3 := by
  revert lead
  apply byte_cases
  decide +kernel

theorem scanSequence_truncated {lead : UInt8} {rest : Bytes}
    (h : (scanSequence lead rest).truncated = true) :
    (scanSequence lead rest).taken = rest.length + 1 ∧ rest.length + 1 ≤ 3 := by
  have hneed : 0 < (leadByte lead).need := by
    by_contra hnone
    rw [scanSequence, if_neg hnone] at h
    cases h
  obtain ⟨hle, -, -, hvalid, hend, -⟩ :=
    scanTail_spec (leadByte lead).low (leadByte lead).high (leadByte lead).need rest
  have hbound := leadByte_need_le lead
  rw [scanSequence_eq hneed] at h ⊢
  have hshort := (scanTail_stopped _ _ _ _).1 h
  have htaken := hend h
  have hne : rest.length ≠ (leadByte lead).need := by
    intro heq
    rw [hvalid.mpr (htaken.trans heq)] at hshort
    cases hshort
  exact ⟨congrArg Nat.succ htaken, by omega⟩

theorem scanSequence_settled {lead : UInt8} {rest : Bytes} (hlead : ¬ lead < 0x80)
    (hinvalid : (scanSequence lead rest).valid = false)
    (hwhole : (scanSequence lead rest).truncated = false) (more : Bytes) :
    MaximalSubpart ((lead :: rest).take (scanSequence lead rest).taken) (lead :: rest ++ more) := by
  apply (scanSequence_invalid hlead hinvalid).extend
  by_cases hneed : 0 < (leadByte lead).need
  · left
    rw [scanSequence_eq hneed] at hinvalid hwhole ⊢
    have hless := (scanTail_stopped _ _ _ _).2 hinvalid hwhole
    rw [List.length_take, List.length_cons]
    dsimp only
    omega
  · right
    intro hbegins
    rw [scanSequence, if_neg hneed] at hbegins
    exact hneed (beginsChar_tail hbegins hlead).1

/-! ## Cuts -/

/-- Where the scan of some bytes cuts: what is in front of the cut has the same
    pieces whatever follows the bytes. -/
structure Cut (bytes held : Bytes) (pieces : List Piece) : Prop where
  bytes_eq : bytes = pieces.flatMap Piece.bytes ++ held
  settled : ∀ more later, Pieces (held ++ more) later → Pieces (bytes ++ more) (pieces ++ later)

theorem Cut.cons {piece : Piece} {rest held : Bytes} {pieces : List Piece}
    (h : Cut rest held pieces) (hpiece : ∀ more later, Pieces (rest ++ more) later →
      Pieces (piece.bytes ++ (rest ++ more)) (piece :: later)) :
    Cut (piece.bytes ++ rest) held (piece :: pieces) where
  bytes_eq := by rw [List.flatMap_cons, append_assoc, ← h.bytes_eq]
  settled more later hlater := by
    rw [append_assoc]
    exact hpiece more _ (h.settled more later hlater)

theorem scanFrom_cut (fuel : Nat) (bytes : Bytes) (hfuel : bytes.length ≤ fuel) :
    ∃ pieces held, Cut bytes held pieces ∧ held.length = (scanFrom fuel bytes).tail ∧
      held.length ≤ 3 := by
  induction fuel generalizing bytes with
  | zero =>
    rw [List.length_eq_zero_iff.mp (Nat.le_zero.mp hfuel)]
    exact ⟨[], [], ⟨rfl, fun _ _ h => h⟩, rfl, Nat.zero_le _⟩
  | succ fuel ih =>
    cases bytes with
    | nil => exact ⟨[], [], ⟨rfl, fun _ _ h => h⟩, rfl, Nat.zero_le _⟩
    | cons lead rest =>
      rw [List.length_cons] at hfuel
      rw [scanFrom]
      by_cases hascii : lead < 0x80
      · rw [if_pos hascii]
        obtain ⟨pieces, held, hcut, hheld, hle⟩ := ih rest (by omega)
        obtain ⟨c, hc⟩ := @exists_encodeChar lead [] (.inl ⟨hascii, rfl⟩)
        have hall := @Cut.cons (.char c) _ _ _ hcut fun _ _ hlater => .char c hlater
        rw [Piece.bytes, hc] at hall
        exact ⟨_, held, hall, hheld, hle⟩
      · rw [if_neg hascii]
        dsimp only
        have hsplit := List.take_append_drop (scanSequence lead rest).taken (lead :: rest)
        have hrest : 0 < (scanSequence lead rest).taken →
            ((lead :: rest).drop (scanSequence lead rest).taken).length ≤ fuel := by
          intro hpos
          rw [List.length_drop, List.length_cons]
          omega
        cases hend : (scanSequence lead rest).truncated with
        | true =>
          obtain ⟨htaken, hle⟩ := scanSequence_truncated hend
          exact ⟨[], lead :: rest, ⟨rfl, fun _ _ h => h⟩, htaken.symm, hle⟩
        | false =>
          rw [if_neg Bool.false_ne_true]
          cases hvalid : (scanSequence lead rest).valid with
          | true =>
            obtain ⟨-, c, hc⟩ := scanSequence_valid hvalid
            have hpos := List.length_pos_iff.mpr (encodeChar_ne_nil c)
            rw [hc, List.length_take] at hpos
            obtain ⟨pieces, held, hcut, hheld, hle⟩ := ih _ (hrest (by omega))
            have hall := @Cut.cons (.char c) _ _ _ hcut fun _ _ hlater => .char c hlater
            rw [Piece.bytes, hc, hsplit] at hall
            exact ⟨_, held, hall, hheld, hle⟩
          | false =>
            have hpart := scanSequence_settled hascii hvalid hend
            have hpos := List.length_pos_iff.mpr (hpart []).nonempty
            rw [List.length_take] at hpos
            obtain ⟨pieces, held, hcut, hheld, hle⟩ := ih _ (hrest (by omega))
            have hall := @Cut.cons (.subpart ((lead :: rest).take (scanSequence lead rest).taken))
              _ _ _ hcut fun more later hlater => by
                refine .subpart ?_ hlater
                rw [← append_assoc, Piece.bytes, hsplit]
                exact hpart more
            rw [Piece.bytes, hsplit] at hall
            exact ⟨_, held, hall, hheld, hle⟩

theorem textIncompleteTail_cut (bytes : Bytes) :
    ∃ pieces held, Cut bytes held pieces ∧ held.length = textIncompleteTail bytes ∧
    held.length ≤ 3 := by
  rw [textIncompleteTail]
  split
  · next hnil =>
    rw [List.length_eq_zero_iff.mp hnil]
    exact ⟨[], [], ⟨rfl, fun _ _ h => h⟩, rfl, Nat.zero_le _⟩
  · exact scanFrom_cut bytes.length bytes (Nat.le_refl _)

/-! ## Chunks -/

theorem appendLoop_eq (pending chunk : Bytes) :
    chunk.foldl (fun pending byte => pending ++ [byte]) pending = pending ++ chunk := by
  induction chunk generalizing pending with
  | nil => exact (append_nil _).symm
  | cons byte chunk ih => rw [List.foldl_cons, ih, append_assoc, List.singleton_append]

theorem decode_cut (decoder : OutputDecoder) (chunk : Option Bytes) :
    ∃ pieces, Cut (decoder.pending ++ chunk.getD []) (decoder.decode chunk).2.pending pieces ∧
      (decoder.decode chunk).1 = pieces.flatMap Piece.bytes ∧
      (decoder.decode chunk).2.pending.length ≤ 3 := by
  obtain ⟨pieces, held, hcut, hheld, hle⟩ :=
    textIncompleteTail_cut (decoder.pending ++ chunk.getD [])
  have hcomplete : (decoder.pending ++ chunk.getD []).length
      - textIncompleteTail (decoder.pending ++ chunk.getD []) =
          (pieces.flatMap Piece.bytes).length := by
    rw [← hheld, hcut.bytes_eq, List.length_append, Nat.add_sub_cancel]
  rw [OutputDecoder.decode, appendLoop_eq]
  dsimp only
  rw [hcomplete]
  have hready : (decoder.pending ++ chunk.getD []).take (pieces.flatMap Piece.bytes).length
      = pieces.flatMap Piece.bytes := by rw [hcut.bytes_eq, List.take_left]
  have hpending : (decoder.pending ++ chunk.getD []).drop (pieces.flatMap Piece.bytes).length =
      held := by
    rw [hcut.bytes_eq, List.drop_left]
  rw [hready, hpending]
  exact ⟨pieces, hcut, rfl, hle⟩

theorem decodeChunks_cut (chunks : List (Option Bytes)) (decoder : OutputDecoder)
    (hdecoder : decoder.pending.length ≤ 3) :
    ∃ runs : List (List Piece),
      Cut (decoder.pending ++ streamOf chunks)
      (decodeChunks chunks decoder).2.pending runs.flatten ∧
      (decodeChunks chunks decoder).1 = runs.map (fun pieces => pieces.flatMap Piece.bytes) ∧
      (decodeChunks chunks decoder).2.pending.length ≤ 3 := by
  induction chunks generalizing decoder with
  | nil =>
    refine ⟨[], ⟨?_, ?_⟩, rfl, hdecoder⟩
    · rw [streamOf, List.map_nil, List.flatten_nil, append_nil]
      rfl
    · rw [streamOf, List.map_nil, List.flatten_nil, append_nil]
      exact fun _ _ h => h
  | cons chunk chunks ih =>
    obtain ⟨pieces, hcut, hready, hle⟩ := decode_cut decoder chunk
    obtain ⟨runs, hrest, hpassed, hpending⟩ := ih (decoder.decode chunk).2 hle
    have hstream : decoder.pending ++ streamOf (chunk :: chunks)
        = decoder.pending ++ chunk.getD [] ++ streamOf chunks := by
      rw [streamOf, map_cons, flatten_cons, ← append_assoc]
      rfl
    refine ⟨pieces :: runs, ⟨?_, ?_⟩, ?_, hpending⟩
    · rw [hstream, hcut.bytes_eq, append_assoc, hrest.bytes_eq, flatten_cons,
        flatMap_append, append_assoc]
      rfl
    · -- what is held back is scanned again in front of the next chunks
      intro more later hlater
      have hall := hcut.settled (streamOf chunks ++ more) (runs.flatten ++ later)
      rw [← append_assoc, ← append_assoc, ← append_assoc] at hall
      rw [hstream, flatten_cons]
      exact hall (hrest.settled more later hlater)
    · show (decoder.decode chunk).1 :: (decodeChunks chunks (decoder.decode chunk).2).1 = _
      rw [hready, hpassed, map_cons]

theorem scanUtf8_runs {runs : List (List Piece)} {later : List Piece} {rest : Bytes}
    (h : Pieces (runs.flatten.flatMap Piece.bytes ++ rest) (runs.flatten ++ later)) :
    (runs.map fun pieces => pieces.flatMap Piece.bytes).flatMap (fun bytes =>
      (scanUtf8 bytes).output) = decodedPieces runs.flatten := by
  induction runs with
  | nil => rfl
  | cons pieces runs ih =>
    rw [flatten_cons, flatMap_append, append_assoc, append_assoc] at h
    have hhere := scanUtf8_eq (Pieces.front h)
    rw [map_cons, List.flatMap_cons, hhere.1, ih (h.drop), flatten_cons, decodedPieces,
      decodedPieces, decodedPieces, flatMap_append]

/-- However a stream is cut into chunks, what `decode` and at last `finish` pass
    to `textDecode` is the stream, each cut lies between pieces of the stream, the
    scans of the parts are together the scan of the stream, and at most three
    bytes are held back. -/
theorem decoding_chunk_free (chunks : List (Option Bytes)) :
    ∃ (runs : List (List Piece)) (last : List Piece),
      Pieces (streamOf chunks) (runs.flatten ++ last) ∧
      (decodeChunks chunks .new).1 = runs.map (fun pieces => pieces.flatMap Piece.bytes) ∧
      (decodeChunks chunks .new).2.finish.1 = last.flatMap Piece.bytes ∧
      ((decodeChunks chunks .new).1 ++ [(decodeChunks chunks .new).2.finish.1]).flatten
        = streamOf chunks ∧
      ((decodeChunks chunks .new).1 ++ [(decodeChunks chunks .new).2.finish.1]).flatMap
          (fun bytes => (scanUtf8 bytes).output) = (scanUtf8 (streamOf chunks)).output ∧
      (decodeChunks chunks .new).2.pending.length ≤ 3 := by
  obtain ⟨runs, hcut, hpassed, hle⟩ := decodeChunks_cut chunks .new (Nat.zero_le _)
  obtain ⟨last, hlast⟩ := exists_pieces (decodeChunks chunks .new).2.pending
  have hstream := hcut.settled [] last (by rwa [append_nil])
  rw [append_nil, OutputDecoder.new, List.nil_append] at hstream
  have hbytes : streamOf chunks = runs.flatten.flatMap Piece.bytes
      ++ (decodeChunks chunks .new).2.pending := hcut.bytes_eq
  refine ⟨runs, last, hstream, hpassed, hlast.bytes_eq.symm, ?_, ?_, hle⟩
  · rw [hpassed, List.flatten_append, List.flatten_singleton, hbytes, List.flatMap_def,
      List.map_flatten, List.flatten_flatten, List.map_map]
    rfl
  · rw [hpassed, flatMap_append, List.flatMap_singleton, scanUtf8_runs (hbytes ▸ hstream)]
    show decodedPieces runs.flatten ++ (scanUtf8 (decodeChunks chunks .new).2.pending).output = _
    rw [(scanUtf8_eq hlast).1, (scanUtf8_eq hstream).1, decodedPieces, decodedPieces, decodedPieces,
      flatMap_append]

end Cwhip.Runtime
