/-
  Cwhip.Runtime.TextDecode

  The lossy decoding of process output (`scan_utf8` and
  `cwhip_process_text_decode` in `RuntimeProcessAsync.c`).

  The scan is made twice: once to count, and again to write.  If the count
  equals the length of the input, the input itself becomes the String.
-/

import Cwhip.Lib.Utf8Lossy
import Cwhip.Runtime.StringTexts

namespace Cwhip.Runtime

open Cwhip.Lib Cwhip.Lib.Utf8
open List (length_append length_cons length_take)

/-! ## The scan -/

/-- What a lead byte asks for: how many bytes, and the bounds of the first. -/
structure LeadByte where
  need : Nat
  low : UInt8
  high : UInt8
  deriving DecidableEq

/-- The cases of `scan_utf8` for a byte from 0x80 on. -/
def leadByte (lead : UInt8) : LeadByte :=
  if 0xc2 ≤ lead ∧ lead ≤ 0xdf then ⟨1, 0x80, 0xbf⟩
  else if lead = 0xe0 then ⟨2, 0xa0, 0xbf⟩
  else if (0xe1 ≤ lead ∧ lead ≤ 0xec) ∨ lead = 0xee ∨ lead = 0xef then ⟨2, 0x80, 0xbf⟩
  else if lead = 0xed then ⟨2, 0x80, 0x9f⟩
  else if lead = 0xf0 then ⟨3, 0x90, 0xbf⟩
  else if 0xf1 ≤ lead ∧ lead ≤ 0xf3 then ⟨3, 0x80, 0xbf⟩
  else if lead = 0xf4 then ⟨3, 0x80, 0x8f⟩
  else ⟨0, 0x80, 0xbf⟩

/-- `taken`, `valid` and `truncated`. -/
structure SequenceScan where
  taken : Nat
  valid : Bool
  truncated : Bool

/-- The loop over the bytes that follow a lead byte. -/
def scanTail (low high : UInt8) : Nat → Bytes → SequenceScan
  | 0, _ => ⟨0, true, false⟩
  | _ + 1, [] => ⟨0, false, true⟩
  | need + 1, next :: rest =>
    if next < low ∨ high < next then ⟨0, false, false⟩
    else
      let scan := scanTail 0x80 0xbf need rest
      { scan with taken := scan.taken + 1 }

/-- One sequence, its lead byte included. -/
def scanSequence (lead : UInt8) (rest : Bytes) : SequenceScan :=
  let asks := leadByte lead
  if 0 < asks.need then
    let scan := scanTail asks.low asks.high asks.need rest
    { scan with taken := if scan.truncated then rest.length + 1 else scan.taken + 1 }
  else ⟨1, false, false⟩

/-- What `scan_utf8` writes (if it is given an output), counts and returns. -/
structure Utf8Scan where
  output : Bytes
  written : Nat
  tail : Nat

/-- The main loop of `scan_utf8`; it takes a byte at least in each turn. -/
def scanFrom : Nat → Bytes → Utf8Scan
  | 0, _ => ⟨[], 0, 0⟩
  | _ + 1, [] => ⟨[], 0, 0⟩
  | fuel + 1, lead :: rest =>
    if lead < 0x80 then
      let next := scanFrom fuel rest
      ⟨lead :: next.output, 1 + next.written, next.tail⟩
    else
      let scan := scanSequence lead rest
      let next := scanFrom fuel ((lead :: rest).drop scan.taken)
      ⟨(if scan.valid then (lead :: rest).take scan.taken else replacement) ++ next.output,
        (if scan.valid then scan.taken else replacement.length) + next.written,
        if scan.truncated then scan.taken else next.tail⟩

/-- `scan_utf8`. -/
def scanUtf8 (bytes : Bytes) : Utf8Scan := scanFrom bytes.length bytes

/-- `cwhip_process_text_decode` of the buffer that is the receiver, or of null.
    `malloc` gives no block above `PTRDIFF_MAX`. -/
def textDecode (finalizers : StringFinalizers) (s : StringState) (isNull : Bool) :
    Except NativeFault (Bytes × StringState) :=
  let buffer := s.strings.receiver
  if isNull = true ∨ buffer.length = 0 then
    stringNew finalizers s (.native []) 0
  else
    let decodedLength := (scanUtf8 buffer.value).written % 2 ^ 64
    if decodedLength = buffer.length then
      stringNew finalizers s (.receiver buffer.block 0) buffer.length
    else do
      ensure (decodedLength ≤ int64Max) (.raises "out of memory decoding process output")
      let decoded := (scanUtf8 buffer.value).output
      ensure (decoded.length ≤ decodedLength) .overrun
      stringNew finalizers s (.native decoded) decodedLength

/-! ## Lead bytes -/

theorem byte_cases {P : UInt8 → Prop} (h : ∀ n : Fin 256, P (UInt8.ofNat n.val)) (byte : UInt8) :
    P byte := by
  have hbyte := h ⟨byte.toNat, byte.toNat_lt⟩
  rwa [UInt8.ofNat_toNat] at hbyte

variable {lead low high : UInt8} {tail rest bytes : Bytes}

theorem leadByte_two (h : 0xc2 ≤ lead.toNat ∧ lead.toNat ≤ 0xdf) :
    leadByte lead = ⟨1, 0x80, 0xbf⟩ := by
  revert lead
  apply byte_cases
  decide +kernel

theorem leadByte_three (h : 0xe0 ≤ lead.toNat ∧ lead.toNat ≤ 0xef) :
    leadByte lead = ⟨2, if lead = 0xe0 then 0xa0 else 0x80, if lead = 0xed then 0x9f
    else 0xbf⟩ := by
  revert lead
  apply byte_cases
  decide +kernel

theorem leadByte_four (h : 0xf0 ≤ lead.toNat ∧ lead.toNat ≤ 0xf4) :
    leadByte lead = ⟨3, if lead = 0xf0 then 0x90 else 0x80, if lead = 0xf4 then 0x8f
    else 0xbf⟩ := by
  revert lead
  apply byte_cases
  decide +kernel

theorem leadByte_cases (h : 0 < (leadByte lead).need) :
    (0xc2 ≤ lead.toNat ∧ lead.toNat ≤ 0xdf) ∨ (0xe0 ≤ lead.toNat ∧ lead.toNat ≤ 0xef) ∨
      (0xf0 ≤ lead.toNat ∧ lead.toNat ≤ 0xf4) := by
  revert lead
  apply byte_cases
  decide +kernel

/-! ## Sequences -/

/-- Bytes that may follow a lead byte. -/
def TailOk (low high : UInt8) : Bytes → Prop
  | [] => True
  | next :: rest => low ≤ next ∧ next ≤ high ∧ TailOk 0x80 0xbf rest

theorem TailOk.take (h : TailOk low high tail) (count : Nat) :
    TailOk low high (tail.take count) := by
  induction tail generalizing low high count with
  | nil => rwa [List.take_nil]
  | cons next rest ih =>
    cases count with
    | zero => trivial
    | succ count => exact ⟨h.1, h.2.1, ih h.2.2 count⟩

theorem scanTail_spec (low high : UInt8) (need : Nat) (rest : Bytes) :
    (scanTail low high need rest).taken ≤ need ∧
    (scanTail low high need rest).taken ≤ rest.length ∧
    TailOk low high (rest.take (scanTail low high need rest).taken) ∧
    ((scanTail low high need rest).valid = true ↔ (scanTail low high need rest).taken = need) ∧
    ((scanTail low high need rest).truncated = true →
      (scanTail low high need rest).taken = rest.length) ∧
    ∀ count, (scanTail low high need rest).taken < count → count ≤ need → count ≤ rest.length →
      ¬ TailOk low high (rest.take count) := by
  induction need generalizing low high rest with
  | zero =>
    refine ⟨Nat.le_refl _, Nat.zero_le _, trivial, by simp [scanTail], by simp [scanTail], ?_⟩
    intro count hmore hneed
    omega
  | succ need ih =>
    cases rest with
    | nil =>
      refine ⟨Nat.zero_le _, Nat.le_refl _, trivial, by simp [scanTail], fun _ => rfl, ?_⟩
      intro count hmore _ hlength
      simp only [List.length_nil] at hlength
      omega
    | cons next rest =>
      by_cases hout : next < low ∨ high < next
      · have hscan : scanTail low high (need + 1) (next :: rest) = ⟨0, false, false⟩ := by
          rw [scanTail, if_pos hout]
        rw [hscan]
        refine ⟨Nat.zero_le _, Nat.zero_le _, trivial, by simp, by simp, ?_⟩
        intro count hmore _ _ htail
        cases count with
        | zero => omega
        | succ count =>
          rcases hout with hlow | hhigh
          · exact absurd htail.1 (UInt8.not_le.mpr hlow)
          · exact absurd htail.2.1 (UInt8.not_le.mpr hhigh)
      · have hscan : scanTail low high (need + 1) (next :: rest)
            = { scanTail 0x80 0xbf need rest with
                taken := (scanTail 0x80 0xbf need rest).taken + 1 } := by
          rw [scanTail, if_neg hout]
        have hlow : low ≤ next := UInt8.not_lt.mp fun h => hout (.inl h)
        have hhigh : next ≤ high := UInt8.not_lt.mp fun h => hout (.inr h)
        obtain ⟨hneed, hlength, htail, hvalid, htruncated, hlongest⟩ := ih 0x80 0xbf rest
        rw [hscan]
        refine ⟨Nat.succ_le_succ hneed, Nat.succ_le_succ hlength, ⟨hlow, hhigh, htail⟩, ?_, ?_, ?_⟩
        · show _ ↔ (scanTail 0x80 0xbf need rest).taken + 1 = need + 1
          rw [hvalid]
          omega
        · intro h
          show (scanTail 0x80 0xbf need rest).taken + 1 = rest.length + 1
          rw [htruncated h]
        · intro count hmore hle hin hok
          cases count with
          | zero => omega
          | succ count =>
            refine hlongest count ?_ (by omega) (by simpa using hin) hok.2.2
            exact Nat.lt_of_succ_lt_succ hmore

/-- The characters, by their bytes. -/
def IsSequence (lead : UInt8) (tail : Bytes) : Prop :=
  (lead < 0x80 ∧ tail = []) ∨
    (0 < (leadByte lead).need ∧ tail.length = (leadByte lead).need ∧
      TailOk (leadByte lead).low (leadByte lead).high tail)

theorem tailOk_singleton {a : UInt8} :
    TailOk low high [a] ↔ low.toNat ≤ a.toNat ∧ a.toNat ≤ high.toNat := by
  simp [TailOk, UInt8.le_iff_toNat_le]

theorem tailOk_cons {a : UInt8} :
    TailOk low high (a :: rest)
      ↔ (low.toNat ≤ a.toNat ∧ a.toNat ≤ high.toNat) ∧ TailOk 0x80 0xbf rest := by
  simp [TailOk, UInt8.le_iff_toNat_le, and_assoc]

theorem exists_encodeChar (h : IsSequence lead tail) :
    ∃ c, String.utf8EncodeChar c = lead :: tail := by
  rcases h with ⟨hascii, rfl⟩ | ⟨hneed, hlength, htail⟩
  · apply exists_encodeChar_one
    have hlt := UInt8.lt_iff_toNat_lt.mp hascii
    change lead.toNat < 128 at hlt
    omega
  rcases leadByte_cases hneed with hlead | hlead | hlead
  · rw [leadByte_two hlead] at hlength htail
    match tail, hlength with
    | [b], _ => exact exists_encodeChar_two hlead (tailOk_singleton.mp htail)
  · rw [leadByte_three hlead] at hlength htail
    match tail, hlength with
    | [b, c], _ =>
      obtain ⟨hb, hc⟩ := tailOk_cons.mp htail
      simp only [apply_ite UInt8.toNat, ← UInt8.toNat_inj] at hb
      change (if lead.toNat = 0xe0 then 0xa0 else 0x80) ≤ _ ∧
        _ ≤ (if lead.toNat = 0xed then 0x9f else 0xbf) at hb
      refine exists_encodeChar_three hlead ?_ ?_ ?_ (tailOk_singleton.mp hc)
      · split at hb <;> split at hb <;> omega
      · intro heq
        rw [if_pos heq] at hb
        exact hb.1
      · intro heq
        rw [if_pos (c := lead.toNat = 0xed) heq] at hb
        exact hb.2
  · rw [leadByte_four hlead] at hlength htail
    match tail, hlength with
    | [b, c, d], _ =>
      obtain ⟨hb, hrest⟩ := tailOk_cons.mp htail
      obtain ⟨hc, hd⟩ := tailOk_cons.mp hrest
      simp only [apply_ite UInt8.toNat, ← UInt8.toNat_inj] at hb
      change (if lead.toNat = 0xf0 then 0x90 else 0x80) ≤ _ ∧
        _ ≤ (if lead.toNat = 0xf4 then 0x8f else 0xbf) at hb
      refine exists_encodeChar_four hlead ?_ ?_ ?_ hc (tailOk_singleton.mp hd)
      · split at hb <;> split at hb <;> omega
      · intro heq
        rw [if_pos heq] at hb
        exact hb.1
      · intro heq
        rw [if_pos (c := lead.toNat = 0xf4) heq] at hb
        exact hb.2

theorem toNat_byte {n : Nat} (h : n < 256) : (UInt8.ofNat n).toNat = n :=
  UInt8.toNat_ofNat_of_lt' (by simpa using h)

theorem tailOk_last (v : Nat) : TailOk 0x80 0xbf [UInt8.ofNat (v % 0x40 + 0x80)] := by
  rw [tailOk_singleton, toNat_byte (by omega)]
  show 0x80 ≤ v % 0x40 + 0x80 ∧ v % 0x40 + 0x80 ≤ 0xbf
  omega

theorem isSequence_encodeChar (c : Char) :
    ∃ lead tail, String.utf8EncodeChar c = lead :: tail ∧ IsSequence lead tail := by
  have hvalid : c.val.toNat < 0xd800 ∨ (0xdfff < c.val.toNat ∧ c.val.toNat < 0x110000) := c.valid
  unfold String.utf8EncodeChar
  generalize c.val.toNat = v at hvalid
  show ∃ lead tail, (if v ≤ 0x7f then _ else if v ≤ 0x7ff then _ else if v ≤ 0xffff then _ else _)
    = lead :: tail ∧ _
  split
  · refine ⟨_, _, rfl, .inl ⟨?_, rfl⟩⟩
    rw [UInt8.lt_iff_toNat_lt, toNat_byte (by omega)]
    show v < 0x80
    omega
  split
  · have hlead := toNat_byte (n := v / 64 % 0x20 + 0xc0) (by omega)
    refine ⟨_, _, rfl, .inr ?_⟩
    rw [leadByte_two ⟨by omega, by omega⟩]
    exact ⟨Nat.one_pos, rfl, tailOk_last v⟩
  split
  · have hlead := toNat_byte (n := v / 4096 % 0x10 + 0xe0) (by omega)
    refine ⟨_, _, rfl, .inr ?_⟩
    rw [leadByte_three ⟨by omega, by omega⟩]
    refine ⟨Nat.two_pos, rfl, tailOk_cons.mpr ⟨?_, tailOk_last v⟩⟩
    simp only [apply_ite UInt8.toNat, ← UInt8.toNat_inj, hlead]
    rw [toNat_byte (by omega)]
    show (if _ = 0xe0 then 0xa0 else 0x80) ≤ _ ∧ _ ≤ (if _ = 0xed then 0x9f else 0xbf)
    constructor
    · split <;> omega
    · split <;> omega
  · have hlead := toNat_byte (n := v / 262144 % 0x08 + 0xf0) (by omega)
    refine ⟨_, _, rfl, .inr ?_⟩
    rw [leadByte_four ⟨by omega, by omega⟩]
    refine ⟨Nat.succ_pos _, rfl, tailOk_cons.mpr ⟨?_, tailOk_cons.mpr ⟨?_, tailOk_last v⟩⟩⟩
    · simp only [apply_ite UInt8.toNat, ← UInt8.toNat_inj, hlead]
      rw [toNat_byte (by omega)]
      show (if _ = 0xf0 then 0x90 else 0x80) ≤ _ ∧ _ ≤ (if _ = 0xf4 then 0x8f else 0xbf)
      constructor
      · split <;> omega
      · split <;> omega
    · exact tailOk_singleton.mp (tailOk_last (v / 64))

/-! ## Beginnings of characters -/

theorem leadByte_bounds (lead : UInt8) : (leadByte lead).low ≤ (leadByte lead).high := by
  revert lead
  apply byte_cases
  decide +kernel

theorem TailOk.complete (hbounds : low ≤ high) (h : TailOk low high tail) {need : Nat}
    (hlength : tail.length ≤ need) :
    ∃ more, (tail ++ more).length = need ∧ TailOk low high (tail ++ more) := by
  induction tail generalizing low high need with
  | nil =>
    cases need with
    | zero => exact ⟨[], rfl, trivial⟩
    | succ need =>
      refine ⟨low :: List.replicate need 0x80, by simp, UInt8.le_refl _, hbounds, ?_⟩
      induction need with
      | zero => trivial
      | succ need ih => exact ⟨by decide, by decide, ih (Nat.zero_le _)⟩
  | cons next rest ih =>
    cases need with
    | zero => cases hlength
    | succ need =>
      obtain ⟨more, hmore, hok⟩ := ih (by decide) h.2.2 (Nat.le_of_succ_le_succ hlength)
      exact ⟨more, congrArg Nat.succ hmore, h.1, h.2.1, hok⟩

theorem beginsChar_of_tail (hneed : 0 < (leadByte lead).need)
    (hlength : tail.length ≤ (leadByte lead).need)
    (htail : TailOk (leadByte lead).low (leadByte lead).high tail) : BeginsChar (lead :: tail) := by
  obtain ⟨more, hmore, hok⟩ := htail.complete (leadByte_bounds lead) hlength
  obtain ⟨c, hc⟩ := exists_encodeChar (.inr ⟨hneed, hmore, hok⟩)
  exact ⟨c, more, hc.symm⟩

theorem beginsChar_tail (h : BeginsChar (lead :: tail)) (hlead : ¬ lead < 0x80) :
    0 < (leadByte lead).need ∧ tail.length ≤ (leadByte lead).need ∧
      TailOk (leadByte lead).low (leadByte lead).high tail := by
  obtain ⟨c, more, hmore⟩ := h
  obtain ⟨first, rest, hchar, hsequence⟩ := isSequence_encodeChar c
  rw [hchar, List.cons_append, List.cons.injEq] at hmore
  obtain ⟨rfl, rfl⟩ := hmore
  rcases hsequence with ⟨hascii, _⟩ | ⟨hneed, hlength, hok⟩
  · exact absurd hascii hlead
  · rw [length_append] at hlength
    have htake := hok.take tail.length
    rw [List.take_left'] at htake
    · exact ⟨hneed, by omega, htake⟩
    · rfl

/-! ## One sequence -/

theorem scanSequence_eq (hneed : 0 < (leadByte lead).need) (rest : Bytes) :
    scanSequence lead rest =
      { scanTail (leadByte lead).low (leadByte lead).high (leadByte lead).need rest with
        taken := (scanTail (leadByte lead).low (leadByte lead).high (leadByte lead).need rest).taken
          + 1 } := by
  obtain ⟨_, _, _, _, htruncated, _⟩ :=
    scanTail_spec (leadByte lead).low (leadByte lead).high (leadByte lead).need rest
  unfold scanSequence
  rw [if_pos hneed]
  dsimp only
  congr 1
  split
  · rename_i h
    rw [htruncated h]
  · rfl

theorem prefix_cons_take {part : Bytes} (h : part <+: lead :: rest)
    (hne : part ≠ []) : ∃ count, part = lead :: rest.take count ∧ count ≤ rest.length ∧
      part.length = count + 1 := by
  cases part with
  | nil => exact absurd rfl hne
  | cons first tail =>
    obtain ⟨rfl, htail⟩ := List.cons_prefix_cons.mp h
    refine ⟨tail.length, ?_, htail.length_le, rfl⟩
    rw [← List.prefix_iff_eq_take.mp htail]

theorem scanSequence_valid (h : (scanSequence lead rest).valid = true) :
    (scanSequence lead rest).taken ≤ rest.length + 1 ∧
      ∃ c, String.utf8EncodeChar c = (lead :: rest).take (scanSequence lead rest).taken := by
  have hneed : 0 < (leadByte lead).need := by
    by_contra hnone
    rw [scanSequence, if_neg hnone] at h
    cases h
  obtain ⟨_, hlength, htail, hvalid, _, _⟩ :=
    scanTail_spec (leadByte lead).low (leadByte lead).high (leadByte lead).need rest
  rw [scanSequence_eq hneed] at h ⊢
  have htaken := hvalid.mp h
  refine ⟨Nat.succ_le_succ hlength, ?_⟩
  rw [List.take_succ_cons]
  apply exists_encodeChar
  refine .inr ⟨hneed, ?_, htail⟩
  rw [length_take, Nat.min_eq_left hlength, htaken]

theorem scanSequence_invalid (hlead : ¬ lead < 0x80) (h : (scanSequence lead rest).valid = false) :
    MaximalSubpart ((lead :: rest).take (scanSequence lead rest).taken) (lead :: rest) := by
  -- a beginning of a character is a tail that the loop would have taken
  have hbegins : ∀ longer, longer <+: lead :: rest → longer ≠ [] → BeginsChar longer →
      0 < (leadByte lead).need ∧ ∃ count, longer.length = count + 1 ∧
        count ≤ (leadByte lead).need ∧ count ≤ rest.length ∧
        TailOk (leadByte lead).low (leadByte lead).high (rest.take count) := by
    intro longer hprefix hne hbegins
    obtain ⟨count, rfl, hcount, hlength⟩ := prefix_cons_take hprefix hne
    obtain ⟨hneed, hle, hok⟩ := beginsChar_tail hbegins hlead
    rw [length_take, Nat.min_eq_left hcount] at hle
    exact ⟨hneed, count, hlength, hle, hcount, hok⟩
  by_cases hneed : 0 < (leadByte lead).need
  · obtain ⟨hle, hlength, htail, hvalid, _, hlongest⟩ :=
      scanTail_spec (leadByte lead).low (leadByte lead).high (leadByte lead).need rest
    rw [scanSequence_eq hneed] at h ⊢
    generalize scanTail (leadByte lead).low (leadByte lead).high (leadByte lead).need rest = scan
      at *
    have hshort : scan.taken < (leadByte lead).need := by
      have hne : scan.taken ≠ (leadByte lead).need := fun heq => by
        have hyes := hvalid.mpr heq
        rw [show scan.valid = false from h] at hyes
        cases hyes
      omega
    dsimp only
    refine ⟨List.take_prefix _ _, by simp, ?_, .inl ?_, ?_⟩
    · rintro c hprefix
      obtain ⟨first, tail, hchar, hsequence⟩ := isSequence_encodeChar c
      obtain ⟨count, htake, hcount, _⟩ := prefix_cons_take hprefix (encodeChar_ne_nil c)
      rw [hchar, List.cons.injEq] at htake
      obtain ⟨rfl, rfl⟩ := htake
      rcases hsequence with ⟨hascii, _⟩ | ⟨_, hwhole, hok⟩
      · exact hlead hascii
      · rw [length_take, Nat.min_eq_left hcount] at hwhole
        exact hlongest count (by omega) (by omega) hcount hok
    · rw [List.take_succ_cons]
      apply beginsChar_of_tail hneed _ htail
      rw [length_take]
      omega
    · intro longer hprefix hless hchar
      rw [length_take, length_cons] at hless
      have hne : longer ≠ [] := fun hnil => by
        rw [hnil] at hless
        cases hless
      obtain ⟨_, count, hcount, hcountNeed, hcountLength, hok⟩ := hbegins longer hprefix hne hchar
      exact hlongest count (by omega) hcountNeed hcountLength hok
  · have hone : (scanSequence lead rest).taken = 1 := by
      rw [scanSequence, if_neg hneed]
    rw [hone]
    refine ⟨List.take_prefix _ _, by simp, ?_, .inr (by simp), ?_⟩
    · intro c hprefix
      exact hneed (hbegins _ hprefix (encodeChar_ne_nil c) ⟨c, List.prefix_refl _⟩).1
    · intro longer hprefix hless hchar
      have hne : longer ≠ [] := fun hnil => by
        rw [hnil] at hless
        cases hless
      exact hneed (hbegins longer hprefix hne hchar).1

/-! ## The whole scan -/

theorem scanFrom_pieces (fuel : Nat) (bytes : Bytes) (hfuel : bytes.length ≤ fuel) :
    ∃ pieces, Pieces bytes pieces ∧ (scanFrom fuel bytes).output = decodedPieces pieces ∧
      (scanFrom fuel bytes).written = (decodedPieces pieces).length := by
  induction fuel generalizing bytes with
  | zero =>
    rw [List.length_eq_zero_iff.mp (Nat.le_zero.mp hfuel)]
    exact ⟨[], .nil, rfl, rfl⟩
  | succ fuel ih =>
    cases bytes with
    | nil => exact ⟨[], .nil, rfl, rfl⟩
    | cons lead rest =>
      rw [length_cons] at hfuel
      unfold scanFrom
      by_cases hascii : lead < 0x80
      · rw [if_pos hascii]
        dsimp only
        obtain ⟨pieces, hpieces, houtput, hwritten⟩ := ih rest (by omega)
        obtain ⟨c, hc⟩ := @exists_encodeChar lead [] (.inl ⟨hascii, rfl⟩)
        have hall := Pieces.char c hpieces
        rw [hc, List.singleton_append] at hall
        refine ⟨_, hall, ?_, ?_⟩
        · rw [decodedPieces_cons, Piece.decoded, hc, houtput]
          rfl
        · rw [decodedPieces_cons, Piece.decoded, hc, length_append, hwritten]
          rfl
      · rw [if_neg hascii]
        dsimp only
        cases hvalid : (scanSequence lead rest).valid with
        | true =>
          -- a whole character, which is copied
          obtain ⟨htaken, c, hc⟩ := scanSequence_valid hvalid
          have hpos := List.length_pos_iff.mpr (encodeChar_ne_nil c)
          have hlength := congrArg List.length hc
          rw [length_take, length_cons] at hlength
          obtain ⟨pieces, hpieces, houtput, hwritten⟩ :=
            ih ((lead :: rest).drop (scanSequence lead rest).taken) (by
              rw [List.length_drop, length_cons]
              omega)
          have hall := Pieces.char c hpieces
          rw [hc, List.take_append_drop] at hall
          refine ⟨_, hall, ?_, ?_⟩
          · rw [if_pos rfl, decodedPieces_cons, Piece.decoded, hc, houtput]
          · rw [if_pos rfl, decodedPieces_cons, Piece.decoded, length_append, hwritten]
            omega
        | false =>
          -- a maximal subpart, for which one replacement is written
          have hpart := scanSequence_invalid hascii hvalid
          have hpos := List.length_pos_iff.mpr hpart.nonempty
          rw [length_take, length_cons] at hpos
          obtain ⟨pieces, hpieces, houtput, hwritten⟩ :=
            ih ((lead :: rest).drop (scanSequence lead rest).taken) (by
              rw [List.length_drop, length_cons]
              omega)
          have hhere : MaximalSubpart ((lead :: rest).take (scanSequence lead rest).taken)
              ((lead :: rest).take (scanSequence lead rest).taken
                ++ (lead :: rest).drop (scanSequence lead rest).taken) := by
            rwa [List.take_append_drop]
          have hall := Pieces.subpart hhere hpieces
          rw [List.take_append_drop] at hall
          refine ⟨_, hall, ?_, ?_⟩
          · rw [if_neg (by decide), decodedPieces_cons, Piece.decoded, houtput]
          · rw [if_neg (by decide), decodedPieces_cons, Piece.decoded, length_append, hwritten]

theorem scanUtf8_eq {pieces : List Piece} (h : Pieces bytes pieces) :
    (scanUtf8 bytes).output = decodedPieces pieces ∧
      (scanUtf8 bytes).written = (decodedPieces pieces).length := by
  obtain ⟨found, hfound, houtput, hwritten⟩ := scanFrom_pieces bytes.length bytes (Nat.le_refl _)
  rw [h.unique hfound]
  exact ⟨houtput, hwritten⟩

theorem exists_pieces (bytes : Bytes) : ∃ pieces, Pieces bytes pieces := by
  obtain ⟨pieces, hpieces, _⟩ := scanFrom_pieces bytes.length bytes (Nat.le_refl _)
  exact ⟨pieces, hpieces⟩

/-! ## Decoding -/

theorem newSpec_ok (hlength : bytes.length ≤ int64Max) (hwell : WellFormed bytes) :
    newSpec bytes = .ok bytes := by
  simp [newSpec, ensure, hlength, (validUtf8_iff bytes).mpr hwell, bind, Except.bind,
    pure, Except.pure]

theorem newSpec_malformed (hwell : ¬ WellFormed bytes) (bytes' : Bytes) :
    newSpec bytes ≠ .ok bytes' := by
  intro h
  simp only [newSpec, bind_eq_ok, ensure_eq_ok, pure_eq_ok] at h
  obtain ⟨_, _, _, hvalid, _⟩ := h
  exact hwell ((validUtf8_iff bytes).mp hvalid)

variable (finalizers : StringFinalizers) {s : StringState} {pieces : List Piece}

theorem textDecode_same (hpos : s.strings.receiver.length ≠ 0)
    (hsame : (scanUtf8 s.strings.receiver.value).written % 2 ^ 64 = s.strings.receiver.length) :
    returned (textDecode finalizers s false)
      = returned (stringNew finalizers s (rangeSource s 0 s.strings.receiver.length)
          s.strings.receiver.length) := by
  unfold textDecode rangeSource
  rw [if_neg (by simpa using hpos), if_pos hsame, if_neg hpos]

theorem textDecode_decoded (hpos : s.strings.receiver.length ≠ 0)
    (hother : (scanUtf8 s.strings.receiver.value).written % 2 ^ 64 ≠ s.strings.receiver.length)
    (h : Pieces s.strings.receiver.value pieces) :
    returned (textDecode finalizers s false) = .ok (decodedPieces pieces) ↔
      (decodedPieces pieces).length ≤ int64Max := by
  obtain ⟨houtput, hwritten⟩ := scanUtf8_eq h
  have hmax : int64Max < 2 ^ 64 := by decide
  rw [hwritten] at hother
  unfold textDecode
  rw [if_neg (by simpa using hpos), houtput, hwritten, if_neg hother]
  by_cases hfits : (decodedPieces pieces).length ≤ int64Max
  · have hmod : (decodedPieces pieces).length % 2 ^ 64 = (decodedPieces pieces).length :=
      Nat.mod_eq_of_lt (by omega)
    rw [hmod, ensure_bind hfits, ensure_bind (Nat.le_refl _), stringNew_native,
      newSpec_ok hfits (wellFormed_decodedPieces pieces)]
    simp [hfits]
  · -- the block `malloc` gives is too small, if it gives one
    refine iff_of_false ?_ hfits
    by_cases hblock : (decodedPieces pieces).length % 2 ^ 64 ≤ int64Max
    · have hover : ¬ (decodedPieces pieces).length ≤ (decodedPieces pieces).length % 2 ^
        64 := by omega
      rw [ensure_bind hblock, ensure_bind_error hover]
      nofun
    · rw [ensure_bind_error hblock]
      nofun

/-- Decoding a byte buffer gives its text with U+FFFD in the place of each
    maximal subpart exactly if the bytes are well formed, and the finalizers of
    the String's allocation leave them alone, or some subpart is shorter than
    three bytes, and the result fits. -/
theorem textDecode_iff (hbounded : s.strings.receiver.length ≤ int64Max) :
    ∃ pieces, Pieces s.strings.receiver.value pieces ∧
      (∀ other, Pieces s.strings.receiver.value other → other = pieces) ∧
      (WellFormed s.strings.receiver.value → decodedPieces pieces = s.strings.receiver.value) ∧
      (returned (textDecode finalizers s false) = .ok (decodedPieces pieces) ↔
        (WellFormed s.strings.receiver.value ∧ (s.strings.receiver.length ≠ 0 →
            Undisturbed s (s.allocated finalizers) 0 s.strings.receiver.length)) ∨
          (∃ piece ∈ pieces, piece.isShort) ∧ (decodedPieces pieces).length ≤ int64Max) := by
  obtain ⟨pieces, hpieces⟩ := exists_pieces s.strings.receiver.value
  refine ⟨pieces, hpieces, fun other hother => hother.unique hpieces, hpieces.decoded_of_wellFormed,
    ?_⟩
  obtain ⟨hle, hshort⟩ := hpieces.length_le
  have hthree := hpieces.length_le_mul
  have hlength := s.strings.receiver.value_length
  obtain ⟨_, hwritten⟩ := scanUtf8_eq hpieces
  have hmax : int64Max = 2 ^ 63 - 1 := rfl
  -- the empty text is returned before anything is counted
  by_cases hpos : s.strings.receiver.length = 0
  · have hnil : s.strings.receiver.value = [] := List.eq_nil_of_length_eq_zero (hlength.trans hpos)
    have hwell : WellFormed s.strings.receiver.value := hnil ▸ .nil
    have hempty := stringNew_native finalizers s []
    rw [newSpec_ok (Nat.zero_le _) .nil] at hempty
    rw [hpieces.decoded_of_wellFormed hwell, hnil]
    refine iff_of_true ?_ (.inl ⟨.nil, fun hne => absurd hpos hne⟩)
    unfold textDecode
    rw [if_pos (.inr hpos)]
    exact hempty
  · by_cases hsame : (decodedPieces pieces).length = s.strings.receiver.value.length
    · -- as long as the input: what was decoded is taken to be valid
      have hmod : (scanUtf8 s.strings.receiver.value).written % 2 ^ 64 =
          s.strings.receiver.length := by
        rw [hwritten]
        omega
      have hnoShort : ¬ ∃ piece ∈ pieces, piece.isShort := fun ⟨piece, hpiece, h⟩ =>
        hshort.mp hsame piece hpiece h
      rw [textDecode_same finalizers hpos hmod]
      have hrange : 0 + s.strings.receiver.length ≤ s.strings.receiver.length := by omega
      have hwhole : (s.strings.receiver.value.drop 0).take s.strings.receiver.length
          = s.strings.receiver.value := by
        rw [List.drop_zero, ← hlength, List.take_length]
      by_cases hwell : WellFormed s.strings.receiver.value
      · have hiff := stringNew_range_iff finalizers hrange
        rw [hwhole, newSpec_ok (by omega) hwell] at hiff
        have hne : s.strings.receiver.value ≠ [] := by
          intro hnil
          rw [hnil] at hlength
          exact hpos hlength.symm
        rw [hpieces.decoded_of_wellFormed hwell, hiff]
        simp [hwell, hne, hpos, hnoShort]
      · -- the malformed input reaches the check of the new String
        refine iff_of_false ?_ ?_
        · rw [stringNew_range finalizers hrange, hwhole]
          intro h
          obtain ⟨bytes, hbytes, _⟩ := bind_eq_ok.mp h
          exact newSpec_malformed hwell bytes hbytes
        · rintro (h | h)
          · exact hwell h.1
          · exact hnoShort h.1
    · have hmod : (scanUtf8 s.strings.receiver.value).written % 2 ^ 64 ≠
          s.strings.receiver.length := by
        rw [hwritten]
        omega
      have hsomeShort : ∃ piece ∈ pieces, piece.isShort := by
        by_contra hnone
        exact hsame (hshort.mpr fun piece hpiece h => hnone ⟨piece, hpiece, h⟩)
      have hwell : ¬ WellFormed s.strings.receiver.value := fun hwell =>
        hsame (congrArg List.length (hpieces.decoded_of_wellFormed hwell))
      rw [textDecode_decoded finalizers hpos hmod hpieces]
      simp [hwell, hsomeShort]

/-- A buffer with these bytes, and no finalizers. -/
def decodeBytes (bytes : Bytes) : Except NativeFault Bytes :=
  returned (textDecode (fun _ => .none) ⟨⟨.ofList 0 bytes, .ofList 0 []⟩, 0⟩ false)

/-- A lone 0xff behind a character is replaced. -/
theorem textDecode_iff_lone :
    ∃ pieces, Pieces [0xc3, 0xa9, 0xff] pieces ∧
      (decodeBytes [0xc3, 0xa9, 0xff] = .ok (decodedPieces pieces) ↔
        (WellFormed [0xc3, 0xa9, 0xff] ∧ (3 ≠ 0 → Undisturbed
            ⟨⟨.ofList 0 [0xc3, 0xa9, 0xff], .ofList 0 []⟩, 0⟩
            ⟨⟨.ofList 0 [0xc3, 0xa9, 0xff], .ofList 0 []⟩, 2⟩ 0 3)) ∨
          (∃ piece ∈ pieces, piece.isShort) ∧ (decodedPieces pieces).length ≤ int64Max) := by
  obtain ⟨pieces, hpieces, _, _, hiff⟩ := textDecode_iff (fun _ => .none)
    (s := ⟨⟨.ofList 0 [0xc3, 0xa9, 0xff], .ofList 0 []⟩, 0⟩) (by decide)
  exact ⟨pieces, hpieces, hiff⟩

/-- The first three bytes of a four-byte sequence are one subpart as long as
    its replacement: the count equals the length, and the bytes go undecoded
    into the check of the new String. -/
theorem textDecode_raises :
    decodeBytes [0xf0, 0x90, 0x80] = .error (.raises "String bytes are not valid UTF-8") := by
  rfl

end Cwhip.Runtime
