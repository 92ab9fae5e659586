/-
  Cwhip.Packages.Digest

  The compiler's own SHA-256, as the class in the package integrity module
  computes it, and that it is SHA-256 however the message is cut into updates.
-/

import Mathlib.Data.List.GetD
import Mathlib.Tactic.IntervalCases
import Cwhip.Lib.Sha256

namespace Cwhip.Packages

open Cwhip.Lib.Sha256 (Registers)
open List (append_assoc foldl_append foldl_cons foldl_nil length_append length_replicate length_set
  length_take)

/-! ## The class -/

/-- The state of a hash in progress. -/
structure Sha256 where
  state : List UInt32
  block : List UInt8
  used : Nat
  bytes : UInt64

namespace Sha256

def start : Sha256 where
  state := [0x6a09e667, 0xbb67ae85, 0x3c6ef372, 0xa54ff53a,
    0x510e527f, 0x9b05688c, 0x1f83d9ab, 0x5be0cd19]
  block := List.replicate 64 0
  used := 0
  bytes := 0

def rotate (value count : UInt32) : UInt32 := (value >>> count) ||| (value <<< (32 - count))

def constants : List UInt32 :=
  [0x428a2f98, 0x71374491, 0xb5c0fbcf, 0xe9b5dba5, 0x3956c25b, 0x59f111f1,
    0x923f82a4, 0xab1c5ed5, 0xd807aa98, 0x12835b01, 0x243185be, 0x550c7dc3,
    0x72be5d74, 0x80deb1fe, 0x9bdc06a7, 0xc19bf174, 0xe49b69c1, 0xefbe4786,
    0x0fc19dc6, 0x240ca1cc, 0x2de92c6f, 0x4a7484aa, 0x5cb0a9dc, 0x76f988da,
    0x983e5152, 0xa831c66d, 0xb00327c8, 0xbf597fc7, 0xc6e00bf3, 0xd5a79147,
    0x06ca6351, 0x14292967, 0x27b70a85, 0x2e1b2138, 0x4d2c6dfc, 0x53380d13,
    0x650a7354, 0x766a0abb, 0x81c2c92e, 0x92722c85, 0xa2bfe8a1, 0xa81a664b,
    0xc24b8b70, 0xc76c51a3, 0xd192e819, 0xd6990624, 0xf40e3585, 0x106aa070,
    0x19a4c116, 0x1e376c08, 0x2748774c, 0x34b0bcb5, 0x391c0cb3, 0x4ed8aa4a,
    0x5b9cca4f, 0x682e6ff3, 0x748f82ee, 0x78a5636f, 0x84c87814, 0x8cc70208,
    0x90befffa, 0xa4506ceb, 0xbef9a3f7, 0xc67178f2]

def shiftIn (block : List UInt8) (index : Nat) (words : List UInt32) (byte : Nat) : List UInt32 :=
  words.set index ((words.getD index 0 <<< 8) ||| (block.getD (index * 4 + byte) 0).toUInt32)

/-- The first sixteen words are those of the block. -/
def loadWord (block : List UInt8) (words : List UInt32) (index : Nat) : List UInt32 :=
  (List.range 4).foldl (shiftIn block index) words

def extendWord (words : List UInt32) (index : Nat) : List UInt32 :=
  let left := words.getD (index - 15) 0
  let right := words.getD (index - 2) 0
  words.set index
    (words.getD (index - 16) 0 + (rotate left 7 ^^^ rotate left 18 ^^^ (left >>> 3)) +
      words.getD (index - 7) 0 + (rotate right 17 ^^^ rotate right 19 ^^^ (right >>> 10)))

def messageWords (block : List UInt8) : List UInt32 :=
  (List.range' 16 48).foldl extendWord
    ((List.range 16).foldl (loadWord block) (List.replicate 64 0))

def workStep (words : List UInt32) (work : List UInt32) (index : Nat) : List UInt32 :=
  let first := work.getD 7 0 +
    (rotate (work.getD 4 0) 6 ^^^ rotate (work.getD 4 0) 11 ^^^ rotate (work.getD 4 0) 25) +
    ((work.getD 4 0 &&& work.getD 5 0) ^^^ (~~~(work.getD 4 0) &&& work.getD 6 0)) +
    constants.getD index 0 + words.getD index 0
  let second :=
    (rotate (work.getD 0 0) 2 ^^^ rotate (work.getD 0 0) 13 ^^^ rotate (work.getD 0 0) 22) +
    ((work.getD 0 0 &&& work.getD 1 0) ^^^ (work.getD 0 0 &&& work.getD 2 0) ^^^
      (work.getD 1 0 &&& work.getD 2 0))
  let shifted := [7, 6, 5, 4, 3, 2, 1].foldl
    (fun work position => work.set position (work.getD (position - 1) 0)) work
  let added := shifted.set 4 (shifted.getD 4 0 + first)
  added.set 0 (first + second)

def compressed (state : List UInt32) (block : List UInt8) : List UInt32 :=
  let work := (List.range 64).foldl (workStep (messageWords block)) state
  (List.range 8).foldl
    (fun state index => state.set index (state.getD index 0 + work.getD index 0)) state

def compress (hash : Sha256) : Sha256 := { hash with state := compressed hash.state hash.block }

def updateByte (hash : Sha256) (byte : UInt8) : Sha256 :=
  let stored := { hash with block := hash.block.set hash.used byte, used := hash.used + 1 }
  if stored.used = stored.block.length then { stored.compress with used := 0 } else stored

def update (hash : Sha256) (data : List UInt8) : Sha256 :=
  data.foldl updateByte { hash with bytes := hash.bytes + UInt64.ofNat data.length }

/-- Without leading zeros, as a stream prints a number in hexadecimal. -/
def hexText (n : Nat) : List Char :=
  if n < 16 then [Lib.Sha256.hexDigit n] else hexText (n / 16) ++ [Lib.Sha256.hexDigit (n % 16)]

/-- Filled with zeros up to a width. -/
def fillWidth (width : Nat) (text : List Char) : List Char :=
  List.replicate (width - text.length) '0' ++ text

/-- The block with the length of the message in its last eight bytes. -/
def storeBits (block : List UInt8) (bits : UInt64) : List UInt8 :=
  (List.range 8).foldl
    (fun block index => block.set (63 - index) (bits >>> UInt64.ofNat (index * 8)).toUInt8) block

/-- Put the end mark behind the message. -/
def mark (hash : Sha256) : Sha256 :=
  { hash with block := hash.block.set hash.used 0x80, used := hash.used + 1 }

/-- Without room for the length, complete the block with zeros and go on. -/
def makeRoom (hash : Sha256) : Sha256 :=
  if 56 < hash.used then
    { hash with
      state := compressed hash.state
        (hash.block.take hash.used ++ List.replicate (64 - hash.used) 0)
      block := hash.block.take hash.used ++ List.replicate (64 - hash.used) 0
      used := 0 }
  else hash

/-- Complete the block with zeros and the length. -/
def close (hash : Sha256) (bits : UInt64) : List UInt32 :=
  compressed hash.state
    (storeBits (hash.block.take hash.used ++ List.replicate (56 - hash.used) 0 ++
      hash.block.drop 56) bits)

def finish (hash : Sha256) : List Char :=
  let bits := hash.bytes * 8
  (hash.mark.makeRoom.close bits).flatMap (fun word => fillWidth 8 (hexText word.toNat))

/-! ## Compression -/

theorem constants_eq : constants = Lib.Sha256.roundConstants := by decide +kernel

theorem start_state : start.state = Lib.Sha256.initialHash.words := by decide +kernel

/-- Words filled in so far, and zeros for the others. -/
def partialWords (words : List UInt32) : List UInt32 :=
    words ++ List.replicate (64 - words.length) 0

theorem getD_partialWords (words : List UInt32) (index : Nat) :
    (partialWords words).getD index 0 = words.getD index 0 := by
  rw [partialWords]
  by_cases h : index < words.length
  · rw [List.getD_append _ _ _ _ h]
  · rw [List.getD_append_right _ _ _ _ (by omega), List.getD_eq_default words _ (by omega),
      List.getD_eq_getElem?_getD, List.getElem?_replicate]
    split
    · rfl
    · rfl

/-- The next word is stored behind the words already there. -/
theorem set_partialWords {words : List UInt32} (h : words.length < 64) (word : UInt32) :
    (partialWords words).set words.length word = partialWords (words ++ [word]) := by
  have hzeros : List.replicate (64 - words.length) (0 : UInt32)
      = 0 :: List.replicate (63 - words.length) 0 := by
    rw [show 64 - words.length = (63 - words.length) + 1 by omega]
    rfl
  have hrest : 64 - (words ++ [word]).length = 63 - words.length := by
    rw [length_append, List.length_singleton]
    omega
  rw [partialWords, partialWords, hzeros, hrest, List.set_append_right _ _ (Nat.le_refl _),
    Nat.sub_self, List.set_cons_zero, append_assoc]
  rfl

theorem partialWords_length {words : List UInt32} (h : words.length ≤ 64) :
    (partialWords words).length = 64 := by
  rw [partialWords, length_append, length_replicate]
  omega

theorem take_four {block : List UInt8} {start : Nat} (h : start + 4 ≤ block.length) :
    (block.drop start).take 4 = [block.getD start 0, block.getD (start + 1) 0,
      block.getD (start + 2) 0, block.getD (start + 3) 0] := by
  apply List.ext_getElem
  · simp
    omega
  · intro index hleft hright
    have hindex : index < 4 := hright
    interval_cases index <;> simp [List.getD_eq_getElem?_getD]
    all_goals rw [List.getElem?_eq_getElem (by omega)]; rfl

theorem shiftIn_set (block : List UInt8) {words : List UInt32} {index : Nat}
    (h : index < words.length) (word : UInt32) (byte : Nat) :
    shiftIn block index (words.set index word) byte
      = words.set index ((word <<< 8) ||| (block.getD (index * 4 + byte) 0).toUInt32) := by
  rw [shiftIn, List.set_set, List.getD_eq_getElem?_getD, List.getElem?_set_self h]
  rfl

/-- Four bytes are loaded as one big-endian word. -/
theorem loadWord_eq {block : List UInt8} (hblock : block.length = 64) {words : List UInt32}
    (h : words.length < 16) :
    loadWord block (partialWords words) words.length
      = partialWords (words ++
      [Lib.Sha256.bigEndian ((block.drop (4 * words.length)).take 4)]) := by
  have hlength : words.length < (partialWords words).length := by
    rw [partialWords_length (by omega)]
    omega
  have hzero : (partialWords words).getD words.length 0 = 0 := by
    rw [getD_partialWords, List.getD_eq_default _ _ (Nat.le_refl _)]
  have hfirst : shiftIn block words.length (partialWords words) 0 = (partialWords words).set
      words.length (((0 : UInt32) <<< 8) ||| (block.getD (words.length * 4 + 0) 0).toUInt32) := by
    rw [shiftIn, hzero]
  rw [loadWord, show List.range 4 = [0, 1, 2, 3] from rfl]
  simp only [foldl_cons, foldl_nil]
  rw [hfirst, shiftIn_set block hlength, shiftIn_set block hlength, shiftIn_set block hlength,
    set_partialWords (by omega), take_four (by omega)]
  simp only [Lib.Sha256.bigEndian, foldl_cons, foldl_nil, Nat.mul_comm words.length 4,
    Nat.add_zero]

/-- Extending adds the next word of the schedule. -/
theorem extendWord_eq {block : List UInt8} {words : List UInt32} (hfrom : 16 ≤ words.length)
    (hto : words.length < 64) :
    extendWord (partialWords words) words.length
      = partialWords (words ++ [Lib.Sha256.nextWord block words]) := by
  rw [extendWord]
  simp only [getD_partialWords]
  rw [set_partialWords hto, Lib.Sha256.nextWord]
  rw [if_neg (by omega)]
  -- the four summands, in another order
  have hsum : ∀ a b c d : UInt32, a + b + c + d = d + c + b + a := by
    intro a b c d
    ac_rfl
  rw [hsum]
  rfl

/-- The words of a block are its schedule. -/
theorem messageWords_eq {block : List UInt8} (hblock : block.length = 64) :
    messageWords block = Lib.Sha256.schedule block 64 := by
  have hload : ∀ n, n ≤ 16 → (List.range n).foldl (loadWord block) (List.replicate 64 0)
      = partialWords (Lib.Sha256.schedule block n) := by
    intro n
    induction n with
    | zero => exact fun _ => rfl
    | succ n ih =>
      intro hn
      have hlength := Lib.Sha256.schedule_length block n
      have hword := @loadWord_eq block hblock (Lib.Sha256.schedule block n) (by omega)
      rw [hlength] at hword
      rw [List.range_succ, foldl_append, ih (by omega), foldl_cons, foldl_nil, hword,
        Lib.Sha256.schedule, Lib.Sha256.nextWord, hlength, if_pos (by omega)]
  have hextend : ∀ n, n ≤ 48 →
      (List.range' 16 n).foldl extendWord (partialWords (Lib.Sha256.schedule block 16))
        = partialWords (Lib.Sha256.schedule block (16 + n)) := by
    intro n
    induction n with
    | zero => exact fun _ => rfl
    | succ n ih =>
      intro hn
      have hlength := Lib.Sha256.schedule_length block (16 + n)
      have hword := @extendWord_eq block (Lib.Sha256.schedule block (16 + n)) (by omega)
        (by omega)
      rw [hlength] at hword
      rw [List.range'_concat, foldl_append, ih (by omega), Nat.one_mul, foldl_cons,
        foldl_nil, hword]
      rfl
  rw [messageWords, hload 16 (Nat.le_refl _), hextend 48 (Nat.le_refl _), partialWords,
    Lib.Sha256.schedule_length]
  exact List.append_nil _

/-- A step on the working words is a round. -/
theorem workStep_eq (words : List UInt32) (r : Registers) (index : Nat) :
    workStep words r.words index
      = (Lib.Sha256.round r (constants.getD index 0, words.getD index 0)).words := rfl

theorem zip_eq_map_range (first second : List UInt32) (h : first.length = second.length) :
    first.zip second
      = (List.range first.length).map (fun index => (first.getD index 0, second.getD index 0)) := by
  apply List.ext_getElem
  · simp [h]
  · intro index hleft hright
    have hfirst : index < first.length := by simpa using hright
    have hsecond : index < second.length := by omega
    simp [hfirst, hsecond]

/-- Compressing a block is the compression of the standard. -/
theorem compressed_eq {block : List UInt8} (hblock : block.length = 64) (r : Registers) :
    compressed r.words block = (Lib.Sha256.compress r block).words := by
  have hwork : ∀ n, (List.range n).foldl (workStep (messageWords block)) r.words
      = (((List.range n).map (fun index =>
          (constants.getD index 0, (messageWords block).getD index 0))).foldl
          Lib.Sha256.round r).words := by
    intro n
    induction n with
    | zero => rfl
    | succ n ih =>
      rw [List.range_succ, foldl_append, ih, List.map_append, foldl_append]
      exact workStep_eq _ _ _
  have hzip : Lib.Sha256.roundConstants.zip (Lib.Sha256.schedule block 64)
      = (List.range 64).map (fun index =>
          (constants.getD index 0, (messageWords block).getD index 0)) := by
    rw [messageWords_eq hblock, ← constants_eq]
    exact zip_eq_map_range constants _ (Lib.Sha256.schedule_length block 64).symm
  rw [compressed, hwork 64, ← hzip]
  rfl

/-! ## Updates -/

/-- The hash has taken in the message so far. -/
structure Feeds (hash : Sha256) (message : List UInt8) : Prop where
  size : hash.block.length = 64
  used : hash.used = message.length % 64
  bytes : hash.bytes = UInt64.ofNat message.length
  /-- The complete blocks are compressed. -/
  state : hash.state = (Lib.Sha256.processBlocks (message.length / 64) Lib.Sha256.initialHash
    message).words
  /-- The rest waits in the block. -/
  pending : hash.block.take hash.used = message.drop (64 * (message.length / 64))

theorem Feeds.start : Feeds start [] where
  size := rfl
  used := rfl
  bytes := rfl
  state := start_state
  pending := rfl

theorem take_set_succ {block : List UInt8} {used : Nat} (h : used < block.length) (byte : UInt8) :
    (block.set used byte).take (used + 1) = block.take used ++ [byte] := by
  rw [List.take_add_one, List.getElem?_set_self h, List.take_set_of_le (Nat.le_refl _)]
  rfl

/-- A byte is buffered, and the sixty-fourth compresses the block. -/
theorem Feeds.updateByte {hash : Sha256} {message : List UInt8} {bytes : UInt64}
    (h : Feeds { hash with bytes := UInt64.ofNat message.length } message)
    (hbytes : hash.bytes = bytes) (byte : UInt8) :
    Feeds { hash.updateByte byte with bytes := UInt64.ofNat (message ++ [byte]).length }
      (message ++ [byte]) ∧ (hash.updateByte byte).bytes = bytes := by
  have hsize : hash.block.length = 64 := h.size
  have hused : hash.used = message.length % 64 := h.used
  have hstate : hash.state = (Lib.Sha256.processBlocks (message.length / 64)
    Lib.Sha256.initialHash message).words := h.state
  have hpending : hash.block.take hash.used = message.drop (64 * (message.length / 64)) := h.pending
  have hlt : hash.used < hash.block.length := by
    rw [hsize, hused]
    omega
  have hlength : (message ++ [byte]).length = message.length + 1 := by
    rw [length_append, List.length_singleton]
  have hstored := take_set_succ hlt byte
  have hdrop : (message ++ [byte]).drop (64 * (message.length / 64))
      = message.drop (64 * (message.length / 64)) ++ [byte] :=
    List.drop_append_of_le_length (by omega)
  rw [hpending, ← hdrop] at hstored
  have hfits : 64 * (message.length / 64) ≤ message.length := by omega
  have hblocks := @Lib.Sha256.processBlocks_append _ _ [byte] hfits Lib.Sha256.initialHash
  unfold Sha256.updateByte
  dsimp only
  split
  · next hfull =>
    -- the block is complete: it is compressed
    rw [length_set, hsize, hused] at hfull
    have hcount : (message ++ [byte]).length / 64 = message.length / 64 + 1 := by omega
    have htake : ((message ++ [byte]).drop (64 * (message.length / 64))).take 64
        = hash.block.set hash.used byte := by
      rw [← hstored, hused, hfull, List.take_take, Nat.min_self, List.take_of_length_le]
      rw [length_set, hsize]
    refine ⟨⟨?_, ?_, rfl, ?_, ?_⟩, hbytes⟩
    · show (hash.block.set hash.used byte).length = 64
      rw [length_set, hsize]
    · show 0 = _
      omega
    · show compressed hash.state (hash.block.set hash.used byte) = _
      rw [hcount, Lib.Sha256.processBlocks_succ, hblocks, htake, hstate, compressed_eq]
      rw [length_set, hsize]
    · show (hash.block.set hash.used byte).take 0 = _
      rw [hcount, List.take_zero, List.drop_eq_nil_of_le]
      omega
  · next hopen =>
    rw [length_set, hsize, hused] at hopen
    have hcount : (message ++ [byte]).length / 64 = message.length / 64 := by omega
    refine ⟨⟨?_, ?_, rfl, ?_, ?_⟩, hbytes⟩
    · show (hash.block.set hash.used byte).length = 64
      rw [length_set, hsize]
    · show hash.used + 1 = _
      omega
    · show hash.state = _
      rw [hcount, hblocks, hstate]
    · show (hash.block.set hash.used byte).take (hash.used + 1) = _
      rw [hcount, hstored]

/-- Updating appends to the message. -/
theorem Feeds.update {hash : Sha256} {message : List UInt8} (h : Feeds hash message)
    (data : List UInt8) : Feeds (hash.update data) (message ++ data) := by
  -- the count of bytes is increased first, the bytes are stored one by one
  have hall : ∀ (data : List UInt8) (hash : Sha256) (message : List UInt8) (bytes : UInt64),
      Feeds { hash with bytes := UInt64.ofNat message.length } message → hash.bytes = bytes →
      Feeds { data.foldl Sha256.updateByte hash with
        bytes := UInt64.ofNat (message ++ data).length } (message ++ data) ∧
      (data.foldl Sha256.updateByte hash).bytes = bytes := by
    intro data
    induction data with
    | nil =>
      intro hash message bytes hfeeds hbytes
      rw [List.append_nil]
      exact ⟨hfeeds, hbytes⟩
    | cons byte rest ih =>
      intro hash message bytes hfeeds hbytes
      obtain ⟨hnext, hkept⟩ := hfeeds.updateByte hbytes byte
      have hrest := ih (hash.updateByte byte) (message ++ [byte]) bytes hnext hkept
      rw [append_assoc] at hrest
      exact hrest
  have hcount : hash.bytes + UInt64.ofNat data.length = UInt64.ofNat (message ++ data).length := by
    rw [h.bytes, length_append, UInt64.ofNat_add]
  have hentry : Feeds { hash with bytes := UInt64.ofNat message.length } message :=
    ⟨h.size, h.used, rfl, h.state, h.pending⟩
  obtain ⟨hfed, hbytes⟩ := hall data { hash with bytes := hash.bytes + UInt64.ofNat data.length }
    message _ hentry rfl
  exact ⟨hfed.size, hfed.used, hbytes.trans hcount, hfed.state, hfed.pending⟩

/-! ## The end of the message -/

theorem bits_byte (length index : Nat) (h : index < 8) :
    ((UInt64.ofNat length * 8) >>> UInt64.ofNat (index * 8)).toUInt8
      = UInt8.ofNat (8 * length / 2 ^ (8 * index)) := by
  apply UInt8.toNat_inj.mp
  interval_cases index <;> simp [Nat.shiftRight_eq_div_pow] <;> omega

/-- The length is stored in the last eight bytes. -/
theorem storeBits_eq {block : List UInt8} (h : block.length = 64) (length : Nat) :
    storeBits block (UInt64.ofNat length * 8)
      = block.take 56 ++ Lib.Sha256.lengthBytes (8 * length) := by
  have hsplit : block = block.take 56 ++ block.drop 56 := (List.take_append_drop 56 block).symm
  have htake : (block.take 56).length = 56 := by
    rw [length_take]
    omega
  obtain ⟨a, b, c, d, e, f, g, i, hlast⟩ : ∃ a b c d e f g i, block.drop 56 = [a, b, c, d, e,
      f, g, i] := by
    have hdrop : (block.drop 56).length = 8 := by
      rw [List.length_drop]
      omega
    match block.drop 56, hdrop with
    | [a, b, c, d, e, f, g, i], _ => exact ⟨a, b, c, d, e, f, g, i, rfl⟩
  have hset : ∀ (tail : List UInt8) (index : Nat) (byte : UInt8),
      (block.take 56 ++ tail).set (56 + index) byte = block.take 56 ++ tail.set index byte := by
    intro tail index byte
    rw [List.set_append_right _ _ (by omega), htake, Nat.add_sub_cancel_left]
  rw [storeBits, hsplit, hlast, List.take_append_of_le_length (by omega), List.take_take,
    Nat.min_self, show List.range 8 = [0, 1, 2, 3, 4, 5, 6, 7] from rfl, Lib.Sha256.lengthBytes,
    show List.range 8 = [0, 1, 2, 3, 4, 5, 6, 7] from rfl]
  simp only [foldl_cons, foldl_nil]
  rw [show 63 - 0 = 56 + 7 from rfl, show 63 - 1 = 56 + 6 from rfl, show 63 - 2 = 56 + 5 from rfl,
    show 63 - 3 = 56 + 4 from rfl, show 63 - 4 = 56 + 3 from rfl, show 63 - 5 = 56 + 2 from rfl,
    show 63 - 6 = 56 + 1 from rfl, show 63 - 7 = 56 + 0 from rfl]
  simp only [hset, List.set_cons_succ, List.set_cons_zero, List.map_cons, List.map_nil]
  rw [bits_byte length 0 (by omega), bits_byte length 1 (by omega), bits_byte length 2 (by omega),
    bits_byte length 3 (by omega), bits_byte length 4 (by omega), bits_byte length 5 (by omega),
    bits_byte length 6 (by omega), bits_byte length 7 (by omega)]

theorem fillWidth_hexText {width n : Nat} (h : n < 16 ^ (width + 1)) :
    fillWidth (width + 1) (hexText n) = Lib.Sha256.hexDigits (width + 1) n := by
  have hzeros : ∀ count, List.replicate count '0' = Lib.Sha256.hexDigits count 0 := by
    intro count
    induction count with
    | zero => rfl
    | succ count ih => rw [List.replicate_succ', ih]; rfl
  induction width generalizing n with
  | zero =>
    have hsmall : n < 16 := by simpa using h
    rw [hexText, if_pos hsmall, Lib.Sha256.hexDigits, Nat.mod_eq_of_lt hsmall]
    rfl
  | succ width ih =>
    rw [hexText, Lib.Sha256.hexDigits]
    split
    · next hsmall =>
      rw [Nat.mod_eq_of_lt hsmall, Nat.div_eq_of_lt hsmall, ← hzeros]
      rfl
    · have hless : n / 16 < 16 ^ (width + 1) := by
        rw [Nat.div_lt_iff_lt_mul (by omega)]
        exact h
      rw [← ih hless, fillWidth, fillWidth, length_append, List.length_singleton,
        ← append_assoc]
      rw [show width + 1 + 1 - ((hexText (n / 16)).length + 1) = width + 1 -
        (hexText (n / 16)).length
        by omega]

/-- The last block holds what is left, the padding and the length. -/
theorem close_eq {hash : Sha256} (hblock : hash.block.length = 64) (hused : hash.used ≤ 56)
    {r : Registers} (hstate : hash.state = r.words) (length : Nat) :
    hash.close (UInt64.ofNat length * 8)
      = (Lib.Sha256.compress r (hash.block.take hash.used ++ List.replicate (56 - hash.used) 0 ++
          Lib.Sha256.lengthBytes (8 * length))).words := by
  have hfront : (hash.block.take hash.used ++ List.replicate (56 - hash.used) 0).length = 56 := by
    rw [length_append, length_take, length_replicate]
    omega
  have hfilled : (hash.block.take hash.used ++ List.replicate (56 - hash.used) 0 ++
      hash.block.drop 56).length = 64 := by
    rw [length_append, hfront, List.length_drop]
    omega
  rw [close, hstate, storeBits_eq hfilled, List.take_append_of_le_length (by omega),
    List.take_of_length_le (by omega), compressed_eq]
  rw [length_append, hfront, Lib.Sha256.lengthBytes_length]

theorem pad_tail (message : List UInt8) :
    Lib.Sha256.sha256 message
      = Lib.Sha256.processBlocks ((Lib.Sha256.pad message).length / 64 - message.length / 64)
          (Lib.Sha256.processBlocks (message.length / 64) Lib.Sha256.initialHash message)
          (message.drop (64 * (message.length / 64)) ++ 0x80 ::
            List.replicate (Lib.Sha256.zeroCount message.length) 0 ++
            Lib.Sha256.lengthBytes (8 * message.length)) := by
  have hlength := Lib.Sha256.pad_length message
  have hfits : 64 * (message.length / 64) ≤ message.length := by omega
  have hcount : (Lib.Sha256.pad message).length / 64
      = message.length / 64 + ((Lib.Sha256.pad message).length / 64 - message.length / 64) := by
    omega
  rw [Lib.Sha256.sha256, hcount, Lib.Sha256.processBlocks_add, ← hcount]
  rw [Lib.Sha256.pad, append_assoc, Lib.Sha256.processBlocks_append hfits,
    List.drop_append_of_le_length hfits, append_assoc]

theorem Feeds.close_words {hash : Sha256} {message : List UInt8} (h : Feeds hash message) :
    hash.mark.makeRoom.close (hash.bytes * 8) = (Lib.Sha256.sha256 message).words := by
  have hsize := h.size
  have hused := h.used
  have hlt : hash.used < hash.block.length := by omega
  have hmarkSize : hash.mark.block.length = 64 := by rw [mark, length_set, hsize]
  have hmarkUsed : hash.mark.used = hash.used + 1 := rfl
  have hmarked : hash.mark.block.take hash.mark.used
      = message.drop (64 * (message.length / 64)) ++ [0x80] := by
    rw [← h.pending]
    exact take_set_succ hlt 0x80
  have hpad := Lib.Sha256.pad_length message
  rw [h.bytes, pad_tail, makeRoom]
  split
  · next hlong =>
    -- the mark leaves no room for the length: the padding takes two blocks
    have hfull : (hash.mark.block.take hash.mark.used ++
        List.replicate (64 - hash.mark.used) 0).length = 64 := by
      rw [length_append, length_take, length_replicate]
      omega
    have hblocks : (Lib.Sha256.pad message).length / 64 - message.length / 64 = 2 := by
      rw [hpad, Lib.Sha256.zeroCount]
      omega
    have hzeros : Lib.Sha256.zeroCount message.length = 64 - hash.mark.used + 56 := by
      rw [Lib.Sha256.zeroCount]
      omega
    have hstate := compressed_eq hfull
      (Lib.Sha256.processBlocks (message.length / 64) Lib.Sha256.initialHash message)
    rw [← h.state] at hstate
    have hlast : (List.replicate 56 0 ++ Lib.Sha256.lengthBytes (8 * message.length)).length =
        64 := by
      rw [length_append, length_replicate, Lib.Sha256.lengthBytes_length]
    have htail : message.drop (64 * (message.length / 64)) ++ 0x80 ::
          (List.replicate (64 - hash.mark.used) 0 ++ List.replicate 56 0) ++
          Lib.Sha256.lengthBytes (8 * message.length)
        = (hash.mark.block.take hash.mark.used ++ List.replicate (64 - hash.mark.used) 0) ++
          (List.replicate 56 0 ++ Lib.Sha256.lengthBytes (8 * message.length) ++ []) := by
      rw [hmarked]
      simp
    rw [close_eq hfull (Nat.zero_le _) hstate, hblocks, hzeros, ← List.replicate_append_replicate,
      htail, Lib.Sha256.processBlocks_front hfull, Lib.Sha256.processBlocks_front hlast]
    rfl
  · next hshort =>
    have hblocks : (Lib.Sha256.pad message).length / 64 - message.length / 64 = 1 := by
      rw [hpad, Lib.Sha256.zeroCount]
      omega
    have hzeros : Lib.Sha256.zeroCount message.length = 56 - hash.mark.used := by
      rw [Lib.Sha256.zeroCount]
      omega
    have hlast : (hash.mark.block.take hash.mark.used ++ List.replicate (56 - hash.mark.used) 0 ++
        Lib.Sha256.lengthBytes (8 * message.length)).length = 64 := by
      rw [length_append, length_append, length_take, length_replicate,
        Lib.Sha256.lengthBytes_length]
      omega
    have htail : message.drop (64 * (message.length / 64)) ++ 0x80 ::
          List.replicate (56 - hash.mark.used) 0 ++ Lib.Sha256.lengthBytes (8 * message.length)
        = (hash.mark.block.take hash.mark.used ++ List.replicate (56 - hash.mark.used) 0 ++
          Lib.Sha256.lengthBytes (8 * message.length)) ++ [] := by
      rw [hmarked]
      simp
    rw [close_eq hmarkSize (by omega) h.state, hblocks, hzeros, htail,
      Lib.Sha256.processBlocks_front hlast]
    rfl

/-- The digest is that of the whole message. -/
theorem Feeds.finish {hash : Sha256} {message : List UInt8} (h : Feeds hash message) :
    hash.finish = Lib.Sha256.hexdigest message := by
  rw [Sha256.finish, h.close_words, Lib.Sha256.hexdigest]
  apply List.flatMap_congr
  intro word _
  exact fillWidth_hexText word.toNat_lt

end Sha256

end Cwhip.Packages
