/-
  Cwhip.Lib.Sha256

  SHA-256 as FIPS 180-4 defines it, on messages of bytes.  The constants are
  computed as the standard describes them, from the roots of primes.

  For incremental implementations, `processBlocks` gives the hash value after
  the complete blocks of a message.
-/

import Mathlib.Data.List.Basic
import Mathlib.Algebra.Order.Group.Nat

namespace Cwhip.Lib.Sha256

/-! ## Constants -/

/-- The first sixty-four primes. -/
def primes : List Nat :=
  [2, 3, 5, 7, 11, 13, 17, 19, 23, 29, 31, 37, 41, 43, 47, 53, 59, 61, 67, 71, 73, 79, 83, 89, 97,
    101, 103, 107, 109, 113, 127, 131, 137, 139, 149, 151, 157, 163, 167, 173, 179, 181, 191, 193,
    197, 199, 211, 223, 227, 229, 233, 239, 241, 251, 257, 263, 269, 271, 277, 281, 283, 293, 307,
    311]

/-- The greatest `n` of so many bits above `root` with `n ^ power ≤ target`. -/
def integerRoot (power target : Nat) : Nat → Nat → Nat
  | 0, root => root
  | bit + 1, root =>
    integerRoot power target bit
      (if (root + 2 ^ bit) ^ power ≤ target then root + 2 ^ bit else root)

/-- The first 32 bits of the fractional part of a root. -/
def fractionBits (power n : Nat) : UInt32 :=
  UInt32.ofNat (integerRoot power (n * 2 ^ (32 * power)) 36 0)

/-- The fractional parts of the cube roots of the primes. -/
def roundConstants : List UInt32 := primes.map (fractionBits 3)

/-- The eight working variables, and the words of a hash value. -/
structure Registers where
  a : UInt32
  b : UInt32
  c : UInt32
  d : UInt32
  e : UInt32
  f : UInt32
  g : UInt32
  h : UInt32
  deriving DecidableEq, Repr

def Registers.words (r : Registers) : List UInt32 := [r.a, r.b, r.c, r.d, r.e, r.f, r.g, r.h]

/-- The fractional parts of the square roots of the first eight primes. -/
def initialHash : Registers :=
  ⟨fractionBits 2 2, fractionBits 2 3, fractionBits 2 5, fractionBits 2 7, fractionBits 2 11,
    fractionBits 2 13, fractionBits 2 17, fractionBits 2 19⟩

/-! ## Functions on words -/

def rotr (n x : UInt32) : UInt32 := (x >>> n) ||| (x <<< (32 - n))

def ch (x y z : UInt32) : UInt32 := (x &&& y) ^^^ (~~~x &&& z)

def maj (x y z : UInt32) : UInt32 := (x &&& y) ^^^ (x &&& z) ^^^ (y &&& z)

def bigSigma0 (x : UInt32) : UInt32 := rotr 2 x ^^^ rotr 13 x ^^^ rotr 22 x

def bigSigma1 (x : UInt32) : UInt32 := rotr 6 x ^^^ rotr 11 x ^^^ rotr 25 x

def smallSigma0 (x : UInt32) : UInt32 := rotr 7 x ^^^ rotr 18 x ^^^ (x >>> 3)

def smallSigma1 (x : UInt32) : UInt32 := rotr 17 x ^^^ rotr 19 x ^^^ (x >>> 10)

/-- The word of some bytes, the first one most significant. -/
def bigEndian (bytes : List UInt8) : UInt32 :=
  bytes.foldl (fun word byte => (word <<< 8) ||| byte.toUInt32) 0

/-! ## One block -/

/-- The next word of the message schedule, after the words so far. -/
def nextWord (block : List UInt8) (words : List UInt32) : UInt32 :=
  let t := words.length
  if t < 16 then bigEndian ((block.drop (4 * t)).take 4)
  else
    smallSigma1 (words.getD (t - 2) 0) + words.getD (t - 7) 0 + smallSigma0 (words.getD (t - 15) 0)
      + words.getD (t - 16) 0

/-- The first words of the message schedule. -/
def schedule (block : List UInt8) : Nat → List UInt32
  | 0 => []
  | t + 1 => schedule block t ++ [nextWord block (schedule block t)]

theorem schedule_length (block : List UInt8) (t : Nat) : (schedule block t).length = t := by
  induction t with
  | zero => rfl
  | succ t ih => rw [schedule, List.length_append, ih, List.length_singleton]

def round (r : Registers) (input : UInt32 × UInt32) : Registers :=
  let t₁ := r.h + bigSigma1 r.e + ch r.e r.f r.g + input.1 + input.2
  let t₂ := bigSigma0 r.a + maj r.a r.b r.c
  ⟨t₁ + t₂, r.a, r.b, r.c, r.d + t₁, r.e, r.f, r.g⟩

def Registers.add (r s : Registers) : Registers :=
  ⟨r.a + s.a, r.b + s.b, r.c + s.c, r.d + s.d, r.e + s.e, r.f + s.f, r.g + s.g, r.h + s.h⟩

def compress (hash : Registers) (block : List UInt8) : Registers :=
  hash.add ((roundConstants.zip (schedule block 64)).foldl round hash)

/-! ## Messages -/

/-- The number as eight bytes, the most significant one first. -/
def lengthBytes (n : Nat) : List UInt8 :=
  (List.range 8).map (fun i => UInt8.ofNat (n / 2 ^ (8 * (7 - i))))

/-- How many zero bytes complete the last block. -/
def zeroCount (length : Nat) : Nat := (119 - length % 64) % 64

def pad (message : List UInt8) : List UInt8 :=
  message ++ 0x80 :: List.replicate (zeroCount message.length) 0 ++ lengthBytes (8 * message.length)

/-- The hash value after so many blocks of the message. -/
def processBlocks : Nat → Registers → List UInt8 → Registers
  | 0, hash, _ => hash
  | blocks + 1, hash, message =>
    processBlocks blocks (compress hash (message.take 64)) (message.drop 64)

def sha256 (message : List UInt8) : Registers :=
  processBlocks ((pad message).length / 64) initialHash (pad message)

def hexDigit (n : Nat) : Char := "0123456789abcdef".toList.getD n '0'

/-- So many hexadecimal digits of a number. -/
def hexDigits : Nat → Nat → List Char
  | 0, _ => []
  | count + 1, n => hexDigits count (n / 16) ++ [hexDigit (n % 16)]

/-- The digest as text. -/
def hexdigest (message : List UInt8) : List Char :=
  (sha256 message).words.flatMap (fun word => hexDigits 8 word.toNat)

example : hexdigest "abc".toUTF8.toList
    = "ba7816bf8f01cfea414140de5dae2223b00361a396177a9cb410ff61f20015ad".toList := by
  decide +kernel

/-! ## Blocks of longer messages -/

theorem processBlocks_append {blocks : Nat} {message more : List UInt8}
    (h : 64 * blocks ≤ message.length) (hash : Registers) :
    processBlocks blocks hash (message ++ more) = processBlocks blocks hash message := by
  induction blocks generalizing hash message with
  | zero => rfl
  | succ blocks ih =>
    have hfits : 64 ≤ message.length := by omega
    rw [processBlocks, processBlocks, List.take_append_of_le_length hfits,
      List.drop_append_of_le_length hfits]
    refine ih ?_ _
    rw [List.length_drop]
    omega

theorem processBlocks_add (blocks more : Nat) (hash : Registers) (message : List UInt8) :
    processBlocks (blocks + more) hash message
      = processBlocks more (processBlocks blocks hash message) (message.drop (64 * blocks)) := by
  induction blocks generalizing hash message with
  | zero => rw [Nat.zero_add]; rfl
  | succ blocks ih =>
    rw [Nat.succ_add, processBlocks, ih, processBlocks, List.drop_drop]
    rw [show 64 + 64 * blocks = 64 * (blocks + 1) by omega]

theorem processBlocks_succ (blocks : Nat) (hash : Registers) (message : List UInt8) :
    processBlocks (blocks + 1) hash message
      = compress (processBlocks blocks hash message) ((message.drop (64 * blocks)).take 64) :=
  processBlocks_add blocks 1 hash message

theorem processBlocks_front {front : List UInt8} (h : front.length = 64) (blocks : Nat)
    (hash : Registers) (rest : List UInt8) :
    processBlocks (blocks + 1) hash (front ++ rest) = processBlocks blocks
    (compress hash front) rest := by
  rw [processBlocks, List.take_left' h, List.drop_left' h]

theorem lengthBytes_length (n : Nat) : (lengthBytes n).length = 8 := by
  rw [lengthBytes, List.length_map, List.length_range]

theorem pad_length (message : List UInt8) :
    (pad message).length = message.length + zeroCount message.length + 9 := by
  rw [pad, List.length_append, List.length_append, List.length_cons, List.length_replicate,
    lengthBytes_length]
  omega

end Cwhip.Lib.Sha256
