/-
  Cwhip.Runtime.StringBytes

  The byte-level helpers of `String` (`RuntimeGc.c`) and what the operations
  built on them compute from a value: bounds, UTF-8 checks, the search for a
  byte sequence, and the scans of `split` and `replace`.
-/

import Mathlib.Algebra.Group.Nat.Defs
import Mathlib.Data.List.Basic
import Cwhip.Lib.MachineInt
import Cwhip.Lib.Texts

namespace Cwhip.Runtime

/-- `normalize_string_bound`. -/
def normalizeStringBound (bound : Int) (length : Nat) : Nat :=
  let normalized := if bound < 0 then bound + length else bound
  if normalized < 0 then 0
  else if normalized.toNat > length then length
  else normalized.toNat

theorem normalizeStringBound_le (bound : Int) (length : Nat) :
    normalizeStringBound bound length ≤ length := by
  unfold normalizeStringBound
  generalize (if bound < 0 then bound + (length : Int) else bound) = normalized
  dsimp only
  split
  · exact Nat.zero_le _
  · split
    · exact Nat.le_refl _
    · omega

/-- `utf8_boundary`. -/
def utf8Boundary (bytes : Bytes) (index : Nat) : Bool :=
  index == bytes.length ||
    match bytes[index]? with
    | some byte => (byte &&& 0xc0) != 0x80
    | none => false

/-- A continuation byte between two bounds. -/
def continuation (low high byte : UInt8) : Bool := low ≤ byte && byte ≤ high

/-- `valid_utf8`. -/
def validUtf8 : Bytes → Bool
  | [] => true
  | a :: rest =>
    if a ≤ 0x7f then validUtf8 rest
    else if 0xc2 ≤ a ∧ a ≤ 0xdf then
      match rest with
      | b :: rest => continuation 0x80 0xbf b && validUtf8 rest
      | _ => false
    else if 0xe0 ≤ a ∧ a ≤ 0xef then
      match rest with
      | b :: c :: rest =>
        continuation (if a = 0xe0 then 0xa0 else 0x80) (if a = 0xed then 0x9f else 0xbf) b &&
          continuation 0x80 0xbf c && validUtf8 rest
      | _ => false
    else if 0xf0 ≤ a ∧ a ≤ 0xf4 then
      match rest with
      | b :: c :: d :: rest =>
        continuation (if a = 0xf0 then 0x90 else 0x80) (if a = 0xf4 then 0x8f else 0xbf) b &&
          continuation 0x80 0xbf c && continuation 0x80 0xbf d && validUtf8 rest
      | _ => false
    else false

/-- `ascii_whitespace`. -/
def asciiWhitespace (byte : UInt8) : Bool := byte == 0x20 || (0x09 ≤ byte && byte ≤ 0x0d)

/-! ## Searching -/

/-- The positions `find_bytes` compares at. -/
def searchPositions (dataLength needleLength start : Nat) : List Nat :=
  if needleLength ≤ dataLength ∧ start ≤ dataLength - needleLength then
    List.range' start (dataLength - needleLength + 1 - start)
  else []

/-- `find_bytes`, for a needle that is not empty. -/
def findBytes (data needle : Bytes) (start : Nat) : Option Nat :=
  (searchPositions data.length needle.length start).find?
    (fun index => (data.drop index).take needle.length == needle)

theorem findBytes_some {data needle : Bytes} {start found : Nat}
    (h : findBytes data needle start = some found) :
    start ≤ found ∧ found + needle.length ≤ data.length ∧
      (data.drop found).take needle.length = needle := by
  have hmem := List.mem_of_find?_eq_some h
  have heq : (data.drop found).take needle.length = needle := by simpa using List.find?_some h
  unfold searchPositions at hmem
  split at hmem
  · rename_i hbounds
    rw [List.mem_range'_1] at hmem
    refine ⟨hmem.1, ?_, heq⟩
    omega
  · simp at hmem

/-! ## Scanning -/

/-- The pieces between the hits of `needle`, from a position on.  Every hit
    moves the position forward, so the length of the data is fuel enough. -/
def fieldsFrom (data needle : Bytes) : Nat → Nat → List Bytes
  | 0, start => [data.drop start]
  | fuel + 1, start =>
    match findBytes data needle start with
    | none => [data.drop start]
    | some found =>
      (data.drop start).take (found - start) :: fieldsFrom data needle fuel (found + needle.length)

/-- What `split` computes. -/
def splitFields (data needle : Bytes) : List Bytes := fieldsFrom data needle data.length 0

theorem fieldsFrom_ne_nil (data needle : Bytes) (fuel start : Nat) :
    fieldsFrom data needle fuel start ≠ [] := by
  unfold fieldsFrom
  split
  · simp
  · split <;> simp

theorem intercalate_fieldsFrom {data needle : Bytes} (fuel start : Nat) :
    needle.intercalate (fieldsFrom data needle fuel start) = data.drop start := by
  induction fuel generalizing start with
  | zero => simp [fieldsFrom]
  | succ fuel ih =>
    unfold fieldsFrom
    cases hfind : findBytes data needle start with
    | none => simp
    | some found =>
      obtain ⟨hle, _, hhit⟩ := findBytes_some hfind
      simp only
      rw [List.intercalate_cons_of_ne_nil (fieldsFrom_ne_nil _ _ _ _), ih]
      -- the three parts are consecutive in the data
      have hdrop : data.drop found = needle ++ data.drop (found + needle.length) := by
        conv_lhs => rw [← List.take_append_drop needle.length (data.drop found)]
        rw [hhit, List.drop_drop]
      have hstart : (data.drop start).take (found - start) ++ data.drop found
          = data.drop start := by
        conv_rhs => rw [← List.take_append_drop (found - start) (data.drop start)]
        rw [List.drop_drop, Nat.add_sub_cancel' hle]
      rw [List.append_assoc, ← hdrop, hstart]

end Cwhip.Runtime
