/-
  Cwhip.Packages.DigestWrites

  The writes of the compiler's SHA-256 into its block.

  Every write of the class goes to `block_`: single bytes at `used_` and at the
  last eight positions, and two fills up to a fixed position.  Here each of
  them fails when it would leave the block.  A fill whose end lies before its
  start fails too: it would never reach its end.
-/

import Cwhip.Packages.Digest

namespace Cwhip.Packages.Sha256

/-! ## Checked writes -/

/-- `block_[index] = byte`. -/
def storeAt (block : List UInt8) (index : Nat) (byte : UInt8) : Option (List UInt8) :=
  if index < block.length then some (block.set index byte) else none

/-- `std::fill` with zeros between two positions. -/
def fillBetween (block : List UInt8) (first last : Nat) : Option (List UInt8) :=
  if first ≤ last ∧ last ≤ block.length then
    some (block.take first ++ List.replicate (last - first) 0 ++ block.drop last)
  else none

def checkedByte (hash : Sha256) (byte : UInt8) : Option Sha256 := do
  let block ← storeAt hash.block hash.used byte
  let stored := { hash with block := block, used := hash.used + 1 }
  if stored.used = block.length then pure { stored.compress with used := 0 } else pure stored

def checkedUpdate (hash : Sha256) (data : List UInt8) : Option Sha256 :=
  data.foldlM checkedByte { hash with bytes := hash.bytes + UInt64.ofNat data.length }

def checkedMark (hash : Sha256) : Option Sha256 := do
  let block ← storeAt hash.block hash.used 0x80
  pure { hash with block := block, used := hash.used + 1 }

def checkedRoom (hash : Sha256) : Option Sha256 := do
  if 56 < hash.used then
    let block ← fillBetween hash.block hash.used hash.block.length
    let filled := { hash with block := block }
    pure { filled.compress with used := 0 }
  else pure hash

/-- The length goes to the last eight bytes, the last one first. -/
def checkedBits (block : List UInt8) (bits : UInt64) : Option (List UInt8) :=
  (List.range 8).foldlM
    (fun block index => storeAt block (63 - index) (bits >>> UInt64.ofNat (index * 8)).toUInt8)
      block

def checkedClose (hash : Sha256) (bits : UInt64) : Option Sha256 := do
  let block ← fillBetween hash.block hash.used 56
  let block ← checkedBits block bits
  let closed := { hash with block := block }
  pure closed.compress

def checkedFinish (hash : Sha256) : Option (List Char) := do
  let bits := hash.bytes * 8
  let marked ← checkedMark hash
  let roomy ← checkedRoom marked
  let closed ← checkedClose roomy bits
  pure (closed.state.flatMap (fun word => fillWidth 8 (hexText word.toNat)))

/-! ## Nothing fails -/

variable {block message : List UInt8} {hash : Sha256}

theorem storeAt_eq {index : Nat} (h : index < block.length) (byte : UInt8) :
    storeAt block index byte = some (block.set index byte) := by
  rw [storeAt, if_pos h]

theorem fillBetween_eq {first last : Nat} (hle : first ≤ last) (hlast : last ≤ block.length) :
    fillBetween block first last
      = some (block.take first ++ List.replicate (last - first) 0 ++ block.drop last) := by
  rw [fillBetween, if_pos ⟨hle, hlast⟩]

/-- What the block of a hash in progress keeps between two bytes. -/
structure Roomy (hash : Sha256) : Prop where
  size : hash.block.length = 64
  used : hash.used < 64

theorem Roomy.checkedByte (h : Roomy hash) (byte : UInt8) :
    checkedByte hash byte = some (hash.updateByte byte) := by
  have hlt : hash.used < hash.block.length := by
    rw [h.size]
    exact h.used
  unfold Sha256.checkedByte updateByte
  rw [storeAt_eq hlt]
  dsimp only [Option.bind_eq_bind, Option.bind_some]
  split
  · rfl
  · rfl

theorem Roomy.updateByte (h : Roomy hash) (byte : UInt8) :
    Roomy (hash.updateByte byte) := by
  have hsize := h.size
  have hused := h.used
  have hset : (hash.block.set hash.used byte).length = 64 := by rw [List.length_set, hsize]
  unfold Sha256.updateByte
  dsimp only
  split
  · -- a complete block is compressed, and the next byte goes to its start
    exact ⟨hset, Nat.zero_lt_succ 63⟩
  · next hopen =>
    have hroom : hash.used + 1 < 64 := by omega
    exact ⟨hset, hroom⟩

theorem Roomy.checkedBytes (h : Roomy hash) (data : List UInt8) :
    data.foldlM Sha256.checkedByte hash = some (data.foldl Sha256.updateByte hash) := by
  induction data generalizing hash with
  | nil => rfl
  | cons byte rest ih =>
    rw [List.foldlM_cons, h.checkedByte, List.foldl_cons]
    exact ih (h.updateByte byte)

theorem Feeds.roomy (h : Feeds hash message) : Roomy hash where
  size := h.size
  used := by
    rw [h.used]
    omega

theorem Feeds.checkedUpdate (h : Feeds hash message)
    (data : List UInt8) : checkedUpdate hash data = some (hash.update data) := by
  have hroomy : Roomy { hash with bytes := hash.bytes + UInt64.ofNat data.length } :=
    ⟨h.roomy.size, h.roomy.used⟩
  exact hroomy.checkedBytes data

theorem Feeds.updates (h : Feeds hash message) (pieces : List (List UInt8)) :
    Feeds (pieces.foldl Sha256.update hash) (message ++ pieces.flatten) := by
  induction pieces generalizing hash message with
  | nil =>
    rw [List.flatten_nil, List.append_nil]
    exact h
  | cons data rest ih =>
    rw [List.flatten_cons, ← List.append_assoc]
    exact ih (h.update data)

theorem Feeds.checkedUpdates (h : Feeds hash message) (pieces : List (List UInt8)) :
    pieces.foldlM Sha256.checkedUpdate hash = some (pieces.foldl Sha256.update hash) := by
  induction pieces generalizing hash message with
  | nil => rfl
  | cons data rest ih =>
    rw [List.foldlM_cons, h.checkedUpdate, List.foldl_cons]
    exact ih (h.update data)

theorem checkedBits_eq (h : block.length = 64) (bits : UInt64) :
    checkedBits block bits = some (storeBits block bits) := by
  -- whatever was stored before, the block keeps its length
  have hall : ∀ (positions : List Nat) (block : List UInt8), block.length = 64 →
      positions.foldlM (fun block index =>
          storeAt block (63 - index) (bits >>> UInt64.ofNat (index * 8)).toUInt8) block
        = some (positions.foldl (fun block index =>
            block.set (63 - index) (bits >>> UInt64.ofNat (index * 8)).toUInt8) block) := by
    intro positions
    induction positions with
    | nil => exact fun _ _ => rfl
    | cons index rest ih =>
      intro block hblock
      rw [List.foldlM_cons, storeAt_eq (by omega), List.foldl_cons]
      apply ih
      rw [List.length_set, hblock]
  exact hall (List.range 8) block h

theorem checkedRoom_eq (hsize : hash.block.length = 64) (hused : hash.used ≤ 64) :
    checkedRoom hash = some hash.makeRoom := by
  unfold checkedRoom makeRoom
  split
  · rw [hsize, fillBetween_eq hused (by omega), List.drop_of_length_le (by omega), List.append_nil]
    rfl
  · rfl

theorem makeRoom_roomy (hsize : hash.block.length = 64) (hused : hash.used ≤ 64) :
    hash.makeRoom.block.length = 64 ∧ hash.makeRoom.used ≤ 56 := by
  unfold makeRoom
  split
  · refine ⟨?_, Nat.zero_le 56⟩
    show (hash.block.take hash.used ++ List.replicate (64 - hash.used) 0).length = 64
    rw [List.length_append, List.length_take, List.length_replicate]
    omega
  · exact ⟨hsize, by omega⟩

theorem length_filled {first last : Nat} (hle : first ≤ last) (hlast : last ≤ block.length) :
    (block.take first ++ List.replicate (last - first) 0 ++ block.drop last).length =
    block.length := by
  rw [List.length_append, List.length_append, List.length_take, List.length_replicate,
    List.length_drop]
  omega

theorem checkedClose_state (hsize : hash.block.length = 64) (hused : hash.used ≤ 56)
    (bits : UInt64) : (checkedClose hash bits).map Sha256.state = some (hash.close bits) := by
  have hfilled := length_filled hused (show 56 ≤ hash.block.length by omega)
  unfold checkedClose
  rw [fillBetween_eq hused (by omega)]
  dsimp only [Option.bind_eq_bind, Option.bind_some]
  rw [checkedBits_eq (hfilled.trans hsize), Option.bind_some, Option.pure_def, Option.map_some,
    compress,
    close]

theorem Roomy.checkedFinish (h : Roomy hash) : checkedFinish hash = some hash.finish := by
  have hlt : hash.used < hash.block.length := by
    rw [h.size]
    exact h.used
  have hmark : checkedMark hash = some hash.mark := by
    unfold checkedMark
    rw [storeAt_eq hlt]
    rfl
  have hsize : hash.mark.block.length = 64 := by rw [mark, List.length_set, h.size]
  have hused : hash.mark.used ≤ 64 := h.used
  obtain ⟨hroomSize, hroomUsed⟩ := makeRoom_roomy hsize hused
  have hstate := checkedClose_state hroomSize hroomUsed (hash.bytes * 8)
  unfold Sha256.checkedFinish
  dsimp only [Option.bind_eq_bind]
  rw [hmark, Option.bind_some, checkedRoom_eq hsize hused, Option.bind_some]
  obtain ⟨closed, hclosed, hwords⟩ := Option.map_eq_some_iff.mp hstate
  rw [hclosed, Option.bind_some, hwords]
  rfl

/-- However the message is cut, the digest is that of the whole message, and
    no write leaves the block. -/
theorem digest_of_pieces (pieces : List (List UInt8)) :
    (do let fed ← pieces.foldlM checkedUpdate start; checkedFinish fed)
        = some (Lib.Sha256.hexdigest pieces.flatten) ∧
      (pieces.foldl update start).finish = Lib.Sha256.hexdigest pieces.flatten := by
  have hfed := Feeds.start.updates pieces
  rw [List.nil_append] at hfed
  constructor
  · rw [Feeds.start.checkedUpdates pieces]
    show checkedFinish (pieces.foldl update start) = _
    rw [hfed.roomy.checkedFinish, hfed.finish]
  · exact hfed.finish

end Cwhip.Packages.Sha256
