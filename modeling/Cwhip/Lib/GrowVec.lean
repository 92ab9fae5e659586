/-
  Cwhip.Lib.GrowVec

  Growable arrays as C code writes them: a current block of cells, of which a
  prefix is in use, and reallocation when the cells run out.

  A block has an identity, and a pointer into the array remembers the identity
  of the block it was computed from.  Reading through it is defined only while
  the array still has that block (`readAt`); reading through the array itself
  only needs the cells to be there (`readCells`).
-/

import Mathlib.Data.List.Basic

namespace Cwhip.Lib

/-- Why a read or write of array cells is undefined. -/
inductive CellFault where
  /-- The block was reallocated: the pointer dangles. -/
  | dangling
  /-- The cells lie outside the block. -/
  | outside
  deriving DecidableEq, Repr

/-- A growable array. -/
structure GrowVec (α : Type*) where
  /-- Identity of the current block. -/
  block : Nat
  /-- All cells of the block. -/
  cells : List α
  /-- How many of them are in use. -/
  length : Nat
  fits : length ≤ cells.length

namespace GrowVec

variable {α : Type*}

def capacity (v : GrowVec α) : Nat := v.cells.length

/-- The elements in use. -/
def value (v : GrowVec α) : List α := v.cells.take v.length

theorem value_length (v : GrowVec α) : v.value.length = v.length := by
  simp [value, v.fits]

/-- A full block holding exactly `xs`. -/
def ofList (block : Nat) (xs : List α) : GrowVec α := ⟨block, xs, xs.length, Nat.le_refl _⟩

/-! ## Reading -/

/-- Read cells of the current block. -/
def readCells (v : GrowVec α) (start count : Nat) : Except CellFault (List α) :=
  if start + count ≤ v.capacity then .ok ((v.cells.drop start).take count) else .error .outside

/-- Read through a pointer computed when the block was `block`. -/
def readAt (v : GrowVec α) (block start count : Nat) : Except CellFault (List α) :=
  if v.block = block then v.readCells start count else .error .dangling

/-- Read one cell of the current block. -/
def readIndex (v : GrowVec α) (index : Int) : Except CellFault α :=
  if 0 ≤ index then
    match v.cells[index.toNat]? with
    | some x => .ok x
    | none => .error .outside
  else .error .outside

variable {v v' : GrowVec α} {start count : Nat}

theorem readCells_eq (hgrows : v.capacity ≤ v'.capacity) (hrange : start + count ≤ v.length) :
    v'.readCells start count = .ok ((v'.cells.drop start).take count) := by
  unfold readCells
  rw [if_pos]
  have hfits := v.fits
  unfold capacity at hgrows
  unfold capacity
  omega

/-- A cell is read as long as the block was not given up. -/
theorem readAt_eq (hgrows : v.capacity ≤ v'.capacity) (hrange : start + count ≤ v.length) :
    v'.readAt v.block start count
      = if v'.block = v.block then .ok ((v'.cells.drop start).take count)
        else .error .dangling := by
  unfold readAt
  split
  · exact readCells_eq hgrows hrange
  · rfl

theorem readIndex_eq (hgrows : v.capacity ≤ v'.capacity) {index : Int} (hlow : 0 ≤ index)
    (hhigh : index < v.length) :
    ∃ x, v'.cells[index.toNat]? = some x ∧ v'.readIndex index = .ok x := by
  have hfits := v.fits
  unfold capacity at hgrows
  have hin : index.toNat < v'.cells.length := by omega
  refine ⟨v'.cells[index.toNat], List.getElem?_eq_getElem hin, ?_⟩
  unfold readIndex
  rw [if_pos hlow, List.getElem?_eq_getElem hin]

/-- Reads inside the length all succeed. -/
theorem mapM_readIndex (hgrows : v.capacity ≤ v'.capacity) {indices : List Int}
    (hrange : ∀ index ∈ indices, 0 ≤ index ∧ index < v.length) :
    indices.mapM v'.readIndex
      = .ok (indices.filterMap fun index => v'.cells[index.toNat]?) := by
  induction indices with
  | nil => rfl
  | cons index rest ih =>
    obtain ⟨hlow, hhigh⟩ := hrange index (by simp)
    obtain ⟨x, hcell, hread⟩ := readIndex_eq hgrows hlow hhigh
    have hcons : (index :: rest).filterMap (fun index => v'.cells[index.toNat]?)
        = x :: rest.filterMap (fun index => v'.cells[index.toNat]?) :=
      List.filterMap_cons_some hcell
    rw [List.mapM_cons, hread, ih (fun i hi => hrange i (by simp [hi])), hcons]
    rfl

theorem getElem?_value {index : Nat} (h : index < v.length) :
    v.value[index]? = v.cells[index]? := by
  rw [value, List.getElem?_take, if_pos h]

theorem take_drop_cells (hrange : start + count ≤ v.length) :
    (v.cells.drop start).take count = (v.value.drop start).take count := by
  unfold value
  rw [List.drop_take, List.take_take]
  congr 1
  omega

/-! ## Updating -/

/-- Double the capacity from `grown` until it reaches `needed`. -/
def doubled : Nat → Nat → Nat → Nat
  | 0, _, needed => needed
  | fuel + 1, grown, needed => if needed ≤ grown then grown else doubled fuel (grown * 2) needed

theorem le_doubled (fuel grown needed : Nat) : needed ≤ doubled fuel grown needed := by
  induction fuel generalizing grown with
  | zero => exact Nat.le_refl _
  | succ fuel ih =>
    unfold doubled
    split
    · assumption
    · exact ih _

/-- Make room for `needed` cells, moving to a new block if there is none.  The
    first block has `first` cells, and 64 doublings exceed any machine size. -/
def reserve (v : GrowVec α) (fill : α) (first needed : Nat) : GrowVec α :=
  if needed ≤ v.capacity then v
  else
    { block := v.block + 1
      cells := v.cells ++ List.replicate
        (doubled 64 (if v.capacity = 0 then first else v.capacity) needed - v.capacity) fill
      length := v.length
      fits := by
        rw [List.length_append]
        exact Nat.le_add_right_of_le v.fits }

theorem capacity_le_reserve (v : GrowVec α) (fill : α) (first needed : Nat) :
    v.capacity ≤ (v.reserve fill first needed).capacity := by
  unfold reserve
  split
  · exact Nat.le_refl _
  · simp [capacity]

/-- Reserving makes the room that is asked for. -/
theorem le_capacity_reserve (v : GrowVec α) (fill : α) (first needed : Nat) :
    needed ≤ (v.reserve fill first needed).capacity := by
  unfold reserve
  split
  · assumption
  · have hle := le_doubled 64 (if v.capacity = 0 then first else v.capacity) needed
    simp only [capacity, List.length_append, List.length_replicate] at hle ⊢
    omega

/-- Replace the cells by as many others. -/
def withCells (v : GrowVec α) (cells : List α) (same : cells.length = v.capacity) : GrowVec α :=
  { v with cells := cells, fits := same.symm ▸ v.fits }

/-- Overwrite one cell. -/
def setCell (v : GrowVec α) (index : Nat) (x : α) : GrowVec α :=
  v.withCells (v.cells.set index x) List.length_set

@[simp] theorem setCell_capacity (v : GrowVec α) (index : Nat) (x : α) :
    (v.setCell index x).capacity = v.capacity := by
  simp [setCell, withCells, capacity]

/-- Use a different number of the cells there are. -/
def setLength (v : GrowVec α) (length : Nat) (fits : length ≤ v.capacity) : GrowVec α :=
  { v with length := length, fits := fits }

@[simp] theorem setLength_capacity (v : GrowVec α) (length : Nat) (fits : length ≤ v.capacity) :
    (v.setLength length fits).capacity = v.capacity := rfl

/-- Add one element at the end. -/
def append (v : GrowVec α) (fill : α) (first : Nat) (x : α) : GrowVec α :=
  ((v.reserve fill first (v.length + 1)).setCell v.length x).setLength (v.length + 1) (by
    rw [setCell_capacity]
    exact le_capacity_reserve v fill first (v.length + 1))

theorem capacity_le_append (v : GrowVec α) (fill : α) (first : Nat) (x : α) :
    v.capacity ≤ (v.append fill first x).capacity := by
  unfold append
  rw [setLength_capacity, setCell_capacity]
  exact capacity_le_reserve v fill first _

/-- Put `xs` in the place of the elements from `start` up to `stop`. -/
def splice (v : GrowVec α) (fill : α) (first start stop : Nat) (xs : List α) : GrowVec α :=
  let value := v.value.take start ++ xs ++ v.value.drop stop
  let grown := v.reserve fill first value.length
  { block := grown.block
    cells := value ++ grown.cells.drop value.length
    length := value.length
    fits := by simp [value] }

/-- A splice replaces the elements between two places. -/
@[simp] theorem value_splice (v : GrowVec α) (fill : α) (first start stop : Nat) (xs : List α) :
    (v.splice fill first start stop xs).value = v.value.take start ++ xs ++ v.value.drop stop :=
  List.take_left

end GrowVec

end Cwhip.Lib
