/-
  Cwhip.Lib.PythonSlice

  What a slice of a sequence selects in Python: `slice.indices` clamps the
  bounds, and `range` enumerates the indices between them.
-/

import Mathlib.Data.Int.Order.Basic

namespace Cwhip.Lib

/-- `range(first, last, step)`. -/
def pythonRange (first last step : Int) : List Int :=
  if 0 < step ∧ first < last ∨ step < 0 ∧ last < first then
    first :: pythonRange (first + step) last step
  else []
termination_by if 0 < step then (last - first).toNat else (first - last).toNat
decreasing_by
  split <;> omega

/-- The lowest value of a bound. -/
def pythonLower (step : Int) : Int := if step < 0 then -1 else 0

/-- The highest value of a bound. -/
def pythonUpper (length : Nat) (step : Int) : Int := if step < 0 then length - 1 else length

/-- A bound that is given: negative ones count from the end, and the rest is
    cut off. -/
def pythonClamp (bound : Int) (length : Nat) (step : Int) : Int :=
  max (pythonLower step)
    (min (pythonUpper length step) (if bound < 0 then bound + length else bound))

def pythonStart (start : Option Int) (length : Nat) (step : Int) : Int :=
  match start with
  | none => if step < 0 then pythonUpper length step else pythonLower step
  | some bound => pythonClamp bound length step

def pythonStop (stop : Option Int) (length : Nat) (step : Int) : Int :=
  match stop with
  | none => if step < 0 then pythonLower step else pythonUpper length step
  | some bound => pythonClamp bound length step

/-- The indices `[start:stop:step]` selects from a sequence of this length. -/
def pythonIndices (start stop : Option Int) (step : Int) (length : Nat) : List Int :=
  pythonRange (pythonStart start length step) (pythonStop stop length step) step

theorem pythonRange_cons {first last step : Int}
    (h : 0 < step ∧ first < last ∨ step < 0 ∧ last < first) :
    pythonRange first last step = first :: pythonRange (first + step) last step := by
  rw [pythonRange, if_pos h]

theorem pythonRange_nil {first last step : Int}
    (h : ¬ (0 < step ∧ first < last ∨ step < 0 ∧ last < first)) :
    pythonRange first last step = [] := by
  rw [pythonRange, if_neg h]

end Cwhip.Lib
