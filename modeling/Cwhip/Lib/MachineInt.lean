/-
  Cwhip.Lib.MachineInt

  64-bit integers as C computes with them.  A value is the integer it stands
  for; a signed result that does not fit is undefined (`signed`), an unsigned
  one and a conversion wrap (`unsigned`, `asSigned`).
-/

import Mathlib.Algebra.Group.Nat.Defs
import Mathlib.Algebra.Group.Int.Defs
import Cwhip.Lib.Except

namespace Cwhip.Lib

universe u

/-- The values of `int64_t`. -/
def FitsSigned (x : Int) : Prop := -2 ^ 63 ≤ x ∧ x < 2 ^ 63

instance (x : Int) : Decidable (FitsSigned x) := inferInstanceAs (Decidable (_ ∧ _))

/-- The result of signed arithmetic: undefined unless it fits. -/
def signed {ε : Type u} (overflow : ε) (x : Int) : Except ε Int :=
  if FitsSigned x then .ok x else .error overflow

/-- The result of unsigned arithmetic, and the conversion to `uint64_t`. -/
def unsigned (x : Int) : Nat := (x % 2 ^ 64).toNat

/-- The conversion of an `uint64_t` to `int64_t`. -/
def asSigned (n : Nat) : Int := Int.bmod n (2 ^ 64)

theorem fitsSigned_toInt (x : Int64) : FitsSigned x.toInt := ⟨x.le_toInt, x.toInt_lt⟩

theorem signed_of_fits {ε : Type u} (overflow : ε) {x : Int} (h : FitsSigned x) :
    signed overflow x = .ok x := if_pos h

theorem unsigned_natCast {n : Nat} (h : n < 2 ^ 64) : unsigned n = n := by
  unfold unsigned
  omega

theorem unsigned_of_nonneg {x : Int} (hlow : 0 ≤ x) (hhigh : x < 2 ^ 64) :
    (unsigned x : Int) = x := by
  unfold unsigned
  omega

theorem asSigned_of_lt {n : Nat} (h : n < 2 ^ 63) : asSigned n = n := by
  unfold asSigned
  rw [Int.bmod_eq_of_le] <;> omega

end Cwhip.Lib

namespace Cwhip

/-- `SIZE_MAX`. -/
def sizeMax : Nat := 2 ^ 64 - 1

/-- `INT64_MAX`. -/
def int64Max : Nat := 2 ^ 63 - 1

end Cwhip
