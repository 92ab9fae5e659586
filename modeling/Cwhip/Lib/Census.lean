/-
  Cwhip.Lib.Census

  How many participants of a system are in a state of a given kind, when one
  participant moves at a time.

  The participants are the indices of a function to their states, and only
  finitely many of them need ever be in the states that are counted.
-/

import Mathlib.Data.Set.Card

namespace Cwhip.Lib

variable {ι σ : Type*}

/-- The number of participants in a state of the kind `P`. -/
noncomputable def census (P : σ → Prop) (state : ι → σ) : ℕ∞ :=
  {i | P (state i)}.encard

variable {P : σ → Prop} {state : ι → σ} {i : ι} {next : σ}

theorem census_eq_zero : census P state = 0 ↔ ∀ i, ¬ P (state i) := by
  rw [census, Set.encard_eq_zero, Set.eq_empty_iff_forall_notMem]
  rfl

variable [DecidableEq ι]

theorem census_same (h : P next ↔ P (state i)) :
    census P (Function.update state i next) = census P state := by
  have hset : {j | P (Function.update state i next j)} = {j | P (state j)} := by
    ext j
    by_cases hj : j = i
    · subst hj
      simpa using h
    · simp [hj]
  rw [census, census, hset]

theorem census_enter (hbefore : ¬ P (state i))
    (hafter : P next) : census P (Function.update state i next) = census P state + 1 := by
  have hset : {j | P (Function.update state i next j)} = insert i {j | P (state j)} := by
    ext j
    by_cases hj : j = i
    · subst hj
      simpa using hafter
    · simp [hj]
  rw [census, census, hset]
  exact Set.encard_insert_of_notMem hbefore

theorem census_leave (hbefore : P (state i))
    (hafter : ¬ P next) : census P (Function.update state i next) + 1 = census P state := by
  -- moving back is entering
  have hback : Function.update (Function.update state i next) i (state i) = state := by
    rw [Function.update_idem, Function.update_eq_self]
  have henter : census P (Function.update (Function.update state i next) i (state i)) =
      census P (Function.update state i next) + 1 := census_enter (by simpa using hafter) hbefore
  rw [hback] at henter
  exact henter.symm

theorem census_enter_eq {n : Nat} (hcount : census P state = n) (hbefore : ¬ P (state i))
    (hafter : P next) :
    census P (Function.update state i next) = (n + 1 : Nat) := by
  rw [census_enter hbefore hafter, hcount]
  rfl

theorem census_leave_eq {n : Nat} (hcount : census P state = n) (hbefore : P (state i))
    (hafter : ¬ P next) :
    0 < n ∧ census P (Function.update state i next) = (n - 1 : Nat) := by
  have hleave := census_leave (i := i) hbefore hafter
  rw [hcount] at hleave
  have hfinite : census P (Function.update state i next) ≠ ⊤ := by
    intro htop
    rw [htop] at hleave
    exact absurd hleave.symm (by simp)
  obtain ⟨m, hm⟩ := ENat.ne_top_iff_exists.mp hfinite
  rw [← hm] at hleave ⊢
  have hsum : m + 1 = n := by exact_mod_cast hleave
  refine ⟨by omega, ?_⟩
  have hpred : m = n - 1 := by omega
  rw [hpred]

end Cwhip.Lib
