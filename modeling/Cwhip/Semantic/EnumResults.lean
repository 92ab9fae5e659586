/-
  Cwhip.Semantic.EnumResults

  With which results the evaluation of the initializers of enum members ends: for
  each form of an initializer, exactly when there is a result and which.

  On numbers of 64 bits the checked operations give the exact results; `%` is
  refused for the operands for which `/` is.
-/

import Cwhip.Semantic.EnumReferences
import Cwhip.Semantic.HierarchyChecks

namespace Cwhip.Semantic.Hierarchy

open Cwhip.Lib Relation
open Cwhip.CodeGen

variable {p : Program} {fuel : Nat}

/-! ## Machine arithmetic -/

variable {value a b : Int} {operation : String} {α : Type}

theorem checked_eq_some {exact : Int} :
    Literals.checked exact = some value ↔ some exact = some value ∧ InRange value := by
  unfold Literals.checked
  constructor
  · intro h
    split at h
    · next hrange =>
      refine ⟨h, ?_⟩
      rw [← Option.some.inj h]
      exact hrange
    · cases h
  · rintro ⟨hvalue, hrange⟩
    obtain rfl := Option.some.inj hvalue
    exact if_pos hrange

theorem inRange_tdiv (ha : InRange a) (hoverflow : ¬ (a = Literals.int64Min ∧ b = -1)) :
    InRange (a.tdiv b) := by
  unfold InRange Literals.int64Min int64Max at *
  have hquotient : (a.tdiv b).natAbs = a.natAbs / b.natAbs := Int.natAbs_tdiv a b
  have hle : a.natAbs / b.natAbs ≤ a.natAbs := Nat.div_le_self _ _
  by_cases hb : b.natAbs ≤ 1
  · -- a divisor of -1 is the only one that turns the sign
    have hcases : b = 0 ∨ b = 1 ∨ b = -1 := by omega
    rcases hcases with rfl | rfl | rfl
    · rw [Int.tdiv_zero]
      omega
    · rw [Int.tdiv_one]
      omega
    · rw [Int.tdiv_neg, Int.tdiv_one]
      omega
  · have hhalf : a.natAbs / b.natAbs ≤ a.natAbs / 2 := Nat.div_le_div_left (by omega) (by omega)
    omega

theorem inRange_tmod (ha : InRange a) : InRange (a.tmod b) := by
  unfold InRange Literals.int64Min int64Max at *
  have hremainder : (a.tmod b).natAbs = a.natAbs % b.natAbs := Int.natAbs_tmod a b
  have hle : a.natAbs % b.natAbs ≤ a.natAbs := Nat.mod_le _ _
  rcases Int.le_total 0 a with hsign | hsign
  · have hnonneg := Int.tmod_nonneg b hsign
    omega
  · -- the remainder has the sign of the dividend
    have hnonpos := Int.tmod_nonneg b (show 0 ≤ -a by omega)
    rw [Int.neg_tmod] at hnonpos
    omega

/-- A checked operation gives the exact value unless something overflows. -/
theorem constantOperation_iff (ha : InRange a) :
    Literals.constantOperation operation.toList a b = some value ↔
      Literals.exactOperation operation.toList a b = some value ∧ InRange value ∧
        ¬ (operation = "%" ∧ a = Literals.int64Min ∧ b = -1) := by
  have hname : operation = "%" ↔ operation.toList = ['%'] := String.toList_inj.symm
  rw [hname]
  unfold Literals.constantOperation Literals.exactOperation
  split
  · next hadd => simp [hadd, checked_eq_some]
  split
  · next hsub => simp [hsub, checked_eq_some]
  split
  · next hmul => simp [hmul, checked_eq_some]
  split
  · next hdiv =>
    simp only [hdiv]
    by_cases hzero : b = 0
    · simp [hzero]
    · by_cases hoverflow : a = Literals.int64Min ∧ b = -1
      · -- the exact quotient is one too large
        obtain ⟨rfl, rfl⟩ := hoverflow
        have hlarge : ¬ InRange (Literals.int64Min.tdiv (-1)) := by decide
        simp only [hzero, if_false]
        constructor
        · intro h
          cases h
        · rintro ⟨hvalue, hrange, _⟩
          rw [← Option.some.inj hvalue] at hrange
          exact absurd hrange hlarge
      · rw [if_pos ⟨hzero, hoverflow⟩, if_neg hzero]
        constructor
        · intro h
          refine ⟨h, ?_, fun hmod => absurd hmod.1 (by decide)⟩
          rw [← Option.some.inj h]
          exact inRange_tdiv ha hoverflow
        · exact fun h => h.1
  split
  · next hmod =>
    by_cases hzero : b = 0
    · simp [hzero]
    · by_cases hoverflow : a = Literals.int64Min ∧ b = -1
      · rw [if_neg fun h => h.2 hoverflow]
        constructor
        · intro h
          cases h
        · exact fun h => absurd ⟨hmod, hoverflow⟩ h.2.2
      · rw [if_pos ⟨hzero, hoverflow⟩, if_neg hzero]
        constructor
        · intro h
          refine ⟨h, ?_, fun h => hoverflow h.2⟩
          rw [← Option.some.inj h]
          exact inRange_tmod ha
        · exact fun h => h.1
  · simp

theorem not_zero_of_constantOperation
    (h : Literals.constantOperation operation.toList a b = some value) :
    ¬ ((operation = "/" ∨ operation = "%") ∧ b = 0) := by
  rintro ⟨rfl | rfl, rfl⟩
  · simp [Literals.constantOperation] at h
  · simp [Literals.constantOperation] at h

theorem operator_of_constantOperation
    (h : Literals.constantOperation operation.toList a b = some value) :
    operation ∈ ["+", "-", "*", "/", "%"] := by
  by_contra hother
  simp only [List.mem_cons, List.not_mem_nil, or_false, not_or, ← String.toList_inj] at hother
  obtain ⟨hadd, hsub, hmul, hdiv, hmod⟩ := hother
  have hnone : Literals.constantOperation operation.toList a b = none :=
    (if_neg hadd).trans <| (if_neg hsub).trans <| (if_neg hmul).trans <| (if_neg hdiv).trans <|
      if_neg hmod
  rw [hnone] at h
  cases h

/-! ## Results -/

theorem Run.bind_ok {β : Type} {run : Run α} {next : α → Run β} {b : β} :
    (run >>= next).outcome = some (.ok b) ↔
      ∃ a, run.outcome = some (.ok a) ∧ (next a).outcome = some (.ok b) := Run.andThen_ok

theorem Run.done_ok {a b : α} : (Run.done a).outcome = some (.ok b) ↔ a = b := by
  simp [Run.done]

theorem Run.refuse_ok {message : String} {b : α} :
    ¬ (Run.refuse message : Run α).outcome = some (.ok b) := by
  simp [Run.refuse]

theorem Run.search_ok {c : ClassDeclaration} {found : Option α} {a : α} :
    (Run.search c found).outcome = some (.ok a) ↔ found = some a := by
  simp [Run.search]

section

variable {resolve : ClassDeclaration → Nat → EnumState → Run (Int × EnumState)}
  {declaration : ClassDeclaration}
  {memberIndex : Nat} {st : EnumState} {result : Int × EnumState}

/-- A reference has a value exactly if its member does. -/
theorem evaluateReference_ok {target : ClassDeclaration} {name : String} :
    (evaluateReference p fuel resolve declaration memberIndex target name st).outcome =
      some (.ok result) ↔
      ∃ owner index, RefersTo p fuel declaration target name owner index ∧
        ¬ (owner.name = declaration.name ∧ memberIndex ≤ index) ∧
        ¬ (st.value (owner.name, index) = none ∧ (owner.name, index) ∈ st.resolving) ∧
        (resolve owner index st).outcome = some (.ok result) := by
  unfold evaluateReference
  rw [Run.bind_ok]
  constructor
  · rintro ⟨count, hcount, h⟩
    rw [Run.search_ok] at hcount
    split at h
    · exact absurd h Run.refuse_ok
    next hpositive =>
    obtain ⟨accessible, haccessible, h⟩ := Run.bind_ok.mp h
    rw [Run.search_ok] at haccessible
    obtain ⟨reached, hreached, h⟩ := Run.bind_ok.mp h
    split at h
    · exact absurd h Run.refuse_ok
    next htrue =>
    split at hreached
    · exact absurd (Run.done_ok.mp hreached).symm htrue
    next hnonzero =>
    rw [Run.search_ok] at hreached
    split at h
    · exact absurd h Run.refuse_ok
    next hone =>
    obtain ⟨found, hfound, h⟩ := Run.bind_ok.mp h
    rw [Run.search_ok] at hfound
    obtain rfl : count = 1 := by omega
    obtain rfl : accessible = 1 := by omega
    obtain rfl : reached = true := Bool.eq_true_of_not_eq_false htrue
    obtain _ | ⟨owner, index⟩ := found
    · exact absurd h Run.refuse_ok
    dsimp only at h
    split at h
    · exact absurd h Run.refuse_ok
    next hearlier =>
    split at h
    · exact absurd h Run.refuse_ok
    next hresolving =>
    exact ⟨owner, index, ⟨hcount, haccessible, hreached, hfound⟩, hearlier, hresolving, h⟩
  · rintro ⟨owner, index, hrefers, hearlier, hresolving, h⟩
    refine ⟨1, Run.search_ok.mpr hrefers.count, ?_⟩
    rw [if_neg Nat.one_ne_zero]
    refine Run.bind_ok.mpr ⟨1, Run.search_ok.mpr hrefers.accessible, ?_⟩
    rw [if_neg Nat.one_ne_zero]
    refine Run.bind_ok.mpr ⟨true, Run.search_ok.mpr hrefers.reached, ?_⟩
    rw [if_neg (by decide), if_neg (by omega)]
    refine Run.bind_ok.mpr ⟨some (owner, index), Run.search_ok.mpr hrefers.found, ?_⟩
    dsimp only
    rw [if_neg hearlier, if_neg hresolving]
    exact h

theorem evaluateInteger_ok {text : String} :
    (evaluateEnumExpression p fuel resolve declaration memberIndex (.integer text) st).outcome =
      some (.ok result) ↔
      (Literals.mathValue (.integer text.toList) = some result.1 ∧ InRange result.1) ∧
      result.2 = st := by
  obtain ⟨value, left⟩ := result
  rw [evaluateEnumExpression, Literals.constantInteger, Literals.mathValue]
  constructor
  · intro h
    cases hparsed : Literals.parseIntegerMagnitude text.toList with
    | none =>
      rw [hparsed] at h
      exact absurd h Run.refuse_ok
    | some magnitude =>
      rw [hparsed] at h
      dsimp only at h
      by_cases hfits : (magnitude : Int) ≤ int64Max
      · rw [if_pos hfits] at h
        obtain ⟨rfl, rfl⟩ := Prod.mk.inj (Run.done_ok.mp h)
        rw [(Literals.magnitude_of_parse hparsed).1]
        have hlow : Literals.int64Min ≤ (magnitude : Int) := by
          unfold Literals.int64Min
          omega
        exact ⟨⟨rfl, hlow, hfits⟩, rfl⟩
      · rw [if_neg hfits] at h
        exact absurd h Run.refuse_ok
  · rintro ⟨⟨hvalue, _, hfits⟩, rfl⟩
    obtain ⟨magnitude, hmagnitude, rfl⟩ := Option.map_eq_some_iff.mp hvalue
    have hparsed : Literals.parseIntegerMagnitude text.toList = some magnitude := by
      refine Option.filter_eq_some_iff.mpr ⟨hmagnitude, decide_eq_true ?_⟩
      change (magnitude : Int) ≤ int64Max at hfits
      unfold int64Max at hfits
      omega
    rw [hparsed]
    change (magnitude : Int) ≤ int64Max at hfits
    dsimp only
    rw [if_pos hfits]
    exact Run.done_ok.mpr rfl

/-- A sign gives the operand or its negation, unless that overflows. -/
theorem evaluateUnary_ok {operation : Char} {left : EnumExpression}
    (hminimum : ¬ (operation = '-' ∧ left.isMinimum = true)) :
    (evaluateEnumExpression p fuel resolve declaration memberIndex (.unary operation left)
        st).outcome =
        some (.ok result) ↔
      ∃ operand,
        (evaluateEnumExpression p fuel resolve declaration memberIndex left st).outcome =
            some (.ok (operand, result.2)) ∧
          (operation = '+' ∧ result.1 = operand ∨
            operation = '-' ∧ result.1 = -operand ∧ operand ≠ Literals.int64Min) := by
  obtain ⟨value, st'⟩ := result
  rw [evaluateEnumExpression, if_neg hminimum, Run.bind_ok]
  constructor
  · rintro ⟨⟨operand, left⟩, hoperand, h⟩
    dsimp only at h
    split at h
    · next hplus =>
      obtain ⟨rfl, rfl⟩ := Prod.mk.inj (Run.done_ok.mp h)
      exact ⟨operand, hoperand, Or.inl ⟨hplus, rfl⟩⟩
    split at h
    · next hminus =>
      split at h
      · exact absurd h Run.refuse_ok
      next hfits =>
      obtain ⟨rfl, rfl⟩ := Prod.mk.inj (Run.done_ok.mp h)
      exact ⟨operand, hoperand, Or.inr ⟨hminus, rfl, hfits⟩⟩
    · exact absurd h Run.refuse_ok
  · rintro ⟨operand, hoperand, hresult⟩
    refine ⟨(operand, st'), hoperand, ?_⟩
    rcases hresult with ⟨rfl, rfl⟩ | ⟨rfl, rfl, hfits⟩
    · exact Run.done_ok.mpr rfl
    · dsimp only
      rw [if_neg (by decide), if_pos rfl, if_neg hfits]
      exact Run.done_ok.mpr rfl

/-- An operation has a value exactly if both sides and their result do. -/
theorem evaluateBinary_ok {operation : String} {left right : EnumExpression} :
    (evaluateEnumExpression p fuel resolve declaration memberIndex (.binary operation left right)
        st).outcome =
        some (.ok result) ↔
      ∃ a between b,
        (evaluateEnumExpression p fuel resolve declaration memberIndex left st).outcome =
          some (.ok (a, between)) ∧
          (evaluateEnumExpression p fuel resolve declaration memberIndex right between).outcome =
              some (.ok (b, result.2)) ∧
            Literals.constantOperation operation.toList a b = some result.1 := by
  obtain ⟨value, st'⟩ := result
  rw [evaluateEnumExpression, Run.bind_ok]
  constructor
  · rintro ⟨⟨a, between⟩, hleft, h⟩
    obtain ⟨⟨b, last⟩, hright, h⟩ := Run.bind_ok.mp h
    dsimp only at h
    split at h
    · exact absurd h Run.refuse_ok
    split at h
    · split at h
      · next value hvalue =>
        obtain ⟨rfl, rfl⟩ := Prod.mk.inj (Run.done_ok.mp h)
        exact ⟨a, between, b, hleft, hright, hvalue⟩
      · exact absurd h Run.refuse_ok
    · exact absurd h Run.refuse_ok
  · rintro ⟨a, between, b, hleft, hright, hvalue⟩
    refine ⟨(a, between), hleft, Run.bind_ok.mpr ⟨(b, st'), hright, ?_⟩⟩
    dsimp only at hvalue ⊢
    rw [if_neg (not_zero_of_constantOperation hvalue),
      if_pos (operator_of_constantOperation hvalue), hvalue]
    exact Run.done_ok.mpr rfl

end

end Cwhip.Semantic.Hierarchy
