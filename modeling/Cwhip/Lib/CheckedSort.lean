/-
  Cwhip.Lib.CheckedSort

  Stable sorting, greatest first, by a comparison that may fail.

  Which pairs a sort compares is its own choice.  It has to compare neighbours
  of the result, so where a comparison between two elements can only fail if one
  with an element between them does, the sort fails exactly when some comparison
  of two elements does.
-/

import Cwhip.Lib.Except
import Mathlib.Data.List.TakeWhile
import Mathlib.Order.Lattice

namespace Cwhip.Lib

universe u

variable {ε : Type u} {α : Type} {κ : Type*} [LinearOrder κ]

/-- Insert before the first element that is not greater. -/
def insertGreatest (compare : α → α → Except ε Int) (a : α) : List α → Except ε (List α)
  | [] => .ok [a]
  | b :: rest => do
      let sign ← compare a b
      if sign < 0 then do
        let inserted ← insertGreatest compare a rest
        return b :: inserted
      else return a :: b :: rest

def sortGreatest (compare : α → α → Except ε Int) : List α → Except ε (List α)
  | [] => .ok []
  | a :: rest => do
      let sorted ← sortGreatest compare rest
      insertGreatest compare a sorted

structure ComparesKeys (compare : α → α → Except ε Int) (key : α → κ) (Allowed : α → α → Prop) :
    Prop where
  returns : ∀ a b, Allowed a b → ∃ sign, compare a b = .ok sign ∧ (sign < 0 ↔ key a < key b)
  allowed : ∀ a b sign, compare a b = .ok sign → Allowed a b
  symm : ∀ a b, Allowed a b → Allowed b a
  between : ∀ a b c, key b ≤ key a → key c ≤ key b → Allowed a b → Allowed b c → Allowed a c

section

variable {compare : α → α → Except ε Int} {key : α → κ} {Allowed : α → α → Prop}
  (h : ComparesKeys compare key Allowed)

include h

variable {a : α} {sorted result elements : List α}

theorem ComparesKeys.sign {b : α} {sign : Int} (hsign : compare a b = .ok sign) :
    sign < 0 ↔ key a < key b := by
  obtain ⟨other, hother, hless⟩ := h.returns a b (h.allowed a b sign hsign)
  rw [hsign] at hother
  cases hother
  exact hless

theorem insertGreatest_returns (hallowed : ∀ b ∈ sorted, Allowed a b) :
    ∃ result, insertGreatest compare a sorted = .ok result := by
  induction sorted with
  | nil => exact ⟨[a], rfl⟩
  | cons b rest ih =>
    obtain ⟨hb, hrest⟩ := List.forall_mem_cons.mp hallowed
    obtain ⟨sign, hsign, _⟩ := h.returns a b hb
    obtain ⟨result, hresult⟩ := ih hrest
    rw [insertGreatest, hsign, ok_bind, hresult]
    by_cases hless : sign < 0
    · exact ⟨b :: result, by rw [if_pos hless]; rfl⟩
    · exact ⟨a :: b :: rest, by rw [if_neg hless]; rfl⟩

/-- An element goes behind all that are not less. -/
theorem insertGreatest_eq (hresult : insertGreatest compare a sorted = .ok result) :
    result = sorted.takeWhile (fun b => decide (key a < key b)) ++
      a :: sorted.dropWhile (fun b => decide (key a < key b)) := by
  induction sorted generalizing result with
  | nil =>
    cases hresult
    rfl
  | cons b rest ih =>
    rw [insertGreatest] at hresult
    obtain ⟨sign, hsign, hresult⟩ := bind_eq_ok.mp hresult
    have hless := h.sign hsign
    split at hresult
    · next hneg =>
      obtain ⟨inserted, hinserted, heq⟩ := bind_eq_ok.mp hresult
      have hkey : decide (key a < key b) = true := decide_eq_true (hless.mp hneg)
      cases heq
      rw [List.takeWhile_cons, List.dropWhile_cons, if_pos hkey, if_pos hkey, ih hinserted]
      rfl
    · next hneg =>
      have hkey : ¬ decide (key a < key b) = true := by
        rw [decide_eq_true_iff, ← hless]
        exact hneg
      cases hresult
      rw [List.takeWhile_cons, List.dropWhile_cons, if_neg hkey, if_neg hkey]
      rfl

theorem insertGreatest_perm
    (hresult : insertGreatest compare a sorted = .ok result) : result.Perm (a :: sorted) := by
  rw [insertGreatest_eq h hresult]
  refine List.perm_middle.trans (List.Perm.cons a ?_)
  rw [List.takeWhile_append_dropWhile]

theorem insertGreatest_allowed (hsorted : sorted.Pairwise fun b c => key c ≤ key b)
    (hpairs : sorted.Pairwise Allowed)
    (hresult : insertGreatest compare a sorted = .ok result) : ∀ b ∈ sorted, Allowed a b := by
  induction sorted generalizing result with
  | nil => exact List.forall_mem_nil _
  | cons b rest ih =>
    obtain ⟨hbelow, hrest⟩ := List.pairwise_cons.mp hsorted
    obtain ⟨hb, hpairs⟩ := List.pairwise_cons.mp hpairs
    rw [insertGreatest] at hresult
    obtain ⟨sign, hsign, hresult⟩ := bind_eq_ok.mp hresult
    have hab := h.allowed a b sign hsign
    refine List.forall_mem_cons.mpr ⟨hab, ?_⟩
    split at hresult
    · obtain ⟨inserted, hinserted, _⟩ := bind_eq_ok.mp hresult
      exact ih hrest hpairs hinserted
    · next hneg =>
      -- all further elements are at most `b`, which is at most `a`
      intro c hc
      have hle : key b ≤ key a := not_lt.mp fun hlt => hneg ((h.sign hsign).mpr hlt)
      exact h.between a b c hle (hbelow c hc) hab (hb c hc)

/-- Inserting keeps the order. -/
theorem insertGreatest_sorted (hsorted : sorted.Pairwise fun b c => key c ≤ key b)
    (hresult : insertGreatest compare a sorted = .ok result) : result.Pairwise fun b c =>
    key c ≤ key b := by
  induction sorted generalizing result with
  | nil =>
    cases hresult
    exact List.pairwise_singleton _ a
  | cons b rest ih =>
    obtain ⟨hbelow, hrest⟩ := List.pairwise_cons.mp hsorted
    rw [insertGreatest] at hresult
    obtain ⟨sign, hsign, hresult⟩ := bind_eq_ok.mp hresult
    have hless := h.sign hsign
    split at hresult
    · next hneg =>
      obtain ⟨inserted, hinserted, heq⟩ := bind_eq_ok.mp hresult
      cases heq
      refine List.pairwise_cons.mpr ⟨fun c hc => ?_, ih hrest hinserted⟩
      rcases List.mem_cons.mp ((insertGreatest_perm h hinserted).mem_iff.mp hc) with rfl | hc
      · exact (hless.mp hneg).le
      · exact hbelow c hc
    · next hneg =>
      have hle : key b ≤ key a := not_lt.mp fun hlt => hneg (hless.mpr hlt)
      cases hresult
      refine List.pairwise_cons.mpr ⟨fun c hc => ?_, hsorted⟩
      rcases List.mem_cons.mp hc with rfl | hc
      · exact hle
      · exact (hbelow c hc).trans hle

/-! ## The sort -/

theorem sortGreatest_perm (hresult : sortGreatest compare elements = .ok result) :
    result.Perm elements := by
  induction elements generalizing result with
  | nil =>
    cases hresult
    exact List.Perm.refl []
  | cons a rest ih =>
    rw [sortGreatest] at hresult
    obtain ⟨sorted, hsorted, hinsert⟩ := bind_eq_ok.mp hresult
    exact (insertGreatest_perm h hinsert).trans ((ih hsorted).cons a)

theorem sortGreatest_sorted (hresult : sortGreatest compare elements = .ok result) :
    result.Pairwise fun b c => key c ≤ key b := by
  induction elements generalizing result with
  | nil =>
    cases hresult
    exact List.Pairwise.nil
  | cons a rest ih =>
    rw [sortGreatest] at hresult
    obtain ⟨sorted, hsorted, hinsert⟩ := bind_eq_ok.mp hresult
    exact insertGreatest_sorted h (ih hsorted) hinsert

/-- A sort that returns has compared every pair. -/
theorem sortGreatest_allowed (hresult : sortGreatest compare elements = .ok result) :
    elements.Pairwise Allowed := by
  induction elements generalizing result with
  | nil => exact List.Pairwise.nil
  | cons a rest ih =>
    rw [sortGreatest] at hresult
    obtain ⟨sorted, hsorted, hinsert⟩ := bind_eq_ok.mp hresult
    have hperm := sortGreatest_perm h hsorted
    have hpairs := ih hsorted
    have hsortedPairs : sorted.Pairwise Allowed := (hperm.pairwise_iff (h.symm _ _)).mpr hpairs
    have ha := insertGreatest_allowed h (sortGreatest_sorted h hsorted) hsortedPairs hinsert
    exact List.pairwise_cons.mpr ⟨fun b hb => ha b (hperm.mem_iff.mpr hb), hpairs⟩

/-- It returns where all pairs may be compared. -/
theorem sortGreatest_returns (hpairs : elements.Pairwise Allowed) :
    ∃ result, sortGreatest compare elements = .ok result := by
  induction elements with
  | nil => exact ⟨[], rfl⟩
  | cons a rest ih =>
    obtain ⟨ha, hpairs⟩ := List.pairwise_cons.mp hpairs
    obtain ⟨sorted, hsorted⟩ := ih hpairs
    have hperm := sortGreatest_perm h hsorted
    obtain ⟨result, hresult⟩ := insertGreatest_returns h fun b hb => ha b (hperm.mem_iff.mp hb)
    exact ⟨result, by rw [sortGreatest, hsorted, ok_bind, hresult]⟩

/-! ## The first of some of the elements -/

/-- The first element with a property is the greatest with it. -/
theorem sortGreatest_find (hresult : sortGreatest compare elements = .ok result) {p : α → Bool}
    (hfind : result.find? p = some a) :
    a ∈ elements ∧ p a = true ∧ ∀ b ∈ elements, p b = true → key b ≤ key a := by
  obtain ⟨hp, before, after, hsplit, hbefore⟩ := List.find?_eq_some_iff_append.mp hfind
  have hperm := sortGreatest_perm h hresult
  refine ⟨hperm.mem_iff.mp (List.mem_of_find?_eq_some hfind), hp, fun b hb hpb => ?_⟩
  have hmem := hperm.mem_iff.mpr hb
  have hsorted := sortGreatest_sorted h hresult
  rw [hsplit] at hmem hsorted
  rcases List.mem_append.mp hmem with hfirst | hlast
  · have hnot := hbefore b hfirst
    rw [hpb] at hnot
    cases hnot
  · rcases List.mem_cons.mp hlast with rfl | hlast
    · exact le_rfl
    · exact (List.pairwise_cons.mp (List.pairwise_append.mp hsorted).2.1).1 b hlast

theorem sortGreatest_find_head {rest : List α}
    (hresult : sortGreatest compare (a :: rest) = .ok result) {p : α → Bool} (ha : p a = true)
    (hgreatest : ∀ b ∈ rest, p b = true → key b ≤ key a) : result.find? p = some a := by
  rw [sortGreatest] at hresult
  obtain ⟨sorted, hsorted, hinsert⟩ := bind_eq_ok.mp hresult
  rw [insertGreatest_eq h hinsert, List.find?_append, List.find?_cons_of_pos ha]
  have hnone : (sorted.takeWhile fun b => decide (key a < key b)).find? p = none := by
    rw [List.find?_eq_none]
    intro b hb hpb
    have hless := List.mem_takeWhile_imp hb
    have hmem := (sortGreatest_perm h hsorted).mem_iff.mp ((List.takeWhile_prefix _).subset hb)
    exact absurd (of_decide_eq_true hless) (hgreatest b hmem hpb).not_gt
  rw [hnone]
  rfl

end

end Cwhip.Lib
