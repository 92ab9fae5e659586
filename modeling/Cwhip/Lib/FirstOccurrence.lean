/-
  Cwhip.Lib.FirstOccurrence

  Lists that are collected without repetitions, each value where it is first met.
-/

import Mathlib.Data.List.Induction
import Mathlib.Data.List.Nodup

namespace Cwhip.Lib

variable {α β : Type*} [DecidableEq α] [DecidableEq β]

def appendUnique (values : List α) (value : α) : List α :=
  if value ∈ values then values else values ++ [value]

def appendAllUnique (values more : List α) : List α := more.foldl appendUnique values

variable {values more : List α} {value a first second : α}

theorem appendUnique_of_mem (h : value ∈ values) :
    appendUnique values value = values := if_pos h

theorem appendUnique_of_not_mem (h : value ∉ values) :
    appendUnique values value = values ++ [value] := if_neg h

theorem mem_appendUnique :
    a ∈ appendUnique values value ↔ a ∈ values ∨ a = value := by
  unfold appendUnique
  split
  · next hmem =>
    constructor
    · exact Or.inl
    · rintro (h | rfl)
      · exact h
      · exact hmem
  · rw [List.mem_append, List.mem_singleton]

theorem nodup_appendUnique (h : values.Nodup) :
    (appendUnique values value).Nodup := by
  unfold appendUnique
  split
  · exact h
  · next hmem =>
    rw [← List.concat_eq_append]
    exact h.concat hmem

theorem appendAllUnique_nil (values : List α) : appendAllUnique values [] = values := rfl

theorem appendAllUnique_cons (values more : List α) (value : α) :
    appendAllUnique values (value :: more) = appendAllUnique (appendUnique values value) more := rfl

theorem appendAllUnique_append (values first second : List α) :
    appendAllUnique values (first ++ second) = appendAllUnique
    (appendAllUnique values first) second :=
  List.foldl_append

theorem mem_appendAllUnique :
    a ∈ appendAllUnique values more ↔ a ∈ values ∨ a ∈ more := by
  induction more generalizing values with
  | nil => simp [appendAllUnique_nil]
  | cons value more ih => rw [appendAllUnique_cons, ih, mem_appendUnique, List.mem_cons, or_assoc]

theorem nodup_appendAllUnique (h : values.Nodup) :
    (appendAllUnique values more).Nodup := by
  induction more generalizing values with
  | nil => exact h
  | cons value more ih => exact ih (nodup_appendUnique h)

theorem appendAllUnique_of_nodup (h : (values ++ more).Nodup) :
    appendAllUnique values more = values ++ more := by
  induction more generalizing values with
  | nil => rw [appendAllUnique_nil, List.append_nil]
  | cons value more ih =>
    have hnew : value ∉ values := by
      rw [List.nodup_append] at h
      exact fun hmem => h.2.2 value hmem value List.mem_cons_self rfl
    rw [List.append_cons] at h
    rw [appendAllUnique_cons, appendUnique_of_not_mem hnew, ih h, ← List.append_cons]

theorem appendAllUnique_eraseDups {α : Type*} [DecidableEq α] [BEq α] [LawfulBEq α]
    (values : List α) :
    appendAllUnique [] values = values.eraseDups := by
  induction values using List.reverseRecOn with
  | nil => rfl
  | append_singleton values value ih =>
    rw [appendAllUnique_append, ih, List.eraseDups_append, appendAllUnique_cons,
      appendAllUnique_nil]
    by_cases hmem : value ∈ values
    · rw [appendUnique_of_mem (List.mem_eraseDups.mpr hmem)]
      simp [List.removeAll, hmem]
    · rw [appendUnique_of_not_mem (fun h => hmem (List.mem_eraseDups.mp h))]
      simp [List.removeAll, hmem, List.eraseDups_cons]

theorem appendAllUnique_of_subset (h : more ⊆ values) :
    appendAllUnique values more = values := by
  induction more with
  | nil => rfl
  | cons value more ih =>
    rw [List.cons_subset] at h
    rw [appendAllUnique_cons, appendUnique_of_mem h.1, ih h.2]

theorem appendAllUnique_flatMap (f : β → List α) (values : List α) (met more : List β) :
    appendAllUnique values ((appendAllUnique met more).flatMap f) =
      appendAllUnique values ((met ++ more).flatMap f) := by
  induction more generalizing met with
  | nil => rw [appendAllUnique_nil, List.append_nil]
  | cons b more ih =>
    rw [appendAllUnique_cons]
    by_cases hmet : b ∈ met
    · have hsubset : f b ⊆ appendAllUnique values (met.flatMap f) := fun a ha =>
        mem_appendAllUnique.mpr (Or.inr (List.mem_flatMap.mpr ⟨b, hmet, ha⟩))
      rw [appendUnique_of_mem hmet, ih, List.flatMap_append, List.flatMap_append, List.flatMap_cons,
        appendAllUnique_append, appendAllUnique_append, appendAllUnique_append,
        appendAllUnique_of_subset hsubset]
    · rw [appendUnique_of_not_mem hmet, ih, List.append_assoc, List.singleton_append]

/-! ## Which of two values is met first -/

/-- Along the list, `first` is met before `second`. -/
def Precedes (first second : α) : List α → Prop
  | [] => False
  | a :: rest => a = first ∨ (a ≠ second ∧ Precedes first second rest)

theorem precedes_iff_idxOf {α : Type*} [BEq α] [LawfulBEq α] {first second : α}
    (hne : first ≠ second) (l : List α) :
    Precedes first second l ↔ l.idxOf first < l.idxOf second := by
  induction l with
  | nil => simp [Precedes]
  | cons a rest ih =>
    rw [Precedes, ih]
    by_cases hfirst : a = first
    · subst hfirst
      rw [List.idxOf_cons_self, List.idxOf_cons_ne _ hne]
      simp
    · rw [List.idxOf_cons_ne _ hfirst]
      by_cases hsecond : a = second
      · subst hsecond
        simp [hfirst]
      · rw [List.idxOf_cons_ne _ hsecond]
        simp [hfirst, hsecond]

omit [DecidableEq α] in
theorem Precedes.mem {l : List α} (h : Precedes first second l) : first ∈ l := by
  induction l with
  | nil => cases h
  | cons a rest ih =>
    rcases h with rfl | ⟨-, hrest⟩
    · exact List.mem_cons_self
    · exact List.mem_cons_of_mem _ (ih hrest)

omit [DecidableEq α] in
/-- What follows does not matter once one of the two was met. -/
theorem precedes_append_left {l : List α} (h : first ∈ l ∨ second ∈ l) (rest : List α) :
    Precedes first second (l ++ rest) ↔ Precedes first second l := by
  induction l with
  | nil => simp at h
  | cons a l ih =>
    rw [List.cons_append, Precedes, Precedes]
    by_cases hfirst : a = first
    · simp [hfirst]
    · by_cases hsecond : a = second
      · simp [hsecond]
      · rw [ih]
        simpa [Ne.symm hfirst, Ne.symm hsecond] using h

omit [DecidableEq α] in
theorem precedes_append_right {l : List α} (hfirst : first ∉ l) (hsecond : second ∉ l)
    (rest : List α) :
    Precedes first second (l ++ rest) ↔ Precedes first second rest := by
  induction l with
  | nil => rfl
  | cons a l ih =>
    rw [List.mem_cons, not_or] at hfirst hsecond
    rw [List.cons_append, Precedes, ih hfirst.2 hsecond.2]
    simp [Ne.symm hfirst.1, Ne.symm hsecond.1]

omit [DecidableEq α] in
theorem precedes_insert (hfirst : a ≠ first) (hsecond : a ≠ second) (l rest : List α) :
    Precedes first second (l ++ a :: rest) ↔ Precedes first second (l ++ rest) := by
  induction l with
  | nil => simp [Precedes, hfirst, hsecond]
  | cons b l ih => rw [List.cons_append, List.cons_append, Precedes, Precedes, ih]

theorem precedes_again {l : List α} (h : a ∈ l) (rest : List α) :
    Precedes first second (l ++ a :: rest) ↔ Precedes first second (l ++ rest) := by
  induction l with
  | nil => cases h
  | cons b l ih =>
    rw [List.cons_append, List.cons_append, Precedes, Precedes]
    rcases List.mem_cons.mp h with rfl | hmem
    · by_cases hfirst : a = first
      · simp [hfirst]
      · by_cases hsecond : a = second
        · simp [hsecond]
        · rw [precedes_insert hfirst hsecond]
    · rw [ih hmem]

theorem precedes_appendAllUnique (values more : List α) :
    Precedes first second (appendAllUnique values more) ↔
    Precedes first second (values ++ more) := by
  induction more generalizing values with
  | nil => rw [appendAllUnique_nil, List.append_nil]
  | cons value more ih =>
    rw [appendAllUnique_cons, ih]
    by_cases hmem : value ∈ values
    · rw [appendUnique_of_mem hmem, precedes_again hmem]
    · rw [appendUnique_of_not_mem hmem, List.append_assoc, List.singleton_append]

theorem idxOf_appendAllUnique [BEq α] [LawfulBEq α] (hne : first ≠ second) (l : List α) :
    (appendAllUnique [] l).idxOf first < (appendAllUnique [] l).idxOf second ↔
      l.idxOf first < l.idxOf second := by
  rw [← precedes_iff_idxOf hne, ← precedes_iff_idxOf hne, precedes_appendAllUnique, List.nil_append]

end Cwhip.Lib
