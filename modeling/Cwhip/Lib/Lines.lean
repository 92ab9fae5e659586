/-
  Cwhip.Lib.Lines

  Texts as lines: what separators end, and what is left after the last of them.
-/

import Mathlib.Data.List.Basic

namespace Cwhip.Lib

variable {α : Type*} [DecidableEq α] {feed : α}

def endedParts (feed : α) (content : List α) : List (List α) := (content.splitOn feed).dropLast

/-- What is left after the last separator. -/
def finalPart (feed : α) (content : List α) : List α :=
  (content.splitOn feed).getLast (List.splitOn_ne_nil _ _)

/-- The lines: a part that no separator ends is one unless it is empty. -/
def lines (feed : α) (content : List α) : List (List α) :=
  endedParts feed content ++ if finalPart feed content = [] then [] else [finalPart feed content]

variable {part : List α}

theorem splitOn_part (hfree : feed ∉ part) (rest : List α) :
    (part ++ feed :: rest).splitOn feed = part :: rest.splitOn feed := by
  rw [List.splitOn_append_cons_self, List.splitOn_eq_singleton hfree, List.singleton_append]

theorem endedParts_cons (hfree : feed ∉ part) (rest : List α) :
    endedParts feed (part ++ feed :: rest) = part :: endedParts feed rest := by
  rw [endedParts, splitOn_part hfree, List.dropLast_cons_of_ne_nil (List.splitOn_ne_nil _ _),
    endedParts]

theorem finalPart_cons (hfree : feed ∉ part) (rest : List α) :
    finalPart feed (part ++ feed :: rest) = finalPart feed rest := by
  simp only [finalPart, splitOn_part hfree]
  exact List.getLast_cons (List.splitOn_ne_nil _ _)

theorem parts_free (hfree : feed ∉ part) :
    endedParts feed part = [] ∧ finalPart feed part = part := by
  simp only [endedParts, finalPart, List.splitOn_eq_singleton hfree]
  exact ⟨rfl, rfl⟩

theorem lines_cons (hfree : feed ∉ part) (rest : List α) :
    lines feed (part ++ feed :: rest) = part :: lines feed rest := by
  rw [lines, endedParts_cons hfree, finalPart_cons hfree, List.cons_append, lines]

theorem endedParts_length (content : List α) :
    (endedParts feed content).length = content.count feed := by
  rw [endedParts, List.length_dropLast]
  induction content with
  | nil => rfl
  | cons a content ih =>
    have hsome := List.length_pos_iff.mpr (List.splitOn_ne_nil feed content)
    rw [List.splitOn_cons_eq_if_modifyHead]
    split
    · next heq =>
      rw [beq_iff_eq.mp heq, List.count_cons_self, List.length_cons]
      omega
    · next heq =>
      rw [List.count_cons_of_ne (fun h => heq (beq_iff_eq.mpr h)), List.length_modifyHead]
      exact ih

theorem lines_length (content : List α) :
    (lines feed content).length
      = content.count feed + if finalPart feed content = [] then 0 else 1 := by
  rw [lines, List.length_append, endedParts_length]
  split <;> rfl

end Cwhip.Lib
