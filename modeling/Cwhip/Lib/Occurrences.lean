/-
  Cwhip.Lib.Occurrences

  Where a list occurs in another, and the fields between its occurrences, taken from
  the left.
-/

import Mathlib.Data.List.Basic

namespace Cwhip.Lib

variable {α : Type*}

/-- The needle stands at this position. -/
def OccursAt (data needle : List α) (position : Nat) : Prop :=
  position ≤ data.length ∧ needle <+: data.drop position

instance [DecidableEq α] (data needle : List α) (position : Nat) :
    Decidable (OccursAt data needle position) :=
  inferInstanceAs (Decidable (_ ∧ _))

theorem occursAt_iff {data needle : List α} {position : Nat} :
    OccursAt data needle position ↔
      position + needle.length ≤ data.length ∧ (data.drop position).take needle.length =
      needle := by
  rw [OccursAt, List.prefix_iff_eq_take]
  constructor
  · rintro ⟨hle, heq⟩
    have hlength := congrArg List.length heq
    rw [List.length_take, List.length_drop] at hlength
    exact ⟨by omega, heq.symm⟩
  · rintro ⟨hle, heq⟩
    exact ⟨by omega, heq.symm⟩

theorem occursAt_drop {data needle : List α} {start position : Nat} (hstart : start ≤ data.length) :
    OccursAt (data.drop start) needle position ↔ OccursAt data needle (start + position) := by
  rw [OccursAt, OccursAt, List.drop_drop, List.length_drop]
  exact and_congr_left fun _ => by omega

theorem occursAt_append {data rest needle : List α} {position : Nat}
    (h : OccursAt data needle position) :
    OccursAt (data ++ rest) needle position := by
  obtain ⟨hle, hneedle⟩ := h
  refine ⟨?_, ?_⟩
  · rw [List.length_append]
    omega
  · rw [List.drop_append_of_le_length hle]
    exact hneedle.trans (List.prefix_append _ _)

theorem occursAt_behind (field needle rest : List α) :
    OccursAt (field ++ (needle ++ rest)) needle field.length := by
  refine ⟨by rw [List.length_append]; omega, ?_⟩
  rw [List.drop_left]
  exact List.prefix_append _ _

/-- The fields of a list: between the leftmost occurrences of the needle that do not
    overlap. -/
inductive Fields (needle : List α) : List α → List (List α) → Prop where
  | last {data : List α} (hnone : ∀ position, ¬ OccursAt data needle position) :
      Fields needle data [data]
  | cons {field rest : List α} {fields : List (List α)}
      (hleftmost : ∀ position < field.length, ¬ OccursAt (field ++ (needle ++ rest))
        needle position)
      (h : Fields needle rest fields) : Fields needle (field ++ (needle ++ rest)) (field :: fields)

namespace Fields

variable {needle data : List α} {fields : List (List α)}

theorem ne_nil (h : Fields needle data fields) : fields ≠ [] := by
  cases h with
  | last _ | cons _ _ => exact List.cons_ne_nil _ _

theorem intercalate_eq (h : Fields needle data fields) : needle.intercalate fields = data := by
  induction h with
  | last _ => rw [List.intercalate_singleton]
  | cons _ h ih => rw [List.intercalate_cons_of_ne_nil h.ne_nil, ih, List.append_assoc]

theorem not_occursAt (hneedle : needle ≠ []) (h : Fields needle data fields) {field : List α}
    (hfield : field ∈ fields) (position : Nat) : ¬ OccursAt field needle position := by
  induction h with
  | last hnone =>
    obtain rfl := List.mem_singleton.mp hfield
    exact hnone position
  | @cons first rest fields hleftmost _ ih =>
    rcases List.mem_cons.mp hfield with rfl | hmem
    · intro hoccurs
      have hbound := (occursAt_iff.mp hoccurs).1
      have hpos := List.length_pos_iff.mpr hneedle
      exact hleftmost position (by omega) (occursAt_append hoccurs)
    · exact ih hmem

theorem unique {fields' : List (List α)} (h : Fields needle data fields)
    (h' : Fields needle data fields') :
    fields = fields' := by
  induction h generalizing fields' with
  | last hnone =>
    cases h' with
    | last _ => rfl
    | cons _ _ => exact absurd (occursAt_behind _ _ _) (hnone _)
  | @cons field rest fields hleftmost h ih =>
    generalize hdata : field ++ (needle ++ rest) = data at h'
    cases h' with
    | last hnone =>
      rw [← hdata] at hnone
      exact absurd (occursAt_behind _ _ _) (hnone _)
    | @cons field' rest' fields'' hleftmost' h' =>
      -- the first occurrence is where it is
      have hlength : field.length = field'.length := by
        rcases Nat.lt_trichotomy field.length field'.length with hlt | heq | hgt
        · refine absurd ?_ (hleftmost' _ hlt)
          rw [← hdata]
          exact occursAt_behind _ _ _
        · exact heq
        · refine absurd ?_ (hleftmost _ hgt)
          rw [hdata]
          exact occursAt_behind _ _ _
      obtain ⟨rfl, hrest⟩ := List.append_inj hdata hlength
      obtain rfl := List.append_cancel_left hrest
      rw [ih h']

end Fields

end Cwhip.Lib
