/-
  Cwhip.Lib.Dominance

  The undominated elements of a finite list under a strict partial order.

  There is exactly one of them if and only if some element dominates all
  others, and it does not depend on the order of the list.
-/

import Mathlib.Data.List.Perm.Basic
import Mathlib.Data.List.Nodup

namespace Cwhip.Lib

variable {α : Type}

/-- A test that is a strict partial order of the elements of a list. -/
structure StrictOrder (beats : α → α → Bool) (l : List α) : Prop where
  irrefl : ∀ x ∈ l, beats x x = false
  trans : ∀ x ∈ l, ∀ y ∈ l, ∀ z ∈ l, beats x y = true → beats y z = true → beats x z = true

/-- The elements that no other one beats. -/
def undominated (beats : α → α → Bool) (l : List α) : List α :=
  l.filter fun x => !l.any fun y => beats y x

variable {beats : α → α → Bool} {l : List α} {x : α}

theorem mem_undominated :
    x ∈ undominated beats l ↔ x ∈ l ∧ ∀ y ∈ l, beats y x = false := by
  unfold undominated
  rw [List.mem_filter, Bool.not_eq_true', List.any_eq_false]
  simp

theorem StrictOrder.exists_undominated (h : StrictOrder beats l)
    (hx : x ∈ l) : ∃ y ∈ undominated beats l, y = x ∨ beats y x = true := by
  -- induction on the number of elements that beat `x`
  induction hcount : (l.filter fun y => beats y x).length using Nat.strongRecOn generalizing x with
  | _ count ih =>
    by_cases htop : ∀ y ∈ l, beats y x = false
    · exact ⟨x, mem_undominated.mpr ⟨hx, htop⟩, .inl rfl⟩
    · simp only [not_forall, Bool.not_eq_false] at htop
      obtain ⟨z, hz, hbeats⟩ := htop
      have hsub : ∀ y ∈ l, beats y z = true → beats y x = true :=
        fun y hmem hy => h.trans y hmem z hz x hx hy hbeats
      have hless : (l.filter fun y => beats y z).length < count := by
        have hsplit : (l.filter fun y => beats y z)
            = (l.filter fun y => beats y x).filter fun y => beats y z := by
          rw [List.filter_filter]
          apply List.filter_congr
          intro y hmem
          cases hy : beats y z with
          | false => rfl
          | true => rw [hsub y hmem hy, Bool.true_and]
        have hmem : z ∈ l.filter fun y => beats y x := List.mem_filter.mpr ⟨hz, hbeats⟩
        rw [hsplit, ← hcount, ← List.countP_eq_length_filter]
        apply Nat.lt_of_le_of_ne List.countP_le_length
        intro hall
        have hself := (List.countP_eq_length.mp hall) z hmem
        rw [h.irrefl z hz] at hself
        cases hself
      obtain ⟨y, hy, hor⟩ := ih _ hless hz rfl
      refine ⟨y, hy, .inr ?_⟩
      rcases hor with rfl | hyz
      · exact hbeats
      · exact hsub y (mem_undominated.mp hy).1 hyz

theorem StrictOrder.undominated_eq_singleton_iff (h : StrictOrder beats l) (hl : l.Nodup) {c : α} :
    undominated beats l = [c] ↔ c ∈ l ∧ ∀ other ∈ l, other ≠ c → beats c other = true := by
  constructor
  · intro hone
    have hc : c ∈ undominated beats l := hone ▸ List.mem_singleton_self c
    refine ⟨(mem_undominated.mp hc).1, fun other hother hne => ?_⟩
    obtain ⟨y, hy, hor⟩ := h.exists_undominated hother
    rw [hone, List.mem_singleton] at hy
    subst hy
    exact hor.resolve_left fun heq => hne heq.symm
  · rintro ⟨hc, hall⟩
    have hmem : ∀ x, x ∈ undominated beats l ↔ x ∈ [c] := by
      intro x
      rw [mem_undominated, List.mem_singleton]
      constructor
      · rintro ⟨hx, htop⟩
        by_contra hne
        have hbeaten := htop c hc
        rw [hall x hx hne] at hbeaten
        cases hbeaten
      · rintro rfl
        refine ⟨hc, fun y hy => ?_⟩
        by_cases hyx : y = x
        · rw [hyx]
          exact h.irrefl x hc
        · by_contra hbeats
          have hcycle := h.trans x hc y hy x hc (hall y hy hyx) (by simpa using hbeats)
          rw [h.irrefl x hc] at hcycle
          cases hcycle
    have hperm : (undominated beats l).Perm [c] :=
      (List.perm_ext_iff_of_nodup (hl.filter _) (List.nodup_singleton c)).mpr hmem
    exact List.perm_singleton.mp hperm

theorem undominated_perm {l' : List α} (hperm : l.Perm l') :
    (undominated beats l).Perm (undominated beats l') := by
  unfold undominated
  have hany : ∀ x, (l.any fun y => beats y x) = l'.any fun y => beats y x := by
    intro x
    rw [Bool.eq_iff_iff, List.any_eq_true, List.any_eq_true]
    exact exists_congr fun y => and_congr_left fun _ => hperm.mem_iff
  simp only [hany]
  exact hperm.filter _

end Cwhip.Lib
