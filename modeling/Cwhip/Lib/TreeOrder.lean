/-
  Cwhip.Lib.TreeOrder

  A tree with the edges of its nodes in another order.

  The order is chosen by the label of a node, so that equal nodes stay equal.
  What is below a node does not depend on it.
-/

import Cwhip.Lib.SharedTree

namespace Cwhip.Lib

variable {ν ε : Type}

/-- An order of the edges, for each label. -/
def Reorders (order : ν → List (ε × Tree ν ε) → List (ε × Tree ν ε)) : Prop :=
  ∀ label edges, (order label edges).Perm edges

section

variable (order : ν → List (ε × Tree ν ε) → List (ε × Tree ν ε))

mutual

/-- The tree with the edges of each node in the order. -/
def Tree.reorder : Tree ν ε → Tree ν ε
  | .node label edges => .node label (.ofList (order label edges.reorder))

def Edges.reorder : Edges ν ε → List (ε × Tree ν ε)
  | .nil => []
  | .cons edge child rest => (edge, child.reorder) :: rest.reorder

end

variable {order}

@[simp] theorem Tree.reorder_label (t : Tree ν ε) : (t.reorder order).label = t.label := by
  cases t
  rw [Tree.reorder]
  rfl

theorem Edges.reorder_eq (edges : Edges ν ε) :
    edges.reorder order = edges.toList.map fun e => (e.1, e.2.reorder order) := by
  cases edges with
  | nil => rw [Edges.reorder]; rfl
  | cons edge child rest => rw [Edges.reorder, Edges.reorder_eq rest]; rfl

theorem Tree.reorder_edges (t : Tree ν ε) :
    (t.reorder order).edges = order t.label (t.edges.map fun e => (e.1, e.2.reorder order)) := by
  cases t with
  | node label edges =>
    rw [Tree.reorder, Tree.edges, Edges.toList_ofList, Edges.reorder_eq]
    rfl

mutual

theorem Tree.reorder_self (t : Tree ν ε) : t.reorder (fun _ edges => edges) = t := by
  match t with
  | .node label edges => rw [Tree.reorder, Edges.ofList_reorder_self edges]

theorem Edges.ofList_reorder_self (edges : Edges ν ε) :
    Edges.ofList (edges.reorder fun _ edges => edges) = edges := by
  match edges with
  | .nil => rw [Edges.reorder, Edges.ofList]
  | .cons edge child rest =>
    rw [Edges.reorder, Edges.ofList, Tree.reorder_self child, Edges.ofList_reorder_self rest]

end

variable (h : Reorders order)
include h

theorem Tree.reorder_edges_perm (t : Tree ν ε) :
    (t.reorder order).edges.Perm (t.edges.map fun e => (e.1, e.2.reorder order)) := by
  rw [Tree.reorder_edges]
  exact h _ _

theorem Tree.mem_reorder_edges {t : Tree ν ε} {e : ε × Tree ν ε} :
    e ∈ (t.reorder order).edges ↔ ∃ e' ∈ t.edges, e = (e'.1, e'.2.reorder order) := by
  rw [(t.reorder_edges_perm h).mem_iff, List.mem_map]
  exact exists_congr fun e' => and_congr_right fun _ => eq_comm

theorem Tree.mem_reorder_subtrees (t : Tree ν ε) {u : Tree ν ε} :
    u ∈ (t.reorder order).subtrees ↔ ∃ u' ∈ t.subtrees, u = u'.reorder order := by
  have hinner : ∀ e ∈ t.edges, (u ∈ (e.2.reorder order).subtrees ↔ ∃ u' ∈ e.2.subtrees,
      u = u'.reorder order) := by
    intro e he
    have hbelow : e.2.Below t := ⟨e, he, Tree.mem_subtrees_self _⟩
    exact Tree.mem_reorder_subtrees e.2
  rw [Tree.mem_subtrees]
  constructor
  · rintro (rfl | ⟨e, he, hu⟩)
    · exact ⟨t, Tree.mem_subtrees_self t, rfl⟩
    · obtain ⟨e', he', rfl⟩ := (Tree.mem_reorder_edges h).mp he
      obtain ⟨u', hu', rfl⟩ := (hinner e' he').mp hu
      exact ⟨u', Tree.mem_subtrees.mpr (.inr ⟨e', he', hu'⟩), rfl⟩
  · rintro ⟨u', hu', rfl⟩
    rcases Tree.mem_subtrees.mp hu' with rfl | ⟨e', he', hbelow⟩
    · exact .inl rfl
    · exact .inr ⟨_, (Tree.mem_reorder_edges h).mpr ⟨e', he', rfl⟩,
        (hinner e' he').mpr ⟨u', hbelow, rfl⟩⟩
termination_by Tree.below_wellFounded.wrap t
decreasing_by exact hbelow

end

end Cwhip.Lib
