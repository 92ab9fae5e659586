/-
  Cwhip.Lib.Colouring

  Depth-first search with three colours, over an arbitrary node type: a node is
  unseen, on the path (1) or done (2), and to meet a node of the path again is an
  error.

  A done node is accessible along the edges, so a search that returns leaves no
  cycle through the nodes it was started from; and every call colours a node, so
  the depth of the recursion is bounded by the number of nodes.
-/

import Mathlib.Data.Finset.Card
import Mathlib.Logic.Function.Basic
import Cwhip.Lib.Except

namespace Cwhip.Lib.Colouring

open Function (update_of_ne update_self)

variable {ν ε : Type} [DecidableEq ν]

/-- `cyclic` is the error for a node of the path, `exhausted` the one for too
    small a bound of the recursion. -/
def visit (successors : ν → Except ε (List ν)) (cyclic : ν → ε) (exhausted : ε) :
    Nat → (ν → Nat) → ν → Except ε (ν → Nat)
  | 0, _, _ => .error exhausted
  | fuel + 1, states, name =>
    if states name = 1 then .error (cyclic name)
    else if states name = 2 then .ok states
    else do
      let next ← successors name
      let states ← next.foldlM (visit successors cyclic exhausted fuel)
        (Function.update states name 1)
      pure (Function.update states name 2)

/-- An edge, against its direction. -/
def Below (successors : ν → Except ε (List ν)) (b a : ν) : Prop := ∃ next, successors a = .ok next ∧
    b ∈ next

def Unseen (states : ν → Nat) (name : ν) : Prop := states name ≠ 1 ∧ states name ≠ 2

instance (states : ν → Nat) (name : ν) : Decidable (Unseen states name) := by
  unfold Unseen
  infer_instance

/-- Done nodes stay done, and no node becomes unseen. -/
structure Extends (states states' : ν → Nat) : Prop where
  done : ∀ name, states name = 2 → states' name = 2
  unseen : ∀ name, Unseen states' name → Unseen states name

variable {successors : ν → Except ε (List ν)} {cyclic : ν → ε} {exhausted : ε} {fuel : Nat}
  {states states' : ν → Nat} {name : ν} {nodes : List ν}

omit [DecidableEq ν] in
theorem Extends.refl (states : ν → Nat) : Extends states states := ⟨fun _ h => h, fun _ h => h⟩

omit [DecidableEq ν] in
theorem Extends.trans {states'' : ν → Nat} (h : Extends states states')
    (h' : Extends states' states'') :
    Extends states states'' :=
  ⟨fun name hdone => h'.done name (h.done name hdone), fun name hunseen =>
    h.unseen name (h'.unseen name hunseen)⟩

theorem visit_cases (h : visit successors cyclic exhausted (fuel + 1) states name = .ok states') :
    (states name = 2 ∧ states' = states) ∨
    (Unseen states name ∧ ∃ next inner, successors name = .ok next ∧
      next.foldlM (visit successors cyclic exhausted fuel) (Function.update states name 1) =
      .ok inner ∧
      states' = Function.update inner name 2) := by
  rw [visit] at h
  split at h
  · cases h
  · next hpath =>
    split at h
    · next hdone =>
      cases h
      exact .inl ⟨hdone, rfl⟩
    · next hdone =>
      simp only [bind_eq_ok, pure_eq_ok] at h
      obtain ⟨next, hnext, inner, hinner, rfl⟩ := h
      exact .inr ⟨⟨hpath, hdone⟩, next, inner, hnext, hinner, rfl⟩

theorem visit_extends (h : visit successors cyclic exhausted fuel states name = .ok states') :
    Extends states states' := by
  induction fuel generalizing states name states' with
  | zero => cases h
  | succ fuel ih =>
    obtain ⟨_, rfl⟩ | ⟨⟨hpath, hdone⟩, next, inner, _, hinner, rfl⟩ := visit_cases h
    · exact .refl _
    · have hext := foldlM_rel Extends.refl (fun _ _ _ => Extends.trans) (fun _ _ _ _ => ih) hinner
      constructor
      · intro other hother
        have hne : other ≠ name := fun heq => hdone (heq ▸ hother)
        rw [update_of_ne hne]
        apply hext.done
        rw [update_of_ne hne, hother]
      · intro other hother
        by_cases heq : other = name
        · rw [heq]
          exact ⟨hpath, hdone⟩
        · have hinside : Unseen inner other := by simpa only [Unseen, update_of_ne heq] using hother
          simpa only [Unseen, update_of_ne heq] using hext.unseen other hinside

/-! ## What a search finds -/

/-- The done nodes lie on no cycle, and reach none. -/
def Grounded (successors : ν → Except ε (List ν)) (states : ν → Nat) : Prop :=
  ∀ name, states name = 2 → Acc (Below successors) name

theorem visits_grounded (hvisit : ∀ states name states', Grounded successors states →
      visit successors cyclic exhausted fuel states name = .ok states' →
      Grounded successors states' ∧ states' name = 2)
    (hground : Grounded successors states)
    (h : nodes.foldlM (visit successors cyclic exhausted fuel) states = .ok states') :
    Grounded successors states' ∧ ∀ name ∈ nodes, states' name = 2 := by
  induction nodes generalizing states with
  | nil =>
    cases h
    exact ⟨hground, fun _ hmem => absurd hmem List.not_mem_nil⟩
  | cons first rest ih =>
    obtain ⟨middle, hfirst, hrest⟩ := foldlM_cons_ok.mp h
    obtain ⟨hmiddle, hdone⟩ := hvisit states first middle hground hfirst
    obtain ⟨hground', hall⟩ := ih hmiddle hrest
    have hext := foldlM_rel Extends.refl (fun _ _ _ => Extends.trans)
      (fun _ _ _ _ => visit_extends) hrest
    refine ⟨hground', fun name hname => ?_⟩
    rcases List.mem_cons.mp hname with rfl | hmem
    · exact hext.done _ hdone
    · exact hall name hmem

theorem visit_grounded (hground : Grounded successors states)
    (h : visit successors cyclic exhausted fuel states name = .ok states') :
    Grounded successors states' ∧ states' name = 2 := by
  induction fuel generalizing states name states' with
  | zero => cases h
  | succ fuel ih =>
    obtain ⟨hdone, rfl⟩ | ⟨_, next, inner, hnext, hinner, rfl⟩ := visit_cases h
    · exact ⟨hground, hdone⟩
    · have hstart : Grounded successors (Function.update states name 1) := by
        intro other hother
        by_cases heq : other = name
        · rw [heq, update_self] at hother
          omega
        · rw [update_of_ne heq] at hother
          exact hground other hother
      obtain ⟨hground', hall⟩ := visits_grounded (fun _ _ _ => ih) hstart hinner
      refine ⟨fun other hother => ?_, update_self ..⟩
      by_cases heq : other = name
      · -- every successor is done, so the node is accessible itself
        subst heq
        apply Acc.intro
        rintro below ⟨next', hnext', hmem⟩
        cases hnext.symm.trans hnext'
        exact hground' below (hall below hmem)
      · rw [update_of_ne heq] at hother
        exact hground' other hother

omit [DecidableEq ν] in
theorem not_below_self {r : ν → ν → Prop} (h : Acc r name) : ¬ r name name := by
  induction h with
  | intro name _ ih => exact fun hself => ih name hself hself

theorem search_acyclic
    (h : nodes.foldlM (visit successors cyclic exhausted fuel) (fun _ => 0) = .ok states')
    (hname : name ∈ nodes) :
    ¬ Relation.TransGen (Below successors) name name := by
  have hempty : Grounded successors (fun _ => 0) := fun _ h => by cases h
  obtain ⟨hground, hall⟩ := visits_grounded (fun _ _ _ => visit_grounded) hempty h
  exact not_below_self (hground name (hall name hname)).transGen

/-! ## The depth of the recursion -/

def unseenNodes (nodes : List ν) (states : ν → Nat) : Finset ν :=
    nodes.toFinset.filter (Unseen states)

theorem Extends.unseenNodes_subset (h : Extends states states') (nodes : List ν) :
    unseenNodes nodes states' ⊆ unseenNodes nodes states :=
  Finset.monotone_filter_right _ fun name _ => h.unseen name

theorem unseenNodes_enter (hmem : name ∈ nodes) (h : Unseen states name) :
    (unseenNodes nodes (Function.update states name 1)).card < (unseenNodes nodes states).card := by
  apply Finset.card_lt_card
  rw [Finset.ssubset_iff_of_subset]
  · refine ⟨name, Finset.mem_filter.mpr ⟨List.mem_toFinset.mpr hmem, h⟩, fun hname => ?_⟩
    -- the node is on the path now
    exact (Finset.mem_filter.mp hname).2.1 (update_self ..)
  · refine Finset.monotone_filter_right _ fun other _ hother => ?_
    by_cases heq : other = name
    · exact heq ▸ h
    · simpa only [Unseen, update_of_ne heq] using hother

section Depth

variable (hcyclic : ∀ name, cyclic name ≠ exhausted)
  (hsuccessors : ∀ name, Avoids exhausted (successors name))
  (hnodes : ∀ name next, successors name = .ok next → ∀ other ∈ next, other ∈ nodes)

include hcyclic hsuccessors hnodes

theorem visit_avoids (hmem : name ∈ nodes) (h : (unseenNodes nodes states).card < fuel) :
    Avoids exhausted (visit successors cyclic exhausted fuel states name) := by
  induction fuel generalizing states name with
  | zero => omega
  | succ fuel ih =>
    rw [visit]
    split
    · exact fun herror => hcyclic name (Except.error.inj herror)
    · next hpath =>
      split
      · exact .ok _
      · next hdone =>
        refine (hsuccessors name).bind fun next hnext => .bind ?_ fun _ _ => .ok _
        have henter := unseenNodes_enter hmem ⟨hpath, hdone⟩
        refine foldlM_avoids (I := fun s => (unseenNodes nodes s).card < fuel) ?_ ?_ (by omega)
        · intro other hother s hs
          exact ih (hnodes name next hnext other hother) hs
        · intro other _ s s' hs hvisit
          exact (Finset.card_le_card ((visit_extends hvisit).unseenNodes_subset nodes)).trans_lt hs

theorem search_avoids (hfuel : nodes.length < fuel) (states : ν → Nat) :
    Avoids exhausted (nodes.foldlM (visit successors cyclic exhausted fuel) states) := by
  refine foldlM_avoids (I := fun _ => True) ?_ (fun _ _ _ _ _ _ => trivial) trivial
  intro name hname s _
  apply visit_avoids hcyclic hsuccessors hnodes hname
  calc (unseenNodes nodes s).card
      ≤ nodes.toFinset.card := Finset.card_filter_le ..
    _ ≤ nodes.length := List.toFinset_card_le nodes
    _ < fuel := hfuel

end Depth

/-! ## Acyclic graphs -/

/-- A search leaves no node on the path that was not there before. -/
theorem visit_path (h : visit successors cyclic exhausted fuel states name = .ok states')
    {other : ν} (hother : states' other = 1) : states other = 1 := by
  induction fuel generalizing states name states' with
  | zero => cases h
  | succ fuel ih =>
    obtain ⟨-, rfl⟩ | ⟨-, next, inner, -, hinner, rfl⟩ := visit_cases h
    · exact hother
    · have hne : other ≠ name := by
        rintro rfl
        rw [update_self] at hother
        cases hother
      rw [update_of_ne hne] at hother
      have hstart := foldlM_rel (R := fun (before after : ν → Nat) => after other = 1 →
        before other = 1)
        (fun _ => id) (fun _ _ _ h h' hafter => h (h' hafter)) (fun _ _ _ _ => ih) hinner hother
      rwa [update_of_ne hne] at hstart

/-- The nodes of the path lead to this one. -/
def Leads (successors : ν → Except ε (List ν)) (states : ν → Nat) (name : ν) : Prop :=
  ∀ other, states other = 1 → Relation.TransGen (Below successors) name other

section Acyclic

variable (hacyclic : ∀ name, ¬ Relation.TransGen (Below successors) name name)
  (hnodes : ∀ name ∈ nodes, ∃ next, successors name = .ok next ∧ ∀ other ∈ next, other ∈ nodes)

include hacyclic hnodes

/-- What a search reports is a cycle: where there is none, it returns. -/
theorem visit_succeeds (hmem : name ∈ nodes) (hleads : Leads successors states name)
    (h : (unseenNodes nodes states).card < fuel) :
    Succeeds (visit successors cyclic exhausted fuel states name) := by
  induction fuel generalizing states name with
  | zero => omega
  | succ fuel ih =>
    rw [visit, if_neg fun hpath => hacyclic name (hleads name hpath)]
    split
    · exact .ok _
    · next hdone =>
      obtain ⟨next, hnext, hinside⟩ := hnodes name hmem
      rw [hnext, ok_bind]
      have hpath : states name ≠ 1 := fun hpath => hacyclic name (hleads name hpath)
      have henter := unseenNodes_enter hmem ⟨hpath, hdone⟩
      refine Succeeds.bind ?_ fun _ _ => .ok _
      -- on the way the path does not grow, so it leads to each successor
      refine foldlM_succeeds (I := fun s => (∀ other ∈ next, Leads successors s other) ∧
        (unseenNodes nodes s).card < fuel) ?_ ⟨?_, by omega⟩
      · rintro other hother s ⟨hs, hcard⟩
        obtain ⟨s', hvisit⟩ := ih (hinside other hother) (hs other hother) hcard
        refine ⟨s', hvisit, fun target htarget above habove => ?_, ?_⟩
        · exact hs target htarget above (visit_path hvisit habove)
        · exact (Finset.card_le_card ((visit_extends hvisit).unseenNodes_subset nodes)).trans_lt
            hcard
      · intro other hother above habove
        have hedge : Below successors other name := ⟨next, hnext, hother⟩
        by_cases heq : above = name
        · rw [heq]
          exact .single hedge
        · rw [update_of_ne heq] at habove
          exact .head hedge (hleads above habove)

theorem search_succeeds (hfuel : nodes.length < fuel) :
    Succeeds (nodes.foldlM (visit successors cyclic exhausted fuel) fun _ => 0) := by
  refine foldlM_succeeds (I := fun s => ∀ other, s other ≠ 1) ?_ fun _ => Nat.zero_ne_one
  intro name hname s hs
  have hcard : (unseenNodes nodes s).card < fuel :=
    calc (unseenNodes nodes s).card
      ≤ nodes.toFinset.card := Finset.card_filter_le ..
    _ ≤ nodes.length := List.toFinset_card_le nodes
    _ < fuel := hfuel
  have hreturns : Succeeds (visit successors cyclic exhausted fuel s name) :=
    visit_succeeds hacyclic hnodes hname (fun other hother => absurd hother (hs other)) hcard
  obtain ⟨s', hvisit⟩ := hreturns
  exact ⟨s', hvisit, fun other hother => hs other (visit_path hvisit hother)⟩

end Acyclic

end Cwhip.Lib.Colouring
