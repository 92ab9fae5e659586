/-
  Cwhip.Lib.Marking

  Graph marking with an explicit worklist, over an arbitrary node type.

  A node is marked when it is pushed, so no node enters the worklist twice.
  From this one fact follow both results a client needs: once the worklist is
  empty the marked nodes are exactly those reachable from the roots, and the
  worklist never outgrows the number of nodes.
-/

import Mathlib.Logic.Relation
import Mathlib.Data.List.Nodup
import Mathlib.Data.List.Perm.Subperm

namespace Cwhip.Lib

variable {ν : Type*}

/-! ## Reachability -/

/-- `b` can be reached from one of `roots` by following `succ`. -/
def ReachableFrom (succ : ν → List ν) (roots : List ν) (b : ν) : Prop :=
  ∃ a ∈ roots, Relation.ReflTransGen (fun x y => y ∈ succ x) a b

theorem ReachableFrom.root {succ : ν → List ν} {roots : List ν} {a : ν} (h : a ∈ roots) :
    ReachableFrom succ roots a :=
  ⟨a, h, .refl⟩

theorem ReachableFrom.step {succ : ν → List ν} {roots : List ν} {a b : ν}
    (ha : ReachableFrom succ roots a) (hb : b ∈ succ a) : ReachableFrom succ roots b := by
  obtain ⟨r, hr, hra⟩ := ha
  exact ⟨r, hr, hra.tail hb⟩

theorem ReachableFrom.closed {succ : ν → List ν} {roots : List ν} {p : ν → Prop}
    (hroots : ∀ a ∈ roots, p a) (hsucc : ∀ a, p a → ∀ b ∈ succ a, p b) {b : ν}
    (hb : ReachableFrom succ roots b) : p b := by
  obtain ⟨a, ha, hab⟩ := hb
  induction hab with
  | refl => exact hroots a ha
  | tail _ hbc ih => exact hsucc _ ih _ hbc

/-! ## The marker -/

/-- The marker's state.  `peak` is the largest size the worklist has had. -/
structure Marking (ν : Type*) where
  marked : List ν
  work : List ν
  peak : Nat

namespace Marking

/-- Nothing is marked yet. -/
def empty : Marking ν := ⟨[], [], 0⟩

/-! ## The invariant of the marker -/

/-- What holds of the marker at every moment: it marks only reachable nodes of
    the nodes, each once, every marked node that is no longer pending has its
    successors marked, and the worklist has stayed within its bound. -/
structure Inv (succ : ν → List ν) (roots nodes : List ν) (m : Marking ν) : Prop where
  nodup : m.marked.Nodup
  work_sub : ∀ n ∈ m.work, n ∈ m.marked
  work_nodup : m.work.Nodup
  in_nodes : ∀ n ∈ m.marked, n ∈ nodes
  sound : ∀ n ∈ m.marked, ReachableFrom succ roots n
  bounded : m.peak ≤ nodes.length

theorem Inv.empty {succ : ν → List ν} {roots nodes : List ν} :
    Inv succ roots nodes (Marking.empty : Marking ν) := by
  refine ⟨List.nodup_nil, ?_, List.nodup_nil, ?_, ?_, Nat.zero_le _⟩
  all_goals
    intro n hn
    simp [Marking.empty] at hn

theorem length_le_of_nodup_subset {l nodes : List ν} (hl : l.Nodup)
    (hsub : ∀ n ∈ l, n ∈ nodes) : l.length ≤ nodes.length :=
  (List.subperm_of_subset hl hsub).length_le

variable {m : Marking ν} {n x : ν} {ns : List ν}

/-- Taking a node off the list keeps the invariant. -/
theorem Inv.pop {succ : ν → List ν} {roots nodes rest : List ν} (h : Inv succ roots nodes m)
    (hw : m.work = n :: rest) :
    Inv succ roots nodes { m with work := rest } := by
  have hnd := h.work_nodup
  rw [hw] at hnd
  refine ⟨h.nodup, ?_, (List.nodup_cons.mp hnd).2, h.in_nodes, h.sound, h.bounded⟩
  intro x hx
  exact h.work_sub x (by rw [hw]; exact List.mem_cons_of_mem _ hx)

/-! ## The steps of the marker -/

variable [DecidableEq ν]

/-- Mark `n` and push it, unless it is marked already. -/
def visit (m : Marking ν) (n : ν) : Marking ν :=
  if n ∈ m.marked then m
  else ⟨n :: m.marked, n :: m.work, max m.peak (m.work.length + 1)⟩

def visitAll (m : Marking ν) (ns : List ν) : Marking ν :=
  ns.foldl visit m

/-- Pop nodes and visit their successors until the worklist is empty, at most
    `fuel` times. -/
def trace (succ : ν → List ν) : Nat → Marking ν → Marking ν
  | 0, m => m
  | fuel + 1, m =>
    match m.work with
    | [] => m
    | n :: rest => trace succ fuel ({ m with work := rest }.visitAll (succ n))

/-! ## Single visits -/

theorem visit_of_mem (h : n ∈ m.marked) : m.visit n = m := by
  simp [visit, h]

theorem visit_of_not_mem (h : n ∉ m.marked) :
    m.visit n = ⟨n :: m.marked, n :: m.work, max m.peak (m.work.length + 1)⟩ := by
  simp [visit, h]

theorem mem_visit_marked :
    x ∈ (m.visit n).marked ↔ x = n ∨ x ∈ m.marked := by
  by_cases h : n ∈ m.marked
  · rw [visit_of_mem h]
    constructor
    · exact Or.inr
    · rintro (rfl | hx)
      · exact h
      · exact hx
  · rw [visit_of_not_mem h]
    exact List.mem_cons

theorem mem_visitAll_marked :
    x ∈ (m.visitAll ns).marked ↔ x ∈ ns ∨ x ∈ m.marked := by
  induction ns generalizing m with
  | nil => simp [visitAll]
  | cons n rest ih =>
    have hstep : m.visitAll (n :: rest) = (m.visit n).visitAll rest := rfl
    rw [hstep, ih, mem_visit_marked, List.mem_cons]
    tauto

/-- Visiting a reachable node keeps the invariant. -/
theorem Inv.visit {succ : ν → List ν} {roots nodes : List ν} (h : Inv succ roots nodes m)
    (hn : n ∈ nodes) (hr : ReachableFrom succ roots n) :
    Inv succ roots nodes (m.visit n) := by
  by_cases hm : n ∈ m.marked
  · rw [visit_of_mem hm]
    exact h
  · rw [visit_of_not_mem hm]
    have hwork : n ∉ m.work := fun hw => hm (h.work_sub n hw)
    have hall : ∀ x ∈ n :: m.marked, x ∈ nodes := by
      intro x hx
      rcases List.mem_cons.mp hx with rfl | hx
      · exact hn
      · exact h.in_nodes x hx
    have hworkNodup : (n :: m.work).Nodup := List.nodup_cons.mpr ⟨hwork, h.work_nodup⟩
    have hworkSub : ∀ x ∈ n :: m.work, x ∈ n :: m.marked := by
      intro x hx
      rcases List.mem_cons.mp hx with rfl | hx
      · exact List.mem_cons_self
      · exact List.mem_cons_of_mem _ (h.work_sub x hx)
    refine ⟨List.nodup_cons.mpr ⟨hm, h.nodup⟩, hworkSub, hworkNodup, hall, ?_, ?_⟩
    · intro x hx
      rcases List.mem_cons.mp hx with rfl | hx
      · exact hr
      · exact h.sound x hx
    · -- every entry of the worklist is a distinct node of the nodes
      have hlen := length_le_of_nodup_subset hworkNodup
        (fun x hx => hall x (hworkSub x hx))
      rw [List.length_cons] at hlen
      exact Nat.max_le.mpr ⟨h.bounded, hlen⟩

theorem Inv.visitAll {succ : ν → List ν} {roots nodes : List ν} (h : Inv succ roots nodes m)
    (hns : ∀ n ∈ ns, n ∈ nodes ∧ ReachableFrom succ roots n) :
    Inv succ roots nodes (m.visitAll ns) := by
  induction ns generalizing m with
  | nil => exact h
  | cons n rest ih =>
    obtain ⟨hu, hr⟩ := hns n List.mem_cons_self
    exact ih (h.visit hu hr) (fun x hx => hns x (List.mem_cons_of_mem _ hx))

/-- Every node that is marked and not pending has all its successors marked. -/
def Done (succ : ν → List ν) (m : Marking ν) : Prop :=
  ∀ a ∈ m.marked, a ∉ m.work → ∀ b ∈ succ a, b ∈ m.marked

theorem visitAll_pending (hx : x ∈ (m.visitAll ns).marked) (hw : x ∉ (m.visitAll ns).work) :
    x ∈ m.marked ∧ x ∉ m.work := by
  induction ns generalizing m with
  | nil => exact ⟨hx, hw⟩
  | cons n rest ih =>
    obtain ⟨hx', hw'⟩ := ih (m := m.visit n) hx hw
    by_cases hm : n ∈ m.marked
    · rw [visit_of_mem hm] at hx' hw'
      exact ⟨hx', hw'⟩
    · rw [visit_of_not_mem hm] at hx' hw'
      obtain ⟨hne, hnw⟩ := List.ne_and_not_mem_of_not_mem_cons hw'
      exact ⟨(List.mem_cons.mp hx').resolve_left hne, hnw⟩

/-- A node is done once its successors were visited. -/
theorem Done.popVisit {succ : ν → List ν} {rest : List ν} (h : Done succ m)
    (hw : m.work = n :: rest) :
    Done succ ({ m with work := rest }.visitAll (succ n)) := by
  intro a ha haw b hb
  obtain ⟨ham, harest⟩ := visitAll_pending ha haw
  rw [mem_visitAll_marked]
  by_cases han : a = n
  · subst han
    exact Or.inl hb
  · refine Or.inr (h a ham ?_ b hb)
    rw [hw]
    exact List.not_mem_cons_of_ne_of_not_mem han harest

/-- What is still to be popped: the pending nodes and those not marked yet. -/
def remaining (nodes : List ν) (m : Marking ν) : Nat :=
  nodes.length - m.marked.length + m.work.length

theorem remaining_visit {succ : ν → List ν} {roots nodes : List ν}
    (h : Inv succ roots nodes (m.visit n)) :
    remaining nodes (m.visit n) = remaining nodes m := by
  by_cases hm : n ∈ m.marked
  · rw [visit_of_mem hm]
  · have hlen := length_le_of_nodup_subset h.nodup h.in_nodes
    rw [visit_of_not_mem hm] at hlen ⊢
    simp only [remaining, List.length_cons] at hlen ⊢
    omega

/-- Visiting leaves the number of nodes still to come the same. -/
theorem remaining_visitAll {succ : ν → List ν} {roots nodes : List ν} (h : Inv succ roots nodes m)
    (hns : ∀ n ∈ ns, n ∈ nodes ∧ ReachableFrom succ roots n) :
    remaining nodes (m.visitAll ns) = remaining nodes m := by
  induction ns generalizing m with
  | nil => rfl
  | cons n rest ih =>
    obtain ⟨hu, hr⟩ := hns n List.mem_cons_self
    have hv := h.visit hu hr
    have hrest := ih hv (fun x hx => hns x (List.mem_cons_of_mem _ hx))
    exact hrest.trans (remaining_visit hv)

/-- With fuel for each node left the list runs empty. -/
theorem trace_spec {succ : ν → List ν} {roots nodes : List ν}
    (hclosed : ∀ a ∈ nodes, ∀ b ∈ succ a, b ∈ nodes) {fuel : Nat} (h : Inv succ roots nodes m)
    (hd : Done succ m) (hfuel : remaining nodes m ≤ fuel) :
    Inv succ roots nodes (trace succ fuel m) ∧ (trace succ fuel m).work = [] ∧
      Done succ (trace succ fuel m) ∧ ∀ x ∈ m.marked, x ∈ (trace succ fuel m).marked := by
  induction fuel generalizing m with
  | zero =>
    have hwork : m.work = [] := by
      refine List.eq_nil_of_length_eq_zero ?_
      simp only [remaining] at hfuel
      omega
    exact ⟨h, hwork, hd, fun x hx => hx⟩
  | succ fuel ih =>
    cases hw : m.work with
    | nil =>
      have htrace : trace succ (fuel + 1) m = m := by simp [trace, hw]
      rw [htrace]
      exact ⟨h, hw, hd, fun x hx => hx⟩
    | cons n rest =>
      have htrace : trace succ (fuel + 1) m
          = trace succ fuel ({ m with work := rest }.visitAll (succ n)) := by
        simp [trace, hw]
      have hn : n ∈ m.marked := h.work_sub n (by rw [hw]; exact List.mem_cons_self)
      have hsucc : ∀ b ∈ succ n, b ∈ nodes ∧ ReachableFrom succ roots b := by
        intro b hb
        exact ⟨hclosed n (h.in_nodes n hn) b hb, (h.sound n hn).step hb⟩
      have hpop := h.pop hw
      have hrem := remaining_visitAll hpop hsucc
      have hless : remaining nodes ({ m with work := rest }.visitAll (succ n)) ≤ fuel := by
        rw [hrem]
        simp only [remaining, hw, List.length_cons] at hfuel ⊢
        omega
      obtain ⟨hinv, hempty, hdone, hkeep⟩ := ih (hpop.visitAll hsucc) (hd.popVisit hw) hless
      rw [htrace]
      refine ⟨hinv, hempty, hdone, ?_⟩
      intro x hx
      exact hkeep x (mem_visitAll_marked.mpr (Or.inr hx))

/-! ## Marking from the roots -/

/-- Visit the roots, then trace. -/
def run (succ : ν → List ν) (fuel : Nat) (roots : List ν) : Marking ν :=
  trace succ fuel (empty.visitAll roots)

section Run

variable {succ : ν → List ν} {roots nodes : List ν}
  (hroots : ∀ a ∈ roots, a ∈ nodes) (hclosed : ∀ a ∈ nodes, ∀ b ∈ succ a, b ∈ nodes)

include hroots hclosed

theorem run_spec : Inv succ roots nodes (run succ nodes.length roots) ∧
    (run succ nodes.length roots).work = [] ∧
    Done succ (run succ nodes.length roots) ∧
    ∀ x ∈ roots, x ∈ (run succ nodes.length roots).marked := by
  have hroots' : ∀ n ∈ roots, n ∈ nodes ∧ ReachableFrom succ roots n :=
    fun n hn => ⟨hroots n hn, .root hn⟩
  have hstart : Inv succ roots nodes (empty.visitAll roots) := Inv.empty.visitAll hroots'
  have hdone : Done succ (empty.visitAll roots : Marking ν) := by
    intro a ha haw
    have hpending := visitAll_pending ha haw
    exact absurd hpending.1 (by simp [empty])
  have hfuel : remaining nodes (empty.visitAll roots) ≤ nodes.length := by
    rw [remaining_visitAll Inv.empty hroots']
    simp [remaining, empty]
  obtain ⟨hinv, hwork, hd, hkeep⟩ := trace_spec hclosed hstart hdone hfuel
  refine ⟨hinv, hwork, hd, ?_⟩
  intro x hx
  exact hkeep x (mem_visitAll_marked.mpr (Or.inl hx))

/-- Marked are exactly the nodes reachable from the roots. -/
theorem mem_run_marked_iff {n : ν} :
    n ∈ (run succ nodes.length roots).marked ↔ ReachableFrom succ roots n := by
  obtain ⟨hinv, hwork, hdone, hkeep⟩ := run_spec hroots hclosed
  constructor
  · exact hinv.sound n
  · intro hn
    refine hn.closed hkeep ?_
    intro a ha b hb
    exact hdone a ha (by rw [hwork]; exact List.not_mem_nil) b hb

/-- The list never holds more than all nodes. -/
theorem run_peak_le : (run succ nodes.length roots).peak ≤ nodes.length :=
  (run_spec hroots hclosed).1.bounded

end Run

end Marking

end Cwhip.Lib
