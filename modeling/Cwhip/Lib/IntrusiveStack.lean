/-
  Cwhip.Lib.IntrusiveStack

  A stack threaded through the nodes it holds: a node in use links to the one
  below it, and a flag says that it is in use.

  `Stacked` gives the nodes on the stack, top first; pushing, popping and
  unwinding keep it.  `Over` compares the stack with what it was at some earlier
  point: later nodes on top of what is left of the old ones.  An old top that is
  still there, and was not pushed again, has all of the old stack under it.
-/

import Mathlib.Data.List.Nodup
import Mathlib.Data.List.Perm.Subperm

namespace Cwhip.Lib

variable {α : Type}

/-! ## Links -/

/-- Following the links from the top gives these nodes. -/
def Linked (next : α → Option Nat) (nodes : List α) : Option Nat → List Nat → Prop
  | top, [] => top = none
  | top, index :: rest =>
    top = some index ∧ ∃ node, nodes[index]? = some node ∧ Linked next nodes (next node) rest

theorem Linked.top_eq {next : α → Option Nat} {nodes : List α} {top : Option Nat} {stack : List Nat}
    (h : Linked next nodes top stack) : top = stack.head? := by
  cases stack with
  | nil => exact h
  | cons index rest => exact h.1

theorem Linked.congr {next : α → Option Nat} {nodes nodes' : List α} {top : Option Nat}
    {stack : List Nat} (h : Linked next nodes top stack)
    (hsame : ∀ index ∈ stack, (nodes'[index]?).map next = (nodes[index]?).map next) :
    Linked next nodes' top stack := by
  induction stack generalizing top with
  | nil => exact h
  | cons index rest ih =>
    obtain ⟨htop, node, hnode, hrest⟩ := h
    have hindex := hsame index List.mem_cons_self
    rw [hnode, Option.map_some, Option.map_eq_some_iff] at hindex
    obtain ⟨node', hnode', hnext⟩ := hindex
    refine ⟨htop, node', hnode', ?_⟩
    rw [hnext]
    exact ih hrest fun other hother => hsame other (List.mem_cons_of_mem _ hother)

/-- The nodes on the stack: the links lead through them, and they are the ones
    in use. -/
structure Stacked (next : α → Option Nat) (busy : α → Bool) (nodes : List α) (top : Option Nat)
    (stack : List Nat) : Prop where
  linked : Linked next nodes top stack
  distinct : stack.Nodup
  mem_iff : ∀ index, index ∈ stack ↔ ∃ node, nodes[index]? = some node ∧ busy node = true

section Stacked

variable {next : α → Option Nat} {busy : α → Bool} {nodes nodes' : List α} {top : Option Nat}
  {stack : List Nat}

theorem stacked_nil : Stacked next busy [] none [] :=
  ⟨rfl, List.nodup_nil, by simp⟩

theorem Stacked.congr (h : Stacked next busy nodes top stack)
    (hnext : ∀ index : Nat, (nodes'[index]?).map next = (nodes[index]?).map next)
    (hbusy : ∀ index : Nat, (nodes'[index]?).map busy = (nodes[index]?).map busy) :
    Stacked next busy nodes' top stack := by
  refine ⟨h.linked.congr fun index _ => hnext index, h.distinct, ?_⟩
  intro index
  rw [h.mem_iff index]
  have hiff : ∀ nodes : List α, (∃ node, nodes[index]? = some node ∧ busy node = true) ↔
      (nodes[index]?).map busy = some true :=
    fun _ => Option.map_eq_some_iff.symm
  rw [hiff, hiff, hbusy]

/-- Nodes may change in what the stack does not read, and idle ones may be added. -/
theorem Stacked.grow (h : Stacked next busy nodes top stack)
    (hold : ∀ (index : Nat) (node : α), nodes[index]? = some node →
      ∃ node', nodes'[index]? = some node' ∧ next node' = next node ∧ busy node' = busy node)
    (hnew : ∀ (index : Nat) (node' : α), nodes'[index]? = some node' → nodes[index]? = none →
      busy node' = false) : Stacked next busy nodes' top stack := by
  refine ⟨h.linked.congr fun index hindex => ?_, h.distinct, fun index => ?_⟩
  · obtain ⟨node, hnode, _⟩ := (h.mem_iff index).mp hindex
    obtain ⟨node', hnode', hnext, _⟩ := hold index node hnode
    rw [hnode, hnode', Option.map_some, Option.map_some, hnext]
  · rw [h.mem_iff index]
    constructor
    · rintro ⟨node, hnode, hbusy⟩
      obtain ⟨node', hnode', _, hsame⟩ := hold index node hnode
      exact ⟨node', hnode', hsame.trans hbusy⟩
    · rintro ⟨node', hnode', hbusy⟩
      cases hnode : nodes[index]? with
      | none =>
        rw [hnew index node' hnode' hnode] at hbusy
        cases hbusy
      | some node =>
        obtain ⟨node'', hnode'', _, hsame⟩ := hold index node hnode
        obtain rfl := Option.some.inj (hnode'.symm.trans hnode'')
        exact ⟨node, rfl, hsame.symm.trans hbusy⟩

theorem Stacked.length_le (h : Stacked next busy nodes top stack) :
    stack.length ≤ nodes.length := by
  have hsub : stack ⊆ List.range nodes.length := by
    intro index hindex
    obtain ⟨node, hnode, _⟩ := (h.mem_iff index).mp hindex
    exact List.mem_range.mpr (List.getElem?_eq_some_iff.mp hnode).1
  have hle := (h.distinct.subperm hsub).length_le
  rwa [List.length_range] at hle

variable {index : Nat} {node : α} {f : α → α}

theorem getElem?_modify_self (hnode : nodes[index]? = some node) (f : α → α) :
    (nodes.modify index f)[index]? = some (f node) := by
  rw [List.getElem?_modify, hnode]
  simp

theorem getElem?_modify_other {other : Nat} (h : other ≠ index) (f : α → α) :
    (nodes.modify index f)[other]? = nodes[other]? := by
  rw [List.getElem?_modify]
  cases nodes[other]? <;> simp [Ne.symm h]

theorem Stacked.modify (h : Stacked next busy nodes top stack) (index : Nat) (f : α → α)
    (hnext : ∀ node, next (f node) = next node) (hbusy : ∀ node, busy (f node) = busy node) :
    Stacked next busy (nodes.modify index f) top stack := by
  have hsame : ∀ {β : Type} (g : α → β), (∀ node, g (f node) = g node) →
      ∀ other : Nat, ((nodes.modify index f)[other]?).map g = (nodes[other]?).map g := by
    intro β g hg other
    rw [List.getElem?_modify]
    cases nodes[other]? with
    | none => rfl
    | some node =>
      show some (g (if index = other then f node else node)) = some (g node)
      split
      · rw [hg]
      · rfl
  exact h.congr (hsame next hnext) (hsame busy hbusy)

theorem Stacked.push (h : Stacked next busy nodes top stack) (hnode : nodes[index]? = some node)
    (hidle : busy node = false) (hnext : next (f node) = top) (hbusy : busy (f node) = true) :
    index ∉ stack ∧ Stacked next busy (nodes.modify index f) (some index) (index :: stack) := by
  have hnew : index ∉ stack := by
    intro hmem
    obtain ⟨found, hfound, htrue⟩ := (h.mem_iff index).mp hmem
    rw [hnode] at hfound
    rw [← Option.some.inj hfound, hidle] at htrue
    cases htrue
  refine ⟨hnew, ⟨rfl, f node, getElem?_modify_self hnode f, ?_⟩,
    List.nodup_cons.mpr ⟨hnew, h.distinct⟩, ?_⟩
  · rw [hnext]
    apply h.linked.congr
    intro other hother
    rw [getElem?_modify_other (ne_of_mem_of_not_mem hother hnew)]
  · intro other
    rw [List.mem_cons]
    by_cases hother : other = index
    · rw [hother, getElem?_modify_self hnode f]
      simp [hbusy]
    · rw [getElem?_modify_other hother, ← h.mem_iff other]
      simp [hother]

theorem Stacked.pop {rest : List Nat} (h : Stacked next busy nodes top (index :: rest))
    (hnode : nodes[index]? = some node) (hidle : busy (f node) = false) :
    Stacked next busy (nodes.modify index f) (next node) rest := by
  obtain ⟨_, found, hfound, hrest⟩ := h.linked
  rw [hnode] at hfound
  obtain rfl := Option.some.inj hfound
  have hdistinct := List.nodup_cons.mp h.distinct
  refine ⟨?_, hdistinct.2, ?_⟩
  · apply hrest.congr
    intro other hother
    rw [getElem?_modify_other (ne_of_mem_of_not_mem hother hdistinct.1)]
  · intro other
    by_cases hother : other = index
    · rw [hother, getElem?_modify_self hnode f]
      simp [hidle, hdistinct.1]
    · rw [getElem?_modify_other hother, ← h.mem_iff other]
      simp [hother]

end Stacked

/-! ## Unwinding -/

/-- How unwinding can end other than by reaching the node it unwinds to. -/
inductive UnwindFault where
  /-- It reached the bottom of the stack. -/
  | bottom
  /-- A link leads to no node, or to one that is no longer alive. -/
  | dangling
  /-- It goes on for ever. -/
  | endless
  deriving DecidableEq, Repr

/-- Release the nodes from the top on, down to one that stays. -/
def unwind (next : α → Option Nat) (live : α → Bool) (release : α → α) (saved : Option Nat) :
    Nat → List α → Option Nat → Except UnwindFault (List α)
  | 0, nodes, top => if top = saved then .ok nodes else .error .endless
  | fuel + 1, nodes, top =>
    if top = saved then .ok nodes
    else
      match top with
      | none => .error .bottom
      | some index =>
        match (nodes[index]?).filter live with
        | none => .error .dangling
        | some node => unwind next live release saved fuel (nodes.modify index release) (next node)

/-- The nodes with some of them released. -/
def Released (release : α → α) (indices : List Nat) (nodes nodes' : List α) : Prop :=
  ∀ index : Nat, nodes'[index]? = if index ∈ indices then (nodes[index]?).map release
    else nodes[index]?

variable {release : α → α} {old pushed : List Nat}

theorem Released.map_eq {β : Type} {indices : List Nat} {nodes nodes' : List α}
    (h : Released release indices nodes nodes') {f : α → β}
    (hkeeps : ∀ node, f (release node) = f node)
    (index : Nat) : (nodes'[index]?).map f = (nodes[index]?).map f := by
  rw [h index]
  split
  · cases nodes[index]? with
    | none => rfl
    | some node => exact congrArg some (hkeeps node)
  · rfl

theorem unwind_spec {next : α → Option Nat} {busy live : α → Bool}
    (hidle : ∀ node, busy (release node) = false) {nodes : List α} {top : Option Nat}
    {stack : List Nat} (h : Stacked next busy nodes top stack)
    (hlive : ∀ index ∈ stack, ∀ node, nodes[index]? = some node → live node = true)
    (saved : Option Nat) {fuel : Nat} (hfuel : stack.length < fuel) :
    unwind next live release saved fuel nodes top = .error .bottom ∨
      ∃ nodes' above below, unwind next live release saved fuel nodes top = .ok nodes' ∧
        stack = above ++ below ∧ Stacked next busy nodes' saved below ∧
        Released release above nodes nodes' := by
  induction stack generalizing nodes top fuel with
  | nil =>
    obtain rfl : top = none := h.linked
    obtain ⟨fuel, rfl⟩ : ∃ less, fuel = less + 1 := ⟨fuel - 1, by omega⟩
    rw [unwind]
    by_cases hsaved : none = saved
    · refine .inr ⟨nodes, [], [], if_pos hsaved, rfl, hsaved ▸ h, fun index => ?_⟩
      rw [if_neg List.not_mem_nil]
    · exact .inl (if_neg hsaved)
  | cons index rest ih =>
    obtain ⟨htop, node, hnode, _⟩ := h.linked
    subst htop
    obtain ⟨fuel, rfl⟩ : ∃ less, fuel = less + 1 := ⟨fuel - 1, by omega⟩
    rw [unwind]
    by_cases hsaved : some index = saved
    · refine .inr ⟨nodes, [], index :: rest, if_pos hsaved, rfl, hsaved ▸ h, fun index => ?_⟩
      rw [if_neg List.not_mem_nil]
    · rw [if_neg hsaved, hnode, Option.filter_some,
        if_pos (hlive index List.mem_cons_self node hnode)]
      have hlower : ∀ other ∈ rest, ∀ node, (nodes.modify index release)[other]? = some node →
          live node = true := by
        intro other hother node hget
        rw [getElem?_modify_other (ne_of_mem_of_not_mem hother (List.nodup_cons.mp h.distinct).1)]
          at hget
        exact hlive other (List.mem_cons_of_mem _ hother) node hget
      have hlength : rest.length < fuel := by
        rw [List.length_cons] at hfuel
        omega
      obtain hbottom | ⟨nodes', above, below, hunwind, rfl, hbelow, hreleased⟩ :=
        ih (h.pop hnode (hidle node)) hlower hlength
      · exact .inl hbottom
      · refine .inr ⟨nodes', index :: above, below, hunwind, rfl, hbelow, fun other => ?_⟩
        have hnot : index ∉ above := by
          intro hmem
          exact (List.nodup_cons.mp h.distinct).1 (List.mem_append_left _ hmem)
        rw [hreleased other]
        by_cases hother : other = index
        · rw [hother, if_neg hnot, getElem?_modify_self hnode, hnode, if_pos List.mem_cons_self]
          rfl
        · rw [getElem?_modify_other hother]
          simp [hother]

/-! ## The stack since some earlier point -/

/-- A step that pushes a node, or takes any number of nodes off. -/
def Moves (pushed : Option Nat) (stack stack' : List Nat) : Prop :=
  match pushed with
  | some index => index ∉ stack ∧ stack' = index :: stack
  | none => ∃ above, stack = above ++ stack'

theorem moves_refl (stack : List Nat) : Moves none stack stack := ⟨[], rfl⟩


/-- Nodes pushed since then over what is left of the old stack. -/
def Over (old pushed stack : List Nat) : Prop :=
  ∃ above dropped, stack = above ++ old.drop dropped ∧ (∀ index ∈ above, index ∈ pushed) ∧
    ∀ index ∈ old.drop dropped, index ∉ pushed

theorem over_refl (old : List Nat) : Over old [] old :=
  ⟨[], 0, rfl, nofun, fun _ _ => List.not_mem_nil⟩

theorem Over.step {stack stack' : List Nat} (h : Over old pushed stack) {index : Option Nat}
    (hstep : Moves index stack stack') : Over old (pushed ++ index.toList) stack' := by
  obtain ⟨newer, dropped, heq, hnewer, holder⟩ := h
  cases index with
  | some index =>
    obtain ⟨hnew, rfl⟩ := hstep
    refine ⟨index :: newer, dropped, congrArg _ heq, ?_, ?_⟩
    · intro other hother
      rw [List.mem_append, Option.mem_toList]
      obtain rfl | hother := List.mem_cons.mp hother
      · exact .inr rfl
      · exact .inl (hnewer other hother)
    · intro other hother hmem
      rw [List.mem_append, Option.mem_toList] at hmem
      obtain hpushed | hsame := hmem
      · exact holder other hother hpushed
      · obtain rfl := Option.some.inj hsame
        exact hnew (heq ▸ List.mem_append_right _ hother)
  | none =>
    obtain ⟨above, rfl⟩ := hstep
    rw [Option.toList_none, List.append_nil]
    obtain ⟨middle, rfl, hold⟩ | ⟨middle, rfl, hbelow⟩ := List.append_eq_append_iff.mp heq
    · refine ⟨middle, dropped, hold, ?_, holder⟩
      exact fun index hindex => hnewer index (List.mem_append_right _ hindex)
    · have hdrop : old.drop (dropped + middle.length) = stack' := by
        rw [← List.drop_drop, hbelow, List.drop_left]
      refine ⟨[], dropped + middle.length, hdrop.symm, nofun, ?_⟩
      rw [hdrop]
      intro index hindex
      apply holder index
      rw [hbelow]
      exact List.mem_append_right _ hindex

theorem Over.unwound {above below : List Nat} (h : Over old pushed (above ++ below))
    (hold : old.Nodup) (hdistinct : (above ++ below).Nodup) (htop : below.head? = old.head?)
    (hkept : ∀ index, old.head? = some index → index ∉ pushed) :
    below = old ∧ ∀ index, index ∈ above ↔ index ∈ above ++ below ∧ index ∈ pushed := by
  cases old with
  | nil =>
    obtain rfl : below = [] := List.head?_eq_none_iff.mp htop
    refine ⟨rfl, fun index => ?_⟩
    obtain ⟨newer, dropped, heq, hnewer, _⟩ := h
    rw [List.drop_nil, List.append_nil, List.append_nil] at heq
    rw [List.append_nil, heq]
    exact ⟨fun hindex => ⟨hindex, hnewer index hindex⟩, fun hindex => hindex.1⟩
  | cons first rest =>
    have hfirst := hkept first rfl
    obtain ⟨lower, rfl⟩ := List.head?_eq_some_iff.mp htop
    obtain ⟨newer, dropped, heq, hnewer, holder⟩ := h
    have hmem : first ∈ newer ++ (first :: rest).drop dropped := by
      rw [← heq]
      simp
    have hnot : first ∉ newer := fun hmem => hfirst (hnewer first hmem)
    -- the old top is at the head of the old stack only, so nothing of that was dropped
    have hdropped : dropped = 0 := by
      have hlower := (List.mem_append.mp hmem).resolve_left hnot
      cases dropped with
      | zero => rfl
      | succ less =>
        rw [List.drop_succ_cons] at hlower
        exact absurd (List.mem_of_mem_drop hlower) (List.nodup_cons.mp hold).1
    subst hdropped
    rw [List.drop_zero] at heq holder
    obtain ⟨_, hbelow, hdisjoint⟩ := List.nodup_append.mp hdistinct
    have habove : first ∉ above := fun hmem => hdisjoint first hmem first List.mem_cons_self rfl
    have hlower : first ∉ lower := (List.nodup_cons.mp hbelow).1
    obtain ⟨rfl, _, rfl⟩ := (List.append_cons_inj_of_notMem habove hlower).mp heq
    refine ⟨rfl, fun index => ?_⟩
    rw [List.mem_append]
    constructor
    · intro hindex
      exact ⟨.inl hindex, hnewer index hindex⟩
    · rintro ⟨hindex | hindex, hpushed⟩
      · exact hindex
      · exact absurd hpushed (holder index hindex)

end Cwhip.Lib
