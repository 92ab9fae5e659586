/-
  Cwhip.Lib.SharedTree

  Trees in which some edges lead to a node that all edges to the same key
  share, and the depth-first search that enters every shared node once.

  The tree is the unfolding: a shared node stands under each edge that leads to
  it.  What a search should find is a place, not a path: paths that enter a
  shared node agree from there on.  The result is that the search stops at
  every place the tree has, however the shared nodes nest.
-/

import Mathlib.Data.List.Basic

namespace Cwhip.Lib

mutual

/-- A node with its outgoing edges, in order. -/
inductive Tree (ν ε : Type) where
  | node (label : ν) (edges : Edges ν ε)

inductive Edges (ν ε : Type) where
  | nil
  | cons (edge : ε) (child : Tree ν ε) (rest : Edges ν ε)

end

deriving instance DecidableEq for Tree, Edges

variable {ν ε κ : Type}

def Edges.toList : Edges ν ε → List (ε × Tree ν ε)
  | .nil => []
  | .cons edge child rest => (edge, child) :: rest.toList

def Edges.ofList : List (ε × Tree ν ε) → Edges ν ε
  | [] => .nil
  | (edge, child) :: rest => .cons edge child (ofList rest)

theorem Edges.toList_ofList (edges : List (ε × Tree ν ε)) : (Edges.ofList edges).toList =
    edges := by
  induction edges with
  | nil => rfl
  | cons edge rest ih => rw [Edges.ofList, Edges.toList, ih]

def Tree.label : Tree ν ε → ν
  | .node label _ => label

def Tree.edges : Tree ν ε → List (ε × Tree ν ε)
  | .node _ edges => edges.toList

mutual

/-- The node and everything below it. -/
def Tree.subtrees : Tree ν ε → List (Tree ν ε)
  | .node label edges => .node label edges :: edges.subtrees

def Edges.subtrees : Edges ν ε → List (Tree ν ε)
  | .nil => []
  | .cons _ child rest => child.subtrees ++ rest.subtrees

end

/-! ## Subtrees -/

theorem Tree.mem_subtrees_self (t : Tree ν ε) : t ∈ t.subtrees := by
  cases t with
  | node label edges =>
    rw [Tree.subtrees]
    exact List.mem_cons_self

theorem Edges.mem_subtrees {edges : Edges ν ε} {u : Tree ν ε} :
    u ∈ edges.subtrees ↔ ∃ e ∈ edges.toList, u ∈ e.2.subtrees := by
  match edges with
  | .nil => simp [Edges.subtrees, Edges.toList]
  | .cons edge child rest =>
    have ih := @Edges.mem_subtrees rest u
    rw [Edges.subtrees, Edges.toList, List.mem_append, ih]
    simp

theorem Tree.mem_subtrees {t u : Tree ν ε} :
    u ∈ t.subtrees ↔ u = t ∨ ∃ e ∈ t.edges, u ∈ e.2.subtrees := by
  cases t with
  | node label edges =>
    rw [Tree.subtrees, List.mem_cons, Edges.mem_subtrees]
    rfl

/-- A node strictly below another one. -/
def Tree.Below (u t : Tree ν ε) : Prop := ∃ e ∈ t.edges, u ∈ e.2.subtrees

theorem Edges.sizeOf_lt_of_mem {edges : Edges ν ε} {e : ε × Tree ν ε} (h : e ∈ edges.toList) :
    sizeOf e.2 < sizeOf edges := by
  match edges with
  | .nil => simp [Edges.toList] at h
  | .cons edge child rest =>
    rw [Edges.toList, List.mem_cons] at h
    rcases h with rfl | h
    · simp
      omega
    · have ih := Edges.sizeOf_lt_of_mem h
      simp
      omega

theorem Tree.sizeOf_edge_lt {t : Tree ν ε} {e : ε × Tree ν ε} (h : e ∈ t.edges) :
    sizeOf e.2 < sizeOf t := by
  cases t with
  | node label edges =>
    have hlt := Edges.sizeOf_lt_of_mem h
    simp
    omega

theorem Tree.sizeOf_le_of_mem (t : Tree ν ε) {u : Tree ν ε} (h : u ∈ t.subtrees) :
    sizeOf u ≤ sizeOf t := by
  rw [Tree.mem_subtrees] at h
  rcases h with rfl | ⟨e, he, hu⟩
  · exact Nat.le_refl _
  · have hlt := Tree.sizeOf_edge_lt he
    have ih := Tree.sizeOf_le_of_mem e.2 hu
    omega
termination_by sizeOf t

theorem Tree.not_below_self (t : Tree ν ε) : ¬ t.Below t := by
  rintro ⟨e, he, hmem⟩
  have hlt := Tree.sizeOf_edge_lt he
  have hle := Tree.sizeOf_le_of_mem e.2 hmem
  omega

/-- Induction goes down from a tree to what lies below it. -/
theorem Tree.below_wellFounded : WellFounded (fun u t : Tree ν ε => u.Below t) := by
  refine Subrelation.wf ?_ (measure (fun t : Tree ν ε => sizeOf t)).wf
  rintro u t ⟨e, he, hmem⟩
  exact Nat.lt_of_le_of_lt (Tree.sizeOf_le_of_mem e.2 hmem) (Tree.sizeOf_edge_lt he)

theorem Tree.mem_subtrees_trans (t : Tree ν ε) {u v : Tree ν ε} (hu : u ∈ t.subtrees)
    (hv : v ∈ u.subtrees) : v ∈ t.subtrees := by
  rw [Tree.mem_subtrees] at hu
  rcases hu with rfl | ⟨e, he, hu⟩
  · exact hv
  · rw [Tree.mem_subtrees]
    have hlt := Tree.sizeOf_edge_lt he
    exact Or.inr ⟨e, he, Tree.mem_subtrees_trans e.2 hu hv⟩
termination_by sizeOf t

theorem Tree.mem_subtrees_edge {t : Tree ν ε} {e : ε × Tree ν ε} (h : e ∈ t.edges) :
    e.2 ∈ t.subtrees :=
  Tree.mem_subtrees.mpr (Or.inr ⟨e, h, e.2.mem_subtrees_self⟩)

/-! ## Searching -/

/-- A place in the unfolded tree: the last shared node entered on the way, and
    the edges taken since. -/
structure Place (κ : Type) where
  anchor : Option κ
  indices : List Nat
  deriving DecidableEq, Repr

/-- What a search follows and where it stops. -/
structure Search (ν ε κ : Type) where
  key : ν → κ
  shared : ε → Bool
  follow : Tree ν ε → ε → Tree ν ε → Bool
  stop : ν → Bool

namespace Search

variable (S : Search ν ε κ)

def enter (place : Place κ) (index : Nat) (edge : ε) (child : Tree ν ε) : Place κ :=
  if S.shared edge then ⟨some (S.key child.label), []⟩
  else ⟨place.anchor, place.indices ++ [index]⟩

mutual

/-- Depth-first search: the nodes it stops at, and the keys entered so far. -/
def run [DecidableEq κ] : Tree ν ε → Place κ → List κ → List (Tree ν ε × Place κ) × List κ
  | .node label edges, place, seen =>
    if S.stop label then ([(.node label edges, place)], seen)
    else runEdges (.node label edges) edges 0 place seen

def runEdges [DecidableEq κ] (parent : Tree ν ε) :
    Edges ν ε → Nat → Place κ → List κ → List (Tree ν ε × Place κ) × List κ
  | .nil, _, _, seen => ([], seen)
  | .cons edge child rest, index, place, seen =>
    if S.follow parent edge child then
      if S.shared edge = true ∧ S.key child.label ∈ seen then
        runEdges parent rest (index + 1) place seen
      else
        let entered := if S.shared edge then S.key child.label :: seen else seen
        let below := run child (S.enter place index edge child) entered
        let after := runEdges parent rest (index + 1) place below.2
        (below.1 ++ after.1, after.2)
    else runEdges parent rest (index + 1) place seen

end

/-- A node the edges that are followed lead to without passing one to stop at,
    and its place. -/
inductive Reaches : Tree ν ε → Place κ → Tree ν ε → Place κ → Prop where
  | refl (t : Tree ν ε) (place : Place κ) : Reaches t place t place
  | step {t child u : Tree ν ε} {edge : ε} {index : Nat} {place place' : Place κ}
      (go : S.stop t.label = false) (at_ : t.edges[index]? = some (edge, child))
      (follow : S.follow t edge child = true)
      (rest : Reaches child (S.enter place index edge child) u place') :
      Reaches t place u place'

/-- The same through edges that are not shared. -/
inductive Direct : Tree ν ε → Place κ → Tree ν ε → Place κ → Prop where
  | refl (t : Tree ν ε) (place : Place κ) : Direct t place t place
  | step {t child u : Tree ν ε} {edge : ε} {index : Nat} {place place' : Place κ}
      (go : S.stop t.label = false) (at_ : t.edges[index]? = some (edge, child))
      (follow : S.follow t edge child = true) (own : S.shared edge = false)
      (rest : Direct child (S.enter place index edge child) u place') :
      Direct t place u place'

/-- A node that is entered through a shared edge. -/
inductive Entered : Tree ν ε → Tree ν ε → Prop where
  | here {t child : Tree ν ε} {edge : ε} {index : Nat}
      (go : S.stop t.label = false) (at_ : t.edges[index]? = some (edge, child))
      (follow : S.follow t edge child = true) (shared : S.shared edge = true) : Entered t child
  | step {t child u : Tree ν ε} {edge : ε} {index : Nat}
      (go : S.stop t.label = false) (at_ : t.edges[index]? = some (edge, child))
      (follow : S.follow t edge child = true) (rest : Entered child u) : Entered t u

def sharedPlace (u : Tree ν ε) : Place κ := ⟨some (S.key u.label), []⟩

variable {S}

/-- A place is reached directly or behind a shared node that was entered. -/
theorem Reaches.cases_last {t u : Tree ν ε} {place place' : Place κ}
    (h : S.Reaches t place u place') :
    S.Direct t place u place' ∨
      ∃ v, S.Entered t v ∧ S.Direct v (S.sharedPlace v) u place' := by
  induction h with
  | refl t place => exact Or.inl (.refl t place)
  | step go at_ follow rest ih =>
    rename_i t child u edge index place place'
    rcases ih with hdirect | ⟨v, hv, hdirect⟩
    · by_cases hshared : S.shared edge = true
      · refine Or.inr ⟨child, .here go at_ follow hshared, ?_⟩
        have henter : S.enter place index edge child = S.sharedPlace child := by
          rw [enter, if_pos hshared]
          rfl
        rwa [henter] at hdirect
      · exact Or.inl (.step go at_ follow (by simpa using hshared) hdirect)
    · exact Or.inr ⟨v, .step go at_ follow hv, hdirect⟩

theorem Reaches.mem_subtrees {t u : Tree ν ε} {place place' : Place κ}
    (h : S.Reaches t place u place') : u ∈ t.subtrees := by
  induction h with
  | refl t place => exact t.mem_subtrees_self
  | step go at_ follow rest ih =>
    have hedge := Tree.mem_subtrees_edge (List.mem_of_getElem? at_)
    exact Tree.mem_subtrees_trans _ hedge ih

theorem Entered.is_below {t u : Tree ν ε} (h : S.Entered t u) : u.Below t := by
  induction h with
  | here go at_ follow shared => exact ⟨_, List.mem_of_getElem? at_, Tree.mem_subtrees_self _⟩
  | step go at_ follow rest ih =>
    obtain ⟨e, he, hu⟩ := ih
    exact ⟨_, List.mem_of_getElem? at_, Tree.mem_subtrees.mpr (Or.inr ⟨e, he, hu⟩)⟩

/-! ## The search covers every place -/

variable (S) in
/-- A key names one node. -/
def Coherent (root : Tree ν ε) : Prop :=
  ∀ u ∈ root.subtrees, ∀ v ∈ root.subtrees, S.key u.label = S.key v.label → u = v

variable (S) in
/-- Every shared node entered from `v` is among the keys. -/
def Settled (seen : List κ) (v : Tree ν ε) : Prop := ∀ w, S.Entered v w → S.key w.label ∈ seen

/-- A node stays settled when more keys are seen. -/
theorem Settled.mono {seen seen' : List κ} {v : Tree ν ε} (h : S.Settled seen v)
    (hsub : seen ⊆ seen') : S.Settled seen' v :=
  fun w hw => hsub (h w hw)

variable (S) in
/-- What a finished part of the search has done: it keeps the keys it started
    with, and below every shared node it entered it stopped everywhere. -/
structure Covers (root : Tree ν ε) (seen : List κ) (result : List (Tree ν ε × Place κ) × List κ) :
    Prop where
  keeps : seen ⊆ result.2
  settled : ∀ v ∈ root.subtrees, S.key v.label ∈ result.2 → S.key v.label ∉ seen →
    S.Settled result.2 v
  found : ∀ v ∈ root.subtrees, S.key v.label ∈ result.2 → S.key v.label ∉ seen →
    ∀ u place, S.Direct v (S.sharedPlace v) u place → S.stop u.label = true → (u, place) ∈ result.1

variable [DecidableEq κ]

mutual

/-- Every place that can be reached is a hit or lies below a key that was seen. -/
theorem run_covers {root : Tree ν ε} (hroot : S.Coherent root) (t : Tree ν ε) (place : Place κ)
    (seen : List κ) (ht : t ∈ root.subtrees)
    (hready : ∀ v, v.Below t → S.key v.label ∈ seen → S.Settled seen v) :
    S.Covers root seen (S.run t place seen) ∧ S.Settled (S.run t place seen).2 t ∧
      ∀ u place', S.Direct t place u place' → S.stop u.label = true →
        (u, place') ∈ (S.run t place seen).1 := by
  match t with
  | .node label edges =>
    rw [run]
    by_cases hstop : S.stop label = true
    · rw [if_pos hstop]
      refine ⟨⟨fun _ h => h, ?_, ?_⟩, ?_, ?_⟩
      · intro v _ hin hnot
        exact absurd hin hnot
      · intro v _ hin hnot
        exact absurd hin hnot
      · intro w hw
        cases hw with
        | here go | step go => exact absurd (hstop.symm.trans go) (by decide)
      · intro u place' hdirect _
        cases hdirect with
        | refl => exact List.mem_singleton.mpr rfl
        | step go => exact absurd (hstop.symm.trans go) (by decide)
    · rw [if_neg hstop]
      have hbelow : ∀ e ∈ edges.toList, e.2 ∈ root.subtrees := fun e he =>
        Tree.mem_subtrees_trans _ ht (Tree.mem_subtrees_edge he)
      have hspec := runEdges_covers hroot (.node label edges) edges 0 place seen hbelow
        (fun v ⟨e, he, hv⟩ => hready v ⟨e, he, hv⟩)
      obtain ⟨hcovers, hsettled, hdirect⟩ := hspec
      refine ⟨hcovers, ?_, ?_⟩
      · intro w hw
        cases hw with
        | here _ at_ follow shared =>
          exact (hsettled _ (List.mem_of_getElem? at_) follow).1 shared
        | step _ at_ follow rest => exact (hsettled _ (List.mem_of_getElem? at_) follow).2 w rest
      · intro u place' h hu
        cases h with
        | refl => exact absurd hu hstop
        | step _ at_ follow own rest =>
          refine hdirect _ _ _ at_ follow own u place' ?_ hu
          rwa [Nat.zero_add]

theorem runEdges_covers {root : Tree ν ε} (hroot : S.Coherent root) (parent : Tree ν ε)
    (edges : Edges ν ε) (index : Nat) (place : Place κ) (seen : List κ)
    (hedges : ∀ e ∈ edges.toList, e.2 ∈ root.subtrees)
    (hready : ∀ v, (∃ e ∈ edges.toList, v ∈ e.2.subtrees) → S.key v.label ∈ seen →
      S.Settled seen v) :
    S.Covers root seen (S.runEdges parent edges index place seen) ∧
      (∀ e ∈ edges.toList, S.follow parent e.1 e.2 = true →
        (S.shared e.1 = true →
          S.key e.2.label ∈ (S.runEdges parent edges index place seen).2) ∧
        S.Settled (S.runEdges parent edges index place seen).2 e.2) ∧
      ∀ j edge child, edges.toList[j]? = some (edge, child) → S.follow parent edge child = true →
        S.shared edge = false → ∀ u place',
        S.Direct child (S.enter place (index + j) edge child) u place' → S.stop u.label = true →
        (u, place') ∈ (S.runEdges parent edges index place seen).1 := by
  match edges with
  | .nil =>
    rw [runEdges]
    refine ⟨⟨fun _ h => h, ?_, ?_⟩, ?_, ?_⟩
    · intro v _ hin hnot
      exact absurd hin hnot
    · intro v _ hin hnot
      exact absurd hin hnot
    · intro e he
      simp [Edges.toList] at he
    · intro j edge child hat
      simp [Edges.toList] at hat
  | .cons edge child rest =>
    have hchild : child ∈ root.subtrees := hedges (edge, child) List.mem_cons_self
    have hrest : ∀ e ∈ rest.toList, e.2 ∈ root.subtrees := fun e he =>
      hedges e (List.mem_cons_of_mem _ he)
    have hreadyRest : ∀ v, (∃ e ∈ rest.toList, v ∈ e.2.subtrees) → S.key v.label ∈ seen →
        S.Settled seen v := fun v ⟨e, he, hv⟩ => hready v ⟨e, List.mem_cons_of_mem _ he, hv⟩
    have hreadyChild : ∀ v ∈ child.subtrees, S.key v.label ∈ seen → S.Settled seen v :=
      fun v hv => hready v ⟨(edge, child), List.mem_cons_self, hv⟩
    rw [runEdges]
    by_cases hfollow : S.follow parent edge child = true
    · rw [if_pos hfollow]
      by_cases hskip : S.shared edge = true ∧ S.key child.label ∈ seen
      · -- the shared node was entered before, so everything below it is settled
        rw [if_pos hskip]
        obtain ⟨hcovers, hsettled, hdirect⟩ :=
          runEdges_covers hroot parent rest (index + 1) place seen hrest hreadyRest
        refine ⟨hcovers, ?_, ?_⟩
        · rw [Edges.toList, List.forall_mem_cons]
          refine ⟨fun _ => ⟨fun _ => hcovers.keeps hskip.2, ?_⟩, hsettled⟩
          exact (hreadyChild child child.mem_subtrees_self hskip.2).mono hcovers.keeps
        · intro j edge' child' hat hfollow' hown
          cases j with
          | zero =>
            obtain ⟨rfl, rfl⟩ := Prod.mk.inj (Option.some.inj hat)
            exact absurd (hskip.1.symm.trans hown) (by decide)
          | succ j =>
            have hnext := hdirect j edge' child' hat hfollow' hown
            rwa [Nat.add_right_comm] at hnext
      · rw [if_neg hskip]
        dsimp only
        generalize hentered : (if S.shared edge then S.key child.label :: seen else seen) = entered
        have hkeep : seen ⊆ entered := by
          rw [← hentered]
          split
          · exact List.subset_cons_self _ _
          · exact fun _ h => h
        -- the only new key is that of the child itself
        have hnew : ∀ v ∈ root.subtrees, S.key v.label ∈ entered → S.key v.label ∉ seen →
            v = child ∧ S.shared edge = true := by
          intro v hv hin hnot
          rw [← hentered] at hin
          split at hin
          · rename_i hshared
            rw [List.mem_cons] at hin
            exact ⟨hroot v hv child hchild (hin.resolve_right hnot), hshared⟩
          · exact absurd hin hnot
        obtain ⟨hcovers, hsettled, hdirect⟩ :=
          run_covers hroot child (S.enter place index edge child) entered hchild (by
            intro v hv hin
            obtain ⟨e, he, hmem⟩ := hv
            have hsub : v ∈ child.subtrees := Tree.mem_subtrees.mpr (Or.inr ⟨e, he, hmem⟩)
            by_cases hseen : S.key v.label ∈ seen
            · exact (hreadyChild v hsub hseen).mono hkeep
            · obtain ⟨rfl, _⟩ := hnew v (Tree.mem_subtrees_trans _ hchild hsub) hin hseen
              exact absurd ⟨e, he, hmem⟩ v.not_below_self)
        generalize S.run child (S.enter place index edge child) entered = below at *
        obtain ⟨hcovers', hsettled', hdirect'⟩ :=
          runEdges_covers hroot parent rest (index + 1) place below.2 hrest (by
            intro v hv hin
            obtain ⟨e, he, hmem⟩ := hv
            have hroot' : v ∈ root.subtrees := Tree.mem_subtrees_trans _ (hrest e he) hmem
            by_cases hseen : S.key v.label ∈ seen
            · exact (hreadyRest v ⟨e, he, hmem⟩ hseen).mono (fun _ h => hcovers.keeps (hkeep h))
            · by_cases hen : S.key v.label ∈ entered
              · obtain ⟨rfl, _⟩ := hnew v hroot' hen hseen
                exact hsettled
              · exact hcovers.settled v hroot' hin hen)
        generalize S.runEdges parent rest (index + 1) place below.2 = after at *
        refine ⟨⟨fun _ h => hcovers'.keeps (hcovers.keeps (hkeep h)), ?_, ?_⟩, ?_, ?_⟩
        · intro v hv hin hnot
          by_cases hbelow : S.key v.label ∈ below.2
          · refine Settled.mono ?_ hcovers'.keeps
            by_cases hen : S.key v.label ∈ entered
            · obtain ⟨rfl, _⟩ := hnew v hv hen hnot
              exact hsettled
            · exact hcovers.settled v hv hbelow hen
          · exact hcovers'.settled v hv hin hbelow
        · intro v hv hin hnot u place' hpath hstop
          rw [List.mem_append]
          by_cases hbelow : S.key v.label ∈ below.2
          · left
            by_cases hen : S.key v.label ∈ entered
            · obtain ⟨rfl, hshared⟩ := hnew v hv hen hnot
              refine hdirect u place' ?_ hstop
              rwa [enter, if_pos hshared]
            · exact hcovers.found v hv hbelow hen u place' hpath hstop
          · exact Or.inr (hcovers'.found v hv hin hbelow u place' hpath hstop)
        · rw [Edges.toList, List.forall_mem_cons]
          refine ⟨fun _ => ⟨fun hshared => ?_, hsettled.mono hcovers'.keeps⟩, hsettled'⟩
          apply hcovers'.keeps
          apply hcovers.keeps
          rw [← hentered, if_pos hshared]
          exact List.mem_cons_self
        · intro j edge' child' hat hfollow' hown u place' hpath hstop
          rw [List.mem_append]
          cases j with
          | zero =>
            obtain ⟨rfl, rfl⟩ := Prod.mk.inj (Option.some.inj hat)
            exact Or.inl (hdirect u place' hpath hstop)
          | succ j =>
            right
            refine hdirect' j edge' child' hat hfollow' hown u place' ?_ hstop
            rwa [Nat.add_right_comm]
    · rw [if_neg hfollow]
      obtain ⟨hcovers, hsettled, hdirect⟩ :=
        runEdges_covers hroot parent rest (index + 1) place seen hrest hreadyRest
      refine ⟨hcovers, ?_, ?_⟩
      · rw [Edges.toList, List.forall_mem_cons]
        exact ⟨fun h => absurd h hfollow, hsettled⟩
      · intro j edge' child' hat hfollow'
        cases j with
        | zero =>
          obtain ⟨rfl, rfl⟩ := Prod.mk.inj (Option.some.inj hat)
          exact absurd hfollow' hfollow
        | succ j =>
          intro hown
          have hnext := hdirect j edge' child' hat hfollow' hown
          rwa [Nat.add_right_comm] at hnext

end

mutual

/-- The place a search starts from decides where the hits lie, not which they are. -/
theorem run_place (t : Tree ν ε) (place place' : Place κ) (seen : List κ) :
    (S.run t place seen).1.map Prod.fst = (S.run t place' seen).1.map Prod.fst ∧
      (S.run t place seen).2 = (S.run t place' seen).2 := by
  match t with
  | .node label edges =>
    rw [run, run]
    by_cases hstop : S.stop label = true
    · rw [if_pos hstop, if_pos hstop]
      exact ⟨rfl, rfl⟩
    · rw [if_neg hstop, if_neg hstop]
      exact runEdges_place _ edges 0 place place' seen

theorem runEdges_place (parent : Tree ν ε) (edges : Edges ν ε) (index : Nat)
    (place place' : Place κ) (seen : List κ) :
    (S.runEdges parent edges index place seen).1.map Prod.fst
        = (S.runEdges parent edges index place' seen).1.map Prod.fst ∧
      (S.runEdges parent edges index place seen).2
        = (S.runEdges parent edges index place' seen).2 := by
  match edges with
  | .nil => exact ⟨rfl, rfl⟩
  | .cons edge child rest =>
    rw [runEdges, runEdges]
    by_cases hfollow : S.follow parent edge child = true
    · rw [if_pos hfollow, if_pos hfollow]
      by_cases hskip : S.shared edge = true ∧ S.key child.label ∈ seen
      · rw [if_pos hskip, if_pos hskip]
        exact runEdges_place parent rest (index + 1) place place' seen
      · rw [if_neg hskip, if_neg hskip]
        dsimp only
        obtain ⟨hbelow, hkeys⟩ := run_place child (S.enter place index edge child)
          (S.enter place' index edge child)
          (if S.shared edge then S.key child.label :: seen else seen)
        obtain ⟨hafter, hkeys'⟩ := runEdges_place parent rest (index + 1) place place'
          (S.run child (S.enter place' index edge child)
            (if S.shared edge then S.key child.label :: seen else seen)).2
        rw [hkeys, List.map_append, List.map_append, hbelow, hafter, hkeys']
        exact ⟨rfl, rfl⟩
    · rw [if_neg hfollow, if_neg hfollow]
      exact runEdges_place parent rest (index + 1) place place' seen

end

omit [DecidableEq κ] in
theorem exists_reaches (hall : ∀ t edge child, S.follow t edge child = true) (t : Tree ν ε)
    {u : Tree ν ε} (place : Place κ) (hu : u ∈ t.subtrees) (hstop : S.stop u.label = true) :
    ∃ v place', S.Reaches t place v place' ∧ S.stop v.label = true := by
  by_cases ht : S.stop t.label = true
  · exact ⟨t, place, .refl t place, ht⟩
  · rw [Tree.mem_subtrees] at hu
    rcases hu with rfl | ⟨e, he, hmem⟩
    · exact absurd hstop ht
    · have hlt := Tree.sizeOf_edge_lt he
      obtain ⟨index, hat⟩ := List.getElem?_of_mem he
      obtain ⟨v, place', hreach, hv⟩ :=
        exists_reaches hall e.2 (S.enter place index e.1 e.2) hmem hstop
      exact ⟨v, place', .step (by simpa using ht) hat (hall t e.1 e.2) hreach, hv⟩
termination_by sizeOf t

/-- The search hits every stop it reaches. -/
theorem mem_run {root : Tree ν ε} (hroot : S.Coherent root) {place : Place κ} {u : Tree ν ε}
    {place' : Place κ} (h : S.Reaches root place u place') (hstop : S.stop u.label = true) :
    (u, place') ∈ (S.run root place []).1 := by
  obtain ⟨hcovers, hsettled, hdirect⟩ :=
    run_covers hroot root place [] root.mem_subtrees_self (fun v _ hv => by simp at hv)
  rcases h.cases_last with hown | ⟨v, hv, hown⟩
  · exact hdirect u place' hown hstop
  · obtain ⟨e, he, hmem⟩ := hv.is_below
    have hsub : v ∈ root.subtrees := Tree.mem_subtrees.mpr (Or.inr ⟨e, he, hmem⟩)
    exact hcovers.found v hsub (hsettled v hv) (by simp) u place' hown hstop

end Search

end Cwhip.Lib
