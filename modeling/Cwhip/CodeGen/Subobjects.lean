/-
  Cwhip.CodeGen.Subobjects

  The subobjects of a class: the paths of base names that lead to them, where
  their addresses are, and the enumeration `subobjects`.

  A struct member of a base lies within its class, and a virtual base once in
  the whole object.  A spot is therefore the last virtual base on the way and
  the bases entered since.
-/

import Mathlib.Data.List.Induction
import Cwhip.CodeGen.Hierarchy

namespace Cwhip.CodeGen

open Cwhip.Lib
open Cwhip.Inheritance (AccessLevel BaseInfo)

/-- Where a subobject lies in the object. -/
structure Spot where
  anchor : Option Text
  names : List Text
  deriving DecidableEq

/-- The whole object. -/
def whole : Spot := ⟨none, []⟩

/-- The spot of a base of the class at a spot. -/
def Spot.enter (spot : Spot) (isVirtual : Bool) (name : Text) : Spot :=
  if isVirtual then ⟨some name, []⟩ else ⟨spot.anchor, spot.names ++ [name]⟩

/-- `subobjectAddressSequence`: the class and the spot that a path of base names
    leads to. -/
def walk : ClassDeclaration → Spot → List Text → Option (ClassDeclaration × Spot)
  | current, spot, [] => some (current, spot)
  | current, spot, name :: rest =>
    match current.edges.find? (fun base => base.2.label.name == name) with
    | some base => walk base.2 (spot.enter base.1.isVirtual name) rest
    | none => none

mutual

/-- The recursion of `subobjects`, on the path and the virtual bases seen. -/
def subobjectsFrom :
    ClassDeclaration → List Text → List Text → List (List Text × ClassDeclaration) × List Text
  | .node info bases, path, seen =>
    let below := subobjectsBases bases path seen
    ((path, .node info bases) :: below.1, below.2)

def subobjectsBases :
    Edges ClassInfo BaseInfo → List Text → List Text →
    List (List Text × ClassDeclaration) × List Text
  | .nil, _, seen => ([], seen)
  | .cons edge base rest, path, seen =>
    if edge.isVirtual = true ∧ base.label.name ∈ seen then subobjectsBases rest path seen
    else
      let entered := if edge.isVirtual then base.label.name :: seen else seen
      let below := subobjectsFrom base (path ++ [base.label.name]) entered
      let after := subobjectsBases rest path below.2
      (below.1 ++ after.1, after.2)

end

/-- `CodeGenerator::subobjects`: each subobject with the first path to it. -/
def subobjects (owner : ClassDeclaration) : List (List Text × ClassDeclaration) :=
  (subobjectsFrom owner [] []).1

/-! ## Walking -/

@[simp] theorem walk_nil (c : ClassDeclaration) (spot : Spot) : walk c spot [] = some (c, spot) :=
    rfl

variable {c u root : ClassDeclaration} {spot spot' : Spot} {name target : Text}
  {rest path : List Text} {base : BaseInfo × ClassDeclaration} {p : Program}

variable {result : ClassDeclaration × Spot} {v d : ClassDeclaration} {visited : List Text}

theorem walk_cons :
    walk c spot (name :: rest) = some result ↔
      ∃ base, c.edges.find? (fun base => base.2.label.name == name) = some base ∧
        walk base.2 (spot.enter base.1.isVirtual name) rest = some result := by
  rw [walk]
  cases c.edges.find? (fun base => base.2.label.name == name) with
  | none => simp
  | some base => simp

/-- A walk goes on from where its first part ends. -/
theorem walk_append :
    walk c spot (path ++ rest) = (walk c spot path).bind fun reached =>
    walk reached.1 reached.2 rest := by
  induction path generalizing c spot with
  | nil => rfl
  | cons name path ih =>
    rw [List.cons_append, walk, walk]
    cases c.edges.find? (fun base => base.2.label.name == name) with
    | none => rfl
    | some base => exact ih

theorem walk_append_some :
    walk c spot (path ++ rest) = some result ↔
      ∃ reached, walk c spot path = some reached ∧ walk reached.1 reached.2 rest = some result := by
  rw [walk_append, Option.bind_eq_some_iff]

theorem find_edge (h : c.edges.find? (fun base => base.2.label.name == name) = some base) :
    base ∈ c.edges ∧ base.2.label.name = name :=
  ⟨List.mem_of_find?_eq_some h, by simpa using List.find?_some h⟩

theorem walk_mem (h : walk c spot path = some (u, spot')) : u ∈ c.subtrees := by
  induction path generalizing c spot with
  | nil =>
    obtain ⟨rfl, _⟩ := Prod.mk.inj (Option.some.inj h)
    exact c.mem_subtrees_self
  | cons name rest ih =>
    obtain ⟨base, hbase, hrest⟩ := walk_cons.mp h
    exact Tree.mem_subtrees_trans _ (Tree.mem_subtrees_edge (find_edge hbase).1) (ih hrest)

theorem walk_below (h : walk c spot path = some (u, spot')) (hpath : path ≠ []) : u.Below c := by
  cases path with
  | nil => exact absurd rfl hpath
  | cons name rest =>
    obtain ⟨base, hbase, hrest⟩ := walk_cons.mp h
    exact ⟨base, (find_edge hbase).1, walk_mem hrest⟩

/-! ## Spots -/

def Spot.within (start spot : Spot) : Spot :=
  match spot.anchor with
  | none => ⟨start.anchor, start.names ++ spot.names⟩
  | some _ => spot

theorem within_whole (start : Spot) : start.within whole = start := by
  show Spot.mk start.anchor (start.names ++ []) = start
  rw [List.append_nil]

theorem within_enter (start spot : Spot) (isVirtual : Bool) (name : Text) :
    start.within (spot.enter isVirtual name) = (start.within spot).enter isVirtual name := by
  obtain ⟨anchor, names⟩ := spot
  cases isVirtual with
  | true => rfl
  | false =>
    cases anchor with
    | none =>
      show Spot.mk start.anchor (start.names ++ (names ++ [name]))
        = Spot.mk start.anchor (start.names ++ names ++ [name])
      rw [List.append_assoc]
    | some anchor => rfl

/-- Walking does not depend on where the subobject itself lies. -/
theorem walk_within (c : ClassDeclaration) (start spot : Spot) (path : List Text) :
    walk c (start.within spot) path
      = (walk c spot path).map fun reached => (reached.1, start.within reached.2) := by
  induction path generalizing c spot with
  | nil => rfl
  | cons name rest ih =>
    rw [walk, walk]
    cases c.edges.find? (fun base => base.2.label.name == name) with
    | none => rfl
    | some base =>
      dsimp only
      rw [← within_enter]
      exact ih _ _

theorem walk_from {start : Spot}
    (h : walk c whole path = some (u, spot)) : walk c start path = some (u, start.within spot) := by
  have hshift := walk_within c start whole path
  rw [within_whole, h] at hshift
  exact hshift

/-- Classes of a tree that have one name are one class. -/
def Coherent (c : ClassDeclaration) : Prop :=
  ∀ u ∈ c.subtrees, ∀ v ∈ c.subtrees, u.label.name = v.label.name → u = v

theorem Program.coherent (p : Program) (hc : c ∈ p.classes) : Coherent c := by
  intro u hu v hv hname
  have hfind := p.find_subtree hc hu
  rw [hname, p.find_subtree hc hv] at hfind
  exact (Option.some.inj hfind).symm

theorem find_name (h : c.edges.find? (fun base => base.2.label.name == name) = some base) :
    base.2.label.name = name := (find_edge h).2

/-- The class at a spot: the last virtual base, and the bases entered since. -/
def classAt (c : ClassDeclaration) (spot : Spot) : Option ClassDeclaration :=
  let start := match spot.anchor with
    | none => some c
    | some name => c.subtrees.find? (fun u => u.label.name == name)
  start.bind fun u => (walk u whole spot.names).map (·.1)

theorem walk_classAt (hroot : Coherent root) (h : walk root whole path = some (u, spot)) :
    classAt root spot = some u := by
  induction path using List.reverseRecOn generalizing u spot with
  | nil =>
    obtain ⟨rfl, rfl⟩ := Prod.mk.inj (Option.some.inj h)
    rfl
  | append_singleton path name ih =>
    obtain ⟨⟨v, spot'⟩, hv, hlast⟩ := walk_append_some.mp h
    obtain ⟨base, hbase, hend⟩ := walk_cons.mp hlast
    obtain ⟨rfl, rfl⟩ := Prod.mk.inj (Option.some.inj hend)
    have hat := ih hv
    have hmem : base.2 ∈ root.subtrees := walk_mem h
    have hname := find_name hbase
    obtain ⟨⟨access, isVirtual⟩, base⟩ := base
    cases isVirtual with
    | true =>
      -- the name of a virtual base is that of one class
      have hfind : root.subtrees.find? (fun u => u.label.name == name) = some base := by
        cases hfound : root.subtrees.find? (fun u => u.label.name == name) with
        | none => exact absurd hname (by simpa using List.find?_eq_none.mp hfound base hmem)
        | some w =>
          have hw : w.label.name = name := by simpa using List.find?_some hfound
          rw [hroot w (List.mem_of_find?_eq_some hfound) base hmem (hw.trans hname.symm)]
      show ((root.subtrees.find? (fun u => u.label.name == name)).bind fun u =>
        (walk u whole []).map (·.1)) = some base
      rw [hfind]
      rfl
    | false =>
      obtain ⟨start, hstart, hreached⟩ := Option.bind_eq_some_iff.mp hat
      obtain ⟨⟨_, inner⟩, hinner, rfl⟩ := Option.map_eq_some_iff.mp hreached
      refine Option.bind_eq_some_iff.mpr ⟨start, hstart, ?_⟩
      rw [Option.map_eq_some_iff]
      refine ⟨(base, inner.enter false name), ?_, rfl⟩
      exact walk_append_some.mpr ⟨_, hinner, walk_cons.mpr ⟨(⟨access, false⟩, base), hbase, rfl⟩⟩

/-- The spot decides the class that lies there. -/
theorem walk_class (hroot : Coherent root) {path' : List Text}
    (h : walk root whole path = some (u, spot))
    (h' : walk root whole path' = some (v, spot)) : u = v :=
  Option.some.inj ((walk_classAt hroot h).symm.trans (walk_classAt hroot h'))

def Leads (root : ClassDeclaration) (spot spot' : Spot) : Prop :=
  ∃ path rest u v, walk root whole path = some (u, spot) ∧ walk u spot rest = some (v, spot')

theorem Leads.trans (hroot : Coherent root) {first second third : Spot}
    (h : Leads root first second) (h' : Leads root second third) : Leads root first third := by
  obtain ⟨path, rest, u, v, hu, hv⟩ := h
  obtain ⟨path', rest', v', w, hv', hw⟩ := h'
  have hsame : v = v' := walk_class hroot (walk_append_some.mpr ⟨_, hu, hv⟩) hv'
  rw [← hsame] at hw
  exact ⟨path, rest ++ rest', u, w, hu, walk_append_some.mpr ⟨_, hv, hw⟩⟩

/-- Two spots that lead to one another are one. -/
theorem Leads.antisymm (hroot : Coherent root) (h : Leads root spot spot')
    (h' : Leads root spot' spot) : spot = spot' := by
  obtain ⟨path, rest, u, v, hu, hv⟩ := h
  obtain ⟨path', rest', v', w, hv', hw⟩ := h'
  have hpath := walk_append_some.mpr ⟨_, hu, hv⟩
  have hsame : v = v' := walk_class hroot hpath hv'
  rw [← hsame] at hw
  have hback : u = w := walk_class hroot hu (walk_append_some.mpr ⟨_, hpath, hw⟩)
  rw [← hback] at hw
  by_cases hrest : rest = []
  · rw [hrest] at hv
    exact (Prod.mk.inj (Option.some.inj hv)).2
  · have hround := walk_append_some.mpr ⟨_, hv, hw⟩
    exact absurd (walk_below hround (by simp [hrest])) u.not_below_self

/-! ## Enumeration -/

/-- Base names are distinct in every class of the tree. -/
def DistinctBases (c : ClassDeclaration) : Prop :=
  ∀ u ∈ c.subtrees, (u.edges.map fun base => base.2.label.name).Nodup

theorem Program.distinctBases (p : Program) (hc : c ∈ p.classes) :
    DistinctBases c := fun u hu => p.directBases u (p.mem_subtree hc hu)

theorem DistinctBases.subtree (h : DistinctBases c) (hu : u ∈ c.subtrees) :
    DistinctBases u := fun v hv => h v (Tree.mem_subtrees_trans _ hu hv)

theorem find_of_mem {edges : List (BaseInfo × ClassDeclaration)}
    (hdistinct : (edges.map fun base => base.2.label.name).Nodup) (h : base ∈ edges) :
    edges.find? (fun other => other.2.label.name == base.2.label.name) = some base := by
  induction edges with
  | nil => cases h
  | cons other rest ih =>
    rw [List.map_cons, List.nodup_cons] at hdistinct
    rcases List.mem_cons.mp h with rfl | h
    · simp
    · have hne : other.2.label.name ≠ base.2.label.name := fun heq =>
        hdistinct.1 (heq ▸ List.mem_map_of_mem h)
      rw [List.find?_cons_of_neg (by simpa using hne)]
      exact ih hdistinct.2 h

mutual

/-- Every entry is reached by walking its path. -/
theorem subobjectsFrom_walk {c : ClassDeclaration} (hdistinct : DistinctBases c)
    {path seen : List Text} {entry : List Text × ClassDeclaration}
    (h : entry ∈ (subobjectsFrom c path seen).1) :
    ∃ rest, entry.1 = path ++ rest ∧ ∀ spot, ∃ spot', walk c spot rest = some (entry.2, spot') := by
  match c with
  | .node info bases =>
    rw [subobjectsFrom] at h
    rcases List.mem_cons.mp h with rfl | h
    · exact ⟨[], (List.append_nil _).symm, fun spot => ⟨spot, rfl⟩⟩
    · have hbases : ∀ base ∈ bases.toList, DistinctBases base.2 := fun base hbase =>
        hdistinct.subtree (Tree.mem_subtrees_edge hbase)
      obtain ⟨base, hbase, rest, hpath, hwalk⟩ := subobjectsBases_walk hbases h
      refine ⟨base.2.label.name :: rest, hpath, ?_⟩
      intro spot
      obtain ⟨spot', hspot⟩ := hwalk (spot.enter base.1.isVirtual base.2.label.name)
      refine ⟨spot', walk_cons.mpr ⟨base, ?_, hspot⟩⟩
      exact find_of_mem (hdistinct _ (Tree.mem_subtrees_self _)) hbase

theorem subobjectsBases_walk {bases : Edges ClassInfo BaseInfo}
    (hdistinct : ∀ base ∈ bases.toList, DistinctBases base.2)
    {path seen : List Text} {entry : List Text × ClassDeclaration}
    (h : entry ∈ (subobjectsBases bases path seen).1) :
    ∃ base ∈ bases.toList, ∃ rest, entry.1 = path ++ base.2.label.name :: rest ∧
      ∀ spot, ∃ spot', walk base.2 spot rest = some (entry.2, spot') := by
  match bases with
  | .nil =>
    rw [subobjectsBases] at h
    cases h
  | .cons edge base others =>
    obtain ⟨hbase, hothers⟩ := List.forall_mem_cons.mp hdistinct
    have hlater : ∀ {seen}, entry ∈ (subobjectsBases others path seen).1 →
        ∃ base' ∈ (Edges.cons edge base others).toList, ∃ rest,
          entry.1 = path ++ base'.2.label.name :: rest ∧
            ∀ spot, ∃ spot', walk base'.2 spot rest = some (entry.2, spot') := by
      intro seen hmem
      obtain ⟨base', hbase', hrest⟩ := subobjectsBases_walk hothers hmem
      exact ⟨base', List.mem_cons_of_mem _ hbase', hrest⟩
    rw [subobjectsBases] at h
    split at h
    · exact hlater h
    · rcases List.mem_append.mp h with h | h
      · obtain ⟨rest, hpath, hwalk⟩ := subobjectsFrom_walk hbase h
        refine ⟨(edge, base), List.mem_cons_self, rest, ?_, hwalk⟩
        rw [hpath, List.append_assoc]
        rfl
      · exact hlater h

end

theorem subobjects_walk (hdistinct : DistinctBases c) (h : (path, u) ∈ subobjects c) (spot : Spot) :
    ∃ spot', walk c spot path = some (u, spot') := by
  obtain ⟨rest, hpath, hwalk⟩ := subobjectsFrom_walk hdistinct h
  obtain rfl : path = rest := hpath
  exact hwalk spot

/-- Subobjects on the way from the path to a listed one are listed before it. -/
def Listed (path : List Text) (entries : List (List Text × ClassDeclaration)) : Prop :=
  ∀ (i : Nat) (entry : List Text × ClassDeclaration), entries[i]? = some entry →
    ∀ rest name tail, entry.1 = path ++ rest ++ name :: tail → ∃ j < i, ∃ v, entries[j]? =
      some (path ++ rest, v)

mutual

/-- A subobject is listed behind all those its path goes through. -/
theorem subobjectsFrom_listed {c : ClassDeclaration} (hdistinct : DistinctBases c)
    (path seen : List Text) : Listed path (subobjectsFrom c path seen).1 := by
  match c with
  | .node info bases =>
    rw [subobjectsFrom]
    exact subobjectsBases_listed
      (fun base hbase => hdistinct.subtree (Tree.mem_subtrees_edge hbase)) path seen _

theorem subobjectsBases_listed {bases : Edges ClassInfo BaseInfo}
    (hdistinct : ∀ base ∈ bases.toList, DistinctBases base.2) (path seen : List Text)
    (v : ClassDeclaration) : Listed path ((path, v) :: (subobjectsBases bases path seen).1) := by
  match bases with
  | .nil =>
    rw [subobjectsBases]
    intro i entry hi rest name tail hpath
    cases i with
    | zero =>
      obtain rfl := Option.some.inj hi
      have hlength := congrArg List.length hpath
      simp only [List.length_append, List.length_cons] at hlength
      omega
    | succ i => cases hi
  | .cons edge base others =>
    obtain ⟨hbase, hothers⟩ := List.forall_mem_cons.mp hdistinct
    rw [subobjectsBases]
    split
    · exact subobjectsBases_listed hothers path seen v
    · dsimp only
      generalize hentered : (if edge.isVirtual then base.label.name :: seen else seen) = entered
      have hin := subobjectsFrom_listed hbase (path ++ [base.label.name]) entered
      have hbelow : ∀ entry ∈ (subobjectsFrom base (path ++ [base.label.name]) entered).1,
          ∃ rest, entry.1 = path ++ [base.label.name] ++ rest := by
        intro entry hmem
        obtain ⟨rest, hrest, _⟩ := subobjectsFrom_walk hbase hmem
        exact ⟨rest, hrest⟩
      generalize subobjectsFrom base (path ++ [base.label.name]) entered = below at *
      have hafter := subobjectsBases_listed hothers path below.2 v
      generalize (subobjectsBases others path below.2).1 = after at *
      intro i entry hi rest name tail hpath
      cases i with
      | zero =>
        obtain rfl := Option.some.inj hi
        have hlength := congrArg List.length hpath
        simp only [List.length_append, List.length_cons] at hlength
        omega
      | succ i =>
        rw [List.getElem?_cons_succ] at hi
        -- the entry lies below this base, or below a later one
        by_cases hless : i < below.1.length
        · -- the entry is listed below this base
          rw [List.getElem?_append_left hless] at hi
          obtain ⟨rest', hrest'⟩ := hbelow entry (List.mem_of_getElem? hi)
          cases rest with
          | nil => exact ⟨0, Nat.succ_pos _, v, by rw [List.append_nil]; rfl⟩
          | cons first rest =>
            have hfirst : first = base.label.name := by
              rw [hpath, List.append_assoc, List.append_assoc] at hrest'
              exact (List.cons.inj (List.append_cancel_left hrest')).1
            have hpath' : entry.1 = path ++ [base.label.name] ++ rest ++ name :: tail := by
              rw [hpath, hfirst]
              simp only [List.append_assoc, List.cons_append, List.nil_append]
            obtain ⟨j, hj, w, hw⟩ := hin i entry hi rest name tail hpath'
            refine ⟨j + 1, by omega, w, ?_⟩
            rw [List.getElem?_cons_succ, List.getElem?_append_left (by omega), hw, hfirst]
            simp only [List.append_assoc, List.cons_append, List.nil_append]
        · -- the entry is listed below a later base, behind all of these
          rw [List.getElem?_append_right (by omega)] at hi
          have hshift : ((path, v) :: after)[i - below.1.length + 1]? = some entry := hi
          obtain ⟨j, hj, w, hw⟩ := hafter _ entry hshift rest name tail hpath
          cases j with
          | zero => exact ⟨0, Nat.succ_pos _, w, hw⟩
          | succ j =>
            refine ⟨below.1.length + j + 1, by omega, w, ?_⟩
            rw [List.getElem?_cons_succ, List.getElem?_append_right (by omega),
              Nat.add_sub_cancel_left]
            exact hw

end

theorem subobjects_listed (hdistinct : DistinctBases c) :
    Listed [] (subobjects c) := subobjectsFrom_listed hdistinct [] []

/-! ### Every base is enumerated -/

/-- What an enumeration from some virtual bases seen has done: each base it
    passed is listed or was seen, and what it has newly seen is listed. -/
structure Enumerated (seen : List Text) (result : List (List Text × ClassDeclaration) × List Text) :
    Prop where
  grows : seen ⊆ result.2
  entered : ∀ name ∈ result.2, name ∈ seen ∨ ∃ entry ∈ result.1, entry.2.label.name = name
  edges : ∀ entry ∈ result.1, ∀ base ∈ entry.2.edges,
    (∃ other ∈ result.1, other.2 = base.2) ∨ base.2.label.name ∈ result.2

mutual

/-- Every base of an entry is enumerated too, or its name was seen before. -/
theorem subobjectsFrom_enumerated (c : ClassDeclaration) (path seen : List Text) :
    Enumerated seen (subobjectsFrom c path seen) := by
  match c with
  | .node info bases =>
    obtain ⟨hbases, hdirect⟩ := subobjectsBases_enumerated bases path seen
    rw [subobjectsFrom]
    refine ⟨hbases.grows, ?_, ?_⟩
    · intro name hname
      refine (hbases.entered name hname).imp_right ?_
      exact fun ⟨entry, hentry, heq⟩ => ⟨entry, List.mem_cons_of_mem _ hentry, heq⟩
    · have hlisted : ∀ base : BaseInfo × ClassDeclaration,
          ((∃ other ∈ (subobjectsBases bases path seen).1, other.2 = base.2) ∨
            base.2.label.name ∈ (subobjectsBases bases path seen).2) →
          (∃ other ∈ (path, (.node info bases : ClassDeclaration)) ::
            (subobjectsBases bases path seen).1,
            other.2 = base.2) ∨ base.2.label.name ∈ (subobjectsBases bases path seen).2 :=
        fun base h => h.imp_left fun ⟨other, hother, heq⟩ =>
          ⟨other, List.mem_cons_of_mem _ hother, heq⟩
      intro entry hentry base hbase
      rcases List.mem_cons.mp hentry with rfl | hentry
      · exact hlisted base (hdirect base hbase)
      · exact hlisted base (hbases.edges entry hentry base hbase)

theorem subobjectsBases_enumerated (bases : Edges ClassInfo BaseInfo) (path seen : List Text) :
    Enumerated seen (subobjectsBases bases path seen) ∧
      ∀ base ∈ bases.toList, (∃ other ∈ (subobjectsBases bases path seen).1, other.2 = base.2) ∨
        base.2.label.name ∈ (subobjectsBases bases path seen).2 := by
  match bases with
  | .nil =>
    rw [subobjectsBases]
    exact ⟨⟨List.Subset.refl _, fun _ h => .inl h, fun _ h => (nomatch h)⟩, fun _ h => (nomatch h)⟩
  | .cons edge base others =>
    rw [subobjectsBases, Edges.toList, List.forall_mem_cons]
    split
    · next hskip =>
      obtain ⟨hothers, hdirect⟩ := subobjectsBases_enumerated others path seen
      exact ⟨hothers, .inr (hothers.grows hskip.2), hdirect⟩
    · dsimp only
      generalize hentered : (if edge.isVirtual then base.label.name :: seen else seen) = entered
      have hself : ∃ other ∈ (subobjectsFrom base (path ++ [base.label.name]) entered).1,
          other.2 = base := by
        cases base with
        | node info bases => exact ⟨_, List.mem_cons_self, rfl⟩
      have hbelow := subobjectsFrom_enumerated base (path ++ [base.label.name]) entered
      generalize subobjectsFrom base (path ++ [base.label.name]) entered = below at *
      obtain ⟨hafter, hdirect⟩ := subobjectsBases_enumerated others path below.2
      generalize subobjectsBases others path below.2 = after at *
      have hkeep : seen ⊆ entered := by
        rw [← hentered]
        split
        · exact List.subset_cons_self _ _
        · exact List.Subset.refl _
      have hnew : ∀ name ∈ entered, name ∈ seen ∨ name = base.label.name := by
        intro name hname
        rw [← hentered] at hname
        split at hname
        · exact (List.mem_cons.mp hname).symm
        · exact .inl hname
      obtain ⟨self, hmem, hbase⟩ := hself
      refine ⟨⟨?_, ?_, ?_⟩, ?_, ?_⟩
      · exact fun _ h => hafter.grows (hbelow.grows (hkeep h))
      · intro name hname
        rcases hafter.entered name hname with hname | ⟨entry, hentry, heq⟩
        · rcases hbelow.entered name hname with hname | ⟨entry, hentry, heq⟩
          · refine (hnew name hname).imp_right fun heq => ?_
            exact ⟨self, List.mem_append_left _ hmem, by rw [hbase, heq]⟩
          · exact .inr ⟨entry, List.mem_append_left _ hentry, heq⟩
        · exact .inr ⟨entry, List.mem_append_right _ hentry, heq⟩
      · intro entry hentry other hother
        rcases List.mem_append.mp hentry with hentry | hentry
        · refine (hbelow.edges entry hentry other hother).imp ?_ (fun h => hafter.grows h)
          exact fun ⟨found, hfound, heq⟩ => ⟨found, List.mem_append_left _ hfound, heq⟩
        · refine (hafter.edges entry hentry other hother).imp_left ?_
          exact fun ⟨found, hfound, heq⟩ => ⟨found, List.mem_append_right _ hfound, heq⟩
      · exact .inl ⟨self, List.mem_append_left _ hmem, hbase⟩
      · intro other hother
        refine (hdirect other hother).imp_left ?_
        exact fun ⟨found, hfound, heq⟩ => ⟨found, List.mem_append_right _ hfound, heq⟩

end

theorem self_mem_subobjects (c : ClassDeclaration) : ([], c) ∈ subobjects c := by
  cases c with
  | node info bases => exact List.mem_cons_self

/-- Every class of the hierarchy has a subobject. -/
theorem mem_subobjects (hdistinct : DistinctBases c) (hc : Coherent c)
    (hu : u ∈ c.subtrees) : ∃ path, (path, u) ∈ subobjects c := by
  have hall := subobjectsFrom_enumerated c [] []
  have hclosed : ∀ path v, (path, v) ∈ subobjects c → ∀ base ∈ v.edges,
      ∃ path', (path', base.2) ∈ subobjects c := by
    intro path v hv base hbase
    rcases hall.edges _ hv base hbase with ⟨⟨path', w⟩, hother, heq⟩ | hseen
    · obtain rfl : w = base.2 := heq
      exact ⟨path', hother⟩
    · -- a virtual base that was seen is listed where it was entered
      rcases hall.entered _ hseen with hnil | ⟨⟨path', w⟩, hother, hname⟩
      · cases hnil
      · have hsubtree : ∀ {path u}, (path, u) ∈ subobjects c → u ∈ c.subtrees := by
          intro path u hmem
          obtain ⟨_, hwalk⟩ := subobjects_walk hdistinct hmem whole
          exact walk_mem hwalk
        have hbase' : base.2 ∈ c.subtrees :=
          Tree.mem_subtrees_trans _ (hsubtree hv) (Tree.mem_subtrees_edge hbase)
        exact ⟨path', hc w (hsubtree hother) base.2 hbase' hname ▸ hother⟩
  have hbelow : ∀ t : ClassDeclaration, ∀ path, (path, t) ∈ subobjects c → ∀ u ∈ t.subtrees,
      ∃ path', (path', u) ∈ subobjects c := by
    intro t
    induction t using Tree.below_wellFounded.induction with
    | _ t ih =>
      intro path ht u hu
      rcases Tree.mem_subtrees.mp hu with rfl | ⟨base, hbase, hu⟩
      · exact ⟨path, ht⟩
      · obtain ⟨path', hpath'⟩ := hclosed path t ht base hbase
        exact ih base.2 ⟨base, hbase, Tree.mem_subtrees_self _⟩ path' hpath' u hu
  exact hbelow c [] (self_mem_subobjects c) u hu

/-! ## Classes above a name -/

def leadsTo (target : Text) (c : ClassDeclaration) : Bool :=
  c.subtrees.any fun u => u.label.name == target

theorem leadsTo_iff :
    leadsTo target c = true ↔ ∃ u ∈ c.subtrees, u.label.name = target := by
  unfold leadsTo
  rw [List.any_eq_true]
  exact exists_congr fun u => and_congr_right fun _ => beq_iff_eq

/-- A class leads to a name by being it or through a base. -/
theorem leadsTo_step :
    leadsTo target c = true ↔
      c.label.name = target ∨ ∃ base ∈ c.edges, leadsTo target base.2 = true := by
  simp only [leadsTo_iff]
  constructor
  · rintro ⟨u, hu, hname⟩
    rcases Tree.mem_subtrees.mp hu with rfl | ⟨base, hbase, hbelow⟩
    · exact .inl hname
    · exact .inr ⟨base, hbase, u, hbelow, hname⟩
  · rintro (hname | ⟨base, hbase, u, hu, hname⟩)
    · exact ⟨c, Tree.mem_subtrees_self c, hname⟩
    · exact ⟨u, Tree.mem_subtrees.mpr (.inr ⟨base, hbase, hu⟩), hname⟩

/-- The names that are visited in a class without a base of the target's name
    belong to such classes. -/
def Fruitless (target : Text) (visited : List Text) (c : ClassDeclaration) : Prop :=
  ∀ name ∈ visited, ∀ u ∈ c.subtrees, u.label.name = name → leadsTo target u = false

theorem Program.same_subtree (hc : c ∈ p.classes) (hd : d ∈ p.classes) (hu : u ∈ c.subtrees)
    (hv : v ∈ d.subtrees) (hname : u.label.name = v.label.name) : u = v := by
  have hfind := p.find_subtree hc hu
  rw [hname, p.find_subtree hd hv, Option.some.injEq] at hfind
  exact hfind.symm

theorem Fruitless.enter (h : Fruitless target visited c) (hc : c ∈ p.classes) :
    ∀ base ∈ c.edges, Fruitless target (c.label.name :: visited) base.2 := by
  intro base hbase name hmem u hu hsame
  have hbelow : u ∈ c.subtrees := Tree.mem_subtrees.mpr (.inr ⟨base, hbase, hu⟩)
  rcases List.mem_cons.mp hmem with rfl | hold
  · obtain rfl := Program.same_subtree hc hc hbelow (Tree.mem_subtrees_self c) hsame
    exact absurd ⟨base, hbase, hu⟩ (Tree.not_below_self u)
  · exact h name hold u hbelow hsame

/-- A class that does not lead to the target leaves the search beside it fruitless. -/
theorem Fruitless.beside {visited' : List Text} (h : Fruitless target visited d)
    (hc : c ∈ p.classes) (hd : d ∈ p.classes) (hnone : leadsTo target c = false)
    (hvisited' : ∀ name ∈ visited', name ∈ visited ∨ ∃ u ∈ c.subtrees, u.label.name = name) :
    Fruitless target visited' d := by
  intro name hname u hu hsame
  rcases hvisited' name hname with hold | ⟨v, hv, hvname⟩
  · exact h name hold u hu hsame
  · obtain rfl := Program.same_subtree hd hc hu hv (hsame.trans hvname.symm)
    rw [← Bool.not_eq_true, leadsTo_iff] at hnone ⊢
    rintro ⟨w, hw, hwname⟩
    exact hnone ⟨w, Tree.mem_subtrees_trans _ hv hw, hwname⟩

end Cwhip.CodeGen
