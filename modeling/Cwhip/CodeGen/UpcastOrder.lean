/-
  Cwhip.CodeGen.UpcastOrder

  The access check of conversions to a base (`isAssignable` in
  `SemanticInheritance.cpp`) and the order of the bases.

  The check follows one path of bases, the first one to the target.  What it
  decides is the same in every order exactly if it decides the same for every
  path.
-/

import Cwhip.Lib.TreeOrder
import Cwhip.CodeGen.SubobjectSpots
import Cwhip.CodeGen.UpcastsAgree

namespace Cwhip.CodeGen

open Cwhip.Lib
open Cwhip.Inheritance (AccessLevel BaseInfo Restriction)

/-! ## Hierarchies in another order -/

section

variable {order : ClassInfo → List (BaseInfo × ClassDeclaration) →
  List (BaseInfo × ClassDeclaration)}
  (h : Reorders order)
include h

theorem find_reorder {c : ClassDeclaration} (hdistinct : DistinctBases c) (name : Text) :
    (c.reorder order).edges.find? (fun base => base.2.label.name == name)
      = (c.edges.find? fun base => base.2.label.name == name).map
          fun base => (base.1, base.2.reorder order) := by
  have hnames : ((c.edges.map fun base => (base.1, base.2.reorder order)).map
      fun base => base.2.label.name) = c.edges.map fun base => base.2.label.name := by
    rw [List.map_map]
    exact List.map_congr_left fun base _ => congrArg ClassInfo.name (Tree.reorder_label base.2)
  rw [find_perm (c.reorder_edges_perm h) (hnames ▸ hdistinct c c.mem_subtrees_self), List.find?_map]
  congr 2
  funext base
  exact congrArg (fun label : ClassInfo => label.name == name) (Tree.reorder_label base.2)

theorem reorder_distinctBases {c : ClassDeclaration} (hdistinct : DistinctBases c) :
    DistinctBases (c.reorder order) := by
  intro u hu
  obtain ⟨v, hv, rfl⟩ := (Tree.mem_reorder_subtrees h c).mp hu
  have hperm := (v.reorder_edges_perm h).map fun base => base.2.label.name
  rw [hperm.nodup_iff, List.map_map]
  have hsame : v.edges.map ((fun base => base.2.label.name) ∘ fun base =>
      (base.1, base.2.reorder order))
      = v.edges.map fun base => base.2.label.name :=
    List.map_congr_left fun base _ => congrArg ClassInfo.name (Tree.reorder_label base.2)
  rw [hsame]
  exact hdistinct v hv

theorem reorder_coherent {c : ClassDeclaration} (hc : Coherent c) : Coherent (c.reorder order) := by
  intro u hu v hv hname
  obtain ⟨u', hu', rfl⟩ := (Tree.mem_reorder_subtrees h c).mp hu
  obtain ⟨v', hv', rfl⟩ := (Tree.mem_reorder_subtrees h c).mp hv
  rw [Tree.reorder_label, Tree.reorder_label] at hname
  rw [hc u' hu' v' hv' hname]

theorem walk_reorder {c : ClassDeclaration} (hdistinct : DistinctBases c) (spot : Spot)
    (path : List Text) :
    walk (c.reorder order) spot path
      = (walk c spot path).map fun reached => (reached.1.reorder order, reached.2) := by
  induction path generalizing c spot with
  | nil => rfl
  | cons name rest ih =>
    rw [walk, walk, find_reorder h hdistinct]
    cases hfind : c.edges.find? (fun base => base.2.label.name == name) with
    | none => rfl
    | some base =>
      have hbase := (find_edge hfind).1
      exact ih (hdistinct.subtree (Tree.mem_subtrees_edge hbase)) _

end

/-! ## Counting subobjects -/

/-- The paths to bases of a name all lead to one spot. -/
def OneSpot (target : Text) (c : ClassDeclaration) : Prop :=
  ∃ spot, (∃ path u, walk c whole path = some (u, spot) ∧ u.label.name = target) ∧
    ∀ path u spot', walk c whole path = some (u, spot') → u.label.name = target → spot' = spot

theorem baseCount_one_iff {c : ClassDeclaration} (hdistinct : DistinctBases c) (hc : Coherent c)
    (target : Text) : baseCount target (subobjects c) = 1 ↔ OneSpot target c := by
  have hmem : ∀ entry, entry ∈ (subobjects c).filter (fun entry => entry.2.label.name == target) ↔
      entry ∈ subobjects c ∧ entry.2.label.name = target := by
    intro entry
    rw [List.mem_filter, beq_iff_eq]
  rw [baseCount, List.countP_eq_length_filter, List.length_eq_one_iff]
  constructor
  · rintro ⟨entry, hone⟩
    obtain ⟨hlisted, hname⟩ := (hmem entry).mp (hone ▸ List.mem_singleton_self entry)
    obtain ⟨spot, hwalk⟩ := subobjects_walk hdistinct hlisted whole
    refine ⟨spot, ⟨entry.1, entry.2, hwalk, hname⟩, fun path u spot' hwalk' hname' => ?_⟩
    obtain ⟨path', hlisted', hsame⟩ := walk_listed hdistinct hc hwalk'
    have hentry := (hmem (path', u)).mpr ⟨hlisted', hname'⟩
    rw [hone, List.mem_singleton] at hentry
    subst hentry
    rw [hsame] at hwalk
    exact (Prod.mk.inj (Option.some.inj hwalk)).2
  · rintro ⟨spot, ⟨path, u, hwalk, hname⟩, honly⟩
    obtain ⟨path', hlisted, hwalk'⟩ := walk_listed hdistinct hc hwalk
    refine ⟨(path', u), ?_⟩
    have hspots : ((subobjects c).map fun view => spotOf c view.1).Nodup :=
      List.pairwise_map.mpr (subobjects_apart hdistinct)
    have hnodup := hspots.of_map
    rw [← List.perm_singleton, List.perm_ext_iff_of_nodup (hnodup.filter _)
      (List.nodup_singleton _)]
    intro entry
    rw [hmem, List.mem_singleton]
    constructor
    · rintro ⟨hentryListed, hentryName⟩
      obtain ⟨spot', hentryWalk⟩ := subobjects_walk hdistinct hentryListed whole
      obtain rfl := honly _ _ _ hentryWalk hentryName
      exact listed_unique hdistinct hentryListed hlisted hentryWalk hwalk'
    · rintro rfl
      exact ⟨hlisted, hname⟩

theorem oneSpot_reorder {order : ClassInfo → List (BaseInfo × ClassDeclaration) →
    List (BaseInfo × ClassDeclaration)}
    (h : Reorders order) {c : ClassDeclaration} (hdistinct : DistinctBases c) (target : Text) :
    OneSpot target (c.reorder order) ↔ OneSpot target c := by
  have hwalk : ∀ path u spot, walk (c.reorder order) whole path = some (u, spot) ↔
      ∃ v, walk c whole path = some (v, spot) ∧ u = v.reorder order := by
    intro path u spot
    rw [walk_reorder h hdistinct, Option.map_eq_some_iff]
    constructor
    · rintro ⟨⟨v, spot'⟩, hv, heq⟩
      obtain ⟨rfl, rfl⟩ := Prod.mk.inj heq
      exact ⟨v, hv, rfl⟩
    · rintro ⟨v, hv, rfl⟩
      exact ⟨(v, spot), hv, rfl⟩
  unfold OneSpot
  refine exists_congr fun spot => and_congr ?_ ?_
  · refine exists_congr fun path => ?_
    constructor
    · rintro ⟨u, hu, hname⟩
      obtain ⟨v, hv, rfl⟩ := (hwalk path u spot).mp hu
      exact ⟨v, hv, by rw [← hname, Tree.reorder_label]⟩
    · rintro ⟨v, hv, hname⟩
      exact ⟨v.reorder order, (hwalk path _ spot).mpr ⟨v, hv,
        rfl⟩, by rw [Tree.reorder_label, hname]⟩
  · refine forall_congr' fun path => ?_
    constructor
    · intro honly v spot' hv hname
      exact honly _ spot' ((hwalk path _ spot').mpr ⟨v, hv, rfl⟩)
        (by rw [Tree.reorder_label, hname])
    · intro honly u spot' hu hname
      obtain ⟨v, hv, rfl⟩ := (hwalk path u spot').mp hu
      exact honly v spot' hv (by rw [← hname, Tree.reorder_label])

/-! ## Paths of bases -/

/-- A path of base names to a class of the name; and its edges, each by its
    access and the class that inherits through it. -/
inductive Route (target : Text) : ClassDeclaration → List Text → List (AccessLevel × Text) →
    Prop where
  | last {c : ClassDeclaration} {base : BaseInfo × ClassDeclaration} (hbase : base ∈ c.edges)
      (hname : base.2.label.name = target) :
      Route target c [base.2.label.name] [(base.1.access, c.label.name)]
  | step {c : ClassDeclaration} {base : BaseInfo × ClassDeclaration} (hbase : base ∈ c.edges)
      {names : List Text} {edges : List (AccessLevel × Text)}
        (h : Route target base.2 names edges) :
      Route target c (base.2.label.name :: names) ((base.1.access, c.label.name) :: edges)

section

variable {target : Text} {c : ClassDeclaration} {names : List Text}
    {edges : List (AccessLevel × Text)}

theorem Route.exists_below (h : Route target c names edges) : ∃ u : ClassDeclaration, u.Below c ∧
    u.label.name = target := by
  induction h with
  | @last c base hbase hname => exact ⟨base.2, ⟨base, hbase, Tree.mem_subtrees_self _⟩, hname⟩
  | @step c base hbase names edges _ ih =>
    obtain ⟨u, ⟨inner, hinner, hu⟩, hname⟩ := ih
    exact ⟨u, ⟨base, hbase, Tree.mem_subtrees.mpr (.inr ⟨inner, hinner, hu⟩)⟩, hname⟩

theorem Route.restriction_eq (h : Route target c names edges) (hdistinct : DistinctBases c)
    (r : Restriction Text) :
    Restriction.along ClassInfo.name c names r =
      some (edges.foldl (fun r edge => r.pass edge.1 edge.2) r) := by
  induction h generalizing r with
  | @last c base hbase hname =>
    rw [Restriction.along, find_of_mem (hdistinct c c.mem_subtrees_self) hbase]
    rfl
  | @step c base hbase names edges _ ih =>
    rw [Restriction.along, find_of_mem (hdistinct c c.mem_subtrees_self) hbase]
    exact ih (hdistinct.subtree (Tree.mem_subtrees_edge hbase)) _

theorem Route.owner_mem (h : Route target c names edges) :
    ∀ edge ∈ edges, ∃ u ∈ c.subtrees, u.label.name = edge.2 := by
  induction h with
  | @last c base hbase hname =>
    intro edge hedge
    obtain rfl := List.mem_singleton.mp hedge
    exact ⟨c, c.mem_subtrees_self, rfl⟩
  | @step c base hbase names edges _ ih =>
    intro edge hedge
    rcases List.mem_cons.mp hedge with rfl | hrest
    · exact ⟨c, c.mem_subtrees_self, rfl⟩
    · obtain ⟨u, hu, hname⟩ := ih edge hrest
      exact ⟨u, Tree.mem_subtrees.mpr (.inr ⟨base, hbase, hu⟩), hname⟩

theorem Route.owners_nodup (h : Route target c names edges) (hc : Coherent c) :
    (edges.map fun edge => edge.2).Nodup := by
  induction h with
  | last hbase hname => exact List.nodup_singleton _
  | @step c base hbase names edges hrest ih =>
    rw [List.map_cons, List.nodup_cons]
    refine ⟨?_, ih (hc.subtree (Tree.mem_subtrees_edge hbase))⟩
    intro hmem
    obtain ⟨edge, hedge, heq⟩ := List.mem_map.mp hmem
    obtain ⟨u, hu, hname⟩ := hrest.owner_mem edge hedge
    -- the class would be below itself
    have hself := hc u (Tree.mem_subtrees.mpr (.inr ⟨base, hbase, hu⟩)) c c.mem_subtrees_self
      (hname.trans heq)
    exact c.not_below_self ⟨base, hbase, hself ▸ hu⟩

theorem Route.length_eq (h : Route target c names edges) : edges.length = names.length := by
  induction h with
  | last _ _ => rfl
  | step _ _ ih => rw [List.length_cons, List.length_cons, ih]

theorem Route.of_reorder {order : ClassInfo → List (BaseInfo × ClassDeclaration) →
    List (BaseInfo × ClassDeclaration)}
    (horder : Reorders order) (h : Route target (c.reorder order) names edges) :
    Route target c names edges := by
  generalize hd : c.reorder order = d at h
  induction h generalizing c with
  | @last d base hbase hname =>
    subst hd
    obtain ⟨base', hbase', rfl⟩ := (Tree.mem_reorder_edges horder).mp hbase
    simp only [Tree.reorder_label] at hname ⊢
    exact .last hbase' hname
  | @step d base hbase names edges _ ih =>
    subst hd
    obtain ⟨base', hbase', rfl⟩ := (Tree.mem_reorder_edges horder).mp hbase
    simp only [Tree.reorder_label]
    exact .step hbase' (ih rfl)

end

/-! ## The first path -/

/-- What `findPath` finds through one of the bases. -/
def pathThrough (target : Text) (base : BaseInfo × ClassDeclaration) : Option (List Text) :=
  if base.2.label.name = target then some [base.2.label.name]
  else (findPath target base.2).map fun path => base.2.label.name :: path

theorem findPath_eq (target : Text) (c : ClassDeclaration) :
    findPath target c = c.edges.findSome? (pathThrough target) := by
  have hbases : ∀ bases : Edges ClassInfo BaseInfo,
      findPathBases target bases = bases.toList.findSome? (pathThrough target) := by
    intro bases
    induction h : bases.toList generalizing bases with
    | nil =>
      cases bases with
      | nil => rw [findPathBases]; rfl
      | cons edge base rest => cases h
    | cons first others ih =>
      cases bases with
      | nil => cases h
      | cons edge base rest =>
        rw [Edges.toList, List.cons.injEq] at h
        obtain ⟨rfl, hrest⟩ := h
        rw [findPathBases, ih rest hrest, List.findSome?_cons, pathThrough]
        by_cases hname : base.label.name = target
        · rw [if_pos hname, if_pos hname]
        · rw [if_neg hname, if_neg hname]
          cases findPath target base <;> rfl
  cases c with
  | node info bases => rw [findPath, hbases]; rfl

theorem findPath_route {target : Text} (c : ClassDeclaration) {names : List Text}
    (h : findPath target c = some names) : ∃ edges, Route target c names edges := by
  rw [findPath_eq] at h
  obtain ⟨base, hbase, hthrough⟩ := List.exists_of_findSome?_eq_some h
  have hbelow : base.2.Below c := ⟨base, hbase, Tree.mem_subtrees_self _⟩
  unfold pathThrough at hthrough
  split at hthrough
  · rename_i hname
    cases hthrough
    exact ⟨_, .last hbase hname⟩
  · obtain ⟨path, hpath, rfl⟩ := Option.map_eq_some_iff.mp hthrough
    obtain ⟨edges, hroute⟩ := findPath_route base.2 hpath
    exact ⟨_, .step hbase hroute⟩
termination_by Tree.below_wellFounded.wrap c
decreasing_by exact hbelow

/-- Each class of some names lists one of its bases first. -/
def basesFirst (next : List (Text × Text)) (info : ClassInfo)
    (edges : List (BaseInfo × ClassDeclaration)) : List (BaseInfo × ClassDeclaration) :=
  match next.lookup info.name with
  | none => edges
  | some name => edges.filter (fun base => base.2.label.name == name) ++
      edges.filter fun base => !(base.2.label.name == name)

theorem basesFirst_reorders (next : List (Text × Text)) : Reorders (basesFirst next) := by
  intro info edges
  unfold basesFirst
  split
  · exact .refl _
  · exact List.filter_append_perm _ _

theorem basesFirst_edges {next : List (Text × Text)} {c : ClassDeclaration}
    (hdistinct : DistinctBases c) {base : BaseInfo × ClassDeclaration} (hbase : base ∈ c.edges)
    (hnext : next.lookup c.label.name = some base.2.label.name) :
    ∃ rest, (c.reorder (basesFirst next)).edges = (base.1, base.2.reorder (basesFirst next)) ::
    rest := by
  have hfind := find_reorder (basesFirst_reorders next) hdistinct base.2.label.name
  rw [find_of_mem (hdistinct c c.mem_subtrees_self) hbase, Option.map_some] at hfind
  have hfound := List.mem_of_find?_eq_some hfind
  rw [Tree.mem_reorder_edges (basesFirst_reorders next)] at hfound
  rw [Tree.reorder_edges, basesFirst, hnext] at hfind ⊢
  dsimp only at hfind ⊢
  generalize hall : c.edges.map (fun e => (e.1, e.2.reorder (basesFirst next))) = all at hfind ⊢
  have hmem : (base.1, base.2.reorder (basesFirst next)) ∈
      all.filter fun other => other.2.label.name == base.2.label.name := by
    rw [List.mem_filter, ← hall, beq_iff_eq]
    exact ⟨List.mem_map.mpr ⟨base, hbase, rfl⟩, congrArg ClassInfo.name (Tree.reorder_label base.2)⟩
  cases hfilter : all.filter fun other => other.2.label.name == base.2.label.name with
  | nil =>
    rw [hfilter] at hmem
    cases hmem
  | cons first rest =>
    have hfirst := (List.mem_filter.mp (hfilter ▸ List.mem_cons_self : first ∈ all.filter _)).2
    rw [hfilter, List.cons_append, List.find?_cons, hfirst] at hfind
    rw [← Option.some.inj hfind]
    exact ⟨_, rfl⟩

theorem Route.findPath_eq {target : Text} {c : ClassDeclaration} {names : List Text}
    {edges : List (AccessLevel × Text)} (h : Route target c names edges)
    (hdistinct : DistinctBases c)
    (hc : Coherent c) {next : List (Text × Text)}
    (hnext : ∀ pair ∈ (edges.map fun edge => edge.2).zip names, next.lookup pair.1 = some pair.2) :
    findPath target (c.reorder (basesFirst next)) = some names := by
  induction h with
  | @last c base hbase hname =>
    have hfirst := hnext (c.label.name, base.2.label.name) List.mem_cons_self
    obtain ⟨rest, hedges⟩ := basesFirst_edges hdistinct hbase hfirst
    rw [CodeGen.findPath_eq, hedges, List.findSome?_cons, pathThrough, Tree.reorder_label,
      if_pos hname]
  | @step c base hbase names edges hroute ih =>
    have hfirst := hnext (c.label.name, base.2.label.name) List.mem_cons_self
    obtain ⟨rest, hedges⟩ := basesFirst_edges hdistinct hbase hfirst
    have hbelow := Tree.mem_subtrees_edge hbase
    -- a path that goes on has not passed the target
    have hname : base.2.label.name ≠ target := by
      intro heq
      obtain ⟨u, hu, hlabel⟩ := hroute.exists_below
      have hself := hc u (Tree.mem_subtrees_trans _ hbelow (mem_subtrees_below hu)) base.2 hbelow
        (hlabel.trans heq.symm)
      exact base.2.not_below_self (hself ▸ hu)
    have hrest := ih (hdistinct.subtree hbelow) (hc.subtree hbelow)
      fun pair hpair => hnext pair (List.mem_cons_of_mem _ hpair)
    rw [CodeGen.findPath_eq, hedges, List.findSome?_cons, pathThrough, Tree.reorder_label,
      if_neg hname, hrest]
    rfl

theorem lookup_of_mem {pairs : List (Text × Text)} (h : (pairs.map fun pair => pair.1).Nodup)
    {pair : Text × Text} (hmem : pair ∈ pairs) : pairs.lookup pair.1 = some pair.2 := by
  induction pairs with
  | nil => cases hmem
  | cons first rest ih =>
    rw [List.map_cons, List.nodup_cons] at h
    rw [List.lookup_cons]
    rcases List.mem_cons.mp hmem with rfl | hlater
    · rw [beq_self_eq_true]
    · have hne : pair.1 ≠ first.1 := by
        intro heq
        exact h.1 (List.mem_map.mpr ⟨pair, hlater, heq⟩)
      rw [beq_eq_false_iff_ne.mpr hne]
      exact ih h.2 hlater

theorem Route.first {target : Text} {c : ClassDeclaration} {names : List Text}
    {edges : List (AccessLevel × Text)} (h : Route target c names edges)
    (hdistinct : DistinctBases c)
    (hc : Coherent c) : ∃ order, Reorders order ∧ findPath target (c.reorder order) =
    some names := by
  refine ⟨_, basesFirst_reorders ((edges.map fun edge => edge.2).zip names),
    h.findPath_eq hdistinct hc fun pair hpair => lookup_of_mem ?_ hpair⟩
  have howners : (((edges.map fun edge => edge.2).zip names).map fun pair => pair.1)
      = edges.map fun edge => edge.2 :=
    List.map_fst_zip (Nat.le_of_eq ((List.length_map _).trans h.length_eq))
  rw [howners]
  exact h.owners_nodup hc

/-! ## What a path decides -/

/-- The edge whose access counts for a path: the last private one, or else the
    first protected one. -/
def decidingEdge (edges : List (AccessLevel × Text)) : Option (AccessLevel × Text) :=
  (edges.reverse.find? fun edge => edge.1 = .privateAccess).or
    (edges.find? fun edge => edge.1 = .protectedAccess)

/-- A base is accessible in the context. -/
def Context.edgeAccessible (ctx : Context) (edge : AccessLevel × Text) : Bool :=
  ctx.admits ⟨edge.1, edge.2⟩

/-- What the check makes of a path. -/
def Context.pathAdmitted (ctx : Context) (edges : List (AccessLevel × Text)) : Bool :=
  (decidingEdge edges).all ctx.edgeAccessible

theorem pass_deciding (edges : List (AccessLevel × Text)) :
    edges.foldl (fun (r : Restriction Text) edge => r.pass edge.1 edge.2) ⟨.publicAccess, []⟩
      = (decidingEdge edges).elim (⟨.publicAccess, []⟩ : Restriction Text) fun edge =>
      ⟨edge.1, edge.2⟩ := by
  induction edges using List.reverseRecOn with
  | nil => rfl
  | append_singleton edges edge ih =>
    obtain ⟨access, name⟩ := edge
    rw [List.foldl_append, ih]
    simp only [decidingEdge, List.reverse_append, List.reverse_singleton, List.singleton_append,
      List.find?_cons, List.find?_append, List.foldl_cons, List.foldl_nil]
    cases hprivate : edges.reverse.find? (fun edge => decide (edge.1 = .privateAccess)) with
    | some last =>
      have hlast : last.1 = .privateAccess := by simpa using List.find?_some hprivate
      cases access <;> simp [Restriction.pass, hlast]
    | none =>
      cases hprotected : edges.find? (fun edge => decide (edge.1 = .protectedAccess)) with
      | some first =>
        have hfirst : first.1 = .protectedAccess := by simpa using List.find?_some hprotected
        cases access <;> simp [Restriction.pass, hfirst]
      | none => cases access <;> simp [Restriction.pass]

theorem basePathAccessible_eq {ctx : Context} {target : Text} {c : ClassDeclaration}
    {names : List Text}
    {edges : List (AccessLevel × Text)} (h : Route target c names edges)
    (hdistinct : DistinctBases c) :
    ctx.basePathAccessible c names = ctx.pathAdmitted edges := by
  rw [Context.basePathAccessible, h.restriction_eq hdistinct]
  dsimp only
  rw [pass_deciding, Context.pathAdmitted]
  cases decidingEdge edges <;> rfl

theorem decidingEdge_mem {edges : List (AccessLevel × Text)} {edge : AccessLevel × Text}
    (h : decidingEdge edges = some edge) : edge ∈ edges := by
  rcases Option.or_eq_some_iff.mp h with hprivate | ⟨-, hprotected⟩
  · exact List.mem_reverse.mp (List.mem_of_find?_eq_some hprivate)
  · exact List.mem_of_find?_eq_some hprotected

theorem pathAdmitted_of_all {ctx : Context} {edges : List (AccessLevel × Text)}
    (h : ∀ edge ∈ edges, ctx.edgeAccessible edge = true) : ctx.pathAdmitted edges = true := by
  unfold Context.pathAdmitted
  rw [Option.all_eq_true]
  exact fun edge hedge => h edge (decidingEdge_mem hedge)

/-! ## The order of the bases -/

section

variable (ctx : Context) (target source : ClassDeclaration)

/-- Some path to the target has only accessible bases. -/
def Context.HasAccessiblePath : Prop :=
  ∃ names edges, Route target.label.name source names edges ∧
    ∀ edge ∈ edges, ctx.edgeAccessible edge = true

/-- All that a context is asked for besides declarations: the name of the
    current class, and which class names are bases of which. -/
structure Context.SameNames (ctx' : Context) : Prop where
  current : (ctx'.currentClass.map fun c => c.label.name) = ctx.currentClass.map fun c =>
    c.label.name
  bases : ∀ type base, ctx'.program.isSubclassOf type base = ctx.program.isSubclassOf type base

/-- Conversion to a base is decided by its paths, not by their order. -/
structure Context.DecidesByPaths : Prop where
  unchanged : ∀ order, Reorders order → ∀ ctx', ctx.SameNames ctx' →
    ctx'.isAssignable (target.reorder order) (source.reorder order) = ctx.isAssignable target source
  accessible : ctx.isAssignable target source = true ↔ ctx.HasAccessiblePath target source

/-- The edges that count on the paths are all accessible, and on some path all
    edges are; or none of the former is. -/
def Context.PathsAgree : Prop :=
  ((∀ names edges, Route target.label.name source names edges → ctx.pathAdmitted edges = true) ∧
      ctx.HasAccessiblePath target source) ∨
    ∀ names edges, Route target.label.name source names edges → ctx.pathAdmitted edges = false

end

section

variable {ctx : Context} {target source : ClassDeclaration}

theorem Context.SameNames.admits_eq {ctx' : Context} (h : ctx.SameNames ctx')
    (r : Restriction Text) :
    ctx'.admits r = ctx.admits r := by
  have hbases : ctx'.program.isSubclassOf = ctx.program.isSubclassOf :=
    funext fun type => funext (h.bases type)
  rw [Context.admits, Context.admits, hbases, h.current]

theorem Context.SameNames.isAssignable_eq {ctx' : Context} (h : ctx.SameNames ctx') :
    ctx'.isAssignable target source = ctx.isAssignable target source := by
  unfold Context.isAssignable Program.findsOneSubobject Context.basePathAccessible
  simp only [h.bases, h.admits_eq]

theorem findsOneSubobject_reorder {p : Program}
    {order : ClassInfo → List (BaseInfo × ClassDeclaration) → List (BaseInfo × ClassDeclaration)}
    (h : Reorders order) (hsource : source ∈ p.classes) (htarget : target ∈ p.classes)
    (hne : source.label.name ≠ target.label.name) (hone : subobjectCount source target = 1) :
    p.findsOneSubobject (target.reorder order) (source.reorder order) = true := by
  have hdistinct := p.distinctBases hsource
  have hc := p.coherent hsource
  rw [subobjectCount, if_neg hne] at hone
  have hmem := mem_subtrees_of_count hsource htarget (by omega)
  have hspot : OneSpot target.label.name source := by
    rw [← baseCount_one_iff hdistinct hc, ← countPaths_subobjects hdistinct hc hmem hne]
    exact hone
  have hdistinct' := reorder_distinctBases h hdistinct
  have hc' := reorder_coherent h hc
  have hmem' : target.reorder order ∈ (source.reorder order).subtrees :=
    (Tree.mem_reorder_subtrees h source).mpr ⟨target, hmem, rfl⟩
  have hcount' := countPaths_subobjects hdistinct' hc' hmem' (by simpa using hne)
  rw [Program.findsOneSubobject, Bool.and_eq_true, beq_iff_eq]
  constructor
  · rw [Tree.reorder_label, Tree.reorder_label, Program.isSubclassOf,
      p.find_subtree hsource source.mem_subtrees_self, List.any_eq_true]
    exact ⟨target, hmem, beq_self_eq_true _⟩
  · rw [hcount', baseCount_one_iff hdistinct' hc', Tree.reorder_label, oneSpot_reorder h hdistinct]
    exact hspot

theorem isAssignable_reorder
    {order : ClassInfo → List (BaseInfo × ClassDeclaration) → List (BaseInfo × ClassDeclaration)}
    (h : Reorders order) (hsource : source ∈ ctx.program.classes)
    (htarget : target ∈ ctx.program.classes)
    (hne : source.label.name ≠ target.label.name) (hone : subobjectCount source target = 1) :
    ∃ names edges, findPath target.label.name (source.reorder order) = some names ∧
      Route target.label.name source names edges ∧
      ctx.isAssignable (target.reorder order) (source.reorder order) = ctx.pathAdmitted edges := by
  have hdistinct := ctx.program.distinctBases hsource
  have hfinds := findsOneSubobject_reorder h hsource htarget hne hone
  obtain ⟨names, hpath⟩ : ∃ names, findPath target.label.name (source.reorder order) =
      some names := by
    rw [← Option.isSome_iff_exists, Option.isSome_iff_ne_none]
    intro hnone
    rw [subobjectCount, if_neg hne] at hone
    have hmem := mem_subtrees_of_count hsource htarget (by omega)
    rcases Tree.mem_subtrees.mp hmem with rfl | ⟨base, hbase, hbelow⟩
    · exact hne rfl
    · have hbelow' : (target.reorder order).Below (source.reorder order) :=
        ⟨_, (Tree.mem_reorder_edges h).mpr ⟨base, hbase, rfl⟩,
          (Tree.mem_reorder_subtrees h base.2).mpr ⟨target, hbelow, rfl⟩⟩
      exact findPath_none hnone _ hbelow' (by rw [Tree.reorder_label])
  obtain ⟨edges, hroute⟩ := findPath_route _ hpath
  refine ⟨names, edges, hpath, hroute.of_reorder h, ?_⟩
  have hnames : ((source.reorder order).label.name == (target.reorder order).label.name) =
      false := by
    rw [Tree.reorder_label, Tree.reorder_label]
    exact beq_eq_false_iff_ne.mpr hne
  have hpath' : findPath (target.reorder order).label.name (source.reorder order) = some names := by
    rw [Tree.reorder_label, hpath]
  rw [Context.isAssignable, hnames, hfinds, hpath', Bool.false_or, Bool.true_and]
  exact basePathAccessible_eq hroute (reorder_distinctBases h hdistinct)

/-- Where there is one subobject to convert to, the decision depends on the
    paths alone exactly if they agree. -/
theorem decidesByPaths_iff (hsource : source ∈ ctx.program.classes)
    (htarget : target ∈ ctx.program.classes)
    (hne : source.label.name ≠ target.label.name) (hone : subobjectCount source target = 1) :
    ctx.DecidesByPaths target source ↔ ctx.PathsAgree target source := by
  have hdistinct := ctx.program.distinctBases hsource
  have hc := ctx.program.coherent hsource
  constructor
  · rintro ⟨hunchanged, haccessible⟩
    -- every path is the one that decides in some order
    have hpath : ∀ names edges, Route target.label.name source names edges →
        ctx.pathAdmitted edges = ctx.isAssignable target source := by
      intro names edges hroute
      obtain ⟨order, horder, hfirst⟩ := hroute.first hdistinct hc
      obtain ⟨names', edges', hfound, hroute', hdecides⟩ :=
        isAssignable_reorder horder hsource htarget hne hone
      obtain rfl := Option.some.inj (hfirst.symm.trans hfound)
      rw [← hunchanged order horder ctx ⟨rfl, fun _ _ => rfl⟩, hdecides,
        ← basePathAccessible_eq hroute hdistinct,
        ← basePathAccessible_eq hroute' hdistinct]
    cases hdecision : ctx.isAssignable target source with
    | true => exact .inl ⟨fun names edges hroute => (hpath names edges hroute).trans hdecision,
        haccessible.mp hdecision⟩
    | false => exact .inr fun names edges hroute => (hpath names edges hroute).trans hdecision
  · intro hagree
    have hdecides : ∀ order, Reorders order →
        (ctx.isAssignable (target.reorder order) (source.reorder order) = true ↔
          ctx.HasAccessiblePath target source) := by
      intro order horder
      obtain ⟨names, edges, -, hroute, hdecides⟩ :=
        isAssignable_reorder horder hsource htarget hne hone
      rw [hdecides]
      rcases hagree with ⟨hall, hpath⟩ | hnone
      · exact iff_of_true (hall names edges hroute) hpath
      · refine iff_of_false (by rw [hnone names edges hroute]; decide) ?_
        rintro ⟨names', edges', hroute', haccessible⟩
        have hadmitted := pathAdmitted_of_all haccessible
        rw [hnone names' edges' hroute'] at hadmitted
        cases hadmitted
    have hself := hdecides (fun _ edges => edges) fun _ _ => .refl _
    rw [Tree.reorder_self, Tree.reorder_self] at hself
    refine ⟨fun order horder ctx' hnames => ?_, hself⟩
    rw [hnames.isAssignable_eq]
    exact Bool.eq_iff_iff.mpr ((hdecides order horder).trans hself.symm)

end

/-- The shared base of a diamond is public on both sides. -/
theorem diamond_decides :
    Context.DecidesByPaths ⟨diamondProgram, none, nofun⟩ sharedW diamondD ↔
      Context.PathsAgree ⟨diamondProgram, none, nofun⟩ sharedW diamondD :=
  decidesByPaths_iff (by decide +kernel) (by decide +kernel) (by decide) (by decide +kernel)

/-! ### A private and a public side -/

/-- `class L : private virtual W` -/
def privateL : ClassDeclaration :=
  .node (plainClass "L" []) (.cons ⟨.privateAccess, true⟩ sharedW .nil)

/-- `class R : virtual W` -/
def publicR : ClassDeclaration :=
  .node (plainClass "R" []) (.cons ⟨.publicAccess, true⟩ sharedW .nil)

/-- `class E : L, R` -/
def sidesE : ClassDeclaration :=
  .node (plainClass "E" [])
    (.cons ⟨.publicAccess, false⟩ privateL (.cons ⟨.publicAccess, false⟩ publicR .nil))

def sidesClasses : List ClassDeclaration := [sharedW, privateL, publicR, sidesE]

theorem sidesClasses_plain :
    ∀ c ∈ sidesClasses, ∀ method ∈ c.label.methods, method.parameters = [] := by decide +kernel

def sidesProgram : Program where
  classes := sidesClasses
  resolved := by decide +kernel
  distinct := by decide +kernel
  qualified := by decide +kernel
  separate := by decide +kernel
  builtinBases := by decide +kernel
  directBases := by decide +kernel
  methodNames := by decide +kernel
  destructors := by decide +kernel
  plainDestructors := fun c hc method h _ => sidesClasses_plain c hc method h
  methods := by decide +kernel
  types := normalized_of_plain sidesClasses_plain
  overrides := by decide +kernel

/-- `E` converts to `W` through `R`, and the check stops at the private `L`. -/
theorem sides_refused : ¬ ∀ (ctx : Context) (target source : ClassDeclaration),
    source ∈ ctx.program.classes → target ∈ ctx.program.classes →
    source.label.name ≠ target.label.name → subobjectCount source target = 1 →
    ctx.DecidesByPaths target source := by
  intro h
  have hdecides := h ⟨sidesProgram, none, nofun⟩ sharedW sidesE (by decide +kernel)
    (by decide +kernel) (by decide) (by decide +kernel)
  have hrefused : Context.isAssignable ⟨sidesProgram, none, nofun⟩ sharedW sidesE = false := by
    decide +kernel
  have hlast : ((⟨.publicAccess, true⟩, sharedW) : BaseInfo × ClassDeclaration) ∈ publicR.edges :=
    List.mem_cons_self
  have hstep : ((⟨.publicAccess, false⟩, publicR) : BaseInfo × ClassDeclaration) ∈ sidesE.edges :=
    List.mem_cons_of_mem _ List.mem_cons_self
  have hroute := Route.step hstep (.last hlast rfl : Route sharedW.label.name publicR _ _)
  have hallowed := hdecides.accessible.mpr ⟨_, _, hroute, by decide +kernel⟩
  rw [hrefused] at hallowed
  cases hallowed

end Cwhip.CodeGen
