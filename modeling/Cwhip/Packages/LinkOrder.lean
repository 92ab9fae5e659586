/-
  Cwhip.Packages.LinkOrder

  The `-l` and `-L` arguments of the packages (`loadImportedModules`, `main`).

  The visits record a package when they enter it, and libraries are collected in
  that order, each where it is first met.  So their order is that of the routes
  from the imports along dependencies: a dependency that is imported, or listed, in
  front of every package that depends on it comes first as well.  `Misplaced` says
  that of a package graph and its imports, without the routes.
-/

import Mathlib.Data.Finset.Basic
import Cwhip.Lib.FirstOccurrence
import Cwhip.Driver.LinkSidecar
import Cwhip.Packages.ResolverSound

namespace Cwhip.Packages

open Cwhip.Lib Relation
open Cwhip.Driver (LinkInputs)

/-! ## Collecting -/

/-- With the search paths that the owner of a library declared. -/
structure LinkState extends LinkInputs where
  librarySearchLocations : OrderedMap Text (Finset Text)

def LinkState.empty : LinkState := ⟨⟨[], []⟩, .empty⟩

def addLibrary (packagePaths : Finset Text) (state : LinkState) (library : Text) :
    Except Failure LinkState :=
  match state.librarySearchLocations.find? library with
  | some owner =>
    if owner ≠ packagePaths then
      fail ("conflicting package library search paths for native library '".toList ++
        library ++ ['\''])
    else pure { state with libraries := appendUnique state.libraries library }
  | none =>
    pure { state with
      libraries := appendUnique state.libraries library
      librarySearchLocations := state.librarySearchLocations.insert library packagePaths }

section

-- a library path, absolute and normalized
variable (normalized : Text → Text)

def addPackage (state : LinkState) (package : ResolvedPackage) : Except Failure LinkState :=
  let packagePaths := package.libraryPaths.map normalized
  package.libraries.foldlM (addLibrary packagePaths.toFinset)
    { state with libraryPaths := appendAllUnique state.libraryPaths packagePaths }

/-- The paths and libraries of the packages in link order, and once more without
    repetitions in `main`. -/
def packageInputs (linkOrder : List ResolvedPackage) : Except Failure LinkInputs := do
  let state ← linkOrder.foldlM (addPackage normalized) LinkState.empty
  pure ⟨appendAllUnique [] state.libraryPaths, appendAllUnique [] state.libraries⟩

end

/-! ## The order -/

/-- A package and those on the routes from it along dependencies, depth first in
    the order they are written. -/
def routes (packages : OrderedMap Text ResolvedPackage) : Nat → Text → List ResolvedPackage
  | 0, _ => []
  | fuel + 1, name =>
    match packages.find? name with
    | none => []
    | some package =>
      package :: package.dependencies.flatMap fun dependency => routes packages fuel dependency.name

/-- A package that the imports need, another that it depends on, and a library that only
    the one and a library that only the other declares. -/
def Dependent (packages : OrderedMap Text ResolvedPackage) (imports : List Text)
    (first second : Text) : Prop :=
  ∃ root ∈ imports, ∃ name package other dependency, ReflTransGen (Needs packages) root name ∧
    packages.find? name = some package ∧
    TransGen (Needs packages) name other ∧ packages.find? other = some dependency ∧
    (first ∈ package.libraries ∧ first ∉ dependency.libraries) ∧
    (second ∈ dependency.libraries ∧ second ∉ package.libraries)

/-- The libraries of a package stand in front of those of its dependencies, and
    all once. -/
structure RespectsDependencies (packages : OrderedMap Text ResolvedPackage) (imports : List Text)
    (inputs : LinkInputs) : Prop where
  ordered : ∀ first second, Dependent packages imports first second →
    inputs.libraries.idxOf first < inputs.libraries.idxOf second
  librariesOnce : inputs.libraries.Nodup
  pathsOnce : inputs.libraryPaths.Nodup

/-- The package, or one that it needs, declares the library. -/
def LeadsTo (packages : OrderedMap Text ResolvedPackage) (name library : Text) : Prop :=
  ∃ other package, ReflTransGen (Needs packages) name other ∧
    packages.find? other = some package ∧ library ∈ package.libraries

/-- Imports, or the dependencies of a package, that put `second` in front of `first`.
    What counts is the first of them that leads to either library: it leads to `second`
    alone, or its package lists `second` in front, or has neither and its dependencies
    are misplaced themselves. -/
inductive Misplaced (packages : OrderedMap Text ResolvedPackage) (first second : Text) :
    List Text → Prop
  | skip {name : Text} {rest : List Text} (hfirst : ¬ LeadsTo packages name first)
      (hsecond : ¬ LeadsTo packages name second) (hrest : Misplaced packages first second rest) :
      Misplaced packages first second (name :: rest)
  | shortcut {name : Text} {rest : List Text} (hfirst : ¬ LeadsTo packages name first)
      (hsecond : LeadsTo packages name second) : Misplaced packages first second (name :: rest)
  | declared {name : Text} {rest : List Text} {package : ResolvedPackage}
      (hpackage : packages.find? name = some package)
      (hbefore : package.libraries.idxOf second < package.libraries.idxOf first) :
      Misplaced packages first second (name :: rest)
  | inside {name : Text} {rest : List Text} {package : ResolvedPackage}
      (hpackage : packages.find? name = some package) (hfirst : first ∉ package.libraries)
      (hsecond : second ∉ package.libraries) (hboth : LeadsTo packages name first)
      (hinner : Misplaced packages first second (package.dependencies.map (·.name))) :
      Misplaced packages first second (name :: rest)

/-! ## What is collected -/

variable {state result : LinkState} {linkOrder : List ResolvedPackage}
  {packages : OrderedMap Text ResolvedPackage}

variable {packagePaths : Finset Text} {inputs : LinkInputs} {graph : Graph} {roots : List Text}

theorem addLibrary_libraries {library : Text}
    (h : addLibrary packagePaths state library = .ok result) :
    result.libraries = appendUnique state.libraries library ∧ result.libraryPaths =
    state.libraryPaths := by
  unfold addLibrary at h
  split at h
  · split at h
    · cases h
    · rw [← pure_eq_ok.mp h]
      exact ⟨rfl, rfl⟩
  · rw [← pure_eq_ok.mp h]
    exact ⟨rfl, rfl⟩

theorem addLibraries_libraries {libraries : List Text}
    (h : libraries.foldlM (addLibrary packagePaths) state = .ok result) :
    result.libraries = appendAllUnique state.libraries libraries ∧ result.libraryPaths =
    state.libraryPaths := by
  induction libraries generalizing state with
  | nil =>
    rw [List.foldlM_nil, pure_eq_ok] at h
    rw [← h]
    exact ⟨rfl, rfl⟩
  | cons library rest ih =>
    obtain ⟨middle, hfirst, hrest⟩ := foldlM_cons_ok.mp h
    obtain ⟨hlibraries, hpaths⟩ := addLibrary_libraries hfirst
    obtain ⟨hlibraries', hpaths'⟩ := ih hrest
    exact ⟨by rw [hlibraries', hlibraries, appendAllUnique_cons], hpaths'.trans hpaths⟩

theorem addPackages_libraries {normalized : Text → Text}
    (h : linkOrder.foldlM (addPackage normalized) state = .ok result) :
    result.libraries = appendAllUnique state.libraries
    (linkOrder.flatMap ResolvedPackage.libraries) := by
  induction linkOrder generalizing state with
  | nil =>
    rw [List.foldlM_nil, pure_eq_ok] at h
    rw [← h]
    rfl
  | cons package rest ih =>
    obtain ⟨middle, hfirst, hrest⟩ := foldlM_cons_ok.mp h
    obtain ⟨hlibraries, _⟩ := addLibraries_libraries hfirst
    rw [ih hrest, hlibraries, List.flatMap_cons, appendAllUnique_append]

theorem packageInputs_libraries {normalized : Text → Text}
    (h : packageInputs normalized linkOrder = .ok inputs) :
    inputs.libraries = appendAllUnique [] (linkOrder.flatMap ResolvedPackage.libraries) := by
  simp only [packageInputs, bind_eq_ok, pure_eq_ok] at h
  obtain ⟨state, hstate, rfl⟩ := h
  have hcollected : state.libraries = appendAllUnique []
      (linkOrder.flatMap ResolvedPackage.libraries) :=
    addPackages_libraries hstate
  -- no library is there twice, so going through them again changes nothing
  have honce : state.libraries.Nodup := hcollected ▸ nodup_appendAllUnique List.nodup_nil
  show appendAllUnique [] state.libraries = _
  rw [appendAllUnique_of_nodup (by simpa using honce), List.nil_append, hcollected]

theorem packageInputs_once {normalized : Text → Text}
    (h : packageInputs normalized linkOrder = .ok inputs) :
    inputs.libraries.Nodup ∧ inputs.libraryPaths.Nodup := by
  simp only [packageInputs, bind_eq_ok, pure_eq_ok] at h
  obtain ⟨state, _, rfl⟩ := h
  exact ⟨nodup_appendAllUnique List.nodup_nil, nodup_appendAllUnique List.nodup_nil⟩

/-! ## What is visited -/

variable {store : ModuleStore} {policy : Option ModuleVersionPolicy}

/-- The packages of a graph as another map has them. -/
def Graph.Within (graph : Graph) (packages : OrderedMap Text ResolvedPackage) : Prop :=
  ∀ name package, graph.packages.find? name = some package → packages.find? name = some package

theorem Graph.Within.of_extends {graph' : Graph} (h : graph'.Within packages)
    (hextends : graph.Extends graph') : graph.Within packages :=
  fun name package hfind => h name package (hextends.packages name package hfind)

theorem routes_of_find? {name : Text} {package : ResolvedPackage}
    (h : packages.find? name = some package) (fuel : Nat) :
    routes packages (fuel + 1) name =
      package :: package.dependencies.flatMap fun dependency =>
      routes packages fuel dependency.name := by
  rw [routes, h]

theorem Graph.Sound.routes_listed (hsound : graph.Sound) (hwithin : graph.Within packages)
    (fuel : Nat) :
    ∀ name, graph.state.find? name = some .done → routes packages fuel name ⊆ graph.preorder := by
  induction fuel with
  | zero =>
    intro name _
    exact List.nil_subset _
  | succ fuel ih =>
    intro name hdone
    have hsome : (graph.packages.find? name).isSome := by
      rw [hsound.marked, hdone]
      rfl
    obtain ⟨package, hpackage⟩ := Option.isSome_iff_exists.mp hsome
    have hlisted : package ∈ graph.preorder := by
      rw [hsound.listed, hsound.keyed name package hpackage, hpackage]
    rw [routes_of_find? (hwithin name package hpackage), List.cons_subset]
    refine ⟨hlisted, ?_⟩
    intro other hother
    obtain ⟨dependency, hmem, hother⟩ := List.mem_flatMap.mp hother
    exact ih dependency.name (hsound.finished name package hdone hpackage dependency hmem).1 hother

theorem foldlM_preorder {fuel depth : Nat} (hvisit : ∀ name requiredVersion state result,
      visit store policy fuel name requiredVersion state = .ok result → state.1.Sound →
      result.1.restart = false → result.1.Within packages →
      result.1.preorder = appendAllUnique state.1.preorder (routes packages depth name))
    {dependencies : List PackageDependency} {state result : Graph × Pins}
    (h : dependencies.foldlM (fun state dependency =>
      visit store policy fuel dependency.name dependency.version state) state = .ok result)
    (hsound : state.1.Sound) (hrestart : result.1.restart = false)
    (hwithin : result.1.Within packages) :
    result.1.preorder = appendAllUnique state.1.preorder
      (dependencies.flatMap fun dependency => routes packages depth dependency.name) := by
  induction dependencies generalizing state with
  | nil =>
    rw [List.foldlM_nil, pure_eq_ok] at h
    rw [← h]
    rfl
  | cons dependency rest ih =>
    obtain ⟨middle, hfirst, hrest⟩ := foldlM_cons_ok.mp h
    have hmiddle := (foldlM_grows hrest).restart hrestart
    have hone := visit_visited _ _ _ _ _ hfirst hsound hmiddle
    rw [ih hrest hone.sound,
      hvisit _ _ _ _ hfirst hsound hmiddle (hwithin.of_extends (foldlM_extends hrest)),
      List.flatMap_cons, appendAllUnique_append]

/-- A visit records what the routes meet, also those that are longer than it can be deep. -/
theorem visit_preorder (fuel : Nat) :
    ∀ (depth : Nat) (name requiredVersion : Text) (state result : Graph × Pins), fuel ≤ depth →
      visit store policy fuel name requiredVersion state = .ok result → state.1.Sound →
      result.1.restart = false → result.1.Within packages →
      result.1.preorder = appendAllUnique state.1.preorder (routes packages depth name) := by
  induction fuel with
  | zero =>
    intro depth name requiredVersion state result _ h
    cases h
  | succ fuel ih =>
    intro depth name requiredVersion state result hdepth h hsound hrestart hwithin
    obtain ⟨depth, rfl⟩ := Nat.exists_eq_succ_of_ne_zero (Nat.ne_zero_of_lt hdepth)
    have hvisited := visit_visited _ _ _ _ _ h hsound hrestart
    obtain ⟨pins₁, manifest, _, hselect, hend⟩ := visit_cases h
    rcases hend with ⟨_, _, _, rfl⟩ | ⟨_, _, _, _, rfl⟩ | ⟨hnone, visited, hdeps, rfl⟩
    · cases hrestart
    · -- the package is finished, and with it what its routes meet
      rw [appendAllUnique_of_subset (hsound.routes_listed hwithin _ name hvisited.done)]
    · have hself : (state.1.enter name manifest.toResolvedPackage).packages.find? name
          = some manifest.toResolvedPackage := OrderedMap.find?_insert_self _ _ _
      have hname : manifest.toResolvedPackage.name = name := (select_name hselect).1
      have hnew : manifest.toResolvedPackage ∉ state.1.preorder := by
        rw [hsound.listed, hname, hnone]
        exact nofun
      have hfound := hwithin _ _ ((foldlM_extends hdeps).packages _ _ hself)
      rw [routes_of_find? hfound, appendAllUnique_cons, appendUnique_of_not_mem hnew]
      exact foldlM_preorder (fun name requiredVersion state result =>
        ih depth name requiredVersion state result (Nat.le_of_succ_le_succ hdepth)) hdeps
        (hsound.enter hname hnone) hrestart hwithin

theorem visitRoots_preorder {version : Text → Text} {state result : Graph × Pins} {depth : Nat}
    (hdepth : store.depth ≤ depth)
    (h : visitRoots store policy version roots state = .ok result) (hsound : state.1.Sound)
    (hrestart : result.1.restart = false) (hwithin : result.1.Within packages) :
    result.1.preorder = appendAllUnique state.1.preorder
    (roots.flatMap (routes packages depth)) := by
  induction roots generalizing state with
  | nil =>
    rw [visitRoots, List.foldlM_nil, pure_eq_ok] at h
    rw [← h]
    rfl
  | cons root rest ih =>
    obtain ⟨middle, hfirst, hrest⟩ := foldlM_cons_ok.mp h
    have hmiddle := (visitRoots_grows hrest).restart hrestart
    have hone := visit_visited _ _ _ _ _ hfirst hsound hmiddle
    rw [ih hrest hone.sound,
      visit_preorder _ _ _ _ _ _ hdepth hfirst hsound hmiddle
        (hwithin.of_extends (visitRoots_extends hrest)),
      List.flatMap_cons, appendAllUnique_append]

/-- The packages that a resolution selects are those of a pass over its roots. -/
theorem resolvePackages_pass {requested : List Text} {resolution : PackageResolution}
    (hroots : packageRoots store policy requested = .ok roots)
    (h : resolvePackages store policy requested = .ok resolution) :
    roots = [] ∧ resolution = ⟨.empty, []⟩ ∨
    ∃ pins graph, resolvePass store policy roots pins = .ok (graph, pins) ∧
      graph.restart = false ∧ resolution = ⟨graph.packages, graph.preorder⟩ := by
  simp only [resolvePackages, bind_eq_ok] at h
  obtain ⟨roots', hroots', h⟩ := h
  obtain rfl : roots = roots' := Except.ok.inj (hroots.symm.trans hroots')
  split at h
  · next hempty => exact .inl ⟨hempty, (pure_eq_ok.mp h).symm⟩
  · simp only [bind_eq_ok, pure_eq_ok] at h
    obtain ⟨graph, hgraph, rfl⟩ := h
    -- the graph is that of the last pass
    obtain ⟨stable, _, hpass, hrestart⟩ := resolvePasses_stable (I := fun _ => True)
      (fun _ _ _ _ => trivial) (by decide) trivial hgraph
    exact .inr ⟨stable, graph, hpass, hrestart, rfl⟩

theorem resolvePackages_linkOrder {requested : List Text} {resolution : PackageResolution}
    {depth : Nat} (hdepth : store.depth ≤ depth)
    (hroots : packageRoots store policy requested = .ok roots)
    (h : resolvePackages store policy requested = .ok resolution)
    (hpackages : ∀ name package, resolution.packages.find? name = some package →
      packages.find? name = some package) :
    resolution.linkOrder = appendAllUnique [] (roots.flatMap (routes packages depth)) := by
  obtain ⟨rfl, rfl⟩ | ⟨pins, graph, hpass, hrestart, rfl⟩ := resolvePackages_pass hroots h
  · rfl
  · rw [resolvePass_eq] at hpass
    exact visitRoots_preorder hdepth hpass Graph.Sound.empty hrestart hpackages

/-! ## Routes that are long enough -/

/-- Every chain of dependencies from the package ends within the depth. -/
def Shallow (packages : OrderedMap Text ResolvedPackage) : Nat → Text → Prop
  | 0, _ => False
  | depth + 1, name => ∀ other, Needs packages name other → Shallow packages depth other

theorem Shallow.mono {depth depth' : Nat} (hle : depth ≤ depth') :
    ∀ {name : Text}, Shallow packages depth name → Shallow packages depth' name := by
  induction depth generalizing depth' with
  | zero => exact fun h => h.elim
  | succ depth ih =>
    intro name h
    obtain ⟨depth', rfl⟩ := Nat.exists_eq_succ_of_ne_zero (Nat.ne_zero_of_lt hle)
    exact fun other hneeds => ih (Nat.le_of_succ_le_succ hle) (h other hneeds)

theorem exists_shallow_all (names : List Text)
    (h : ∀ name ∈ names, ∃ depth, Shallow packages depth name) :
    ∃ depth, ∀ name ∈ names, Shallow packages depth name := by
  induction names with
  | nil => exact ⟨0, by simp⟩
  | cons name rest ih =>
    obtain ⟨depth, hname⟩ := h name List.mem_cons_self
    obtain ⟨depth', hrest⟩ := ih fun other hmem => h other (List.mem_cons_of_mem _ hmem)
    refine ⟨max depth depth', fun other hmem => ?_⟩
    rcases List.mem_cons.mp hmem with rfl | hmem
    · exact hname.mono (Nat.le_max_left ..)
    · exact (hrest other hmem).mono (Nat.le_max_right ..)

theorem exists_shallow {name : Text} (h : Acc (fun b a => Needs packages a b) name) :
    ∃ depth, Shallow packages depth name := by
  induction h with
  | intro name _ ih =>
    cases hfind : packages.find? name with
    | none => exact ⟨1, fun other ⟨package, hpackage, _⟩ => nomatch hfind.symm.trans hpackage⟩
    | some package =>
      obtain ⟨depth, hdepth⟩ := exists_shallow_all (package.dependencies.map (·.name))
        fun other hmem => by
          obtain ⟨dependency, hdependency, rfl⟩ := List.mem_map.mp hmem
          exact ih _ ⟨package, hfind, dependency, hdependency, rfl⟩
      refine ⟨depth + 1, ?_⟩
      rintro other ⟨found, hfound, dependency, hdependency, rfl⟩
      cases hfind.symm.trans hfound
      exact hdepth _ (List.mem_map_of_mem hdependency)

/-! ## Which library the routes meet first -/

variable {name library first second : Text} {package : ResolvedPackage} {rest : List Text}

theorem leadsTo_iff (hpackage : packages.find? name = some package) :
    LeadsTo packages name library ↔ library ∈ package.libraries ∨
      ∃ dependency ∈ package.dependencies, LeadsTo packages dependency.name library := by
  constructor
  · rintro ⟨other, found, hpath, hfound, hlibrary⟩
    rcases ReflTransGen.cases_head hpath with rfl | ⟨next, ⟨source, hsource, dependency, hmem, rfl⟩,
      hrest⟩
    · cases hpackage.symm.trans hfound
      exact .inl hlibrary
    · cases hpackage.symm.trans hsource
      exact .inr ⟨dependency, hmem, other, found, hrest, hfound, hlibrary⟩
  · rintro (hlibrary | ⟨dependency, hmem, other, found, hpath, hfound, hlibrary⟩)
    · exact ⟨name, package, .refl, hpackage, hlibrary⟩
    · exact ⟨other, found, .head ⟨package, hpackage, dependency, hmem, rfl⟩ hpath, hfound, hlibrary⟩

theorem LeadsTo.found (h : LeadsTo packages name library) :
    ∃ package, packages.find? name = some package := by
  obtain ⟨other, found, hpath, hfound, -⟩ := h
  rcases ReflTransGen.cases_head hpath with rfl | ⟨next, ⟨source, hsource, -⟩, -⟩
  · exact ⟨found, hfound⟩
  · exact ⟨source, hsource⟩

/-- Routes that are long enough meet the libraries that the package leads to. -/
theorem mem_routes {depth : Nat} (h : Shallow packages depth name) :
    library ∈ (routes packages depth name).flatMap ResolvedPackage.libraries ↔
      LeadsTo packages name library := by
  induction depth generalizing name with
  | zero => exact h.elim
  | succ depth ih =>
    cases hfind : packages.find? name with
    | none =>
      rw [routes, hfind]
      refine iff_of_false List.not_mem_nil fun hleads => ?_
      obtain ⟨package, hpackage⟩ := hleads.found
      cases hfind.symm.trans hpackage
    | some package =>
      rw [routes_of_find? hfind, leadsTo_iff hfind, List.flatMap_cons, List.mem_append,
        List.flatMap_assoc, List.mem_flatMap]
      refine or_congr_right (exists_congr fun dependency => and_congr_right fun hmem => ?_)
      exact ih (h dependency.name ⟨package, hfind, dependency, hmem, rfl⟩)

theorem misplaced_skip (hfirst : ¬ LeadsTo packages name first)
    (hsecond : ¬ LeadsTo packages name second) :
    Misplaced packages first second (name :: rest) ↔ Misplaced packages first second rest := by
  constructor
  · intro h
    cases h with
    | skip _ _ hrest => exact hrest
    | shortcut _ hleads => exact absurd hleads hsecond
    | declared hpackage hbefore =>
      refine absurd ((leadsTo_iff hpackage).mpr (.inl ?_)) hsecond
      exact List.idxOf_lt_length_iff.mp (hbefore.trans_le List.idxOf_le_length)
    | inside _ _ _ hleads => exact absurd hleads hfirst
  · exact .skip hfirst hsecond

theorem misplaced_package (hpackage : packages.find? name = some package)
    (hfirst : LeadsTo packages name first) :
    Misplaced packages first second (name :: rest) ↔
      package.libraries.idxOf second < package.libraries.idxOf first ∨
      (first ∉ package.libraries ∧ second ∉ package.libraries ∧
        Misplaced packages first second (package.dependencies.map (·.name))) := by
  constructor
  · intro h
    cases h with
    | skip hnot | shortcut hnot => exact absurd hfirst hnot
    | declared hfound hbefore =>
      cases hpackage.symm.trans hfound
      exact .inl hbefore
    | inside hfound hfirst hsecond _ hinner =>
      cases hpackage.symm.trans hfound
      exact .inr ⟨hfirst, hsecond, hinner⟩
  · rintro (hbefore | ⟨hnone, hother, hinner⟩)
    · exact .declared hpackage hbefore
    · exact .inside hpackage hnone hother hfirst hinner

/-- Within one package's own libraries. -/
theorem precedes_libraries {libraries : List Text} (hne : first ≠ second)
    (h : first ∈ libraries ∨ second ∈ libraries) :
    Precedes first second libraries ↔ ¬ libraries.idxOf second < libraries.idxOf first := by
  rw [precedes_iff_idxOf hne, Nat.not_lt]
  refine ⟨Nat.le_of_lt, fun hle => Nat.lt_of_le_of_ne hle fun heq => hne ?_⟩
  -- one of them is there, and so they stand at different places
  rcases h with hmem | hmem
  · exact (List.idxOf_inj hmem).mp heq
  · exact ((List.idxOf_inj hmem).mp heq.symm).symm

/-- The routes from a list of names meet `first` ahead of `second`, if they meet one of
    them, exactly if the list does not misplace them. -/
theorem precedes_routes_iff (hne : first ≠ second) {depth : Nat} {names : List Text}
    (hshallow : ∀ name ∈ names, Shallow packages depth name)
    (hleads : ∃ name ∈ names, LeadsTo packages name first ∨ LeadsTo packages name second) :
    Precedes first second ((names.flatMap (routes packages depth)).flatMap
      ResolvedPackage.libraries) ↔
      ¬ Misplaced packages first second names := by
  induction depth generalizing names with
  | zero =>
    obtain ⟨name, hmem, -⟩ := hleads
    exact (hshallow name hmem).elim
  | succ depth ih =>
    induction names with
    | nil => simp at hleads
    | cons name rest inner =>
      have hname := hshallow name List.mem_cons_self
      rw [List.flatMap_cons, List.flatMap_append]
      by_cases hmeets : LeadsTo packages name first ∨ LeadsTo packages name second
      · rw [precedes_append_left (by rwa [mem_routes hname, mem_routes hname])]
        by_cases hfirst : LeadsTo packages name first
        · obtain ⟨package, hpackage⟩ := hfirst.found
          rw [misplaced_package hpackage hfirst, routes_of_find? hpackage, List.flatMap_cons]
          by_cases hown : first ∈ package.libraries ∨ second ∈ package.libraries
          · rw [precedes_append_left hown, precedes_libraries hne hown, or_iff_left]
            exact fun h => hown.elim h.1 h.2.1
          · -- neither library is the package's own
            rw [not_or] at hown
            have hdependencies := (leadsTo_iff hpackage).mp hfirst
            have hnames : (package.dependencies.flatMap fun dependency =>
                routes packages depth dependency.name)
                = (package.dependencies.map (·.name)).flatMap (routes packages depth) := by
              rw [List.flatMap_map]
            rw [precedes_append_right hown.1 hown.2, hnames, ih]
            · simp [hown]
            · intro other hmem
              obtain ⟨dependency, hdependency, rfl⟩ := List.mem_map.mp hmem
              exact hname _ ⟨package, hpackage, dependency, hdependency, rfl⟩
            · obtain ⟨dependency, hdependency, hinner⟩ := hdependencies.resolve_left hown.1
              exact ⟨_, List.mem_map_of_mem hdependency, .inl hinner⟩
        · -- only `second` is there
          refine iff_of_false (fun h => hfirst ((mem_routes hname).mp h.mem)) ?_
          exact not_not_intro (.shortcut hfirst (hmeets.resolve_left hfirst))
      · -- the package leads to neither library
        rw [not_or] at hmeets
        rw [precedes_append_right (mt (mem_routes hname).mp hmeets.1)
          (mt (mem_routes hname).mp hmeets.2),
          misplaced_skip hmeets.1 hmeets.2]
        refine inner (fun other hmem => hshallow other (List.mem_cons_of_mem _ hmem)) ?_
        obtain ⟨other, hmem, hother⟩ := hleads
        rcases List.mem_cons.mp hmem with rfl | hmem
        · exact absurd hother (not_or.mpr hmeets)
        · exact ⟨other, hmem, hother⟩

theorem Dependent.ne (h : Dependent packages roots first second) : first ≠ second := by
  obtain ⟨_, _, _, _, _, dependency, _, _, _, _, ⟨_, hfirst⟩, hsecond, _⟩ := h
  rintro rfl
  exact hfirst hsecond

theorem Dependent.leads (h : Dependent packages roots first second) :
    ∃ name ∈ roots, LeadsTo packages name first ∨ LeadsTo packages name second := by
  obtain ⟨root, hroot, name, package, _, _, hpath, hpackage, _, _, ⟨hfirst, _⟩, _⟩ := h
  exact ⟨root, hroot, .inl ⟨name, package, hpath, hpackage, hfirst⟩⟩

/-- In a package graph that has the selected packages, chains from the roots end. -/
theorem roots_shallow {requested : List Text} {resolution : PackageResolution}
    (hroots : packageRoots store policy requested = .ok roots)
    (h : resolvePackages store policy requested = .ok resolution)
    (hpackages : ∀ name package, resolution.packages.find? name = some package →
      packages.find? name = some package) :
    ∃ depth, ∀ root ∈ roots, Shallow packages depth root := by
  obtain ⟨rfl, rfl⟩ | ⟨pins, graph, hpass, hrestart, rfl⟩ := resolvePackages_pass hroots h
  · exact ⟨0, by simp⟩
  · have hgraph := resolvePass_graph hpass hrestart
    -- a selected package has the same dependencies in both graphs
    have hends : ∀ name, Acc (fun b a => Needs graph.packages a b) name →
        (graph.packages.find? name).isSome → Acc (fun b a => Needs packages a b) name := by
      intro name hacc
      induction hacc with
      | intro name _ ih =>
        intro hsome
        obtain ⟨package, hpackage⟩ := Option.isSome_iff_exists.mp hsome
        refine .intro name ?_
        rintro other ⟨found, hfound, dependency, hmem, rfl⟩
        cases (hpackages name package hpackage).symm.trans hfound
        obtain ⟨-, next, hnext, -⟩ := hgraph.sound.finished name package (hgraph.done name hsome)
          hpackage dependency hmem
        exact ih _ ⟨package, hpackage, dependency, hmem, rfl⟩ (Option.isSome_iff_exists.mpr
          ⟨next, hnext⟩)
    refine exists_shallow_all _ fun root hroot => exists_shallow ?_
    obtain ⟨_, package, _, hpackage, _⟩ := hgraph.rooted root hroot
    have hsome : (graph.packages.find? root).isSome :=
      Option.isSome_iff_exists.mpr ⟨package, hpackage⟩
    exact hends root (hgraph.sound.ends root (hgraph.done root hsome)) hsome

/-- The libraries respect the dependencies of a package graph exactly if its imports
    misplace none. -/
theorem respectsDependencies_iff {normalized : Text → Text} {requested roots : List Text}
    {resolution : PackageResolution} {inputs : LinkInputs}
    (hroots : packageRoots store policy requested = .ok roots)
    (hresolution : resolvePackages store policy requested = .ok resolution)
    (hpackages : ∀ name package, resolution.packages.find? name = some package →
      packages.find? name = some package)
    (hinputs : packageInputs normalized resolution.linkOrder = .ok inputs) :
    RespectsDependencies packages roots inputs ↔
      ∀ first second, Dependent packages roots first second →
        ¬ Misplaced packages first second roots := by
  obtain ⟨shallow, hshallow⟩ := roots_shallow hroots hresolution hpackages
  let depth := max store.depth shallow
  have hlibraries : inputs.libraries = appendAllUnique []
      ((roots.flatMap (routes packages depth)).flatMap ResolvedPackage.libraries) := by
    rw [packageInputs_libraries hinputs,
      resolvePackages_linkOrder (Nat.le_max_left ..) hroots hresolution hpackages,
      appendAllUnique_flatMap, List.nil_append]
  have hiff (first second : Text) (hdependent : Dependent packages roots first second) :
      inputs.libraries.idxOf first < inputs.libraries.idxOf second ↔
        ¬ Misplaced packages first second roots := by
    rw [hlibraries, idxOf_appendAllUnique hdependent.ne, ← precedes_iff_idxOf hdependent.ne]
    exact precedes_routes_iff hdependent.ne
      (fun root hroot => (hshallow root hroot).mono (Nat.le_max_right ..)) hdependent.leads
  obtain ⟨hlibrariesOnce, hpathsOnce⟩ := packageInputs_once hinputs
  constructor
  · exact fun h first second hdependent => (hiff first second hdependent).mp
      (h.ordered first second hdependent)
  · exact fun h => ⟨fun first second hdependent => (hiff first second hdependent).mpr
      (h first second hdependent),
      hlibrariesOnce, hpathsOnce⟩

section Stores

/-- A package without libraries. -/
def plainPackage (name version : Text) (dependencies : List PackageDependency)
    (versioned : (parseVersion version).isSome = true) : PackageManifest where
  name := name
  version := version
  packageRoot := "modules/".toList ++ name ++ '/' :: version
  sourcePath := "modules/".toList ++ name ++ '/' :: version ++ "/main.cw".toList
  exportKind := "class".toList
  exportName := name
  dependencies := dependencies
  libraries := []
  libraryPaths := []
  versioned := versioned
  signature := name ++ '\n' :: version

def installedAt (manifest : PackageManifest) : DirectoryEntry :=
  ⟨manifest.version, true, .read (.ok manifest)⟩

/-- A store with one search root. -/
def storeOf (packages : List (Text × PackageDirectory)) : ModuleStore where
  roots := [⟨"modules".toList, packages⟩]
  isRegularFile := fun _ => true
  isDirectory := fun _ => true
  packageTreeSha256 := fun _ => .ok []

def one : Text := "1.0.0".toList

theorem isSome_one : (parseVersion one).isSome = true := by decide

/-- A package whose library has the name in lower case. -/
def linked (name : Text) (dependencies : List Text) : PackageManifest :=
  { plainPackage name one (dependencies.map fun dependency => ⟨dependency, one, isSome_one⟩)
      isSome_one with
    libraries := [name.map Char.toLower] }

def linkedStore (packages : List PackageManifest) : ModuleStore :=
  storeOf (packages.map fun package => (package.name, ⟨[installedAt package], by simp, none⟩))

def linkedPackages (packages : List PackageManifest) : OrderedMap Text ResolvedPackage :=
  packages.foldl (fun map package => map.insert package.name package.toResolvedPackage) .empty

/-- `B` and `C` share `D`, and `B` lists `C` ahead of it. -/
def sharedPackages : List PackageManifest :=
  [linked ['A'] [['B'], ['C']], linked ['B'] [['C'], ['D']], linked ['C'] [['D']], linked ['D'] []]

theorem respectsDependencies_shared :
    resolvePackages (linkedStore sharedPackages) none [['A']] =
      .ok ⟨linkedPackages sharedPackages, sharedPackages.map (·.toResolvedPackage)⟩ ∧
    packageInputs id (sharedPackages.map (·.toResolvedPackage)) =
      .ok ⟨[], [['a'], ['b'], ['c'], ['d']]⟩ ∧
    RespectsDependencies (linkedPackages sharedPackages)
    [['A']] ⟨[], [['a'], ['b'], ['c'], ['d']]⟩ ∧
    ∀ first second, Dependent (linkedPackages sharedPackages) [['A']] first second →
      ¬ Misplaced (linkedPackages sharedPackages) first second [['A']] := by
  have hresolution : resolvePackages (linkedStore sharedPackages) none [['A']] =
      .ok ⟨linkedPackages sharedPackages,
        sharedPackages.map (·.toResolvedPackage)⟩ := by decide +kernel
  have hinputs : packageInputs id (sharedPackages.map (·.toResolvedPackage)) =
      .ok ⟨[], [['a'], ['b'], ['c'], ['d']]⟩ := by decide +kernel
  -- dependencies come later in the alphabet, and so do the libraries
  have hlater : ∀ name other, Needs (linkedPackages sharedPackages) name other → name < other := by
    rintro name other ⟨package, hpackage, dependency, hmem, rfl⟩
    have hall : ∀ entry ∈ (linkedPackages sharedPackages).entries,
        ∀ dependency ∈ entry.2.dependencies, entry.1 < dependency.name := by decide +kernel
    exact hall _ (OrderedMap.find?_eq_some.mp hpackage) dependency hmem
  have hlibraries : ∀ entry ∈ (linkedPackages sharedPackages).entries,
      ∀ other ∈ (linkedPackages sharedPackages).entries, entry.1 < other.1 →
      ∀ first ∈ entry.2.libraries, ∀ second ∈ other.2.libraries,
        ([['a'], ['b'], ['c'], ['d']] : List Text).idxOf first <
          ([['a'], ['b'], ['c'], ['d']] : List Text).idxOf second := by decide +kernel
  have hrespects : RespectsDependencies (linkedPackages sharedPackages) [['A']]
      ⟨[], [['a'], ['b'], ['c'], ['d']]⟩ := by
    refine ⟨?_, by decide, by decide⟩
    rintro first second ⟨_, _, name, package, other, dependency, _, hpackage, hpath, hdependency,
      ⟨hfirst, _⟩, hsecond, _⟩
    have hlt : name < other := hpath.trans_induction_on (fun h => hlater _ _ h) fun _ _ => lt_trans
    exact hlibraries _ (OrderedMap.find?_eq_some.mp hpackage) _
      (OrderedMap.find?_eq_some.mp hdependency) hlt first hfirst second hsecond
  exact ⟨hresolution, hinputs, hrespects, (respectsDependencies_iff (by decide +kernel) hresolution
    (fun _ _ => id) hinputs).mp hrespects⟩

def dependentPackages : List PackageManifest := [linked ['A'] [['C']], linked ['C'] []]

/-- `C` is imported first, and its library stands in front of that of `A`. -/
theorem dependency_library_first :
    resolvePackages (linkedStore dependentPackages) none [['C'], ['A']] =
      .ok ⟨linkedPackages dependentPackages,
        [(linked ['C'] []).toResolvedPackage, (linked ['A'] [['C']]).toResolvedPackage]⟩ ∧
    packageInputs id [(linked ['C'] []).toResolvedPackage, (linked ['A'] [['C']]).toResolvedPackage]
      =
      .ok ⟨[], [['c'], ['a']]⟩ ∧
    ¬ RespectsDependencies (linkedPackages dependentPackages)
    [['C'], ['A']] ⟨[], [['c'], ['a']]⟩ := by
  refine ⟨by decide +kernel, by decide +kernel, ?_⟩
  intro h
  have hA : (linkedPackages dependentPackages).find? ['A'] =
      some (linked ['A'] [['C']]).toResolvedPackage := by
    decide +kernel
  have hC : (linkedPackages dependentPackages).find? ['C'] =
      some (linked ['C'] []).toResolvedPackage := by
    decide +kernel
  have hneeds : Needs (linkedPackages dependentPackages) ['A'] ['C'] :=
    ⟨_, hA, _, List.mem_singleton_self _, rfl⟩
  have hdependent : Dependent (linkedPackages dependentPackages) [['C'], ['A']] ['a'] ['c'] :=
    ⟨_, List.mem_cons_of_mem _ (List.mem_singleton_self _), _, _, _, _, .refl, hA,
      .single hneeds, hC, by decide, by decide⟩
  exact absurd (h.ordered _ _ hdependent) (by decide)

end Stores

end Cwhip.Packages
