/-
  Cwhip.Packages.ResolverSound

  A resolution that succeeds is a consistent graph.

  Restarts and the pins that passes hand on do not enter the argument: the
  result is the graph of one pass that did not restart, and `visit` alone makes
  such a graph closed under exact dependencies and free of cycles.
-/

import Mathlib.Logic.Relation
import Cwhip.Packages.Resolver

namespace Cwhip.Packages

open Cwhip.Lib Relation
open OrderedMap (find?_insert_of_ne find?_insert_self)

variable {store : ModuleStore} {policy : Option ModuleVersionPolicy}

/-! ## Selection -/

theorem mem_of_betterStable {candidates : List PackageManifest} {best : Option PackageManifest}
    {manifest : PackageManifest} (h : candidates.foldl betterStable best = some manifest) :
    manifest ∈ candidates ∨ best = some manifest := by
  induction candidates generalizing best with
  | nil => exact .inr h
  | cons first rest ih =>
    rcases ih h with hmem | hbest
    · exact .inl (List.mem_cons_of_mem _ hmem)
    · -- the first candidate either became the best one or left it alone
      unfold betterStable at hbest
      split at hbest
      · split at hbest
        · exact .inl (Option.some.inj hbest ▸ List.mem_cons_self)
        · split at hbest
          · exact .inl (Option.some.inj hbest ▸ List.mem_cons_self)
          · exact .inr hbest
      · exact .inr hbest

theorem firstInstalled_mem {candidates : List PackageManifest} {versions : List Text}
    {manifest : PackageManifest} (h : firstInstalled candidates versions = some manifest) :
    manifest ∈ candidates := by
  induction versions with
  | nil => cases h
  | cons version rest ih =>
    unfold firstInstalled at h
    split at h
    · next hfind => exact List.mem_of_find?_eq_some (hfind.trans h)
    · exact ih h

/-- A selected version is one that was discovered. -/
theorem select_mem {name requiredVersion : Text} {manifest : PackageManifest}
    (h : select store policy name requiredVersion = .ok manifest) :
    ∃ candidates, discover store name = .ok candidates ∧ manifest ∈ candidates := by
  cases policy with
  | some policy =>
    simp only [select, selectLocked, bind_eq_ok, require_eq_ok, ensure_eq_ok, pure_eq_ok] at h
    obtain ⟨_, _, candidates, hfound, selected, hselected, _, _, _, _, rfl⟩ := h
    exact ⟨candidates, hfound, firstInstalled_mem hselected⟩
  | none =>
    simp only [select, selectInstalled, bind_eq_ok] at h
    obtain ⟨candidates, hfound, h⟩ := h
    refine ⟨candidates, hfound, ?_⟩
    split at h
    · rcases mem_of_betterStable (require_eq_ok.mp h) with hmem | hnone
      · exact hmem
      · cases hnone
    · exact List.mem_of_find?_eq_some (require_eq_ok.mp h)

theorem select_name {name requiredVersion : Text} {manifest : PackageManifest}
    (h : select store policy name requiredVersion = .ok manifest) :
    manifest.name = name ∧ name ∈ store.names := by
  obtain ⟨candidates, hfound, hmem⟩ := select_mem h
  exact discover_name hfound hmem

theorem select_version {name requiredVersion : Text} {manifest : PackageManifest}
    (h : select store policy name requiredVersion = .ok manifest)
    (hrequired : requiredVersion ≠ []) :
    manifest.version = requiredVersion := by
  cases policy with
  | some policy =>
    simp only [select, selectLocked, bind_eq_ok, require_eq_ok, ensure_eq_ok, pure_eq_ok] at h
    obtain ⟨_, _, _, _, selected, _, _, hversion, _, _, rfl⟩ := h
    exact hversion.resolve_left hrequired
  | none =>
    simp only [select, selectInstalled, bind_eq_ok, if_neg hrequired, require_eq_ok] at h
    obtain ⟨_, _, hfind⟩ := h
    simpa using List.find?_some hfind

/-! ## What a visit never undoes -/

/-- Packages stay in the graph, and a restart stays requested. -/
structure Graph.Grows (graph graph' : Graph) : Prop where
  packages : ∀ name package, graph.packages.find? name = some package →
    graph'.packages.find? name = some package
  restart : graph'.restart = false → graph.restart = false

theorem Graph.Grows.refl (graph : Graph) : graph.Grows graph := ⟨fun _ _ h => h, id⟩

theorem Graph.Grows.trans {g₁ g₂ g₃ : Graph} (h : g₁.Grows g₂) (h' : g₂.Grows g₃) : g₁.Grows g₃ :=
  ⟨fun name package hfind => h'.packages name package (h.packages name package hfind),
    fun hrestart => h.restart (h'.restart hrestart)⟩

theorem Graph.grows_enter {graph : Graph} {name : Text} {resolved : ResolvedPackage}
    (h : graph.packages.find? name = none) : graph.Grows (graph.enter name resolved) := by
  refine ⟨?_, id⟩
  intro other package hfind
  have hne : other ≠ name := by
    rintro rfl
    rw [h] at hfind
    cases hfind
  exact (find?_insert_of_ne _ _ hne).trans hfind

/-- A visit asks for a restart, changes nothing or enters the package. -/
theorem visit_cases {fuel : Nat} {name requiredVersion : Text} {graph : Graph} {pins : Pins}
    {result : Graph × Pins}
    (h : visit store policy (fuel + 1) name requiredVersion (graph, pins) = .ok result) :
    ∃ pins₁ manifest, recordPin policy name requiredVersion pins = .ok pins₁ ∧
      select store policy name requiredVersion = .ok manifest ∧
      ((∃ existing, graph.packages.find? name = some existing ∧
          existing.version ≠ manifest.version ∧ result = ({ graph with restart := true }, pins₁)) ∨
        (∃ existing, graph.packages.find? name = some existing ∧
          existing.version = manifest.version ∧ graph.state.find? name ≠ some .active ∧
          result = (graph, pins₁)) ∨
        (graph.packages.find? name = none ∧ ∃ visited : Graph × Pins,
          manifest.dependencies.foldlM
            (fun state dependency =>
              visit store policy fuel dependency.name dependency.version state)
            (graph.enter name manifest.toResolvedPackage, pins₁) = .ok visited ∧
          result = (visited.1.finish name, visited.2))) := by
  simp only [visit, bind_eq_ok] at h
  obtain ⟨pins₁, hpin, manifest, hselect, h⟩ := h
  refine ⟨pins₁, manifest, hpin, hselect, ?_⟩
  split at h
  · next existing hexisting =>
    split at h
    · next hversion => exact .inl ⟨existing, hexisting, hversion, (pure_eq_ok.mp h).symm⟩
    · next hversion =>
      split at h
      · cases h
      · next hactive =>
        exact .inr (.inl ⟨existing, hexisting, not_not.mp hversion, hactive,
          (pure_eq_ok.mp h).symm⟩)
  · next hnone =>
    simp only [bind_eq_ok, pure_eq_ok] at h
    obtain ⟨visited, hvisited, hresult⟩ := h
    exact .inr (.inr ⟨hnone, visited, hvisited, hresult.symm⟩)

/-- A visit removes no package and keeps a restart that was asked for. -/
theorem visit_grows (fuel : Nat) : ∀ (name requiredVersion : Text) (state result : Graph × Pins),
    visit store policy fuel name requiredVersion state = .ok result → state.1.Grows result.1 := by
  induction fuel with
  | zero =>
    intro name requiredVersion state result h
    cases h
  | succ fuel ih =>
    intro name requiredVersion state result h
    obtain ⟨pins₁, manifest, _, _, hend⟩ := visit_cases h
    rcases hend with ⟨_, _, _, rfl⟩ | ⟨_, _, _, _, rfl⟩ | ⟨hnone, visited, hvisited, rfl⟩
    · refine ⟨fun _ _ hfind => hfind, ?_⟩
      intro hfalse
      cases hfalse
    · exact Graph.Grows.refl _
    · have hdeps := foldlM_rel (R := fun s s' : Graph × Pins => s.1.Grows s'.1)
        (fun _ => Graph.Grows.refl _) (fun _ _ _ => Graph.Grows.trans)
        (fun _ _ _ _ => ih _ _ _ _) hvisited
      exact (Graph.grows_enter hnone).trans ⟨hdeps.packages, hdeps.restart⟩

theorem foldlM_grows {fuel : Nat} {dependencies : List PackageDependency}
    {state result : Graph × Pins}
    (h : dependencies.foldlM (fun state dependency =>
      visit store policy fuel dependency.name dependency.version state) state = .ok result) :
    state.1.Grows result.1 :=
  foldlM_rel (R := fun s s' : Graph × Pins => s.1.Grows s'.1) (fun _ => Graph.Grows.refl _)
    (fun _ _ _ => Graph.Grows.trans) (fun _ _ _ _ => visit_grows fuel _ _ _ _) h

/-! ## The depth of visits is bounded -/

/-- The names of the store that are not in the graph. -/
def unvisited (store : ModuleStore) (graph : Graph) : List Text :=
  store.names.filter (fun name => (graph.packages.find? name).isNone)

theorem unvisited_le {graph graph' : Graph} (h : graph.Grows graph') :
    (unvisited store graph').length ≤ (unvisited store graph).length := by
  unfold unvisited
  rw [← List.countP_eq_length_filter, ← List.countP_eq_length_filter]
  apply List.countP_mono_left
  intro name _ hnone
  rw [Option.isNone_iff_eq_none] at hnone ⊢
  cases hfind : graph.packages.find? name with
  | none => rfl
  | some package =>
    rw [h.packages name package hfind] at hnone
    cases hnone

theorem unvisited_enter {graph : Graph} {name : Text} {resolved : ResolvedPackage} :
    unvisited store (graph.enter name resolved)
      = (unvisited store graph).filter (fun other => decide (other ≠ name)) := by
  unfold unvisited
  rw [List.filter_filter]
  apply List.filter_congr
  intro other _
  by_cases heq : other = name
  · simp [Graph.enter, heq]
  · simp [Graph.enter, find?_insert_of_ne _ _ heq, heq]

/-- Entering a package leaves one less to visit. -/
theorem unvisited_enter_lt {graph : Graph} {name : Text} {resolved : ResolvedPackage}
    (hname : name ∈ store.names) (hnone : graph.packages.find? name = none) :
    (unvisited store (graph.enter name resolved)).length < (unvisited store graph).length := by
  rw [unvisited_enter, List.length_filter_lt_length_iff_exists]
  refine ⟨name, ?_, by simp⟩
  rw [unvisited, List.mem_filter]
  exact ⟨hname, by simp [hnone]⟩

/-! ### Nothing else runs out of fuel -/

theorem discover_avoids (name : Text) : Avoids .outOfFuel (discover store name) := by
  have hmessage : ∀ what : Text, Failure.message what ≠ .outOfFuel := fun _ h => nomatch h
  have hfail : ∀ {α : Type} (what : Text), Avoids .outOfFuel (fail what : Except Failure α) :=
    fun what h => hmessage what (Except.error.inj h)
  have hread : ∀ directory entry, Avoids .outOfFuel (readCandidate store name directory entry) := by
    intro directory entry
    unfold readCandidate
    split
    · exact hfail _
    · exact hfail _
    · exact hfail _
    · refine (Avoids.ensure (hmessage _) _).bind fun _ _ =>
        (Avoids.ensure (hmessage _) _).bind fun _ _ => ?_
      split
      · exact hfail _
      · exact Avoids.ok _
  have hroot : ∀ root, Avoids .outOfFuel (scanRoot store name root) := by
    intro root
    unfold scanRoot
    split
    · exact Avoids.ok _
    · refine (Avoids.mapM (hread _) _).bind fun _ _ => ?_
      split
      · exact hfail _
      · exact Avoids.ok _
  have hroots : ∀ roots, Avoids .outOfFuel (scanRoots store name roots) := by
    intro roots
    induction roots with
    | nil => exact Avoids.ok _
    | cons root rest ih =>
      refine (hroot root).bind fun _ _ => ?_
      split
      · exact ih
      · exact Avoids.ok _
  refine (hroots _).bind fun _ _ => ?_
  dsimp only
  split
  · exact hfail _
  · exact Avoids.ok _

theorem select_avoids (name requiredVersion : Text) :
    Avoids .outOfFuel (select store policy name requiredVersion) := by
  have hmessage : ∀ what : Text, Failure.message what ≠ .outOfFuel := fun _ h => nomatch h
  cases policy with
  | some policy =>
    have hlocked : ∀ selected, Avoids .outOfFuel (checkLocked store policy name selected) := by
      intro selected
      refine (Avoids.require (hmessage _) _).bind fun _ _ =>
        (Avoids.require (hmessage _) _).bind fun _ _ => Avoids.bind ?_ fun _ _ =>
        (Avoids.ensure (hmessage _) _).bind fun _ _ =>
        (Avoids.require (hmessage _) _).bind fun _ _ => Avoids.ensure (hmessage _) _
      cases store.packageTreeSha256 selected.packageRoot with
      | ok digest => exact Avoids.ok _
      | error what => exact fun h => hmessage what (Except.error.inj h)
    exact (Avoids.require (hmessage _) _).bind fun _ _ => (discover_avoids name).bind fun _ _ =>
      (Avoids.require (hmessage _) _).bind fun _ _ =>
      (Avoids.ensure (hmessage _) _).bind fun _ _ =>
      (hlocked _).bind fun _ _ => Avoids.ok _
  | none =>
    refine (discover_avoids name).bind fun _ _ => ?_
    split
    · exact Avoids.require (hmessage _) _
    · exact Avoids.require (hmessage _) _

theorem recordPin_avoids (name requiredVersion : Text) (pins : Pins) :
    Avoids .outOfFuel (recordPin policy name requiredVersion pins) := by
  unfold recordPin
  split
  · exact Avoids.ok _
  · split
    · exact Avoids.ok _
    · split
      · split
        · exact Avoids.ok _
        · exact fun h => nomatch (Except.error.inj h : Failure.message _ = .outOfFuel)
      · exact Avoids.ok _

/-- With fuel for each package not entered a visit runs to its end. -/
theorem visit_avoids (fuel : Nat) : ∀ (name requiredVersion : Text) (state : Graph × Pins),
    (unvisited store state.1).length < fuel →
    Avoids .outOfFuel (visit store policy fuel name requiredVersion state) := by
  induction fuel with
  | zero =>
    intro name requiredVersion state hfuel
    omega
  | succ fuel ih =>
    intro name requiredVersion state hfuel
    -- the dependencies are visited with one name less to go
    have hdeps : ∀ (dependencies : List PackageDependency) (state : Graph × Pins),
        (unvisited store state.1).length < fuel →
        Avoids .outOfFuel (dependencies.foldlM (fun state dependency =>
          visit store policy fuel dependency.name dependency.version state) state) := by
      intro dependencies
      induction dependencies with
      | nil =>
        intro state _
        exact Avoids.ok _
      | cons dependency rest ihrest =>
        intro state hlt
        rw [List.foldlM_cons]
        refine (ih _ _ state hlt).bind fun middle hmiddle => ihrest middle ?_
        have hle := @unvisited_le store _ _ (visit_grows fuel _ _ _ _ hmiddle)
        omega
    refine (recordPin_avoids _ _ _).bind fun pins₁ _ =>
      (select_avoids _ _).bind fun manifest hselect => ?_
    split
    · split
      · exact Avoids.ok _
      · split
        · exact fun h => nomatch (Except.error.inj h : Failure.message _ = .outOfFuel)
        · exact Avoids.ok _
    · next hnone =>
      refine (hdeps _ _ ?_).bind fun _ _ => Avoids.ok _
      have hlt := @unvisited_enter_lt store _ _ manifest.toResolvedPackage
        (select_name hselect).2 hnone
      show (unvisited store (state.1.enter name manifest.toResolvedPackage)).length < fuel
      omega

/-! ## What a visit adds -/

/-- The package `a` is in the graph and depends on `b`. -/
def Needs (packages : OrderedMap Text ResolvedPackage) (a b : Text) : Prop :=
  ∃ package, packages.find? a = some package ∧ ∃ dependency ∈ package.dependencies,
    dependency.name = b

/-- What holds of a graph between visits. -/
structure Graph.Sound (graph : Graph) : Prop where
  /-- A package is listed under its name. -/
  keyed : ∀ name package, graph.packages.find? name = some package → package.name = name
  marked : ∀ name, (graph.packages.find? name).isSome ↔ (graph.state.find? name).isSome
  /-- The link order lists them. -/
  listed : ∀ package, package ∈ graph.preorder ↔
    graph.packages.find? package.name = some package
  once : (graph.preorder.map (·.name)).Nodup
  /-- The dependencies of a finished package are finished and of the exact version. -/
  finished : ∀ name package, graph.state.find? name = some .done →
    graph.packages.find? name = some package → ∀ dependency ∈ package.dependencies,
      graph.state.find? dependency.name = some .done ∧
      ∃ other, graph.packages.find? dependency.name = some other ∧
        other.version = dependency.version
  /-- Dependency chains from a finished package end. -/
  ends : ∀ name, graph.state.find? name = some .done →
    Acc (fun b a => Needs graph.packages a b) name

/-- The graph has new packages, all of them finished. -/
structure Graph.Extends (graph graph' : Graph) : Prop where
  packages : ∀ name package, graph.packages.find? name = some package →
    graph'.packages.find? name = some package
  kept : ∀ name, (graph.packages.find? name).isSome →
    graph'.state.find? name = graph.state.find? name
  fresh : ∀ name, graph.packages.find? name = none → (graph'.packages.find? name).isSome →
    graph'.state.find? name = some .done

theorem Graph.Extends.refl (graph : Graph) : graph.Extends graph := by
  refine ⟨fun _ _ h => h, fun _ _ => rfl, ?_⟩
  intro name hnone hsome
  rw [hnone] at hsome
  cases hsome

theorem Graph.Extends.isSome {graph graph' : Graph} (h : graph.Extends graph') {name : Text}
    (hsome : (graph.packages.find? name).isSome) : (graph'.packages.find? name).isSome := by
  obtain ⟨package, hpackage⟩ := Option.isSome_iff_exists.mp hsome
  rw [h.packages name package hpackage]
  rfl

theorem Graph.Extends.trans {g₁ g₂ g₃ : Graph} (h : g₁.Extends g₂) (h' : g₂.Extends g₃) :
    g₁.Extends g₃ := by
  refine ⟨fun name package hfind => h'.packages name package (h.packages name package hfind), ?_,
    ?_⟩
  · intro name hsome
    rw [h'.kept name (h.isSome hsome), h.kept name hsome]
  · intro name hnone hsome
    cases hmiddle : g₂.packages.find? name with
    | none => exact h'.fresh name hmiddle hsome
    | some package =>
      have hpresent : (g₂.packages.find? name).isSome := by rw [hmiddle]; rfl
      rw [h'.kept name hpresent]
      exact h.fresh name hnone hpresent

theorem Graph.Extends.around {graph visited : Graph} {name : Text} {resolved : ResolvedPackage}
    (hnone : graph.packages.find? name = none)
    (h : (graph.enter name resolved).Extends visited) : graph.Extends (visited.finish name) := by
  have hentered : ∀ other, other ≠ name →
      (graph.enter name resolved).packages.find? other = graph.packages.find? other :=
    fun other hne => find?_insert_of_ne _ _ hne
  have hfinished : ∀ other, other ≠ name →
      (visited.finish name).state.find? other = visited.state.find? other :=
    fun other hne => find?_insert_of_ne _ _ hne
  refine ⟨?_, ?_, ?_⟩
  · intro other package hother
    exact h.packages _ _ ((@Graph.grows_enter _ _ _ hnone).packages _ _ hother)
  · intro other hother
    have hne : other ≠ name := by
      rintro rfl
      rw [hnone] at hother
      cases hother
    rw [hfinished other hne, h.kept other (by rw [hentered other hne]; exact hother)]
    exact find?_insert_of_ne _ _ hne
  · intro other hother hsome
    by_cases heq : other = name
    · rw [heq]
      exact find?_insert_self _ _ _
    · rw [hfinished other heq]
      exact h.fresh other ((hentered other heq).trans hother) hsome

/-- A visit adds finished packages only. -/
theorem visit_extends (fuel : Nat) : ∀ (name requiredVersion : Text) (state result : Graph × Pins),
    visit store policy fuel name requiredVersion state = .ok result →
    state.1.Extends result.1 := by
  induction fuel with
  | zero =>
    intro name requiredVersion state result h
    cases h
  | succ fuel ih =>
    intro name requiredVersion state result h
    obtain ⟨pins₁, manifest, _, _, hend⟩ := visit_cases h
    rcases hend with ⟨_, _, _, rfl⟩ | ⟨_, _, _, _, rfl⟩ | ⟨hnone, visited, hvisited, rfl⟩
    · have hrefl := Graph.Extends.refl state.1
      exact ⟨hrefl.packages, hrefl.kept, hrefl.fresh⟩
    · exact Graph.Extends.refl _
    · exact Graph.Extends.around hnone (foldlM_rel
        (R := fun s s' : Graph × Pins => s.1.Extends s'.1) (fun _ => Graph.Extends.refl _)
        (fun _ _ _ => Graph.Extends.trans) (fun _ _ _ _ => ih _ _ _ _) hvisited)

theorem foldlM_extends {fuel : Nat} {dependencies : List PackageDependency}
    {state result : Graph × Pins}
    (h : dependencies.foldlM (fun state dependency =>
      visit store policy fuel dependency.name dependency.version state) state = .ok result) :
    state.1.Extends result.1 :=
  foldlM_rel (R := fun s s' : Graph × Pins => s.1.Extends s'.1) (fun _ => Graph.Extends.refl _)
    (fun _ _ _ => Graph.Extends.trans) (fun _ _ _ _ => visit_extends fuel _ _ _ _) h

theorem Graph.Extends.stays_done {graph graph' : Graph} (hsound : graph.Sound)
    (h : graph.Extends graph') {name : Text} (hdone : graph.state.find? name = some .done) :
    graph'.state.find? name = some .done := by
  have hsome : (graph.packages.find? name).isSome := by
    rw [hsound.marked, hdone]
    rfl
  rw [h.kept name hsome, hdone]

theorem Needs.mono {graph graph' : Graph}
    (h : ∀ name package, graph.packages.find? name = some package →
      graph'.packages.find? name = some package) {a b : Text}
    (hneeds : Needs graph.packages a b) : Needs graph'.packages a b := by
  obtain ⟨package, hpackage, hdependency⟩ := hneeds
  exact ⟨package, h a package hpackage, hdependency⟩

theorem Graph.Sound.ends_mono {graph graph' : Graph} (hsound : graph.Sound)
    (h : ∀ name package, graph.packages.find? name = some package →
      graph'.packages.find? name = some package) {name : Text}
    (hdone : graph.state.find? name = some .done) :
    Acc (fun b a => Needs graph'.packages a b) name := by
  have hacc := hsound.ends name hdone
  induction hacc with
  | intro name _ ih =>
    refine Acc.intro name ?_
    intro other hneeds
    obtain ⟨package, hpackage, dependency, hmem, rfl⟩ := hneeds
    -- a finished package is in the graph already, with these dependencies
    have hsome : (graph.packages.find? name).isSome := by
      rw [hsound.marked, hdone]
      rfl
    obtain ⟨earlier, hearlier⟩ := Option.isSome_iff_exists.mp hsome
    have hsame : earlier = package := Option.some.inj ((h _ _ hearlier).symm.trans hpackage)
    have hdep := hsound.finished name earlier hdone hearlier dependency (hsame ▸ hmem)
    exact ih dependency.name ⟨earlier, hearlier, dependency, hsame ▸ hmem, rfl⟩ hdep.1

theorem Graph.Sound.empty : Graph.empty.Sound where
  keyed := fun _ _ h => nomatch h
  marked := fun _ => Iff.rfl
  listed := fun _ => ⟨fun h => (nomatch h), fun h => (nomatch h)⟩
  once := List.nodup_nil
  finished := fun _ _ h => nomatch h
  ends := fun _ h => nomatch h

/-- Entering a package keeps the graph sound. -/
theorem Graph.Sound.enter {graph : Graph} (hsound : graph.Sound) {name : Text}
    {resolved : ResolvedPackage} (hname : resolved.name = name)
    (hnone : graph.packages.find? name = none) : (graph.enter name resolved).Sound := by
  have hgrows := (@Graph.grows_enter _ _ resolved hnone).packages
  have hstate : ∀ other, other ≠ name →
      (graph.enter name resolved).state.find? other = graph.state.find? other :=
    fun other hne => find?_insert_of_ne _ _ hne
  have hpackages : ∀ other, other ≠ name →
      (graph.enter name resolved).packages.find? other = graph.packages.find? other :=
    fun other hne => find?_insert_of_ne _ _ hne
  have hself : (graph.enter name resolved).packages.find? name = some resolved :=
    find?_insert_self _ _ _
  have hactive : (graph.enter name resolved).state.find? name = some .active :=
    find?_insert_self _ _ _
  -- what is done was done before, since the package entered is only active
  have hdone : ∀ other, (graph.enter name resolved).state.find? other = some .done →
      graph.state.find? other = some .done ∧ other ≠ name := by
    intro other h
    by_cases heq : other = name
    · rw [heq, hactive] at h
      cases h
    · exact ⟨(hstate other heq).symm.trans h, heq⟩
  have hdifferent : ∀ package ∈ graph.preorder, package.name ≠ name := by
    rintro package hmem rfl
    rw [(hsound.listed package).mp hmem] at hnone
    cases hnone
  refine ⟨?_, ?_, ?_, ?_, ?_, ?_⟩
  · intro other package hfind
    by_cases heq : other = name
    · rw [heq, hself] at hfind
      rw [← Option.some.inj hfind, heq, hname]
    · exact hsound.keyed other package ((hpackages other heq).symm.trans hfind)
  · intro other
    by_cases heq : other = name
    · rw [heq, hself, hactive]
      rfl
    · rw [hpackages other heq, hstate other heq]
      exact hsound.marked other
  · intro package
    show package ∈ graph.preorder ++ [resolved] ↔ _
    rw [List.mem_append, List.mem_singleton]
    by_cases heq : package.name = name
    · rw [heq, hself]
      constructor
      · rintro (hmem | rfl)
        · exact absurd heq (hdifferent package hmem)
        · rfl
      · intro h
        exact .inr (Option.some.inj h).symm
    · rw [hpackages _ heq, ← hsound.listed]
      constructor
      · rintro (hmem | rfl)
        · exact hmem
        · exact absurd hname heq
      · exact .inl
  · show ((graph.preorder ++ [resolved]).map (·.name)).Nodup
    rw [List.map_append, List.map_singleton, ← List.concat_eq_append]
    refine List.Nodup.concat ?_ hsound.once
    intro hmem
    obtain ⟨package, hpackage, heq⟩ := List.mem_map.mp hmem
    exact hdifferent package hpackage (heq.trans hname)
  · intro other package h hfind dependency hmem
    obtain ⟨hbefore, hne⟩ := hdone other h
    rw [hpackages other hne] at hfind
    obtain ⟨hdep, found, hfound, hversion⟩ :=
      hsound.finished other package hbefore hfind dependency hmem
    -- a finished package cannot depend on one that had no version
    have hdepne : dependency.name ≠ name := by
      intro heq
      rw [heq, hnone] at hfound
      cases hfound
    exact ⟨(hstate _ hdepne).trans hdep, found, hgrows _ _ hfound, hversion⟩
  · intro other h
    exact hsound.ends_mono hgrows (hdone other h).1

/-- So does finishing it behind all it needs. -/
theorem Graph.Sound.finish {graph : Graph} (hsound : graph.Sound) {name : Text}
    {resolved : ResolvedPackage} (hself : graph.packages.find? name = some resolved)
    (hdeps : ∀ dependency ∈ resolved.dependencies,
      graph.state.find? dependency.name = some .done ∧
      ∃ other, graph.packages.find? dependency.name = some other ∧
        other.version = dependency.version) : (graph.finish name).Sound := by
  have hstate : ∀ other, other ≠ name →
      (graph.finish name).state.find? other = graph.state.find? other :=
    fun other hne => find?_insert_of_ne _ _ hne
  have hdoneSelf : (graph.finish name).state.find? name = some .done :=
    find?_insert_self _ _ _
  have hkeep : ∀ other, graph.state.find? other = some .done →
      (graph.finish name).state.find? other = some .done := by
    intro other h
    by_cases heq : other = name
    · rw [heq, hdoneSelf]
    · rw [hstate other heq, h]
  refine ⟨hsound.keyed, ?_, hsound.listed, hsound.once, ?_, ?_⟩
  · intro other
    by_cases heq : other = name
    · show (graph.packages.find? other).isSome ↔ _
      rw [heq, hself, hdoneSelf]
      rfl
    · rw [hstate other heq]
      exact hsound.marked other
  · intro other package h hfind dependency hmem
    by_cases heq : other = name
    · have hsame : resolved = package := by
        rw [heq] at hfind
        exact Option.some.inj (hself.symm.trans hfind)
      obtain ⟨hdone, hother⟩ := hdeps dependency (hsame ▸ hmem)
      exact ⟨hkeep _ hdone, hother⟩
    · rw [hstate other heq] at h
      obtain ⟨hdone, hother⟩ := hsound.finished other package h hfind dependency hmem
      exact ⟨hkeep _ hdone, hother⟩
  · intro other h
    by_cases heq : other = name
    · rw [heq]
      refine Acc.intro name ?_
      rintro b ⟨package, hpackage, dependency, hmem, rfl⟩
      have hsame : resolved = package := Option.some.inj (hself.symm.trans hpackage)
      exact hsound.ends _ (hdeps dependency (hsame ▸ hmem)).1
    · rw [hstate other heq] at h
      exact hsound.ends other h

/-- What a visit that asks for no restart has done. -/
structure Visited (store : ModuleStore) (policy : Option ModuleVersionPolicy)
    (graph graph' : Graph) (name requiredVersion : Text) : Prop where
  sound : graph'.Sound
  done : graph'.state.find? name = some .done
  selected : ∃ manifest package, select store policy name requiredVersion = .ok manifest ∧
    graph'.packages.find? name = some package ∧ package.version = manifest.version
  /-- What is new can be reached from it. -/
  reached : ∀ other, (graph'.packages.find? other).isSome →
    (graph.packages.find? other).isSome ∨ ReflTransGen (Needs graph'.packages) name other

theorem Visited.version {graph graph' : Graph} {name requiredVersion : Text}
    (h : Visited store policy graph graph' name requiredVersion)
    (hrequired : requiredVersion ≠ []) :
    ∃ package, graph'.packages.find? name = some package ∧ package.version = requiredVersion := by
  obtain ⟨manifest, package, hselect, hpackage, hversion⟩ := h.selected
  exact ⟨package, hpackage, hversion.trans (select_version hselect hrequired)⟩

theorem foldlM_visited {fuel : Nat}
    (hvisit : ∀ name requiredVersion state result,
      visit store policy fuel name requiredVersion state = .ok result → state.1.Sound →
      result.1.restart = false → Visited store policy state.1 result.1 name requiredVersion)
    {dependencies : List PackageDependency} {state result : Graph × Pins}
    (h : dependencies.foldlM (fun state dependency =>
      visit store policy fuel dependency.name dependency.version state) state = .ok result)
    (hsound : state.1.Sound) (hrestart : result.1.restart = false) :
    result.1.Sound ∧
    (∀ dependency ∈ dependencies, result.1.state.find? dependency.name = some .done ∧
      ∃ package, result.1.packages.find? dependency.name = some package ∧
        package.version = dependency.version) ∧
    ∀ other, (result.1.packages.find? other).isSome → (state.1.packages.find? other).isSome ∨
      ∃ dependency ∈ dependencies,
        ReflTransGen (Needs result.1.packages) dependency.name other := by
  induction dependencies generalizing state with
  | nil =>
    rw [List.foldlM_nil, pure_eq_ok] at h
    subst h
    refine ⟨hsound, ?_, fun _ => .inl⟩
    intro dependency hmem
    cases hmem
  | cons dependency rest ih =>
    obtain ⟨middle, hfirst, hrest⟩ := foldlM_cons_ok.mp h
    have hgrows := foldlM_grows hrest
    have hgrown := foldlM_extends hrest
    have hone := hvisit _ _ _ _ hfirst hsound (hgrows.restart hrestart)
    obtain ⟨hsound', hall, hreached⟩ := ih hrest hone.sound
    refine ⟨hsound', ?_, ?_⟩
    · intro other hmem
      rcases List.mem_cons.mp hmem with rfl | hmem
      · obtain ⟨package, hpackage, hversion⟩ := hone.version other.version_ne_nil
        exact ⟨hgrown.stays_done hone.sound hone.done, package, hgrown.packages _ _ hpackage,
          hversion⟩
      · exact hall other hmem
    · intro other hother
      rcases hreached other hother with hmiddle | ⟨later, hmem, hpath⟩
      · rcases hone.reached other hmiddle with hbefore | hpath
        · exact .inl hbefore
        · refine .inr ⟨dependency, List.mem_cons_self, ?_⟩
          exact ReflTransGen.mono (fun a b => Needs.mono hgrown.packages) _ _ hpath
      · exact .inr ⟨later, List.mem_cons_of_mem _ hmem, hpath⟩

/-- By induction on the fuel the package is there in the version asked for. -/
theorem visit_visited (fuel : Nat) :
    ∀ (name requiredVersion : Text) (state result : Graph × Pins),
      visit store policy fuel name requiredVersion state = .ok result → state.1.Sound →
      result.1.restart = false → Visited store policy state.1 result.1 name requiredVersion := by
  induction fuel with
  | zero =>
    intro name requiredVersion state result h
    cases h
  | succ fuel ih =>
    intro name requiredVersion state result h hsound hrestart
    obtain ⟨pins₁, manifest, _, hselect, hend⟩ := visit_cases h
    rcases hend with ⟨_, _, _, rfl⟩ | ⟨existing, hexisting, hsame, hactive, rfl⟩ |
      ⟨hnone, visited, hvisited, rfl⟩
    · cases hrestart
    · -- the package is already there: it must be finished
      refine ⟨hsound, ?_, ⟨manifest, existing, hselect, hexisting, hsame⟩, fun _ => .inl⟩
      have hsome : (state.1.state.find? name).isSome := by
        rw [← hsound.marked, hexisting]
        rfl
      obtain ⟨mark, hmark⟩ := Option.isSome_iff_exists.mp hsome
      cases mark with
      | active => exact absurd hmark hactive
      | done => exact hmark
    · have hentered := hsound.enter (select_name hselect).1 hnone
      have hself : (state.1.enter name manifest.toResolvedPackage).packages.find? name
          = some manifest.toResolvedPackage := find?_insert_self _ _ _
      obtain ⟨hsound', hall, hreached⟩ := foldlM_visited ih hvisited hentered hrestart
      have hfound := (foldlM_extends hvisited).packages _ _ hself
      refine ⟨hsound'.finish hfound hall, find?_insert_self _ _ _,
        ⟨manifest, _, hselect, hfound, rfl⟩, ?_⟩
      intro other hother
      rcases hreached other hother with hbefore | ⟨dependency, hmem, hpath⟩
      · by_cases heq : other = name
        · rw [heq]
          exact .inr ReflTransGen.refl
        · refine .inl ?_
          have hentered' : (state.1.enter name manifest.toResolvedPackage).packages.find? other
              = state.1.packages.find? other := find?_insert_of_ne _ _ heq
          rwa [hentered'] at hbefore
      · exact .inr (ReflTransGen.head ⟨_, hfound, dependency, hmem, rfl⟩ hpath)

/-! ## Passes -/

/-- Visiting a list of roots that are required at the versions `version` gives. -/
def visitRoots (store : ModuleStore) (policy : Option ModuleVersionPolicy) (version : Text → Text)
    (roots : List Text) (state : Graph × Pins) : Except Failure (Graph × Pins) :=
  roots.foldlM (fun state name => visit store policy store.depth name (version name) state) state

theorem visitRoots_grows {version : Text → Text} {roots : List Text} {state result : Graph × Pins}
    (h : visitRoots store policy version roots state = .ok result) : state.1.Grows result.1 :=
  foldlM_rel (R := fun s s' : Graph × Pins => s.1.Grows s'.1) (fun _ => Graph.Grows.refl _)
    (fun _ _ _ => Graph.Grows.trans) (fun _ _ _ _ => visit_grows _ _ _ _ _) h

theorem visitRoots_extends {version : Text → Text} {roots : List Text} {state result : Graph × Pins}
    (h : visitRoots store policy version roots state = .ok result) : state.1.Extends result.1 :=
  foldlM_rel (R := fun s s' : Graph × Pins => s.1.Extends s'.1) (fun _ => Graph.Extends.refl _)
    (fun _ _ _ => Graph.Extends.trans) (fun _ _ _ _ => visit_extends _ _ _ _ _) h

theorem visitRoots_avoids (version : Text → Text) (roots : List Text) (state : Graph × Pins) :
    Avoids .outOfFuel (visitRoots store policy version roots state) := by
  induction roots generalizing state with
  | nil => exact Avoids.ok _
  | cons root rest ih =>
    rw [visitRoots, List.foldlM_cons]
    refine (visit_avoids _ _ _ _ ?_).bind fun middle _ => ih middle
    have hle := List.length_filter_le (fun name => (state.1.packages.find? name).isNone) store.names
    show (store.names.filter _).length < store.names.length + 1
    omega

theorem visitRoots_visited {version : Text → Text} {roots : List Text}
    {state result : Graph × Pins} (h : visitRoots store policy version roots state = .ok result)
    (hsound : state.1.Sound) (hrestart : result.1.restart = false) :
    result.1.Sound ∧
    (∀ root ∈ roots, ∃ manifest package, select store policy root (version root) = .ok manifest ∧
      result.1.packages.find? root = some package ∧ package.version = manifest.version) ∧
    ∀ other, (result.1.packages.find? other).isSome → (state.1.packages.find? other).isSome ∨
      ∃ root ∈ roots, ReflTransGen (Needs result.1.packages) root other := by
  induction roots generalizing state with
  | nil =>
    rw [visitRoots, List.foldlM_nil, pure_eq_ok] at h
    subst h
    refine ⟨hsound, ?_, fun _ => .inl⟩
    intro root hmem
    cases hmem
  | cons root rest ih =>
    obtain ⟨middle, hfirst, hrest⟩ := foldlM_cons_ok.mp h
    have hgrows := visitRoots_grows hrest
    have hgrown := visitRoots_extends hrest
    have hone := visit_visited _ _ _ _ _ hfirst hsound (hgrows.restart hrestart)
    obtain ⟨hsound', hall, hreached⟩ := ih hrest hone.sound
    refine ⟨hsound', ?_, ?_⟩
    · intro other hmem
      rcases List.mem_cons.mp hmem with rfl | hmem
      · obtain ⟨manifest, package, hselect, hpackage, hversion⟩ := hone.selected
        exact ⟨manifest, package, hselect, hgrown.packages _ _ hpackage, hversion⟩
      · exact hall other hmem
    · intro other hother
      rcases hreached other hother with hmiddle | ⟨later, hmem, hpath⟩
      · rcases hone.reached other hmiddle with hbefore | hpath
        · exact .inl hbefore
        · refine .inr ⟨root, List.mem_cons_self, ?_⟩
          exact ReflTransGen.mono (fun a b => Needs.mono hgrown.packages) _ _ hpath
      · exact .inr ⟨later, List.mem_cons_of_mem _ hmem, hpath⟩

/-- The version at which a pass visits a root. -/
def rootVersion (pins : Pins) (name : Text) : Text := (pins.find? name).getD []

/-- A pass visits the roots one after another. -/
theorem resolvePass_eq (roots : List Text) (pins : Pins) :
    resolvePass store policy roots pins
      = visitRoots store policy (rootVersion pins) roots (Graph.empty, .empty) := rfl

/-- The graph of a pass without a restart. -/
structure PassGraph (store : ModuleStore) (policy : Option ModuleVersionPolicy) (roots : List Text)
    (pins : Pins) (graph : Graph) : Prop where
  sound : graph.Sound
  done : ∀ name, (graph.packages.find? name).isSome → graph.state.find? name = some .done
  rooted : ∀ root ∈ roots, ∃ manifest package,
    select store policy root (rootVersion pins root) = .ok manifest ∧
    graph.packages.find? root = some package ∧ package.version = manifest.version
  reached : ∀ name, (graph.packages.find? name).isSome →
    ∃ root ∈ roots, ReflTransGen (Needs graph.packages) root name

theorem resolvePass_graph {roots : List Text} {pins : Pins} {result : Graph × Pins}
    (h : resolvePass store policy roots pins = .ok result) (hrestart : result.1.restart = false) :
    PassGraph store policy roots pins result.1 := by
  rw [resolvePass_eq] at h
  obtain ⟨hsound, hall, hreached⟩ := visitRoots_visited h Graph.Sound.empty hrestart
  refine ⟨hsound, fun name => (visitRoots_extends h).fresh name rfl, hall, ?_⟩
  intro name hsome
  rcases hreached name hsome with hnone | hpath
  · cases hnone
  · exact hpath

/-! ## The restart loop -/

/-- The graph is that of a last pass, which asks for no restart. -/
theorem resolvePasses_stable {roots : List Text} {I : Pins → Prop}
    (hpasses : ∀ pins result, I pins → resolvePass store policy roots pins = .ok result →
    I result.2)
    {remaining : Nat} {pins : Pins} {previousStates : List Text} {graph : Graph}
    (hremaining : remaining ≠ 0) (hpins : I pins)
    (h : resolvePasses store policy roots remaining pins previousStates = .ok graph) :
    ∃ stable, I stable ∧ resolvePass store policy roots stable = .ok (graph, stable) ∧
      graph.restart = false := by
  induction remaining generalizing pins previousStates with
  | zero => exact absurd rfl hremaining
  | succ remaining ih =>
    simp only [resolvePasses, bind_eq_ok] at h
    obtain ⟨⟨passed, discoveredPins⟩, hpass, h⟩ := h
    have hnext := hpasses pins _ hpins hpass
    dsimp only at h
    split at h
    · -- the pass asked for a restart
      simp only [bind_eq_ok, ensure_eq_ok] at h
      obtain ⟨_, hmore, h⟩ := h
      exact ih hmore hnext h
    · next hrestart =>
      split at h
      · next hsame =>
        rw [pure_eq_ok] at h
        subst h hsame
        exact ⟨discoveredPins, hpins, hpass, Bool.not_eq_true _ ▸ hrestart⟩
      · -- the pins have changed
        simp only [bind_eq_ok, ensure_eq_ok] at h
        obtain ⟨_, _, _, hmore, h⟩ := h
        exact ih hmore hnext h

theorem resolvePasses_avoids {roots : List Text} (remaining : Nat) (pins : Pins)
    (previousStates : List Text) :
    Avoids .outOfFuel (resolvePasses store policy roots remaining pins previousStates) := by
  have hmessage : ∀ what : Text, Failure.message what ≠ .outOfFuel := fun _ h => nomatch h
  induction remaining generalizing pins previousStates with
  | zero => exact Avoids.ok _
  | succ remaining ih =>
    rw [resolvePasses]
    refine Avoids.bind (visitRoots_avoids _ _ _) fun result _ => ?_
    dsimp only
    split
    · exact (Avoids.ensure (hmessage _) _).bind fun _ _ => ih _ _
    · split
      · exact Avoids.ok _
      · exact (Avoids.ensure (hmessage _) _).bind fun _ _ =>
          (Avoids.ensure (hmessage _) _).bind fun _ _ => ih _ _

theorem isPackage_avoids (name : Text) : Avoids .outOfFuel (isPackage store policy name) := by
  cases policy with
  | some policy => exact Avoids.ok _
  | none =>
    have hdiscover := @discover_avoids store name
    unfold isPackage
    cases hfound : discover store name with
    | ok candidates => exact Avoids.ok _
    | error e => exact fun h => hdiscover (hfound.trans (congrArg _ (Except.error.inj h)))

theorem packageRoots_avoids (requested : List Text) :
    Avoids .outOfFuel (packageRoots store policy requested) := by
  induction requested with
  | nil => exact Avoids.ok _
  | cons name rest ih =>
    exact (isPackage_avoids name).bind fun _ _ => ih.bind fun _ _ => Avoids.ok _

def IsPackage (store : ModuleStore) (policy : Option ModuleVersionPolicy) (name : Text) : Prop :=
  policy.isSome ∨ ∃ candidates, discover store name = .ok candidates ∧ candidates ≠ []

theorem isPackage_ok {name : Text} {present : Bool}
    (h : isPackage store policy name = .ok present) :
    present = true ↔ IsPackage store policy name := by
  unfold IsPackage
  cases policy with
  | some policy =>
    rw [isPackage, pure_eq_ok] at h
    simp [← h]
  | none =>
    unfold isPackage at h
    cases hfound : discover store name with
    | error e =>
      rw [hfound] at h
      cases h
    | ok candidates =>
      rw [hfound] at h
      cases h
      simp

theorem mem_packageRoots {requested roots : List Text}
    (h : packageRoots store policy requested = .ok roots) (name : Text) :
    name ∈ roots ↔ name ∈ requested ∧ IsPackage store policy name := by
  induction requested generalizing roots with
  | nil =>
    rw [packageRoots, pure_eq_ok] at h
    subst h
    simp
  | cons first rest ih =>
    simp only [packageRoots, bind_eq_ok, pure_eq_ok] at h
    obtain ⟨present, hpresent, others, hothers, rfl⟩ := h
    have hfirst := isPackage_ok hpresent
    have hrest := ih hothers
    cases present with
    | true =>
      have hpackage := hfirst.mp rfl
      rw [if_pos rfl, List.mem_cons, List.mem_cons, hrest]
      constructor
      · rintro (rfl | ⟨hmem, hname⟩)
        · exact ⟨.inl rfl, hpackage⟩
        · exact ⟨.inr hmem, hname⟩
      · rintro ⟨rfl | hmem, hname⟩
        · exact .inl rfl
        · exact .inr ⟨hmem, hname⟩
    | false =>
      have hpackage : ¬ IsPackage store policy first := mt hfirst.mpr Bool.false_ne_true
      rw [if_neg Bool.false_ne_true, List.mem_cons, hrest]
      constructor
      · exact And.imp_left .inr
      · rintro ⟨rfl | hmem, hname⟩
        · exact absurd hname hpackage
        · exact ⟨hmem, hname⟩

/-! ## Resolution -/

/-- A resolution of the requested names that holds together. -/
structure PackageResolution.Consistent (resolution : PackageResolution) (requested : List Text) :
    Prop where
  /-- A package is found under its own name, so each name has one version. -/
  keyed : ∀ name package, resolution.packages.find? name = some package → package.name = name
  /-- The link order has the packages of the map, each name once. -/
  linked : ∀ package, package ∈ resolution.linkOrder ↔
    resolution.packages.find? package.name = some package
  once : (resolution.linkOrder.map (·.name)).Nodup
  /-- Every exact dependency is there at its version. -/
  exact : ∀ name package, resolution.packages.find? name = some package →
    ∀ dependency ∈ package.dependencies,
      ∃ other, resolution.packages.find? dependency.name = some other ∧
        other.version = dependency.version
  acyclic : ∀ name, ¬ TransGen (Needs resolution.packages) name name
  /-- Nothing is included without being needed. -/
  needed : ∀ name, (resolution.packages.find? name).isSome →
    ∃ root ∈ requested, ReflTransGen (Needs resolution.packages) root name

theorem not_transGen_of_acc {packages : OrderedMap Text ResolvedPackage} {name : Text}
    (h : Acc (fun b a => Needs packages a b) name) : ¬ TransGen (Needs packages) name name := by
  have hacc := h.transGen
  intro hcycle
  have hswap : TransGen (fun b a => Needs packages a b) name name := transGen_swap.mp hcycle
  clear h hcycle
  induction hacc with
  | intro name _ ih => exact ih name hswap hswap

/-- A pass without a restart is consistent. -/
theorem PassGraph.consistent {roots : List Text} {pins : Pins} {graph : Graph}
    (h : PassGraph store policy roots pins graph) (requested : List Text)
    (hroots : ∀ root ∈ roots, root ∈ requested) :
    PackageResolution.Consistent ⟨graph.packages, graph.preorder⟩ requested where
  keyed := h.sound.keyed
  linked := h.sound.listed
  once := h.sound.once
  exact := by
    intro name package hpackage dependency hmem
    have hdone := h.done name (by rw [hpackage]; rfl)
    exact (h.sound.finished name package hdone hpackage dependency hmem).2
  acyclic := by
    intro name hcycle
    obtain ⟨next, ⟨package, hpackage, _⟩, _⟩ := TransGen.head'_iff.mp hcycle
    have hdone := h.done name (by rw [hpackage]; rfl)
    exact not_transGen_of_acc (h.sound.ends name hdone) hcycle
  needed := by
    intro name hsome
    obtain ⟨root, hmem, hpath⟩ := h.reached name hsome
    exact ⟨root, hroots root hmem, hpath⟩

/-- Resolution ends with an exception or with a consistent graph that has every
    requested package. -/
theorem resolvePackages_consistent (store : ModuleStore) (policy : Option ModuleVersionPolicy)
    (requested : List Text) :
    (∃ what, resolvePackages store policy requested = .error (.message what)) ∨
    ∃ resolution, resolvePackages store policy requested = .ok resolution ∧
      resolution.Consistent requested ∧
      ∀ name ∈ requested, IsPackage store policy name →
        (resolution.packages.find? name).isSome := by
  cases hresult : resolvePackages store policy requested with
  | error failure =>
    cases failure with
    | message what => exact .inl ⟨what, rfl⟩
    | outOfFuel =>
      -- the bound on the depth is never reached
      refine absurd hresult ?_
      refine (packageRoots_avoids requested).bind fun roots _ => ?_
      split
      · exact Avoids.ok _
      · exact (resolvePasses_avoids _ _ _).bind fun _ _ => Avoids.ok _
  | ok resolution =>
    refine .inr ⟨resolution, rfl, ?_⟩
    simp only [resolvePackages, bind_eq_ok] at hresult
    obtain ⟨roots, hroots, hresult⟩ := hresult
    have hmem := mem_packageRoots hroots
    split at hresult
    · next hempty =>
      rw [pure_eq_ok] at hresult
      subst hresult hempty
      refine ⟨?_, ?_⟩
      · refine ⟨?_, ?_, List.nodup_nil, ?_, ?_, ?_⟩
        · intro _ _ h
          cases h
        · intro package
          exact ⟨by rintro ⟨⟩, by rintro ⟨⟩⟩
        · intro _ _ h
          cases h
        · intro name hcycle
          obtain ⟨_, ⟨_, hpackage, _⟩, _⟩ := TransGen.head'_iff.mp hcycle
          cases hpackage
        · intro _ h
          cases h
      · intro name hname hpackage
        cases (hmem name).mpr ⟨hname, hpackage⟩
    · simp only [bind_eq_ok, pure_eq_ok] at hresult
      obtain ⟨graph, hgraph, rfl⟩ := hresult
      obtain ⟨stable, _, hpass, hrestart⟩ := resolvePasses_stable (I := fun _ => True)
        (fun _ _ _ _ => trivial) (by decide) trivial hgraph
      have hfinal := resolvePass_graph hpass hrestart
      refine ⟨hfinal.consistent requested fun root h => ((hmem root).mp h).1, ?_⟩
      intro name hname hpackage
      obtain ⟨_, package, _, hfound, _⟩ :=
        hfinal.rooted name ((hmem name).mpr ⟨hname, hpackage⟩)
      show (graph.packages.find? name).isSome
      rw [hfound]
      rfl

end Cwhip.Packages
