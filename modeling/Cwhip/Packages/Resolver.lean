/-
  Cwhip.Packages.Resolver

  Selection of package versions.  `visit` selects a package and, depth first,
  its dependencies; a pass visits every requested root; `resolvePasses` repeats
  the pass with the pins that the previous one found, until a pass finds the
  pins it started from.
-/

import Cwhip.Packages.Store

namespace Cwhip.Packages

open Cwhip.Lib

/-- The allowlist that a project lock stands for. -/
structure ModuleVersionPolicy where
  path : Text
  versions : OrderedMap Text (List Text)
  lockedPackages : OrderedMap Text (OrderedMap Text Text)
  lockedDependencies : OrderedMap Text (List Text)
  deriving DecidableEq

/-- Required or discovered versions, by package name. -/
abbrev Pins := OrderedMap Text Text

/-- Where a package of the graph is in the depth-first search. -/
inductive VisitState where
  | active
  | done
  deriving DecidableEq, Repr

structure Graph where
  packages : OrderedMap Text ResolvedPackage
  preorder : List ResolvedPackage
  state : OrderedMap Text VisitState
  restart : Bool
  deriving DecidableEq

def Graph.empty : Graph := ⟨.empty, [], .empty, false⟩

structure PackageResolution where
  packages : OrderedMap Text ResolvedPackage
  linkOrder : List ResolvedPackage
  deriving DecidableEq

/-! ## Selecting one package -/

def fileName (path : Text) : Text := ((path.splitOn '/').getLast?).getD []

def joinTexts (separator : Text) (texts : List Text) : Text := (texts.intersperse separator).flatten

/-- A dependency as a lock writes it. -/
def PackageDependency.text (dependency : PackageDependency) : Text :=
  dependency.name ++ '=' :: dependency.version

/-- The entry of a map that must be there. -/
def atKey {ν : Type} (map : OrderedMap Text ν) (key : Text) : Except Failure ν :=
  require (map.find? key) (.message "map::at".toList)

/-- The first configured version that is installed. -/
def firstInstalled (candidates : List PackageManifest) : List Text → Option PackageManifest
  | [] => none
  | version :: rest =>
    match candidates.find? (fun candidate => candidate.version = version) with
    | some installed => some installed
    | none => firstInstalled candidates rest

/-- Check the selected package against its entry in the lock. -/
def checkLocked (store : ModuleStore) (policy : ModuleVersionPolicy) (name : Text)
    (selected : PackageManifest) : Except Failure Unit := do
  let entry ← atKey policy.lockedPackages name
  let locked ← atKey entry "sha256".toList
  let actual ← (store.packageTreeSha256 selected.packageRoot).mapError .message
  ensure (actual = locked)
    (.message ("package integrity mismatch for '".toList ++ name ++ "' at ".toList
    ++ selected.packageRoot ++ "; refusing to compile modified locked code".toList))
  let dependencies ← atKey policy.lockedDependencies name
  ensure (dependencies.insertionSort (· ≤ ·) = selected.dependencies.map PackageDependency.text)
    (.message ("locked dependency graph mismatch for '".toList ++ name ++ "'".toList))

/-- Selection under a lock: the first configured version that is installed. -/
def selectLocked (store : ModuleStore) (policy : ModuleVersionPolicy)
    (name requiredVersion : Text) :
    Except Failure PackageManifest := do
  let configured ← require (policy.versions.find? name)
    (.message ("module '".toList ++ name ++ "' is not found: it is not listed in ".toList
      ++ policy.path ++ " [modules]; ".toList ++ fileName policy.path ++ " is an allowlist".toList))
  let candidates ← discover store name
  let selected ← require (firstInstalled candidates configured)
    (.message ("module '".toList ++ name ++ ("' has no installed configured version; versions "
      ++ "searched in order: [").toList ++ joinTexts ", ".toList configured
      ++ "]; module search roots: [".toList
      ++ joinTexts ", ".toList (store.roots.map (·.path)) ++ "]".toList))
  ensure (requiredVersion = [] ∨ selected.version = requiredVersion)
    (.message ("package dependency constraint conflict for '".toList ++ name
      ++ "': cwhip-pkg.lock selects version '".toList ++ selected.version
      ++ "' (first installed configured version), but an exact dependency requires '".toList
      ++ requiredVersion ++ "'".toList))
  checkLocked store policy name selected
  pure selected

/-- The stable candidate that compares greatest so far. -/
def betterStable (best : Option PackageManifest) (candidate : PackageManifest) :
    Option PackageManifest :=
  if candidate.parsedVersion.prerelease = [] then
    match best with
    | none => some candidate
    | some previous =>
      if compareVersion candidate.parsedVersion previous.parsedVersion = .gt then some candidate
      else best
  else best

/-- Selection without a lock: the highest stable version, or the required one. -/
def selectInstalled (store : ModuleStore) (name requiredVersion : Text) :
    Except Failure PackageManifest := do
  let candidates ← discover store name
  if requiredVersion = [] then
    require (candidates.foldl betterStable none)
      (.message ("no stable version of package '".toList ++ name ++ "' is available".toList))
  else
    require (candidates.find? (fun candidate => candidate.version = requiredVersion))
      (.message ("package '".toList ++ name ++ "' requires version '".toList ++ requiredVersion
        ++ "', but it is not installed".toList))

def select (store : ModuleStore) (policy : Option ModuleVersionPolicy)
    (name requiredVersion : Text) :
    Except Failure PackageManifest :=
  match policy with
  | some policy => selectLocked store policy name requiredVersion
  | none => selectInstalled store name requiredVersion

/-! ## Visiting -/

def recordPin (policy : Option ModuleVersionPolicy) (name requiredVersion : Text) (pins : Pins) :
    Except Failure Pins :=
  if requiredVersion = [] then pure pins
  else
    match policy with
    | some _ => pure (pins.emplace name requiredVersion)
    | none =>
      match pins.find? name with
      | some pinned =>
        if pinned = requiredVersion then pure (pins.insert name requiredVersion)
        else fail ("conflicting package versions for '".toList ++ name ++ "': ".toList ++ pinned
          ++ " and ".toList ++ requiredVersion)
      | none => pure (pins.insert name requiredVersion)

/-- Add a package that is being visited. -/
def Graph.enter (graph : Graph) (name : Text) (resolved : ResolvedPackage) : Graph :=
  { graph with
    packages := graph.packages.insert name resolved
    state := graph.state.insert name .active
    preorder := graph.preorder ++ [resolved] }

def Graph.finish (graph : Graph) (name : Text) : Graph :=
  { graph with state := graph.state.insert name .done }

/-- Visit a package and its dependencies; the fuel bounds the depth. -/
def visit (store : ModuleStore) (policy : Option ModuleVersionPolicy) :
    Nat → Text → Text → Graph × Pins → Except Failure (Graph × Pins)
  | 0, _, _, _ => .error .outOfFuel
  | fuel + 1, name, requiredVersion, (graph, pins) => do
      let pins ← recordPin policy name requiredVersion pins
      let manifest ← select store policy name requiredVersion
      match graph.packages.find? name with
      | some existing =>
        if existing.version ≠ manifest.version then pure ({ graph with restart := true }, pins)
        else if graph.state.find? name = some .active then
          fail ("cyclic package dependency involving '".toList ++ name ++ "'".toList)
        else pure (graph, pins)
      | none => do
          let visited ← manifest.dependencies.foldlM
            (fun state dependency =>
              visit store policy fuel dependency.name dependency.version state)
            (graph.enter name manifest.toResolvedPackage, pins)
          pure (visited.1.finish name, visited.2)

/-! ## Passes -/

/-- A bound on the depth of visits: every visit in progress is of another name
    of the store. -/
def ModuleStore.depth (store : ModuleStore) : Nat := store.names.length + 1

/-- Visit all roots, those that are pinned at their pinned version. -/
def resolvePass (store : ModuleStore) (policy : Option ModuleVersionPolicy)
    (packageRoots : List Text) (pins : Pins) : Except Failure (Graph × Pins) :=
  packageRoots.foldlM
    (fun state name => visit store policy store.depth name ((pins.find? name).getD []) state)
    (Graph.empty, .empty)

def stateText (pins : Pins) : Text :=
  pins.entries.flatMap (fun entry => entry.1 ++ '=' :: entry.2 ++ ['\n'])

/-- The passes that remain of the bound. -/
def resolvePasses (store : ModuleStore) (policy : Option ModuleVersionPolicy)
    (packageRoots : List Text) : Nat → Pins → List Text → Except Failure Graph
  | 0, _, _ => pure .empty
  | remaining + 1, pins, previousStates => do
      let (graph, discoveredPins) ← resolvePass store policy packageRoots pins
      if graph.restart then
        ensure (remaining ≠ 0) (.message "package version resolution exceeded its limit".toList)
        resolvePasses store policy packageRoots remaining discoveredPins previousStates
      else if discoveredPins = pins then pure graph
      else do
        ensure (stateText discoveredPins ∉ previousStates)
          (.message "package version constraints do not converge".toList)
        ensure (remaining ≠ 0) (.message "package version resolution exceeded its limit".toList)
        resolvePasses store policy packageRoots remaining discoveredPins
          (stateText discoveredPins :: previousStates)

/-- Whether a requested name is a package: under a lock every name is, otherwise
    one with a candidate. -/
def isPackage (store : ModuleStore) (policy : Option ModuleVersionPolicy) (name : Text) :
    Except Failure Bool :=
  match policy with
  | some _ => pure true
  | none => (discover store name).map (fun candidates => !candidates.isEmpty)

/-- The requested names that are packages. -/
def packageRoots (store : ModuleStore) (policy : Option ModuleVersionPolicy) :
    List Text → Except Failure (List Text)
  | [] => pure []
  | name :: rest => do
      let present ← isPackage store policy name
      let others ← packageRoots store policy rest
      pure (if present then name :: others else others)

/-- How many passes a resolution may take. -/
def passLimit : Nat := 64

def resolvePackages (store : ModuleStore) (policy : Option ModuleVersionPolicy)
    (requested : List Text) : Except Failure PackageResolution := do
  let roots ← packageRoots store policy requested
  if roots = [] then pure ⟨.empty, []⟩
  else do
    let graph ← resolvePasses store policy roots passLimit .empty []
    pure ⟨graph.packages, graph.preorder⟩

end Cwhip.Packages
