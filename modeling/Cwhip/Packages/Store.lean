/-
  Cwhip.Packages.Store

  The package store: what the module search roots hold, and the candidates that
  the registry discovers there for a package name.

  A search root is a directory of package directories, one for each name, and a
  package directory holds one directory for each installed version.
-/

import Mathlib.Data.List.Sort
import Cwhip.Lib.Except
import Cwhip.Lib.OrderedMap
import Cwhip.Packages.Version

namespace Cwhip.Packages

open Cwhip.Lib

/-- Why resolution stops. -/
inductive Failure where
  /-- The exception that the registry throws. -/
  | message (what : Text)
  /-- The recursion bound of this model was too small. -/
  | outOfFuel
  deriving DecidableEq, Repr

def fail {α : Type} (what : Text) : Except Failure α := .error (.message what)

/-- A dependency on one exact version. -/
structure PackageDependency where
  name : Text
  version : Text
  exact : (parseVersion version).isSome = true
  deriving DecidableEq

structure ResolvedPackage where
  name : Text
  version : Text
  packageRoot : Text
  sourcePath : Text
  exportKind : Text
  exportName : Text
  dependencies : List PackageDependency
  libraries : List Text
  libraryPaths : List Text
  versioned : (parseVersion version).isSome = true
  deriving DecidableEq

structure PackageManifest extends ResolvedPackage where
  signature : Text
  deriving DecidableEq

theorem PackageDependency.version_ne_nil (dependency : PackageDependency) :
    dependency.version ≠ [] :=
  parseVersion_ne_nil dependency.exact

def ResolvedPackage.parsedVersion (package : ResolvedPackage) : Version :=
  (parseVersion package.version).get package.versioned

/-! ## What is on disk -/

/-- The `cwhip-package.toml` of a version directory. -/
inductive ManifestFile where
  /-- There is none, or it is not a regular file. -/
  | missing
  /-- The file system cannot tell. -/
  | uninspectable (error : Text)
  /-- It was read, as `readManifest` reads it. -/
  | read (manifest : Except Text PackageManifest)

structure DirectoryEntry where
  filename : Text
  isDirectory : Bool
  manifestFile : ManifestFile

structure PackageDirectory where
  entries : List DirectoryEntry
  distinct : (entries.map (·.filename)).Nodup
  /-- The error that ended the scan after these entries. -/
  scanError : Option Text

structure SearchRoot where
  path : Text
  packages : List (Text × PackageDirectory)

structure ModuleStore where
  roots : List SearchRoot
  isRegularFile : Text → Bool
  isDirectory : Text → Bool
  /-- The digest of the tree below a package root. -/
  packageTreeSha256 : Text → Except Text Text

def SearchRoot.find? (root : SearchRoot) (name : Text) : Option PackageDirectory :=
  (root.packages.find? (fun entry => entry.1 = name)).map (·.2)

/-- The names that some search root has a directory for. -/
def ModuleStore.names (store : ModuleStore) : List Text :=
  store.roots.flatMap (fun root => root.packages.map (·.1))

/-! ## Discovery -/

/-- Read one version directory of the package `name`. -/
def readCandidate (store : ModuleStore) (name directory : Text) (entry : DirectoryEntry) :
    Except Failure PackageManifest :=
  let path := directory ++ '/' :: entry.filename
  let manifestPath := path ++ "/cwhip-package.toml".toList
  match entry.manifestFile with
  | .missing =>
    fail ("invalid package candidate at ".toList ++ path ++ ": missing cwhip-package.toml".toList)
  | .uninspectable error =>
    fail ("cannot inspect package candidate: ".toList ++ path ++ ": ".toList ++ error)
  | .read (.error error) => fail error
  | .read (.ok manifest) => do
      ensure (manifest.name = name ∧ manifest.version = entry.filename)
        (.message (manifestPath ++ ": directory must match package name and version".toList))
      ensure (store.isRegularFile manifest.sourcePath = true)
        (.message (manifestPath ++ ": package source does not exist: ".toList
          ++ manifest.sourcePath))
      match manifest.libraryPaths.find? (fun libraryPath => !store.isDirectory libraryPath) with
      | some libraryPath =>
        fail (manifestPath ++ ": library path does not exist: ".toList ++ libraryPath)
      | none => pure manifest

def scanRoot (store : ModuleStore) (name : Text) (root : SearchRoot) :
    Except Failure (List PackageManifest) :=
  let packageDirectory := root.path ++ '/' :: name
  match root.find? name with
  | none => pure []
  | some directory => do
      let candidates ←
        (directory.entries.filter (·.isDirectory)).mapM (readCandidate store name packageDirectory)
      match directory.scanError with
      | some error =>
        fail ("cannot scan package directory: ".toList ++ packageDirectory ++ ": ".toList ++ error)
      | none => pure candidates

/-- The candidates of the first search root that has any. -/
def scanRoots (store : ModuleStore) (name : Text) :
    List SearchRoot → Except Failure (List PackageManifest)
  | [] => pure []
  | root :: rest => do
      let candidates ← scanRoot store name root
      if candidates = [] then scanRoots store name rest else pure candidates

/-- All candidates for a package name, in the order of their version texts. -/
def discover (store : ModuleStore) (name : Text) : Except Failure (List PackageManifest) := do
  let found ← scanRoots store name store.roots
  let candidates := found.insertionSort (fun left right => left.version ≤ right.version)
  match candidates.find? (fun candidate => candidates.any (fun duplicate =>
      decide (candidate.version = duplicate.version ∧
        candidate.signature ≠ duplicate.signature))) with
  | some candidate =>
    fail ("ambiguous package '".toList ++ name ++ "' version '".toList ++ candidate.version
      ++ "' appears in multiple search roots".toList)
  | none => pure candidates

/-! ## What discovery finds -/

variable {store : ModuleStore} {name : Text} {manifest : PackageManifest}
  {candidates : List PackageManifest}

variable {directory : Text} {entry : DirectoryEntry} {root : SearchRoot} {roots : List SearchRoot}

theorem readCandidate_name (h : readCandidate store name directory entry = .ok manifest) :
    manifest.name = name := by
  unfold readCandidate at h
  split at h
  · cases h
  · cases h
  · cases h
  · simp only [bind_eq_ok, ensure_eq_ok] at h
    obtain ⟨_, hname, _, _, h⟩ := h
    split at h
    · cases h
    · cases h
      exact hname.1

theorem readCandidate_version (h : readCandidate store name directory entry = .ok manifest) :
    manifest.version = entry.filename := by
  unfold readCandidate at h
  split at h
  · cases h
  · cases h
  · cases h
  · simp only [bind_eq_ok, ensure_eq_ok] at h
    obtain ⟨_, hname, _, _, h⟩ := h
    split at h
    · cases h
    · cases h
      exact hname.2

theorem scanRoot_name (h : scanRoot store name root = .ok candidates)
    (hmem : manifest ∈ candidates) :
    manifest.name = name ∧ name ∈ root.packages.map (·.1) := by
  unfold scanRoot at h
  split at h
  · rw [pure_eq_ok] at h
    rw [← h] at hmem
    cases hmem
  · next directory hdirectory =>
    simp only [bind_eq_ok] at h
    obtain ⟨found, hfound, h⟩ := h
    split at h
    · cases h
    · rw [pure_eq_ok] at h
      subst h
      refine ⟨?_, ?_⟩
      · obtain ⟨entry, _, hentry⟩ := mem_mapM hfound hmem
        exact readCandidate_name hentry
      · obtain ⟨entry, hentry, _⟩ := Option.map_eq_some_iff.mp hdirectory
        have hkey : entry.1 = name := by simpa using List.find?_some hentry
        exact hkey ▸ List.mem_map_of_mem (List.mem_of_find?_eq_some hentry)

theorem scanRoots_name (h : scanRoots store name roots = .ok candidates)
    (hmem : manifest ∈ candidates) :
    manifest.name = name ∧ name ∈ roots.flatMap (fun root => root.packages.map (·.1)) := by
  induction roots with
  | nil =>
    rw [scanRoots, pure_eq_ok] at h
    rw [← h] at hmem
    cases hmem
  | cons root rest ih =>
    simp only [scanRoots, bind_eq_ok] at h
    obtain ⟨found, hfound, h⟩ := h
    rw [List.flatMap_cons, List.mem_append]
    split at h
    · exact (ih h).imp_right .inr
    · rw [pure_eq_ok] at h
      subst h
      exact (scanRoot_name hfound hmem).imp_right .inl

theorem discover_name (h : discover store name = .ok candidates)
    (hmem : manifest ∈ candidates) : manifest.name = name ∧ name ∈ store.names := by
  simp only [discover, bind_eq_ok] at h
  obtain ⟨found, hfound, h⟩ := h
  split at h
  · cases h
  · rw [pure_eq_ok] at h
    subst h
    exact scanRoots_name hfound ((List.mem_insertionSort _).mp hmem)

theorem scanRoot_versions (h : scanRoot store name root = .ok candidates) :
    (candidates.map (·.version)).Nodup := by
  unfold scanRoot at h
  split at h
  · rw [pure_eq_ok] at h
    subst h
    exact List.nodup_nil
  · next directory _ =>
    simp only [bind_eq_ok] at h
    obtain ⟨found, hfound, h⟩ := h
    split at h
    · cases h
    · rw [pure_eq_ok] at h
      subst h
      rw [mapM_map_eq hfound (fun entry manifest => readCandidate_version)]
      exact List.Nodup.sublist (List.Sublist.map _ List.filter_sublist) directory.distinct

theorem scanRoots_versions (h : scanRoots store name roots = .ok candidates) :
    (candidates.map (·.version)).Nodup := by
  induction roots with
  | nil =>
    rw [scanRoots, pure_eq_ok] at h
    subst h
    exact List.nodup_nil
  | cons root rest ih =>
    simp only [scanRoots, bind_eq_ok] at h
    obtain ⟨found, hfound, h⟩ := h
    split at h
    · exact ih h
    · rw [pure_eq_ok] at h
      subst h
      exact scanRoot_versions hfound

end Cwhip.Packages
