/-
  Cwhip.Packages.DiscoveryOrder

  The order in which a directory scan lists the version directories of a
  package.  The registry sorts what it found by version, and versions in one
  directory are distinct; so a selection does not depend on that order.
-/

import Cwhip.Packages.Resolver

namespace Cwhip.Packages

open Cwhip.Lib

/-! ## The same directories in another order -/

/-- A scan that lists the same entries in another order. -/
structure PackageDirectory.Reordered (directory other : PackageDirectory) : Prop where
  entries : directory.entries.Perm other.entries
  scanError : directory.scanError = other.scanError

structure SearchRoot.Reordered (root other : SearchRoot) : Prop where
  path : root.path = other.path
  packages : List.Forall₂ (fun package package' => package.1 = package'.1 ∧
    package.2.Reordered package'.2)
    root.packages other.packages

structure ModuleStore.Reordered (store other : ModuleStore) : Prop where
  roots : List.Forall₂ SearchRoot.Reordered store.roots other.roots
  isRegularFile : store.isRegularFile = other.isRegularFile
  isDirectory : store.isDirectory = other.isDirectory
  packageTreeSha256 : store.packageTreeSha256 = other.packageTreeSha256

variable {store other : ModuleStore} {name : Text} {candidates : List PackageManifest}

theorem ModuleStore.Reordered.symm (h : store.Reordered other) :
    other.Reordered store := by
  refine ⟨?_, h.isRegularFile.symm, h.isDirectory.symm, h.packageTreeSha256.symm⟩
  refine (List.Forall₂.flip h.roots).imp fun root' root hroot => ⟨hroot.path.symm, ?_⟩
  refine (List.Forall₂.flip hroot.packages).imp fun package' package hpackage => ?_
  exact ⟨hpackage.1.symm, hpackage.2.entries.symm, hpackage.2.scanError.symm⟩

/-! ## Discovery -/

theorem readCandidate_reordered (h : store.Reordered other) (name directory : Text) :
    readCandidate store name directory = readCandidate other name directory := by
  funext entry
  unfold readCandidate
  rw [h.isRegularFile, h.isDirectory]

theorem find?_reordered {root other : SearchRoot} (h : root.Reordered other) (name : Text) :
    Option.Rel PackageDirectory.Reordered (root.find? name) (other.find? name) := by
  have hlists : ∀ {packages packages' : List (Text × PackageDirectory)},
      List.Forall₂ (fun package package' => package.1 = package'.1 ∧ package.2.Reordered package'.2)
        packages packages' →
      Option.Rel PackageDirectory.Reordered ((packages.find? fun entry => entry.1 = name).map (·.2))
        ((packages'.find? fun entry => entry.1 = name).map (·.2)) := by
    intro packages packages' hpackages
    induction hpackages with
    | nil => exact .none
    | cons hpackage _ ih =>
      rw [List.find?_cons, List.find?_cons, ← hpackage.1]
      split
      · exact .some hpackage.2
      · exact ih
  exact hlists h.packages

theorem scanRoot_reordered (hstore : store.Reordered other) {root root' : SearchRoot}
    (hroot : root.Reordered root') (h : scanRoot store name root = .ok candidates) :
    ∃ candidates', scanRoot other name root' = .ok candidates' ∧ candidates.Perm candidates' := by
  unfold scanRoot at h ⊢
  have hfind := find?_reordered hroot name
  generalize root.find? name = found at h hfind
  generalize root'.find? name = found' at hfind
  cases hfind with
  | none => exact ⟨candidates, h, List.Perm.refl candidates⟩
  | some hdirectory =>
    dsimp only at h ⊢
    obtain ⟨read, hread, h⟩ := bind_eq_ok.mp h
    rw [readCandidate_reordered hstore, hroot.path] at hread
    obtain ⟨read', hread', hperm⟩ := mapM_perm (hdirectory.entries.filter _) hread
    rw [hread', ok_bind, ← hdirectory.scanError]
    split at h
    · cases h
    · rw [pure_eq_ok] at h
      subst h
      exact ⟨read', rfl, hperm⟩

theorem scanRoots_reordered (hstore : store.Reordered other) {roots roots' : List SearchRoot}
    (hroots : List.Forall₂ SearchRoot.Reordered roots roots')
    (h : scanRoots store name roots = .ok candidates) :
    ∃ candidates', scanRoots other name roots' = .ok candidates' ∧ candidates.Perm candidates' := by
  induction hroots with
  | nil => exact ⟨candidates, h, List.Perm.refl candidates⟩
  | cons hroot _ ih =>
    rw [scanRoots] at h
    obtain ⟨found, hfound, h⟩ := bind_eq_ok.mp h
    obtain ⟨found', hfound', hperm⟩ := scanRoot_reordered hstore hroot hfound
    rw [scanRoots, hfound', ok_bind]
    by_cases hnil : found = []
    · rw [if_pos hnil] at h
      have hnil' : found' = [] := by
        rw [hnil] at hperm
        exact hperm.nil_eq.symm
      rw [if_pos hnil']
      exact ih h
    · rw [if_neg hnil, pure_eq_ok] at h
      have hnil' : found' ≠ [] := by
        rintro rfl
        exact hnil hperm.eq_nil
      rw [if_neg hnil', ← h]
      exact ⟨found', rfl, hperm⟩

theorem discover_reordered (hstore : store.Reordered other)
    (h : discover store name = .ok candidates) :
    discover other name = .ok candidates := by
  unfold discover at h ⊢
  obtain ⟨found, hfound, h⟩ := bind_eq_ok.mp h
  obtain ⟨found', hfound', hperm⟩ := scanRoots_reordered hstore hstore.roots hfound
  have hversions := scanRoots_versions hfound
  have hsorted : found.insertionSort (fun left right => left.version ≤ right.version)
      = found'.insertionSort (fun left right => left.version ≤ right.version) := by
    have hboth : (found.insertionSort fun left right => left.version ≤ right.version).Perm
        (found'.insertionSort fun left right => left.version ≤ right.version) :=
      ((List.perm_insertionSort _ _).trans hperm).trans (List.perm_insertionSort _ _).symm
    refine List.Perm.eq_of_pairwise ?_ (List.pairwise_insertionSort _ _)
      (List.pairwise_insertionSort _ _) hboth
    -- versions are distinct, so their order is strict
    intro left right hleft hright hle hge
    rw [List.mem_insertionSort] at hleft hright
    exact List.inj_on_of_nodup_map hversions hleft (hperm.mem_iff.mpr hright) (le_antisymm hle hge)
  rw [hfound', ok_bind, ← hsorted]
  exact h

theorem selectInstalled_reordered (hstore : store.Reordered other) {requiredVersion : Text}
    {manifest : PackageManifest} (h : selectInstalled store name requiredVersion = .ok manifest) :
    selectInstalled other name requiredVersion = .ok manifest := by
  unfold selectInstalled at h ⊢
  obtain ⟨candidates, hcandidates, h⟩ := bind_eq_ok.mp h
  rw [discover_reordered hstore hcandidates, ok_bind]
  exact h

theorem selectInstalled_reordered_iff (hstore : store.Reordered other) (name requiredVersion : Text)
    (manifest : PackageManifest) :
    selectInstalled store name requiredVersion = .ok manifest ↔
      selectInstalled other name requiredVersion = .ok manifest :=
  ⟨selectInstalled_reordered hstore, selectInstalled_reordered hstore.symm⟩

end Cwhip.Packages
