/-
  Cwhip.Packages.VersionSelection

  How a version is chosen where none is required: the registry's unpinned
  `select`, `builtin_packages` of the package manager, and the tag that
  `cwhip-pkg add` takes.

  The registry sorts candidates by their text first.  The package manager sorts
  the elements of a set, and its sort keeps versions of equal precedence in the
  order in which the set is iterated; that order comes from string hashes, which
  differ between runs.
-/

import Mathlib.Data.List.Dedup
import Mathlib.Data.List.Pairwise
import Cwhip.Lib.CheckedSort
import Cwhip.Packages.DiscoveryOrder
import Cwhip.Packages.PythonVersions

namespace Cwhip.Packages

open Cwhip.Lib

/-! ## Sets of texts -/

/-- How sets of texts are iterated: each element once, in an order of their own. -/
structure SetIteration where
  toList : List Text → List Text
  nodup : ∀ elements, (toList elements).Nodup
  mem_iff : ∀ elements element, element ∈ toList elements ↔ element ∈ elements

/-- One that starts with `first`. -/
def SetIteration.startingWith (first : Text) : SetIteration where
  toList elements := if first ∈ elements then first :: elements.dedup.erase first else
    elements.dedup
  nodup elements := by
    split
    · rw [List.nodup_cons]
      exact ⟨(List.nodup_dedup elements).not_mem_erase, (List.nodup_dedup elements).erase first⟩
    · exact List.nodup_dedup elements
  mem_iff elements element := by
    split
    · next hfirst =>
      rw [List.mem_cons, (List.nodup_dedup elements).mem_erase_iff, List.mem_dedup]
      by_cases heq : element = first
      · subst heq
        simp [hfirst]
      · simp [heq]
    · exact List.mem_dedup

/-! ## The package manager -/

/-- The exceptions of the package manager. -/
inductive PackageError where
  /-- `cwhip-package.toml` cannot be read, or has other content than it may have. -/
  | manifest (what : Text)
  | version (error : VersionError)
  | directoryVersion (version directory : Text)
  | directoryName (name directory : Text)
  | noStableModule (name : Text)
  | noStableTags
  | indexError
  deriving DecidableEq, Repr

/-- An entry of the directory of a bundled module. -/
structure VersionDirectory where
  filename : Text
  isDirectory : Bool
  /-- If `cwhip-package.toml` is a file: the name and the version of its
      `[package]`, or why it is refused for other reasons. -/
  package : Option (Except Text (Text × Text))

structure BundledModule where
  name : Text
  entries : List VersionDirectory
  distinct : (entries.map (·.filename)).Nodup

/-- `version_parts(version)[1] is None` -/
def isStable (version : Text) : Bool :=
  match versionParts version with
  | .ok (_, none) => true
  | _ => false

/-- What `read_manifest` says about the version. -/
def readManifest (entry : VersionDirectory) (package : Except Text (Text × Text)) :
    Except PackageError (Text × Text) := do
  let (name, version) ← package.mapError .manifest
  let _ ← (versionParts version).mapError .version
  ensure (entry.filename = version) (.directoryVersion version entry.filename)
  return (name, version)

/-- `package_versions` -/
def packageVersions (name : Text) : List VersionDirectory → Except PackageError (List Text)
  | [] => .ok []
  | entry :: rest =>
    if entry.isDirectory then
      match entry.package with
      | none => packageVersions name rest
      | some package => do
        let (declared, version) ← readManifest entry package
        ensure (declared = name) (.directoryName declared name)
        let versions ← packageVersions name rest
        return version :: versions
    else packageVersions name rest

/-- `sorted(package_dir.iterdir())` -/
def BundledModule.sortedEntries (bundled : BundledModule) : List VersionDirectory :=
  bundled.entries.insertionSort (fun left right => left.filename ≤ right.filename)

/-- `sorted(set(versions), key=functools.cmp_to_key(compare_versions), reverse=True)` -/
def sortedVersions (iteration : SetIteration) (versions : List Text) :
    Except PackageError (List Text) :=
  (sortGreatest compareVersions (iteration.toList versions)).mapError .version

/-- The version of a module in `builtin_packages`; a directory without versions
    is no module. -/
def builtinVersion (iteration : SetIteration) (bundled : BundledModule) :
    Except PackageError (Option Text) := do
  let versions ← packageVersions bundled.name bundled.sortedEntries
  if versions.isEmpty then return none
  let versions ← sortedVersions iteration versions
  let version ← require (versions.filter isStable).head? (.noStableModule bundled.name)
  return some version

/-- The tags in the output of `git ls-remote --tags --refs`. -/
def remoteTags (lines : List Text) : List Text :=
  lines.filterMap fun line =>
    match cutAt '\t' line with
    | (_, some ref) =>
      if "refs/tags/".toList.isPrefixOf ref then some (ref.drop "refs/tags/".length) else none
    | (_, none) => none

/-- `stable_remote_versions` -/
def stableRemoteVersions (iteration : SetIteration) (lines : List Text) :
    Except PackageError (List Text) := do
  let versions := (remoteTags lines).filter isStable
  ensure (versions ≠ []) .noStableTags
  sortedVersions iteration versions

/-- `stable_remote_versions(remote)[0]` -/
def highestStableTag (iteration : SetIteration) (lines : List Text) : Except PackageError Text := do
  let versions ← stableRemoteVersions iteration lines
  require versions.head? .indexError

/-! ## Which comparisons return -/

/-- Versions that `compare_versions` can compare. -/
def Comparable (left right : Text) : Prop :=
  ∃ l r, parseVersion left = some l ∧ parseVersion right = some r ∧ l.ConvertsWith r

/-- The precedence of a text, below all others if it is not a version. -/
def textPrecedence (text : Text) : WithBot Precedence :=
  match parseVersion text with
  | none => ⊥
  | some version => (version.precedence : Precedence)

theorem firstDifference_symm (left right : List Text) :
    firstDifference right left = (firstDifference left right).map Prod.swap := by
  induction left generalizing right with
  | nil => cases right <;> rfl
  | cons lhs left ih =>
    cases right with
    | nil => rfl
    | cons rhs right =>
      rw [firstDifference, firstDifference]
      by_cases heq : lhs = rhs
      · rw [if_pos heq, if_pos heq.symm]
        exact ih right
      · rw [if_neg heq, if_neg (Ne.symm heq)]
        rfl

theorem Version.ConvertsWith.symm {l r : Version} (h : l.ConvertsWith r) : r.ConvertsWith l := by
  refine ⟨h.right, h.left, fun hcore pair hpair => ?_⟩
  rw [firstDifference_symm] at hpair
  obtain ⟨other, hother, rfl⟩ := Option.map_eq_some_iff.mp hpair
  intro hfirst hsecond
  exact (h.parts hcore.symm other hother hsecond hfirst).symm

theorem digits_below {x y : Text} (hyx : partKey y ≤ partKey x)
    (hx : x.all Char.isDigit = true) : y.all Char.isDigit = true := by
  unfold partKey at hyx
  rw [if_pos hx] at hyx
  by_contra hy
  rw [if_neg hy] at hyx
  exact Sum.Lex.not_inr_le_inl hyx

theorem cons_le_cons_iff {α : Type*} [LinearOrder α] {a b : α} {as bs : List α} :
    a :: as ≤ b :: bs ↔ a < b ∨ a = b ∧ as ≤ bs := by
  rw [le_iff_lt_or_eq, List.cons_lt_cons_iff, List.cons.injEq, le_iff_lt_or_eq (a := as)]
  tauto

theorem firstDifference_between {left middle right : List Text}
    (hleft : ∀ part ∈ left, StrictPart part)
    (hmiddle : ∀ part ∈ middle, StrictPart part) (hupper : middle.map partKey ≤ left.map partKey)
    (hlower : right.map partKey ≤ middle.map partKey)
    (hfirst : ∀ pair, firstDifference left middle = some pair → PartsConvert pair)
    (hsecond : ∀ pair, firstDifference middle right = some pair → PartsConvert pair) :
    ∀ pair, firstDifference left right = some pair → PartsConvert pair := by
  induction left generalizing middle right with
  | nil => exact fun pair hpair => by cases hpair
  | cons x left ih =>
    cases right with
    | nil => exact fun pair hpair => by cases hpair
    | cons z right =>
      cases middle with
      | nil => exact absurd hlower (not_le.mpr (List.nil_lt_cons _ _))
      | cons y middle =>
        have hxs := (List.forall_mem_cons.mp hleft).2
        have hys := (List.forall_mem_cons.mp hmiddle).2
        have hx := hleft x List.mem_cons_self
        have hy := hmiddle y List.mem_cons_self
        rw [List.map_cons, List.map_cons, cons_le_cons_iff] at hupper hlower
        have hyx : partKey y ≤ partKey x := hupper.elim le_of_lt fun h => h.1.le
        have hzy : partKey z ≤ partKey y := hlower.elim le_of_lt fun h => h.1.le
        rw [firstDifference] at hfirst hsecond ⊢
        by_cases hxy : x = y
        · -- the middle one starts like the left one
          subst hxy
          rw [if_pos rfl] at hfirst
          by_cases hxz : x = z
          · subst hxz
            rw [if_pos rfl] at hsecond ⊢
            have hupper := hupper.resolve_left (lt_irrefl _)
            have hlower := hlower.resolve_left (lt_irrefl _)
            exact ih hxs hys hupper.2 hlower.2 hfirst hsecond
          · rw [if_neg hxz] at hsecond ⊢
            exact hsecond
        · rw [if_neg hxy] at hfirst
          have hxz : x ≠ z := by
            rintro rfl
            exact hxy (partKey_inj hx hy (le_antisymm hzy hyx))
          rw [if_neg hxz]
          intro pair hpair hxDigits hzDigits
          rw [← Option.some.inj hpair] at hxDigits hzDigits ⊢
          have hyDigits := digits_below hyx hxDigits
          have hleftShort := (hfirst _ rfl hxDigits hyDigits)
          by_cases hyz : y = z
          · rw [← hyz]
            exact hleftShort
          · rw [if_neg hyz] at hsecond
            exact ⟨hleftShort.1, (hsecond _ rfl hyDigits hzDigits).2⟩

theorem lex_between {α β : Type*} [LinearOrder α] [LinearOrder β] {a b : α} {x y z : β}
    (hupper : toLex (b, y) ≤ toLex (a, x)) (hlower : toLex (a, z) ≤ toLex (b, y)) :
    b = a ∧ y ≤ x ∧ z ≤ y := by
  rw [Prod.Lex.toLex_le_toLex] at hupper hlower
  rcases hupper with hlt | ⟨rfl, hle⟩
  · exact absurd hlower (by simp [hlt.not_gt, hlt.ne'])
  · exact ⟨rfl, hle, (hlower.resolve_left (lt_irrefl _)).2⟩

theorem Version.ConvertsWith.between {l m r : Version} (hl : l.Parsed) (hm : m.Parsed)
    (hupper : m.precedence ≤ l.precedence) (hlower : r.precedence ≤ m.precedence)
    (hfirst : l.ConvertsWith m)
    (hsecond : m.ConvertsWith r) : l.ConvertsWith r := by
  refine ⟨hfirst.left, hsecond.right, fun hcore => ?_⟩
  obtain ⟨hmajor, hminor, hpatch⟩ : l.major = r.major ∧ l.minor = r.minor ∧ l.patch = r.patch := by
    simpa [Version.core] using hcore
  -- the core numbers are those of all three
  unfold Version.precedence at hupper hlower
  rw [← hmajor, ← hminor, ← hpatch] at hlower
  obtain ⟨hmajor', hupper, hlower⟩ := lex_between hupper hlower
  obtain ⟨hminor', hupper, hlower⟩ := lex_between hupper hlower
  obtain ⟨hpatch', hupper, hlower⟩ := lex_between hupper hlower
  have hsame : m.core = l.core := by
    rw [numeralValue_inj hm.major hl.major] at hmajor'
    rw [numeralValue_inj hm.minor hl.minor] at hminor'
    rw [numeralValue_inj hm.patch hl.patch] at hpatch'
    rw [Version.core, Version.core, hmajor', hminor', hpatch']
  have hleft := hfirst.parts hsame.symm
  have hright := hsecond.parts (hsame.trans hcore)
  unfold Version.parts at hleft hright ⊢
  unfold prereleaseKey at hupper hlower
  by_cases hlnil : l.prerelease = []
  · rw [if_pos hlnil]
    exact fun pair hpair => by cases hpair
  · by_cases hrnil : r.prerelease = []
    · rw [if_pos hrnil]
      intro pair hpair
      rw [firstDifference_symm] at hpair
      cases hpair
    · rw [if_neg (show ¬ l.prerelease.isEmpty = true by rwa [List.isEmpty_iff])] at hupper
      rw [if_neg (show ¬ r.prerelease.isEmpty = true by rwa [List.isEmpty_iff])] at hlower
      by_cases hmnil : m.prerelease = []
      · rw [hmnil, if_pos (show ([] : Text).isEmpty = true from rfl)] at hupper
        exact absurd hupper (not_le.mpr (WithTop.coe_lt_top _))
      · rw [if_neg (show ¬ m.prerelease.isEmpty = true by rwa [List.isEmpty_iff])] at hupper hlower
        rw [if_neg hlnil, if_neg hmnil] at hleft
        rw [if_neg hmnil, if_neg hrnil] at hright
        rw [if_neg hlnil, if_neg hrnil]
        exact firstDifference_between (hl.prerelease hlnil) (hm.prerelease hmnil)
          (WithTop.coe_le_coe.mp hupper) (WithTop.coe_le_coe.mp hlower) hleft hright

variable {text version : Text} {iteration : SetIteration} {versions versions' : List Text}
  {found : Option Text} {bundled : BundledModule}

theorem textPrecedence_of_parse {version : Version} (h : parseVersion text = some version) :
    textPrecedence text = (version.precedence : Precedence) := by
  rw [textPrecedence, h]

theorem compareVersions_comparesKeys : ComparesKeys compareVersions textPrecedence Comparable := by
  refine ⟨?_, ?_, ?_, ?_⟩
  · rintro left right ⟨l, r, hleft, hright, hconverts⟩
    refine ⟨_, (compareVersions_eq hleft hright).1 hconverts, ?_⟩
    have hcompares := compareVersion_compares (parseVersion_parsed hleft)
      (parseVersion_parsed hright)
    rw [textPrecedence_of_parse hleft, textPrecedence_of_parse hright, WithBot.coe_lt_coe,
      ← hcompares.eq_lt]
    cases compareVersion l r <;> decide
  · intro left right sign hsign
    obtain ⟨parts, hparts, h⟩ := bind_eq_ok.mp hsign
    obtain ⟨parts', hparts', _⟩ := bind_eq_ok.mp h
    obtain ⟨l, hleft⟩ := Option.isSome_iff_exists.mp (parseVersion_of_versionParts hparts)
    obtain ⟨r, hright⟩ := Option.isSome_iff_exists.mp (parseVersion_of_versionParts hparts')
    refine ⟨l, r, hleft, hright, ?_⟩
    by_contra hlong
    rw [(compareVersions_eq hleft hright).2 hlong] at hsign
    cases hsign
  · rintro left right ⟨l, r, hleft, hright, hconverts⟩
    exact ⟨r, l, hright, hleft, hconverts.symm⟩
  · rintro left middle right hupper hlower ⟨l, m, hleft, hmiddle, hfirst⟩ ⟨m', r, hmiddle',
      hright, hsecond⟩
    obtain rfl := Option.some.inj (hmiddle.symm.trans hmiddle')
    rw [textPrecedence_of_parse hleft, textPrecedence_of_parse hmiddle, WithBot.coe_le_coe]
      at hupper
    rw [textPrecedence_of_parse hmiddle, textPrecedence_of_parse hright, WithBot.coe_le_coe]
      at hlower
    exact ⟨l, r, hleft, hright, hfirst.between (parseVersion_parsed hleft)
      (parseVersion_parsed hmiddle) hupper hlower hsecond⟩

/-! ## The first stable version of a set -/

/-- `compare_versions` can compare all versions with each other. -/
def AllComparable (versions : List Text) : Prop :=
  ∀ left ∈ versions, ∀ right ∈ versions, left ≠ right → Comparable left right

/-- A stable version that no other stable one exceeds. -/
structure Highest (versions : List Text) (version : Text) : Prop where
  mem : version ∈ versions
  stable : isStable version = true
  greatest : ∀ other ∈ versions, isStable other = true → textPrecedence other ≤
    textPrecedence version

/-- The first stable version is determined, unless versions cannot be compared. -/
def UniqueHighest (versions : List Text) : Prop :=
  AllComparable versions → ∀ first second, Highest versions first → Highest versions second →
    first = second

def firstStable (iteration : SetIteration) (versions : List Text) :
    Except VersionError (Option Text) := do
  let sorted ← sortGreatest compareVersions (iteration.toList versions)
  return sorted.find? isStable

instance : Std.Symm Comparable := ⟨compareVersions_comparesKeys.symm⟩

theorem pairwise_comparable_iff (iteration : SetIteration) (versions : List Text) :
    (iteration.toList versions).Pairwise Comparable ↔ AllComparable versions := by
  constructor
  · intro h left hleft right hright hne
    exact h.forall ((iteration.mem_iff versions left).mpr hleft)
      ((iteration.mem_iff versions right).mpr hright) hne
  · intro h
    refine (iteration.nodup versions).pairwise_of_forall_ne fun left hleft right hright hne => ?_
    exact h left ((iteration.mem_iff versions left).mp hleft) right
      ((iteration.mem_iff versions right).mp hright) hne

theorem firstStable_highest
    (h : firstStable iteration versions = .ok (some version)) : Highest versions version := by
  obtain ⟨sorted, hsorted, hfind⟩ := bind_eq_ok.mp h
  obtain ⟨hmem, hstable, hgreatest⟩ :=
    sortGreatest_find compareVersions_comparesKeys hsorted (pure_eq_ok.mp hfind)
  exact ⟨(iteration.mem_iff versions version).mp hmem, hstable,
    fun other hother => hgreatest other ((iteration.mem_iff versions other).mpr hother)⟩

theorem firstStable_none
    (h : firstStable iteration versions = .ok none) : ∀ version ∈ versions, ¬ isStable version =
    true := by
  obtain ⟨sorted, hsorted, hfind⟩ := bind_eq_ok.mp h
  have hnone := List.find?_eq_none.mp (pure_eq_ok.mp hfind)
  intro version hversion
  have hperm := sortGreatest_perm compareVersions_comparesKeys hsorted
  exact hnone version (hperm.mem_iff.mpr ((iteration.mem_iff versions version).mpr hversion))

theorem firstStable_returns_iff (iteration : SetIteration) (versions : List Text) :
    (∃ found, firstStable iteration versions = .ok found) ↔ AllComparable versions := by
  rw [← pairwise_comparable_iff iteration]
  constructor
  · rintro ⟨found, h⟩
    obtain ⟨sorted, hsorted, _⟩ := bind_eq_ok.mp h
    exact sortGreatest_allowed compareVersions_comparesKeys hsorted
  · intro h
    obtain ⟨sorted, hsorted⟩ := sortGreatest_returns compareVersions_comparesKeys h
    exact ⟨sorted.find? isStable, bind_eq_ok.mpr ⟨sorted, hsorted, rfl⟩⟩

theorem AllComparable.of_same (h : AllComparable versions)
    (hsame : ∀ version, version ∈ versions' ↔ version ∈ versions) : AllComparable versions' :=
  fun left hleft right hright => h left ((hsame left).mp hleft) right ((hsame right).mp hright)

theorem Highest.of_same (h : Highest versions version)
    (hsame : ∀ version, version ∈ versions' ↔ version ∈ versions) : Highest versions' version :=
  ⟨(hsame version).mpr h.mem, h.stable, fun other hother =>
    h.greatest other ((hsame other).mp hother)⟩

theorem firstStable_same (hunique : UniqueHighest versions)
    (hsame : ∀ version, version ∈ versions' ↔ version ∈ versions)
    (h : firstStable iteration versions = .ok found) (iteration' : SetIteration) :
    firstStable iteration' versions' = .ok found := by
  have hcomparable := (firstStable_returns_iff iteration versions).mp ⟨found, h⟩
  obtain ⟨found', h'⟩ := (firstStable_returns_iff iteration' versions').mpr
    (hcomparable.of_same hsame)
  rw [h']
  cases found with
  | none =>
    cases found' with
    | none => rfl
    | some version =>
      have hhighest := firstStable_highest h'
      exact absurd hhighest.stable (firstStable_none h version ((hsame version).mp hhighest.mem))
  | some version =>
    have hhighest := firstStable_highest h
    cases found' with
    | none =>
      exact absurd hhighest.stable (firstStable_none h' version ((hsame version).mpr hhighest.mem))
    | some version' =>
      have hhighest' := (firstStable_highest h').of_same fun other => (hsame other).symm
      rw [hunique hcomparable version' version hhighest' hhighest]

theorem firstStable_startingWith (hcomparable : AllComparable versions)
    (h : Highest versions version) :
    firstStable (SetIteration.startingWith version) versions = .ok (some version) := by
  obtain ⟨found, hfound⟩ :=
    (firstStable_returns_iff (SetIteration.startingWith version) versions).mpr hcomparable
  obtain ⟨sorted, hsorted, hfind⟩ := bind_eq_ok.mp hfound
  have hlist : (SetIteration.startingWith version).toList versions = version ::
      versions.dedup.erase version :=
    if_pos h.mem
  rw [hlist] at hsorted
  have hfirst := sortGreatest_find_head compareVersions_comparesKeys hsorted h.stable
    fun other hother => h.greatest other (List.mem_dedup.mp (List.mem_of_mem_erase hother))
  rw [hfound, ← pure_eq_ok.mp hfind, hfirst]

/-! ## The choices -/

theorem builtinVersion_eq_ok :
    builtinVersion iteration bundled = .ok found ↔
      ∃ versions, packageVersions bundled.name bundled.sortedEntries = .ok versions ∧
        (versions = [] ∧ found = none ∨
          versions ≠ [] ∧ ∃ version, firstStable iteration versions = .ok (some version) ∧
          found = some version) := by
  unfold builtinVersion
  rw [bind_eq_ok]
  refine exists_congr fun versions => and_congr_right fun _ => ?_
  by_cases hnil : versions = []
  · rw [if_pos (List.isEmpty_iff.mpr hnil), pure_eq_ok]
    simp [hnil, eq_comm]
  · rw [if_neg (by rwa [List.isEmpty_iff])]
    simp only [sortedVersions, bind_eq_ok, mapError_eq_ok, require_eq_ok, pure_eq_ok,
      List.head?_filter, hnil,
      false_and, false_or, firstStable, ne_eq, not_false_eq_true, true_and]
    constructor
    · rintro ⟨sorted, hsorted, version, hfind, rfl⟩
      exact ⟨version, ⟨sorted, hsorted, hfind⟩, rfl⟩
    · rintro ⟨version, ⟨sorted, hsorted, hfind⟩, rfl⟩
      exact ⟨sorted, hsorted, version, hfind, rfl⟩

theorem highestStableTag_eq_ok {lines : List Text} {tag : Text} :
    highestStableTag iteration lines = .ok tag ↔
      firstStable iteration ((remoteTags lines).filter isStable) = .ok (some tag) := by
  unfold highestStableTag stableRemoteVersions sortedVersions firstStable
  simp only [bind_eq_ok, ensure_eq_ok, mapError_eq_ok, require_eq_ok, pure_eq_ok]
  have hfirst : ∀ sorted, sortGreatest compareVersions
      (iteration.toList ((remoteTags lines).filter isStable))
      = .ok sorted → sorted.find? isStable = sorted.head? := by
    intro sorted hsorted
    cases sorted with
    | nil => rfl
    | cons first rest =>
      have hmem := (sortGreatest_perm compareVersions_comparesKeys hsorted).mem_iff.mp
        (List.mem_cons_self (a := first) (l := rest))
      rw [iteration.mem_iff, List.mem_filter] at hmem
      rw [List.find?_cons_of_pos hmem.2, List.head?_cons]
  constructor
  · rintro ⟨sorted, ⟨_, _, hsorted⟩, hhead⟩
    exact ⟨sorted, hsorted, by rw [hfirst sorted hsorted, hhead]⟩
  · rintro ⟨sorted, hsorted, hfind⟩
    rw [hfirst sorted hsorted] at hfind
    refine ⟨sorted, ⟨(), ?_, hsorted⟩, hfind⟩
    intro hnil
    have hmem := (sortGreatest_perm compareVersions_comparesKeys hsorted).mem_iff.mp
      (List.mem_of_mem_head? hfind)
    rw [iteration.mem_iff, hnil] at hmem
    cases hmem

/-! ## The order of enumeration -/

/-- The same directory, listed in another order. -/
structure BundledModule.Reordered (bundled other : BundledModule) : Prop where
  name : bundled.name = other.name
  entries : bundled.entries.Perm other.entries

theorem BundledModule.Reordered.sortedEntries {other : BundledModule}
    (h : bundled.Reordered other) :
    bundled.sortedEntries = other.sortedEntries := by
  have hperm : bundled.sortedEntries.Perm other.sortedEntries :=
    ((List.perm_insertionSort _ _).trans h.entries).trans (List.perm_insertionSort _ _).symm
  refine List.Perm.eq_of_pairwise ?_ (List.pairwise_insertionSort _ _)
    (List.pairwise_insertionSort _ _) hperm
  -- file names are distinct, so their order is strict
  intro left right hleft hright hle hge
  rw [BundledModule.sortedEntries, List.mem_insertionSort] at hleft hright
  exact List.inj_on_of_nodup_map bundled.distinct hleft (h.entries.mem_iff.mpr hright)
    (le_antisymm hle hge)

/-- Whatever the order in which directories, tags and sets are enumerated, the
    same versions are chosen. -/
structure SelectsSame (store : ModuleStore) (name : Text) (bundled : BundledModule)
    (lines : List Text) :
    Prop where
  select : ∀ other, store.Reordered other → ∀ version,
    (select store none name []).map (·.version) = .ok version ↔
      (select other none name []).map (·.version) = .ok version
  builtin : ∀ other, bundled.Reordered other → ∀ iteration iteration' version,
    builtinVersion iteration bundled = .ok version ↔ builtinVersion iteration' other = .ok version
  tag : ∀ other, lines.Perm other → ∀ iteration iteration' tag,
    highestStableTag iteration lines = .ok tag ↔ highestStableTag iteration' other = .ok tag

theorem select_reordered_iff {store other : ModuleStore} (h : store.Reordered other)
    (name version : Text) :
    (select store none name []).map (·.version) = .ok version ↔
      (select other none name []).map (·.version) = .ok version := by
  have hmap : ∀ {x : Except Failure PackageManifest},
      x.map (·.version) = .ok version ↔ ∃ manifest, x = .ok manifest ∧
          manifest.version = version := by
    intro x
    cases x with
    | ok manifest | error e => simp [Except.map]
  rw [hmap, hmap]
  exact exists_congr fun manifest => and_congr_left fun _ =>
    selectInstalled_reordered_iff h name [] manifest

theorem builtinVersion_same {other : BundledModule} (h : bundled.Reordered other)
    (hunique : ∀ versions, packageVersions bundled.name bundled.sortedEntries = .ok versions →
      UniqueHighest versions) (hfound : builtinVersion iteration bundled = .ok found)
    (iteration' : SetIteration) :
    builtinVersion iteration' other = .ok found := by
  obtain ⟨versions, hversions, hcases⟩ := builtinVersion_eq_ok.mp hfound
  refine builtinVersion_eq_ok.mpr ⟨versions, by rw [← h.sortedEntries, ← h.name, hversions], ?_⟩
  rcases hcases with hempty | ⟨hne, version, hfirst, heq⟩
  · exact .inl hempty
  · exact .inr ⟨hne, version, firstStable_same (hunique versions hversions)
      (fun _ => Iff.rfl) hfirst iteration', heq⟩

theorem stableTags_perm {lines other : List Text} (h : lines.Perm other) :
    ((remoteTags lines).filter isStable).Perm ((remoteTags other).filter isStable) :=
  (h.filterMap _).filter _

/-- They select the same exactly where the highest version is one text. -/
theorem selectsSame_iff (store : ModuleStore) (name : Text) (bundled : BundledModule)
    (lines : List Text) :
    SelectsSame store name bundled lines ↔
      (∀ versions, packageVersions bundled.name bundled.sortedEntries = .ok versions →
        UniqueHighest versions) ∧
        UniqueHighest ((remoteTags lines).filter isStable) := by
  constructor
  · intro h
    constructor
    · intro versions hversions hcomparable first second hfirst hsecond
      -- an iteration that starts at a highest version selects it
      have hchosen : ∀ version, Highest versions version →
          builtinVersion (SetIteration.startingWith version) bundled = .ok (some version) := by
        intro version hhighest
        refine builtinVersion_eq_ok.mpr ⟨versions, hversions, .inr ⟨List.ne_nil_of_mem hhighest.mem,
          version, ?_, rfl⟩⟩
        exact firstStable_startingWith hcomparable hhighest
      have hsame := (h.builtin bundled ⟨rfl, List.Perm.refl _⟩ (SetIteration.startingWith first)
        (SetIteration.startingWith second) (some first)).mp (hchosen first hfirst)
      rw [hchosen second hsecond] at hsame
      exact (Option.some.inj (Except.ok.inj hsame)).symm
    · intro hcomparable first second hfirst hsecond
      have hchosen : ∀ version, Highest ((remoteTags lines).filter isStable) version →
          highestStableTag (SetIteration.startingWith version) lines = .ok version :=
        fun version hhighest => highestStableTag_eq_ok.mpr
          (firstStable_startingWith hcomparable hhighest)
      have hsame := (h.tag lines (List.Perm.refl _) (SetIteration.startingWith first)
        (SetIteration.startingWith second) first).mp (hchosen first hfirst)
      rw [hchosen second hsecond] at hsame
      exact (Except.ok.inj hsame).symm
  · rintro ⟨hbundled, htags⟩
    refine ⟨fun other h version => select_reordered_iff h name version, ?_, ?_⟩
    · intro other h iteration iteration' version
      have hother : ∀ versions, packageVersions other.name other.sortedEntries = .ok versions →
          UniqueHighest versions := by
        rw [← h.name, ← h.sortedEntries]
        exact hbundled
      exact ⟨fun hfound => builtinVersion_same h hbundled hfound iteration',
        fun hfound => builtinVersion_same ⟨h.name.symm, h.entries.symm⟩ hother hfound iteration⟩
    · intro other h iteration iteration' tag
      have hsame : ∀ version, version ∈ (remoteTags other).filter isStable ↔
          version ∈ (remoteTags lines).filter isStable := fun _ => (stableTags_perm h).symm.mem_iff
      have hother : UniqueHighest ((remoteTags other).filter isStable) :=
        fun hcomparable first second hfirst hsecond => htags (hcomparable.of_same fun version =>
          (hsame version).symm) first second (hfirst.of_same fun version => (hsame version).symm)
          (hsecond.of_same fun version => (hsame version).symm)
      rw [highestStableTag_eq_ok, highestStableTag_eq_ok]
      exact ⟨fun hfound => firstStable_same htags hsame hfound iteration',
        fun hfound => firstStable_same hother (fun version => (hsame version).symm)
          hfound iteration⟩

/-! ## Two builds of one version -/

def firstBuild : Text := "1.0.0+a".toList

def secondBuild : Text := "1.0.0+b".toList

def buildLines : List Text := ["0\trefs/tags/1.0.0+a".toList, "1\trefs/tags/1.0.0+b".toList]

theorem isStable_of_parse {version : Version} (h : parseVersion text = some version)
    (hprerelease : version.prerelease = []) : isStable text = true := by
  rw [isStable, versionParts_of_parseVersion h, Version.parts, if_pos hprerelease]

theorem build_parse (h : text ∈ [firstBuild, secondBuild]) :
    ∃ build, parseVersion text = some ⟨['1'], ['0'], ['0'], [], build⟩ := by
  rcases List.mem_pair.mp h with rfl | rfl
  · exact ⟨['a'], by decide⟩
  · exact ⟨['b'], by decide⟩

theorem buildLines_tags : (remoteTags buildLines).filter isStable = [firstBuild, secondBuild] := by
  have htags : remoteTags buildLines = [firstBuild, secondBuild] := by decide
  rw [htags, List.filter_eq_self]
  intro text htext
  obtain ⟨build, hparse⟩ := build_parse htext
  exact isStable_of_parse hparse rfl

theorem builds_comparable : AllComparable [firstBuild, secondBuild] := by
  intro left hleft right hright _
  obtain ⟨build, hparse⟩ := build_parse hleft
  obtain ⟨build', hparse'⟩ := build_parse hright
  refine ⟨_, _, hparse, hparse', ?_, ?_, fun _ pair hpair => by cases hpair⟩
  · simp [Version.core, intMaxStrDigits]
  · simp [Version.core, intMaxStrDigits]

theorem builds_highest (h : text ∈ [firstBuild, secondBuild]) :
    Highest [firstBuild, secondBuild] text := by
  obtain ⟨build, hparse⟩ := build_parse h
  refine ⟨h, isStable_of_parse hparse rfl, fun other hother _ => ?_⟩
  obtain ⟨build', hparse'⟩ := build_parse hother
  rw [textPrecedence_of_parse hparse, textPrecedence_of_parse hparse']
  exact le_rfl

/-- Which of the two tags is taken depends on the order of the set. -/
theorem builds_not_selectSame : ¬ ∀ store name bundled lines,
    SelectsSame store name bundled lines := by
  intro h
  have hchosen : ∀ text ∈ [firstBuild, secondBuild],
      highestStableTag (SetIteration.startingWith text) buildLines = .ok text := by
    intro text htext
    rw [highestStableTag_eq_ok, buildLines_tags]
    exact firstStable_startingWith builds_comparable (builds_highest htext)
  have hindependent := h ⟨[], fun _ => false, fun _ => false, fun _ => .ok []⟩ [] ⟨[], [],
    List.nodup_nil⟩ buildLines
  have hsame := (hindependent.tag buildLines (List.Perm.refl _)
    (SetIteration.startingWith firstBuild)
    (SetIteration.startingWith secondBuild) firstBuild).mp (hchosen firstBuild List.mem_cons_self)
  rw [hchosen secondBuild (List.mem_cons_of_mem _ List.mem_cons_self)] at hsame
  exact absurd (Except.ok.inj hsame) (by decide)

end Cwhip.Packages
