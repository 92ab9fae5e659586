/-
  Cwhip.Packages.LockGraph

  What an accepted lock promises: an acyclic graph of exact versions.  Only the
  tables that hold keys are compared with `[modules]`, though, so an empty package
  table may name a package that is not locked.
-/

import Cwhip.Packages.LockFile

namespace Cwhip.Packages

open Cwhip.Lib

/-- What the lock promises of the graph that it describes. -/
structure LockedGraph (files : LockFiles) (policy : ModuleVersionPolicy) : Prop where
  modules : ∀ name, (policy.versions.find? name).isSome ↔ files.Says modulesTable name
  tables : ∀ name, packagesTable ++ name ∈ lockTables files.lines ↔ files.Says modulesTable name
  lists : ∀ name, files.Says (packagesTable ++ name) dependenciesKey ↔ files.Says modulesTable name
  dependencies : ∀ name, files.Says modulesTable name → ∃ dependencies,
    policy.lockedDependencies.find? name = some dependencies ∧
      (dependencies.map dependencyTarget).Nodup ∧
      ∀ dependency ∈ dependencies, ∃ version, dependency = dependencyTarget dependency ++
        '=' :: version ∧
        policy.lockedVersion (dependencyTarget dependency) = some version
  identities : ∀ name, files.Says modulesTable name → ∃ entry, policy.lockedPackages.find? name =
    some entry ∧
    entryFits entry (policy.lockedVersion name) ∧ identityFits entry (policy.lockedVersion name)
  acyclic : ∀ name, ¬ Relation.TransGen (Colouring.Below (lockedTargets policy)) name name
  digest : ∃ value number digest, ([], manifestKey, value) ∈ lockEntries [] files.lines ∧
    parseQuotedString value files.path number = .ok digest ∧ lowerHex 64 digest ∧
      packageFileSha256 files.manifestPath files.manifest = .ok digest

/-- The lock is read to this policy, and its schema and `[modules]` are there. -/
structure LockFiles.Readable (files : LockFiles) (policy : ModuleVersionPolicy) : Prop where
  read : ∃ text state, files.content = some text ∧
    ((Lib.lines '\n' text).zipIdx 1).foldlM (readLine files.path) (.start files.path) = .ok state ∧
      state.policy = policy
  schema : files.Says [] "schema".toList
  modules : modulesTable ∈ lockTables files.lines

/-- Every package table of the lock has a key. -/
def LockFiles.NoEmptyTable (files : LockFiles) : Prop :=
  ∀ name, packagesTable ++ name ∈ lockTables files.lines →
    ∃ key, files.Says (packagesTable ++ name) key

variable {files : LockFiles} {policy : ModuleVersionPolicy}

/-! ## The graph of an accepted lock -/

theorem mem_lockTables {lines : List Text} {current table key value : Text}
    (h : (table, key, value) ∈ lockEntries current lines) :
    table = current ∨ table ∈ lockTables lines := by
  induction lines generalizing current with
  | nil => cases h
  | cons line rest ih =>
    rw [lockTables, List.filterMap_cons]
    rw [lockEntries] at h
    cases hline : lockLine line with
    | table name =>
      rw [hline] at h
      show table = current ∨ table ∈ name :: lockTables rest
      rw [List.mem_cons]
      exact .inr (ih h)
    | entry given text =>
      rw [hline] at h
      rcases List.mem_cons.mp h with heq | hmem
      · exact .inl (Prod.mk.inj heq).1
      · exact ih hmem
    | blank | other =>
      rw [hline] at h
      exact ih h

theorem checkDependencies_ok {dependencies : List Text} {unique unique' : Finset Text}
    (h : dependencies.foldlM (checkDependency policy) unique = .ok unique') :
    (dependencies.map dependencyTarget).Nodup ∧
      (∀ dependency ∈ dependencies, dependencyTarget dependency ∉ unique ∧
      ∃ version, dependency = dependencyTarget dependency ++ '=' :: version ∧
        policy.lockedVersion (dependencyTarget dependency) = some version) := by
  induction dependencies generalizing unique with
  | nil => exact ⟨List.nodup_nil, fun _ h => absurd h List.not_mem_nil⟩
  | cons dependency rest ih =>
    obtain ⟨middle, hfirst, hrest⟩ := foldlM_cons_ok.mp h
    simp only [checkDependency, bind_eq_ok, ensure_eq_ok, pure_eq_ok] at hfirst
    obtain ⟨-, ⟨hsome, hversion, hnew⟩, rfl⟩ := hfirst
    obtain ⟨hnodup, hall⟩ := ih hrest
    obtain ⟨version, hcut⟩ := Option.isSome_iff_exists.mp hsome
    rw [hcut] at hversion
    refine ⟨List.nodup_cons.mpr ⟨fun hmem => ?_, hnodup⟩, fun other hother => ?_⟩
    · obtain ⟨twin, htwin, heq⟩ := List.mem_map.mp hmem
      exact (hall twin htwin).1 (heq ▸ Finset.mem_insert_self ..)
    · rcases List.mem_cons.mp hother with rfl | hmem
      · exact ⟨hnew, version, (cutAt_some (Prod.ext rfl hcut)).1, hversion⟩
      · exact (hall other hmem).imp_left fun hfresh hknown =>
          hfresh (Finset.mem_insert_of_mem hknown)

/-- Dependencies that each name a locked package at its version, and none twice, are
    accepted. -/
theorem checkDependencies_succeeds {dependencies : List Text} {unique : Finset Text}
    (hnodup : (dependencies.map dependencyTarget).Nodup)
    (hall : ∀ dependency ∈ dependencies, dependencyTarget dependency ∉ unique ∧
      ∃ version, dependency = dependencyTarget dependency ++ '=' :: version ∧
        policy.lockedVersion (dependencyTarget dependency) = some version) :
    Succeeds (dependencies.foldlM (checkDependency policy) unique) := by
  induction dependencies generalizing unique with
  | nil => exact .ok unique
  | cons dependency rest ih =>
    rw [List.map_cons, List.nodup_cons] at hnodup
    obtain ⟨hnew, version, hcut, hversion⟩ := hall dependency List.mem_cons_self
    have hafter : (cutAt '=' dependency).2 = some version := by
      cases hpair : (cutAt '=' dependency).2 with
      | none =>
        -- then no `=` stands in it
        obtain ⟨-, hnone⟩ := cutAt_none (Prod.ext rfl hpair)
        rw [hcut] at hnone
        exact absurd (List.mem_append_right _ List.mem_cons_self) hnone
      | some after =>
        obtain ⟨hsplit, -⟩ := cutAt_some (Prod.ext rfl hpair)
        have hsame := List.append_cancel_left (hsplit.symm.trans hcut)
        rw [(List.cons.inj hsame).2]
    have hstep : checkDependency policy unique dependency =
        .ok (insert (dependencyTarget dependency) unique) := by
      simp only [checkDependency, bind_eq_ok, ensure_eq_ok, pure_eq_ok]
      exact ⟨(), ⟨by rw [hafter]; rfl, hversion.trans hafter.symm, hnew⟩, trivial⟩
    rw [List.foldlM_cons, hstep, ok_bind]
    refine ih hnodup.2 fun other hother => ?_
    refine (hall other (List.mem_cons_of_mem _ hother)).imp_left fun hfresh hknown => ?_
    rcases Finset.mem_insert.mp hknown with heq | hmem
    · exact hnodup.1 (heq ▸ List.mem_map_of_mem hother)
    · exact hfresh hmem

variable {name : Text} {targets : List Text}

theorem checkPackage_ok {u : Unit} (h : checkPackage policy name = .ok u) :
    (∃ entry, policy.lockedPackages.find? name = some entry ∧
      entryFits entry (policy.lockedVersion name) ∧ identityFits entry (policy.lockedVersion name))
      ∧
    ∃ dependencies, policy.lockedDependencies.find? name = some dependencies ∧
      (dependencies.map dependencyTarget).Nodup ∧
      ∀ dependency ∈ dependencies, ∃ version, dependency = dependencyTarget dependency ++
        '=' :: version ∧
        policy.lockedVersion (dependencyTarget dependency) = some version := by
  simp only [checkPackage, bind_eq_ok, ensure_eq_ok, require_eq_ok] at h
  obtain ⟨entry, hentry, -, hfits, -, hidentity, dependencies, hdependencies, unique, hcheck, -⟩ :=
    h
  obtain ⟨hnodup, hall⟩ := checkDependencies_ok hcheck
  exact ⟨⟨entry, hentry, hfits, hidentity⟩, dependencies, hdependencies, hnodup, fun d hd =>
    (hall d hd).2⟩

theorem LockFiles.lines_numbered (files : LockFiles) {text : Text} (h : files.content = some text) :
    ((Lib.lines '\n' text).zipIdx 1).map Prod.fst = files.lines := by
  rw [List.zipIdx_map_fst, LockFiles.lines, h]
  rfl

theorem readLock_ok (h : readLock files = .ok policy) :
    (∃ state, Reads files.path (.start files.path) files.lines state ∧ state.policy = policy ∧
      ∃ digest, state.metadata.find? manifestKey = some digest ∧ lowerHex 64 digest ∧
        packageFileSha256 files.manifestPath files.manifest = .ok digest) ∧
    policy.lockedPackages.entries.length = policy.versions.entries.length ∧
    policy.lockedDependencies.entries.length = policy.versions.entries.length ∧
    ∀ name, (policy.versions.find? name).isSome → ∃ u, checkPackage policy name = .ok u := by
  simp only [readLock, bind_eq_ok, ensure_eq_ok, require_eq_ok, pure_eq_ok] at h
  obtain ⟨text, htext, state, hstate, -, ⟨-, hhex, -⟩, actual, hactual, -, heq, -,
    ⟨hpackages, hlists⟩, checks, hchecks,
    rfl⟩ := h
  have hreads := readLines_reads (.inl rfl) hstate
  rw [files.lines_numbered htext] at hreads
  refine ⟨⟨state, hreads, rfl, ?_⟩, hpackages, hlists, fun name hname => ?_⟩
  · cases hdigest : state.metadata.find? manifestKey with
    | none =>
      rw [hdigest] at hhex
      exact absurd hhex (by decide)
    | some digest =>
      rw [hdigest] at hhex heq
      rw [heq] at hactual
      exact ⟨digest, rfl, hhex, hactual⟩
  · exact ok_of_mapM hchecks (OrderedMap.isSome_find?_iff.mp hname)

theorem readLock_readable (h : readLock files = .ok policy) : files.Readable policy := by
  simp only [readLock, bind_eq_ok, ensure_eq_ok, require_eq_ok, pure_eq_ok] at h
  obtain ⟨text, htext, state, hstate, -, ⟨hschema, -, hmodules⟩, -, -, -, -, -, -, -, -, rfl⟩ := h
  refine ⟨⟨text, state, htext, hstate, rfl⟩, ?_, ?_⟩
  · have hsaid := (readLines_recorded hstate).schema.mp hschema
    rw [files.lines_numbered htext] at hsaid
    exact hsaid.resolve_left fun hstart => Option.some_ne_none ['1'] hstart.symm
  · have hopened := ((readLines_reads (.inl rfl) hstate).sections _).mp hmodules
    rw [files.lines_numbered htext] at hopened
    exact hopened.resolve_left (Finset.notMem_empty _)

theorem readLock_maps (h : readLock files = .ok policy) (name : Text) :
    ((policy.lockedPackages.find? name).isSome ↔ (policy.versions.find? name).isSome) ∧
    ((policy.lockedDependencies.find? name).isSome ↔ (policy.versions.find? name).isSome) := by
  obtain ⟨-, hpackages, hlists, hchecks⟩ := readLock_ok h
  have hpackage (name : Text) (hname : (policy.versions.find? name).isSome) :
      (policy.lockedPackages.find? name).isSome := by
    obtain ⟨⟨entry, hentry, -⟩, -⟩ := checkPackage_ok (hchecks name hname).choose_spec
    exact Option.isSome_iff_exists.mpr ⟨entry, hentry⟩
  have hlist (name : Text) (hname : (policy.versions.find? name).isSome) :
      (policy.lockedDependencies.find? name).isSome := by
    obtain ⟨-, dependencies, hfound, -⟩ := checkPackage_ok (hchecks name hname).choose_spec
    exact Option.isSome_iff_exists.mpr ⟨dependencies, hfound⟩
  exact ⟨⟨OrderedMap.isSome_of_length_le hpackage hpackages.le, hpackage name⟩,
    OrderedMap.isSome_of_length_le hlist hlists.le, hlist name⟩

theorem readLock_names (h : readLock files = .ok policy) (name : Text) :
    ((policy.versions.find? name).isSome ↔ files.Says modulesTable name) ∧
    (files.Says (packagesTable ++ name) dependenciesKey ↔ files.Says modulesTable name) ∧
    ∀ key, files.Says (packagesTable ++ name) key → files.Says modulesTable name := by
  obtain ⟨hpackages, hlists⟩ := readLock_maps h name
  obtain ⟨⟨state, hreads, rfl, -⟩, -⟩ := readLock_ok h
  have hmodules : (state.policy.versions.find? name).isSome ↔ files.Says modulesTable name := by
    rw [hreads.versions]
    exact or_iff_right Bool.false_ne_true
  have hdependencies : (state.policy.lockedDependencies.find? name).isSome ↔
      files.Says (packagesTable ++ name) dependenciesKey := by
    rw [hreads.dependencies]
    exact or_iff_right Bool.false_ne_true
  -- the lists are those of the modules, so what the text says of one it says of the other
  have hsame := hdependencies.symm.trans (hlists.trans hmodules)
  refine ⟨hmodules, hsame, fun key hsaid => ?_⟩
  by_cases hkey : key = dependenciesKey
  · exact hsame.mp (hkey ▸ hsaid)
  · obtain ⟨value, hmem⟩ := hsaid
    exact hmodules.mp (hpackages.mp ((hreads.packages name).mpr (.inr ⟨key, hkey, value, hmem⟩)))

/-! ## The search for cycles -/

theorem lockedTargets_ok :
    lockedTargets policy name = .ok targets ↔
      ∃ dependencies, policy.lockedDependencies.find? name = some dependencies ∧
        dependencies.map dependencyTarget = targets := by
  simp only [lockedTargets, atKey, bind_eq_ok, require_eq_ok, pure_eq_ok]

theorem lockedTargets_avoids (policy : ModuleVersionPolicy) (name : Text) :
    Avoids .outOfFuel (lockedTargets policy name) :=
  (Avoids.require Failure.noConfusion _).bind fun _ _ => .ok _

theorem lockedTargets_listed (h : readLock files = .ok policy)
    (htargets : lockedTargets policy name = .ok targets) :
    (policy.versions.find? name).isSome ∧ ∀ target ∈ targets, target ∈ policy.versions.entries.map
    Prod.fst := by
  obtain ⟨dependencies, hfound, rfl⟩ := lockedTargets_ok.mp htargets
  have hname := (readLock_maps h name).2.mp (Option.isSome_iff_exists.mpr ⟨dependencies, hfound⟩)
  obtain ⟨u, hcheck⟩ := (readLock_ok h).2.2.2 name hname
  obtain ⟨-, same, hsame, -, hall⟩ := checkPackage_ok hcheck
  cases hfound.symm.trans hsame
  refine ⟨hname, fun target hmem => ?_⟩
  obtain ⟨dependency, hdependency, rfl⟩ := List.mem_map.mp hmem
  obtain ⟨version, -, hversion⟩ := hall dependency hdependency
  obtain ⟨versions, hversions, -⟩ := Option.bind_eq_some_iff.mp hversion
  exact OrderedMap.isSome_find?_iff.mp (Option.isSome_iff_exists.mpr ⟨versions, hversions⟩)

theorem readLockedPolicy_avoids (files : LockFiles) :
    Avoids .outOfFuel (readLockedPolicy files) := by
  refine (Avoids.mapError (fun _ => Failure.noConfusion) _).bind fun policy hpolicy =>
    .bind ?_ fun _ _ => .ok _
  exact Colouring.search_avoids (fun _ => Failure.noConfusion) (lockedTargets_avoids policy)
    (fun name targets htargets => (lockedTargets_listed (mapError_eq_ok.mp hpolicy) htargets).2)
      (by simp) _

theorem readLockedPolicy_acyclic (h : readLockedPolicy files = .ok policy) :
    readLock files = .ok policy ∧
      ∀ name, ¬ Relation.TransGen (Colouring.Below (lockedTargets policy)) name name := by
  simp only [readLockedPolicy, bind_eq_ok, mapError_eq_ok, pure_eq_ok] at h
  obtain ⟨_, hlock, states, hsearch, rfl⟩ := h
  refine ⟨hlock, fun name hcycle => ?_⟩
  -- a name on a cycle has dependencies, and so is a module
  obtain ⟨last, -, targets, htargets, -⟩ := Relation.TransGen.tail'_iff.mp hcycle
  have hname := (lockedTargets_listed hlock htargets).1
  exact Colouring.search_acyclic hsearch (OrderedMap.isSome_find?_iff.mp hname) hcycle

/-! ## What is accepted -/

/-- The maps of a lock that keeps its promises have the keys of `[modules]`. -/
theorem LockedGraph.maps {state : LockState} (h : LockedGraph files state.policy)
    (hreads : Reads files.path (.start files.path) files.lines state) (name : Text) :
    ((state.policy.lockedPackages.find? name).isSome ↔ (state.policy.versions.find? name).isSome) ∧
    ((state.policy.lockedDependencies.find? name).isSome ↔
    (state.policy.versions.find? name).isSome) := by
  constructor
  · rw [h.modules]
    constructor
    · rw [hreads.packages]
      rintro (hnone | ⟨key, -, value, hmem⟩)
      · cases hnone
      · exact (h.tables name).mp ((mem_lockTables hmem).resolve_left (packagesTable_ne name).1)
    · intro hsaid
      obtain ⟨entry, hentry, -⟩ := h.identities name hsaid
      exact Option.isSome_iff_exists.mpr ⟨entry, hentry⟩
  · rw [h.modules, ← h.lists, hreads.dependencies]
    exact or_iff_right Bool.false_ne_true

theorem LockedGraph.checkPackage (h : LockedGraph files policy)
    (hname : (policy.versions.find? name).isSome) : checkPackage policy name = .ok () := by
  have hsaid := (h.modules name).mp hname
  obtain ⟨entry, hentry, hfits, hidentity⟩ := h.identities name hsaid
  obtain ⟨dependencies, hdependencies, hnodup, hall⟩ := h.dependencies name hsaid
  obtain ⟨unique, hcheck⟩ := checkDependencies_succeeds hnodup
    fun dependency hmem => ⟨Finset.notMem_empty _, hall dependency hmem⟩
  simp only [Packages.checkPackage, bind_eq_ok, ensure_eq_ok, require_eq_ok]
  exact ⟨entry, hentry, (), hfits, (), hidentity, dependencies, hdependencies, unique, hcheck, rfl⟩

/-- The checks pass on a lock that is read and keeps its promises. -/
theorem LockedGraph.readLock (h : LockedGraph files policy) (hreadable : files.Readable policy) :
    readLock files = .ok policy := by
  obtain ⟨⟨text, state, htext, hstate, rfl⟩, hschema, hmodules⟩ := hreadable
  have hreads := readLines_reads (.inl rfl) hstate
  have hrecorded := readLines_recorded hstate
  rw [files.lines_numbered htext] at hreads hrecorded
  -- the digest of the text is the one that was noted
  obtain ⟨value, number, digest, hmem, hparsed, hhex, hactual⟩ := h.digest
  obtain ⟨line, noted, hnoted, hfound⟩ := hrecorded.manifest value hmem
  obtain rfl : digest = noted :=
    Except.ok.inj (hparsed.symm.trans (parseQuotedString_line hnoted number))
  obtain ⟨checks, hchecks⟩ := mapM_succeeds fun name hname =>
    ⟨(), h.checkPackage (OrderedMap.isSome_find?_iff.mpr hname)⟩
  simp only [Packages.readLock, bind_eq_ok, ensure_eq_ok, require_eq_ok, pure_eq_ok]
  refine ⟨text, htext, state, hstate, (), ⟨hrecorded.schema.mpr (.inr hschema), ?_,
    (hreads.sections _).mpr (.inr hmodules)⟩, digest, hactual, (), ?_, (), ⟨?_, ?_⟩, checks,
      hchecks, rfl⟩
  · rw [hfound]
    exact hhex
  · rw [hfound]
    rfl
  · exact OrderedMap.length_eq_of_keys fun name => (h.maps hreads name).1
  · exact OrderedMap.length_eq_of_keys fun name => (h.maps hreads name).2

/-- A lock that is read and keeps its promises is returned. -/
theorem LockedGraph.returns (h : LockedGraph files policy) (hreadable : files.Readable policy) :
    readLockedPolicy files = .ok policy := by
  have hlock := h.readLock hreadable
  have hnodes (name : Text) (hname : name ∈ policy.versions.entries.map Prod.fst) :
      ∃ next, lockedTargets policy name = .ok next ∧
        ∀ other ∈ next, other ∈ policy.versions.entries.map Prod.fst := by
    obtain ⟨dependencies, hfound, -⟩ :=
      h.dependencies name ((h.modules name).mp (OrderedMap.isSome_find?_iff.mpr hname))
    have htargets := lockedTargets_ok.mpr ⟨dependencies, hfound, rfl⟩
    exact ⟨_, htargets, (lockedTargets_listed hlock htargets).2⟩
  obtain ⟨states, hsearch⟩ := Colouring.search_succeeds h.acyclic hnodes (Nat.lt_succ_self _)
  simp only [readLockedPolicy, bind_eq_ok, mapError_eq_ok, pure_eq_ok]
  exact ⟨policy, hlock, states, hsearch, rfl⟩

/-- The search for cycles ends on every graph; a lock that is returned was read, and is
    what it promises to be exactly if every package table has a key; and one that is read
    and keeps its promises is returned. -/
theorem readLockedPolicy_iff (files : LockFiles) :
    Avoids .outOfFuel (readLockedPolicy files) ∧
    (∀ policy, readLockedPolicy files = .ok policy →
      files.Readable policy ∧ (LockedGraph files policy ↔ files.NoEmptyTable)) ∧
    ∀ policy, files.Readable policy → LockedGraph files policy → readLockedPolicy files =
    .ok policy := by
  refine ⟨readLockedPolicy_avoids files, fun policy h => ?_, fun policy hreadable hgraph =>
    hgraph.returns hreadable⟩
  obtain ⟨hlock, hacyclic⟩ := readLockedPolicy_acyclic h
  refine ⟨readLock_readable hlock, ?_⟩
  obtain ⟨⟨state, hreads, rfl, digest, hdigest, hhex, hactual⟩, -, -, hchecks⟩ := readLock_ok hlock
  have hnames := readLock_names hlock
  have hlisted (name : Text) (hsaid : files.Says modulesTable name) :=
    checkPackage_ok (hchecks name ((hnames name).1.mpr hsaid)).choose_spec
  constructor
  · intro hgraph name htable
    exact ⟨dependenciesKey, (hgraph.lists name).mpr ((hgraph.tables name).mp htable)⟩
  · intro hkeys
    refine ⟨fun name => (hnames name).1, fun name => ⟨fun htable => ?_, fun hsaid => ?_⟩,
      fun name => (hnames name).2.1,
      fun name hsaid => (hlisted name hsaid).2, fun name hsaid => (hlisted name hsaid).1,
        hacyclic, ?_⟩
    · obtain ⟨key, hkey⟩ := hkeys name htable
      exact (hnames name).2.2 key hkey
    · obtain ⟨value, hmem⟩ := (hnames name).2.1.mpr hsaid
      exact (mem_lockTables hmem).resolve_left (packagesTable_ne name).1
    · obtain hnone | ⟨value, number, hmem, hparsed⟩ := hreads.digest digest hdigest
      · cases hnone
      · exact ⟨value, number, digest, hmem, hparsed, hhex, hactual⟩

/-- The lock of an empty manifest, with these lines after its metadata. -/
def emptyManifestLock (lines : List String) : LockFiles where
  path := "cwhip-pkg.lock".toList
  content := some ((["schema = 1",
    "manifest-sha256 = \"e3b0c44298fc1c149afbf4c8996fb92427ae41e4649b934ca495991b7852b855\"",
      "[modules]"] ++ lines).flatMap fun line => line.toList ++ ['\n'])
  manifestPath := "cwhip-pkg.toml".toList
  manifest := some []

/-- One package of the installation. -/
def builtinLock : LockFiles := emptyManifestLock ["a = [\"1.0.0\"]", "[packages.a]  # built in",
  "repo = \"builtin\"",
  "ref = \"builtin\"", "commit = \"builtin\"", "version = \"1.0.0\"", "dependencies = []",
  "sha256 = \"e3b0c44298fc1c149afbf4c8996fb92427ae41e4649b934ca495991b7852b855\""]

theorem readLockedPolicy_builtin : ∃ policy, readLockedPolicy builtinLock = .ok policy ∧
    builtinLock.Readable policy ∧ LockedGraph builtinLock policy := by
  have haccepted : (readLockedPolicy builtinLock).isOk = true := by decide +kernel
  have htables : lockTables builtinLock.lines = [modulesTable,
    packagesTable ++ ['a']] := by decide +kernel
  have hkey : (packagesTable ++ ['a'], dependenciesKey, "[]".toList) ∈ lockEntries []
      builtinLock.lines := by
    decide +kernel
  obtain ⟨policy, hpolicy⟩ := exists_ok_of_isOk haccepted
  obtain ⟨hreadable, hgraph⟩ := (readLockedPolicy_iff builtinLock).2.1 policy hpolicy
  refine ⟨policy, hpolicy, hreadable, hgraph.mpr fun name hname => ?_⟩
  rw [htables] at hname
  rcases List.mem_cons.mp hname with heq | hmem
  · exact absurd heq (packagesTable_ne name).2
  · rw [List.mem_singleton.mp hmem]
    exact ⟨dependenciesKey, "[]".toList, hkey⟩

def emptyTableLock : LockFiles := emptyManifestLock ["[packages.extra]"]

/-- It is accepted, and its tables do not list the same names. -/
theorem readLockedPolicy_empty_table : ∃ policy, readLockedPolicy emptyTableLock = .ok policy ∧
    ¬ LockedGraph emptyTableLock policy := by
  have haccepted : (readLockedPolicy emptyTableLock).isOk = true := by decide +kernel
  have htable : packagesTable ++ "extra".toList ∈ lockTables
    emptyTableLock.lines := by decide +kernel
  have hentries : ∀ entry ∈ lockEntries [] emptyTableLock.lines, entry.1 = [] := by decide +kernel
  obtain ⟨policy, hpolicy⟩ := exists_ok_of_isOk haccepted
  refine ⟨policy, hpolicy, fun hgraph => ?_⟩
  obtain ⟨value, hmem⟩ := (hgraph.tables "extra".toList).mp htable
  exact absurd (hentries _ hmem) (show modulesTable ≠ [] by decide)

end Cwhip.Packages
