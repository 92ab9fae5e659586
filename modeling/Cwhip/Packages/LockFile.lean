/-
  Cwhip.Packages.LockFile

  The project lock (`readLockedPolicy` in `PackageRegistry.cpp`): how its lines are
  read, and the checks of what they say.  `Reads` relates what the loop collects to
  the tables and keys of the text.
-/

import Mathlib.Data.List.DropRight
import Cwhip.Lib.Colouring
import Cwhip.Lib.Lines
import Cwhip.Packages.Identifiers
import Cwhip.Packages.Integrity
import Cwhip.Packages.Resolver

namespace Cwhip.Packages

open Cwhip.Lib
open Cwhip.Parser (isDigit)

/-! ## Words of a line -/

def isBlank (c : Char) : Bool := c = ' ' || c = '\t' || c = '\r' || c = '\n'

def trim (value : Text) : Text := (value.dropWhile isBlank).rdropWhile isBlank

/-- `uncomment`; the flags are its `quoted` and `escaped`. -/
def uncomment : Bool → Bool → Text → Text
  | _, _, [] => []
  | true, true, c :: rest => c :: uncomment true false rest
  | true, false, c :: rest => c :: uncomment (c ≠ '"') (c = '\\') rest
  | false, _, c :: rest => if c = '#' then [] else c :: uncomment (c = '"') false rest

def bareKey : Text → Bool
  | [] => false
  | front :: rest =>
    (isAlpha front || front = '_') && rest.all fun character => isAlnum character || character =
      '_' || character = '-'

/-- `[A-Za-z0-9_.-]+` -/
def repositoryPart (value : Text) : Bool := value ≠ [] && value.all fun c => isAlnum c || c = '_' ||
    c = '.' || c = '-'

def githubRepository (value : Text) : Bool :=
  match cutAt '/' value with
  | (owner, some repository) =>
    repositoryPart owner && repositoryPart repository && ! [".".toList, "..".toList].contains owner
      && ! [".".toList, "..".toList].contains repository
  | (_, none) => false

/-- `[0-9a-f]{count}` -/
def lowerHex (count : Nat) (value : Text) : Bool :=
  value.length = count && value.all fun c => isDigit c || ('a' ≤ c && c ≤ 'f')

def escapes : List (Char × Char) :=
  [('"', '"'), ('\\', '\\'), ('b', '\x08'), ('t', '\t'), ('n', '\n'), ('f', '\x0c'), ('r', '\r')]

/-- The text between the quotes of `parseQuotedString`. -/
def unquote : Text → Except Text Text
  | [] => .ok []
  | ['\\'] => .error "incomplete string escape".toList
  | '\\' :: c :: rest => do
      let character ← require (escapes.lookup c) "unsupported string escape".toList
      let result ← unquote rest
      pure (character :: result)
  | c :: rest => do
      ensure (c ≠ '"' ∧ 0x20 ≤ c.toNat) "invalid character in quoted string".toList
      let result ← unquote rest
      pure (c :: result)

/-- Where an exception of the two readers of values says it happened. -/
def located (path : Text) (number : Nat) (message : Text) : Text :=
  path ++ ':' :: (toString number).toList ++ ": ".toList ++ message

def parseQuotedString (value path : Text) (number : Nat) : Except Text Text :=
  if value.length < 2 ∨ value.head? ≠ some '"' ∨ value.getLast? ≠ some '"' then
    .error (located path number "expected a quoted TOML string".toList)
  else (unquote value.tail.dropLast).mapError (located path number)

/-- `skipWhitespace`; it stops at the bracket that ends the array. -/
def skipWhitespace (rest : Text) : Text := rest.dropWhile fun c => c = ' ' || c = '\t'

/-- The rest of an item up to its closing quote, and what follows; the last
    character of the array is not looked at. -/
def closeItem : Bool → Text → Option (Text × Text)
  | _, [] => none
  | _, [_] => none
  | escaped, c :: next :: rest =>
    if ! escaped && c = '"' then some ([c], next :: rest)
    else (closeItem (! escaped && c = '\\') (next :: rest)).map (Prod.map (c :: ·) id)

theorem closeItem_length {escaped : Bool} {rest item after : Text}
    (h : closeItem escaped rest = some (item, after)) :
    after.length < rest.length := by
  fun_induction closeItem escaped rest generalizing item after with
  | case1 => cases h
  | case2 => cases h
  | case3 =>
    cases h
    exact Nat.lt_succ_self _
  | case4 escaped c next rest _ ih =>
    obtain ⟨⟨_, inner⟩, hinner, heq⟩ := Option.map_eq_some_iff.mp h
    cases heq
    exact (ih hinner).trans (Nat.lt_succ_self _)

/-- The loop of `parseStringArray`: the items, and where it stops. -/
def arrayItems (path : Text) (number : Nat) (rest : Text) : Except Text (List Text × Text) :=
  match rest with
  | c :: next :: tail =>
    if c = ']' then .ok ([], rest)
    else if c ≠ '"' then .error (located path number "expected a quoted string in array".toList)
    else
      match _hitem : closeItem false (next :: tail) with
      | none => .error (located path number "unterminated string in array".toList)
      | some (item, after) => do
          let first ← parseQuotedString ('"' :: item) path number
          match _hafter : skipWhitespace after with
          | ']' :: rest => pure ([first], ']' :: rest)
          | ',' :: rest =>
            let (others, last) ← arrayItems path number (skipWhitespace rest)
            pure (first :: others, last)
          | _ => .error (located path number "expected ',' or ']' after array value".toList)
  | _ => .ok ([], rest)
termination_by rest.length
decreasing_by
  have hclose := closeItem_length _hitem
  have hskip : (skipWhitespace after).length ≤ after.length := (List.dropWhile_suffix _).length_le
  have hrest : (skipWhitespace rest).length ≤ rest.length := (List.dropWhile_suffix _).length_le
  rw [_hafter] at hskip
  simp only [List.length_cons] at *
  omega

def parseStringArray (value path : Text) (number : Nat) : Except Text (List Text) := do
  ensure (2 ≤ value.length ∧ value.head? = some '[' ∧ value.getLast? = some ']')
    (located path number "expected an array of quoted strings".toList)
  let (result, rest) ← arrayItems path number (skipWhitespace value.tail)
  ensure (rest = [']']) (located path number "unexpected content after string array".toList)
  pure result

/-! ## Reading the lines -/

/-- What a line is, once its comment and the blanks around it are gone. -/
inductive LockLine where
  | blank
  | table (section_ : Text)
  | entry (key value : Text)
  | other

def lockLine (line : Text) : LockLine :=
  let line := trim (uncomment false false line)
  if line = [] then .blank
  else if line.head? = some '[' ∧ line.getLast? = some ']' then .table (trim line.tail.dropLast)
  else
    match cutAt '=' line with
    | (key, some value) => .entry (trim key) (trim value)
    | (_, none) => .other

def modulesTable : Text := "modules".toList

def packagesTable : Text := "packages.".toList

def manifestKey : Text := "manifest-sha256".toList

def dependenciesKey : Text := "dependencies".toList

/-- The keys that a locked package has besides its dependencies. -/
def packageKeys : List Text := ["repo", "version", "ref", "commit", "sha256"].map String.toList

structure LockState where
  metadata : OrderedMap Text Text
  sections : Finset Text
  keys : Finset Text
  current : Text
  policy : ModuleVersionPolicy

def LockState.start (path : Text) : LockState := ⟨.empty, ∅, ∅, [], ⟨path, .empty, .empty, .empty⟩⟩

/-- `fail` -/
def lockFailure (path message : Text) : Text :=
  path ++ ": ".toList ++ message ++
    "; run 'cwhip-pkg install' to verify or regenerate the lock".toList

def quoted (name : Text) : Text := '\'' :: name ++ ['\'']

def readTable (path : Text) (state : LockState) (name : Text) : Except Text LockState := do
  ensure (name = modulesTable ∨ packagesTable <+: name ∧ identifier (name.drop 9))
    (lockFailure path ("unsupported lock table [".toList ++ name ++ [']']))
  ensure (name ∉ state.sections)
    (lockFailure path ("duplicate lock table [".toList ++ name ++ [']']))
  pure { state with current := name, sections := insert name state.sections }

def readMetadata (path : Text) (number : Nat) (state : LockState) (key value : Text) :
    Except Text LockState :=
  if key = "schema".toList then do
    ensure (value = ['1']) (lockFailure path "unsupported lock schema".toList)
    pure { state with metadata := state.metadata.insert key value }
  else if key = manifestKey then do
    let digest ← parseQuotedString value path number
    pure { state with metadata := state.metadata.insert key digest }
  else .error (lockFailure path ("unknown lock metadata ".toList ++ quoted key))

def readModule (path : Text) (number : Nat) (policy : ModuleVersionPolicy) (key value : Text) :
    Except Text ModuleVersionPolicy := do
  ensure (identifier key) (lockFailure path "invalid module identifier".toList)
  let versions ← parseStringArray value path number
  ensure (versions.length = 1 ∧ ((versions.head?.bind parseVersion).isSome))
    (lockFailure path "locked modules require exactly one exact SemVer version".toList)
  pure { policy with versions := policy.versions.insert key versions }

def readPackage (path : Text) (number : Nat) (policy : ModuleVersionPolicy)
    (name key value : Text) :
    Except Text ModuleVersionPolicy :=
  if key = dependenciesKey then do
    let dependencies ← parseStringArray value path number
    pure { policy with lockedDependencies := policy.lockedDependencies.insert name dependencies }
  else if key ∈ packageKeys then do
    let text ← parseQuotedString value path number
    let entry := (policy.lockedPackages.find? name).getD .empty
    pure { policy with lockedPackages := policy.lockedPackages.insert name (entry.insert key text) }
  else .error (lockFailure path ("unknown locked package key ".toList ++ quoted key))

def readEntry (path : Text) (number : Nat) (state : LockState) (key value : Text) :
    Except Text LockState := do
  let full := state.current ++ '.' :: key
  ensure (bareKey key ∧ full ∉ state.keys)
    (lockFailure path ("invalid or duplicate key ".toList ++ quoted key))
  let state := { state with keys := insert full state.keys }
  if state.current = [] then readMetadata path number state key value
  else do
    let policy ← if state.current = modulesTable then readModule path number state.policy key value
      else readPackage path number state.policy (state.current.drop 9) key value
    pure { state with policy := policy }

/-- One round of the loop, for a line and its number. -/
def readLine (path : Text) (state : LockState) (line : Text × Nat) : Except Text LockState :=
  match lockLine line.1 with
  | .blank => .ok state
  | .table name => readTable path state name
  | .entry key value => readEntry path line.2 state key value
  | .other => .error (lockFailure path "expected key = value".toList)

/-! ## Checking the graph -/

def ModuleVersionPolicy.lockedVersion (policy : ModuleVersionPolicy) (name : Text) : Option Text :=
  (policy.versions.find? name).bind List.head?

/-- The package that a dependency names, and the version. -/
def dependencyTarget (dependency : Text) : Text := (cutAt '=' dependency).1

def checkDependency (policy : ModuleVersionPolicy) (unique : Finset Text) (dependency : Text) :
    Except Text (Finset Text) := do
  let target := dependencyTarget dependency
  let version := (cutAt '=' dependency).2
  ensure (version.isSome ∧ policy.lockedVersion target = version ∧ target ∉ unique)
    (lockFailure policy.path ("invalid or conflicting locked dependency ".toList ++
      quoted dependency))
  pure (insert target unique)

/-- The entry has each key of a package and no other, the locked version, and a digest. -/
def entryFits (entry : OrderedMap Text Text) (version : Option Text) : Prop :=
  entry.entries.length = 5 ∧ (∀ key ∈ packageKeys, (entry.find? key).isSome) ∧
    entry.find? "version".toList = version ∧ (entry.find? "sha256".toList).all (lowerHex 64)

instance (entry : OrderedMap Text Text) (version : Option Text) :
    Decidable (entryFits entry version) := by
  unfold entryFits
  infer_instance

/-- Where the package comes from: the installation, or a tagged commit. -/
def identityFits (entry : OrderedMap Text Text) (version : Option Text) : Prop :=
  let builtin := some "builtin".toList
  if entry.find? "repo".toList = builtin then
    entry.find? "ref".toList = builtin ∧ entry.find? "commit".toList = builtin
  else (entry.find? "repo".toList).all githubRepository ∧
    (entry.find? "commit".toList).all (fun commit => lowerHex 40 commit || lowerHex 64 commit) ∧
    entry.find? "ref".toList = version.map ("refs/tags/".toList ++ ·)

instance (entry : OrderedMap Text Text) (version : Option Text) :
    Decidable (identityFits entry version) := by
  unfold identityFits
  infer_instance

def checkPackage (policy : ModuleVersionPolicy) (name : Text) : Except Text Unit := do
  let entry ← require (policy.lockedPackages.find? name)
    (lockFailure policy.path ("missing locked package ".toList ++ quoted name))
  let version := policy.lockedVersion name
  ensure (entryFits entry version)
    (lockFailure policy.path ("invalid locked package ".toList ++ quoted name))
  ensure (identityFits entry version) (lockFailure policy.path
    (if entry.find? "repo".toList =
      some "builtin".toList then "invalid builtin package identity".toList
      else "invalid repository, ref, or commit for ".toList ++ quoted name))
  let dependencies ← require (policy.lockedDependencies.find? name)
    (lockFailure policy.path ("missing dependency list for ".toList ++ quoted name))
  let _ ← dependencies.foldlM (checkDependency policy) ∅

/-- The lock and the manifest beside it, with what they hold if they can be opened. -/
structure LockFiles where
  path : Text
  content : Option Text
  manifestPath : Text
  manifest : Option Bytes

def packageFileSha256 (path : Text) (content : Option Bytes) : Except Text Text :=
  match hashFile .start ⟨[], content⟩ with
  | .ok hash => .ok hash.finish
  | .error _ => .error ("cannot read package integrity input: ".toList ++ path)

/-- `readLockedPolicy` up to the search for cycles. -/
def readLock (files : LockFiles) : Except Text ModuleVersionPolicy := do
  let text ← require files.content (lockFailure files.path "cannot open lockfile".toList)
  let state ← ((lines '\n' text).zipIdx 1).foldlM (readLine files.path) (.start files.path)
  let digest := (state.metadata.find? manifestKey).getD []
  ensure (state.metadata.find? "schema".toList = some ['1'] ∧ lowerHex 64 digest ∧
    modulesTable ∈ state.sections)
    (lockFailure files.path "missing or invalid lock metadata".toList)
  let actual ← packageFileSha256 files.manifestPath files.manifest
  ensure (actual = digest)
    (lockFailure files.path "stale lockfile: cwhip-pkg.toml has changed".toList)
  let policy := state.policy
  ensure (policy.lockedPackages.entries.length = policy.versions.entries.length ∧
      policy.lockedDependencies.entries.length = policy.versions.entries.length)
    (lockFailure files.path "lock package graph does not match [modules]".toList)
  let _ ← (policy.versions.entries.map Prod.fst).mapM (checkPackage policy)
  pure policy

/-- What the search for cycles goes on to. -/
def lockedTargets (policy : ModuleVersionPolicy) (name : Text) : Except Failure (List Text) := do
  let dependencies ← atKey policy.lockedDependencies name
  pure (dependencies.map dependencyTarget)

def readLockedPolicy (files : LockFiles) : Except Failure ModuleVersionPolicy := do
  let policy ← (readLock files).mapError .message
  let names := policy.versions.entries.map Prod.fst
  let cyclic := fun name =>
    .message (lockFailure files.path ("cyclic locked dependency involving ".toList ++ quoted name))
  let _ ← names.foldlM (Colouring.visit (lockedTargets policy) cyclic .outOfFuel (names.length + 1))
    fun _ => 0
  pure policy

/-! ## What a lock says -/

def lockTables (lines : List Text) : List Text :=
  lines.filterMap fun line =>
    match lockLine line with
    | .table name => some name
    | _ => none

/-- The tables, keys and values that the lines give, from the table that is open. -/
def lockEntries : Text → List Text → List (Text × Text × Text)
  | _, [] => []
  | current, line :: rest =>
    match lockLine line with
    | .table name => lockEntries name rest
    | .entry key value => (current, key, value) :: lockEntries current rest
    | _ => lockEntries current rest

def LockFiles.lines (files : LockFiles) : List Text := Lib.lines '\n' (files.content.getD [])

def LockFiles.Says (files : LockFiles) (table key : Text) : Prop :=
  ∃ value, (table, key, value) ∈ lockEntries [] files.lines

variable {path key value line : Text} {number : Nat} {state state' : LockState}
    {policy policy' : ModuleVersionPolicy}

/-- The table that is open: none yet, `[modules]`, or that of a package. -/
def Supported (current : Text) : Prop := current = [] ∨ current = modulesTable ∨
    ∃ name, current = packagesTable ++ name

theorem packagesTable_ne (name : Text) : packagesTable ++ name ≠ [] ∧ packagesTable ++ name ≠
    modulesTable :=
  ⟨List.append_ne_nil_of_left_ne_nil (by decide) name, fun h => by
    have hhead := congrArg List.head? h
    rw [List.head?_append_of_ne_nil _ (by decide)] at hhead
    exact absurd hhead (by decide)⟩

structure Enters (path : Text) (number : Nat) (state : LockState) (key value : Text)
    (state' : LockState) : Prop where
  current : state'.current = state.current
  sections : state'.sections = state.sections
  versions : ∀ name, (state'.policy.versions.find? name).isSome ↔
    (state.policy.versions.find? name).isSome ∨ (state.current = modulesTable ∧ key = name)
  dependencies : ∀ name, (state'.policy.lockedDependencies.find? name).isSome ↔
    (state.policy.lockedDependencies.find? name).isSome ∨ (state.current = packagesTable ++ name ∧
      key = dependenciesKey)
  packages : ∀ name, (state'.policy.lockedPackages.find? name).isSome ↔
    (state.policy.lockedPackages.find? name).isSome ∨ (state.current = packagesTable ++ name ∧
      key ≠ dependenciesKey)
  digest : ∀ digest, state'.metadata.find? manifestKey = some digest →
    state.metadata.find? manifestKey = some digest ∨
    (state.current = [] ∧ key = manifestKey ∧ parseQuotedString value path number = .ok digest)

theorem readMetadata_enters (hcurrent : state.current = [])
    (h : readMetadata path number state key value = .ok state') :
    Enters path number state key value state' := by
  have hmodules (name : Text) : ¬ (state.current = modulesTable ∧ key = name) := fun hc =>
    absurd (hcurrent.symm.trans hc.1) (by decide)
  have hpackages (name : Text) (p : Prop) : ¬ (state.current = packagesTable ++ name ∧ p) :=
      fun hc =>
    (packagesTable_ne name).1 (hc.1.symm.trans hcurrent)
  unfold readMetadata at h
  split at h
  · next hkey =>
    simp only [bind_eq_ok, pure_eq_ok] at h
    obtain ⟨-, -, rfl⟩ := h
    have hne : manifestKey ≠ key := by
      rw [hkey]
      decide
    refine ⟨rfl, rfl, by simp [hmodules], by simp [hpackages], by simp [hpackages],
      fun digest hd => .inl ?_⟩
    rwa [OrderedMap.find?_insert_of_ne _ _ hne] at hd
  · split at h
    · next hkey =>
      simp only [bind_eq_ok, pure_eq_ok] at h
      obtain ⟨parsed, hparsed, rfl⟩ := h
      refine ⟨rfl, rfl, by simp [hmodules], by simp [hpackages], by simp [hpackages],
        fun digest hd => .inr ?_⟩
      rw [hkey, OrderedMap.find?_insert_self] at hd
      exact ⟨hcurrent, hkey, Option.some.inj hd ▸ hparsed⟩
    · cases h

theorem isSome_insert {ν : Type} (map : OrderedMap Text ν) (key name : Text) (value : ν) :
    ((map.insert key value).find? name).isSome ↔ (map.find? name).isSome ∨ key = name := by
  rw [OrderedMap.find?_insert]
  split
  · next heq => simp [heq]
  · next hne => simp [Ne.symm hne]

theorem readModule_ok (h : readModule path number policy key value = .ok policy') :
    ∃ versions, policy' = { policy with versions := policy.versions.insert key versions } := by
  simp only [readModule, bind_eq_ok, pure_eq_ok] at h
  obtain ⟨-, -, versions, -, -, -, rfl⟩ := h
  exact ⟨versions, rfl⟩

theorem readPackage_ok {name : Text} (h : readPackage path number policy name key value =
    .ok policy') :
    (key = dependenciesKey ∧ ∃ dependencies,
      policy' = { policy with lockedDependencies :=
      policy.lockedDependencies.insert name dependencies }) ∨
    (key ≠ dependenciesKey ∧ ∃ entry,
      policy' = { policy with lockedPackages := policy.lockedPackages.insert name entry }) := by
  unfold readPackage at h
  split at h
  · next hkey =>
    simp only [bind_eq_ok, pure_eq_ok] at h
    obtain ⟨dependencies, -, rfl⟩ := h
    exact .inl ⟨hkey, dependencies, rfl⟩
  · next hkey =>
    split at h
    · simp only [bind_eq_ok, pure_eq_ok] at h
      obtain ⟨text, -, rfl⟩ := h
      exact .inr ⟨hkey, _, rfl⟩
    · cases h

theorem readEntry_enters (hsupported : Supported state.current)
    (h : readEntry path number state key value = .ok state') :
    Enters path number state key value state' := by
  simp only [readEntry, bind_eq_ok] at h
  obtain ⟨-, -, h⟩ := h
  split at h
  · next hempty =>
    have hentered := readMetadata_enters (by exact hempty) h
    exact ⟨hentered.current, hentered.sections, hentered.versions, hentered.dependencies,
      hentered.packages,
      hentered.digest⟩
  · next hempty =>
    rcases hsupported with hnone | hmodules | ⟨owner, howner⟩
    · exact absurd hnone hempty
    · rw [if_pos hmodules] at h
      simp only [bind_eq_ok, pure_eq_ok] at h
      obtain ⟨policy', hpolicy, rfl⟩ := h
      obtain ⟨versions, rfl⟩ := readModule_ok hpolicy
      have hne (name : Text) :
        modulesTable ≠ packagesTable ++ name := (packagesTable_ne name).2.symm
      refine ⟨rfl, rfl, fun name => ?_, fun name => ?_, fun name => ?_, fun _ => .inl⟩
      · simp [hmodules, isSome_insert]
      · simp [hmodules, hne]
      · simp [hmodules, hne]
    · -- a package's table: its dependencies and its other keys go to two maps
      have hne := (packagesTable_ne owner).2
      rw [howner, if_neg hne, List.drop_left' (by decide)] at h
      simp only [bind_eq_ok, pure_eq_ok] at h
      obtain ⟨policy', hpolicy, rfl⟩ := h
      obtain ⟨hkey, dependencies, rfl⟩ | ⟨hkey, entry, rfl⟩ := readPackage_ok hpolicy
      all_goals
        refine ⟨howner.symm, rfl, fun name => ?_, fun name => ?_, fun name => ?_, fun _ => .inl⟩
        · simp [howner, hne]
        · simp [howner, hkey, isSome_insert]
        · simp [howner, hkey, isSome_insert]

structure Reads (path : Text) (state : LockState) (lines : List Text) (state' : LockState) :
    Prop where
  sections : ∀ name, name ∈ state'.sections ↔ name ∈ state.sections ∨ name ∈ lockTables lines
  versions : ∀ name, (state'.policy.versions.find? name).isSome ↔
    (state.policy.versions.find? name).isSome ∨ ∃ value, (modulesTable, name, value) ∈ lockEntries
      state.current lines
  dependencies : ∀ name, (state'.policy.lockedDependencies.find? name).isSome ↔
    (state.policy.lockedDependencies.find? name).isSome ∨
      ∃ value, (packagesTable ++ name, dependenciesKey, value) ∈ lockEntries state.current lines
  packages : ∀ name, (state'.policy.lockedPackages.find? name).isSome ↔
    (state.policy.lockedPackages.find? name).isSome ∨ ∃ other, other ≠ dependenciesKey ∧
      ∃ value, (packagesTable ++ name, other, value) ∈ lockEntries state.current lines
  digest : ∀ digest, state'.metadata.find? manifestKey = some digest →
    state.metadata.find? manifestKey = some digest ∨
    ∃ value number, ([], manifestKey, value) ∈ lockEntries state.current lines ∧
      parseQuotedString value path number = .ok digest

theorem exists_entry_cons {table name current : Text} {entries : List (Text × Text × Text)} :
    (∃ v, (table, name, v) ∈ (current, key, value) :: entries) ↔
      (current = table ∧ key = name) ∨ ∃ v, (table, name, v) ∈ entries := by
  simp only [List.mem_cons, Prod.mk.injEq, exists_or, exists_and_left, exists_eq, and_true]
  rw [@eq_comm _ table, @eq_comm _ name]

theorem Enters.reads {lines : List Text} {last : LockState}
    (h : Enters path number state key value state')
    (hline : lockLine line = .entry key value) (hrest : Reads path state' lines last) :
    Reads path state (line :: lines) last := by
  have hentries : lockEntries state.current (line :: lines)
      = (state.current, key, value) :: lockEntries state'.current lines := by
    rw [lockEntries, hline, h.current]
  have htables : lockTables (line :: lines) = lockTables lines := by
    rw [lockTables, List.filterMap_cons, hline]
    rfl
  constructor
  · intro name
    rw [hrest.sections, h.sections, htables]
  · intro name
    rw [hrest.versions, h.versions, hentries, exists_entry_cons, or_assoc]
  · intro name
    rw [hrest.dependencies, h.dependencies, hentries, exists_entry_cons, or_assoc]
  · intro name
    rw [hrest.packages, h.packages, hentries, or_assoc]
    refine or_congr_right ?_
    simp only [exists_entry_cons, and_or_left, exists_or]
    refine or_congr_left ⟨fun ⟨hcurrent, hkey⟩ => ⟨key, hkey, hcurrent, rfl⟩, ?_⟩
    rintro ⟨other, hother, hcurrent, rfl⟩
    exact ⟨hcurrent, hother⟩
  · intro digest hdigest
    rw [hentries]
    obtain hfound | ⟨given, at_, hmem, hparsed⟩ := hrest.digest digest hdigest
    · refine (h.digest digest hfound).imp_right fun ⟨hcurrent, hkey, hparsed⟩ =>
        ⟨value, number, ?_, hparsed⟩
      rw [hcurrent, hkey]
      exact List.mem_cons_self
    · exact .inr ⟨given, at_, List.mem_cons_of_mem _ hmem, hparsed⟩

theorem Reads.skip {lines : List Text} {last : LockState} (hrest : Reads path state' lines last)
    (hpolicy : state'.policy = state.policy) (hmetadata : state'.metadata = state.metadata)
    (hsections : ∀ name, name ∈ state'.sections ∨ name ∈ lockTables lines ↔
      name ∈ state.sections ∨ name ∈ lockTables (line :: lines))
    (hentries : lockEntries state.current (line :: lines) = lockEntries state'.current lines) :
    Reads path state (line :: lines) last := by
  constructor
  · exact fun name => (hrest.sections name).trans (hsections name)
  all_goals rw [hentries]
  · exact hpolicy ▸ hrest.versions
  · exact hpolicy ▸ hrest.dependencies
  · exact hpolicy ▸ hrest.packages
  · exact hmetadata ▸ hrest.digest

theorem readLines_reads {lines : List (Text × Nat)} (hsupported : Supported state.current)
    (h : lines.foldlM (readLine path) state = .ok state') :
    Reads path state (lines.map Prod.fst) state' := by
  induction lines generalizing state with
  | nil =>
    cases h
    exact ⟨by simp [lockTables], by simp [lockEntries], by simp [lockEntries],
      by simp [lockEntries], fun _ => .inl⟩
  | cons line rest ih =>
    obtain ⟨middle, hfirst, hrest⟩ := foldlM_cons_ok.mp h
    rw [List.map_cons]
    unfold readLine at hfirst
    split at hfirst
    · next hline =>
      cases hfirst
      exact (ih hsupported hrest).skip rfl rfl (by simp [lockTables, hline])
        (by rw [lockEntries, hline])
    · next name hline =>
      simp only [readTable, bind_eq_ok, ensure_eq_ok, pure_eq_ok] at hfirst
      obtain ⟨-, hname, -, -, rfl⟩ := hfirst
      have hopened : Supported name := .inr (hname.imp_right fun h => h.1.imp fun _ => Eq.symm)
      exact (ih hopened hrest).skip rfl rfl (by simp [lockTables, hline, or_assoc, or_left_comm])
        (by rw [lockEntries, hline])
    · next key value hline =>
      have hentered := readEntry_enters hsupported hfirst
      exact hentered.reads hline (ih (by rwa [hentered.current]) hrest)
    · cases hfirst

/-! ## The metadata -/

/-- A digest is accepted on every line on which its text may stand. -/
theorem parseQuotedString_line {digest : Text}
    (h : parseQuotedString value path number = .ok digest)
    (other : Nat) : parseQuotedString value path other = .ok digest := by
  unfold parseQuotedString at h ⊢
  split at h
  · cases h
  · next hquoted =>
    rw [if_neg hquoted, mapError_eq_ok]
    exact mapError_eq_ok.mp h

/-- A key is new, and outside of the tables it is one of two. -/
theorem readEntry_metadata (h : readEntry path number state key value = .ok state') :
    state.current ++ '.' :: key ∉ state.keys ∧
    state'.current = state.current ∧ state'.keys = insert (state.current ++ '.' :: key) state.keys ∧
    ((state.current ≠ [] ∧ state'.metadata = state.metadata) ∨
    (state.current = [] ∧ key = "schema".toList ∧
      state'.metadata = state.metadata.insert "schema".toList ['1']) ∨
    (state.current = [] ∧ key = manifestKey ∧ ∃ digest, parseQuotedString value path number =
      .ok digest ∧
      state'.metadata = state.metadata.insert manifestKey digest)) := by
  simp only [readEntry, bind_eq_ok, ensure_eq_ok] at h
  obtain ⟨-, ⟨-, hnew⟩, h⟩ := h
  refine ⟨hnew, ?_⟩
  split at h
  · next hempty =>
    unfold readMetadata at h
    split at h
    · next hkey =>
      simp only [bind_eq_ok, ensure_eq_ok, pure_eq_ok] at h
      obtain ⟨-, hvalue, rfl⟩ := h
      exact ⟨rfl, rfl, .inr (.inl ⟨hempty, hkey, by rw [hkey, hvalue]⟩)⟩
    · split at h
      · next hkey =>
        simp only [bind_eq_ok, pure_eq_ok] at h
        obtain ⟨digest, hdigest, rfl⟩ := h
        exact ⟨rfl, rfl, .inr (.inr ⟨hempty, hkey, digest, hdigest, by rw [hkey]⟩)⟩
      · cases h
  · next hopen =>
    -- in a table the metadata stays as it is
    split at h
    all_goals
      simp only [bind_eq_ok, pure_eq_ok] at h
      obtain ⟨-, -, rfl⟩ := h
      exact ⟨rfl, rfl, .inl ⟨hopen, rfl⟩⟩

/-- What the metadata is after these lines. -/
structure Recorded (path : Text) (state : LockState) (lines : List Text) (state' : LockState) :
    Prop where
  schema : state'.metadata.find? "schema".toList = some ['1'] ↔
    state.metadata.find? "schema".toList = some ['1'] ∨
      ∃ value, ([], "schema".toList, value) ∈ lockEntries state.current lines
  /-- A second digest is refused. -/
  kept : '.' :: manifestKey ∈ state.keys →
    state'.metadata.find? manifestKey = state.metadata.find? manifestKey
  manifest : ∀ value, ([], manifestKey, value) ∈ lockEntries state.current lines →
    ∃ number digest, parseQuotedString value path number = .ok digest ∧
      state'.metadata.find? manifestKey = some digest

theorem Recorded.skip {lines : List Text} {last : LockState}
    (hrest : Recorded path state' lines last)
    (hkeys : state'.keys = state.keys) (hmetadata : state'.metadata = state.metadata)
    (hentries : lockEntries state.current (line :: lines) = lockEntries state'.current lines) :
    Recorded path state (line :: lines) last := by
  constructor
  · rw [hentries, ← hmetadata]
    exact hrest.schema
  · rw [← hkeys, ← hmetadata]
    exact hrest.kept
  · rw [hentries]
    exact hrest.manifest

theorem Recorded.enter {lines : List Text} {last : LockState}
    (hrest : Recorded path state' lines last)
    (hline : lockLine line = .entry key value)
    (h : readEntry path number state key value = .ok state') :
    Recorded path state (line :: lines) last := by
  obtain ⟨hnew, hcurrent, hkeys, hmetadata⟩ := readEntry_metadata h
  have hentries : lockEntries state.current (line :: lines)
      = (state.current, key, value) :: lockEntries state'.current lines := by
    rw [lockEntries, hline, hcurrent]
  have hnames : "schema".toList ≠ manifestKey := by decide
  constructor
  · rw [hrest.schema, hentries, exists_entry_cons]
    obtain ⟨hopen, hsame⟩ | ⟨hempty, hkey, hinsert⟩ | ⟨-, hkey, digest, -, hinsert⟩ := hmetadata
    · rw [hsame, or_iff_right (a := state.current = [] ∧ _) fun heq => hopen heq.1]
    · rw [hinsert, OrderedMap.find?_insert_self]
      exact iff_of_true (.inl rfl) (.inr (.inl ⟨hempty, hkey⟩))
    · rw [hinsert, OrderedMap.find?_insert_of_ne _ _ hnames,
        or_iff_right (a := state.current = [] ∧ _) fun heq => hnames (heq.2.symm.trans hkey)]
  · intro hknown
    rw [hrest.kept (hkeys ▸ Finset.mem_insert_of_mem hknown)]
    obtain ⟨-, hsame⟩ | ⟨-, -, hinsert⟩ | ⟨hempty, hkey, -⟩ := hmetadata
    · rw [hsame]
    · rw [hinsert, OrderedMap.find?_insert_of_ne _ _ hnames.symm]
    · -- the key would be there twice
      rw [hempty, hkey] at hnew
      exact absurd hknown hnew
  · intro other hmem
    rw [hentries] at hmem
    rcases List.mem_cons.mp hmem with heq | hmem
    · simp only [Prod.mk.injEq] at heq
      obtain ⟨hempty, hkey, rfl⟩ := heq
      have hrecorded : '.' :: manifestKey ∈ state'.keys := by
        rw [hkeys, ← hempty, ← hkey]
        exact Finset.mem_insert_self ..
      obtain ⟨hopen, -⟩ | ⟨-, hschema, -⟩ | ⟨-, -, digest, hdigest, hinsert⟩ := hmetadata
      · exact absurd hempty.symm hopen
      · exact absurd (hschema.symm.trans hkey.symm) hnames
      · refine ⟨number, digest, hdigest, ?_⟩
        rw [hrest.kept hrecorded, hinsert, OrderedMap.find?_insert_self]
    · exact hrest.manifest other hmem

theorem readLines_recorded {lines : List (Text × Nat)}
    (h : lines.foldlM (readLine path) state = .ok state') :
    Recorded path state (lines.map Prod.fst) state' := by
  induction lines generalizing state with
  | nil =>
    cases h
    exact ⟨by simp [lockEntries], fun _ => rfl, by simp [lockEntries]⟩
  | cons line rest ih =>
    obtain ⟨middle, hfirst, hrest⟩ := foldlM_cons_ok.mp h
    rw [List.map_cons]
    unfold readLine at hfirst
    split at hfirst
    · next hline =>
      cases hfirst
      exact (ih hrest).skip rfl rfl (by rw [lockEntries, hline])
    · next name hline =>
      simp only [readTable, bind_eq_ok, pure_eq_ok] at hfirst
      obtain ⟨-, -, -, -, rfl⟩ := hfirst
      exact (ih hrest).skip rfl rfl (by rw [lockEntries, hline])
    · next key value hline => exact (ih hrest).enter hline hfirst
    · cases hfirst

end Cwhip.Packages
