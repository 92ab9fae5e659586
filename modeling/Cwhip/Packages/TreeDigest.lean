/-
  Cwhip.Packages.TreeDigest

  The digest of a package tree, as the package manager computes it, and when
  the compiler's digest is the same.

  The package manager walks the tree by directories, checks every entry and
  orders the files by code points; the compiler walks it depth first and orders
  the files by bytes.
-/

import Mathlib.Data.List.Pairwise
import Cwhip.Packages.Version
import Cwhip.Packages.TreeBinding

namespace Cwhip.Packages

open Cwhip.Lib

/-! ## The package manager's digest -/

def gitName : Text := ['.', 'g', 'i', 't']

/-- The path as one text, its names separated by slashes. -/
def asPosix (path : Path Text) : Text := ['/'].intercalate path

section Walk

variable {ν : Type}

def Entries.toList : Entries ν → List (ν × Node ν)
  | .nil => []
  | .cons name node rest => (name, node) :: rest.toList

def Node.isDirectory : Node ν → Bool
  | .directory _ _ => true
  | _ => false

/-- The file that a path names, if it is a regular file. -/
def Node.ownFile (path : Path ν) : Node ν → List (TreeFile ν)
  | .file content => [⟨path, content⟩]
  | _ => []

end Walk

/-- One entry of a listed directory; its file, if it is regular. -/
def checkEntry (path : Path Text) (entry : Text × Node Text) :
    Except (TreeError Text) (List (TreeFile Text)) := do
  ensure (entry.1 ≠ gitName) (.rejected (path ++ [entry.1]))
  match entry.2 with
  | .symlink => .error (.rejected (path ++ [entry.1]))
  | .special => .error (.rejected (path ++ [entry.1]))
  | node => pure (node.ownFile (path ++ [entry.1]))

/-- The files of one listed directory: its subdirectories are checked first. -/
def Entries.ownFiles (path : Path Text) (entries : Entries Text) :
    Except (TreeError Text) (List (TreeFile Text)) := do
  let directories := entries.toList.filter (fun entry => entry.2.isDirectory)
  let filenames := entries.toList.filter (fun entry => !entry.2.isDirectory)
  let files ← (directories ++ filenames).mapM (checkEntry path)
  pure files.flatten

mutual

/-- The files below a directory: its own, then those of its subdirectories.  A
    directory that cannot be listed is passed over. -/
def Node.walk (path : Path Text) : Node Text → Except (TreeError Text) (List (TreeFile Text))
  | .directory true entries => do
      let own ← entries.ownFiles path
      let below ← entries.walkBelow path
      pure (own ++ below)
  | .directory false _ => .ok []
  | .file _ => .ok []
  | .symlink => .ok []
  | .special => .ok []

def Entries.walkBelow (path : Path Text) :
    Entries Text → Except (TreeError Text) (List (TreeFile Text))
  | .nil => .ok []
  | .cons name node rest => do
      let own ← node.walk (path ++ [name])
      let others ← rest.walkBelow path
      pure (own ++ others)

end

/-- One file of the tree; the hash object is what has been fed to it. -/
def feedFile (fed : Bytes) (file : TreeFile Text) : Except (TreeError Text) Bytes := do
  let content ← require file.content (.unreadable file.path)
  pure (fed ++ Utf8.encode (asPosix file.path) ++ [0] ++ content ++ [0])

def treeDigest (root : Node Text) : Except (TreeError Text) (List Char) := do
  ensure (root.isDirectory = true) .notDirectory
  let files ← root.walk []
  let sorted := files.insertionSort (fun a b => asPosix a.path ≤ asPosix b.path)
  let fed ← sorted.foldlM feedFile []
  pure (Sha256.hexdigest fed)

/-! ## The tree as the compiler sees it -/

section Names

variable {ν μ : Type}

mutual

def Node.mapNames (f : ν → μ) : Node ν → Node μ
  | .file content => .file content
  | .directory listable entries => .directory listable (entries.mapNames f)
  | .symlink => .symlink
  | .special => .special

def Entries.mapNames (f : ν → μ) : Entries ν → Entries μ
  | .nil => .nil
  | .cons name node rest => .cons (f name) (node.mapNames f) (rest.mapNames f)

end

def TreeFile.mapNames (f : ν → μ) (file : TreeFile ν) : TreeFile μ :=
  ⟨file.path.map f, file.content⟩

mutual

/-- Every directory of the tree can be listed. -/
def Node.Listable : Node ν → Prop
  | .directory listable entries => listable = true ∧ entries.Listable
  | .file _ => True
  | .symlink => True
  | .special => True

def Entries.Listable : Entries ν → Prop
  | .nil => True
  | .cons _ node rest => node.Listable ∧ rest.Listable

end

theorem Entries.names_mapNames (f : ν → μ) (entries : Entries ν) :
    (entries.mapNames f).names = entries.names.map f := by
  match entries with
  | .nil => rfl
  | .cons name node rest =>
    rw [mapNames, names, names, List.map_cons, Entries.names_mapNames f rest]

theorem Entries.names_eq (entries : Entries ν) : entries.names = entries.toList.map (·.1) := by
  match entries with
  | .nil => rfl
  | .cons name node rest =>
    rw [names, toList, List.map_cons, Entries.names_eq rest]

mutual

theorem Node.listable_of_files {f : ν → μ} {path : Path μ} {node : Node ν}
    {found : List (TreeFile μ)} (h : (node.mapNames f).files path = .ok found) : node.Listable := by
  match node with
  | .file content => trivial
  | .directory listable entries =>
    simp only [Node.mapNames, Node.files, bind_eq_ok, ensure_eq_ok] at h
    obtain ⟨_, hlistable, h⟩ := h
    exact ⟨hlistable, Entries.listable_of_files h⟩
  | .symlink => trivial
  | .special => trivial

theorem Entries.listable_of_files {f : ν → μ} {path : Path μ} {entries : Entries ν}
    {found : List (TreeFile μ)} (h : (entries.mapNames f).files path = .ok found) :
    entries.Listable := by
  match entries with
  | .nil => trivial
  | .cons name node rest =>
    simp only [Entries.mapNames, Entries.files, bind_eq_ok] at h
    obtain ⟨_, hnode, _, hrest, _⟩ := h
    exact ⟨Node.listable_of_files hnode, Entries.listable_of_files hrest⟩

end

end Names

/-! ## What the two walks find -/

/-- The entry passes the package manager's check. -/
def Allowed (entry : Text × Node Text) : Prop :=
  entry.1 ≠ gitName ∧ entry.2 ≠ .symlink ∧ entry.2 ≠ .special

variable {path : Path Text} {entries : Entries Text} {files : List (TreeFile Bytes)}
  {root : Node Text}

theorem checkEntry_eq_ok {entry : Text × Node Text} {found : List (TreeFile Text)} :
    checkEntry path entry = .ok found ↔
      Allowed entry ∧ entry.2.ownFile (path ++ [entry.1]) = found := by
  obtain ⟨name, node⟩ := entry
  unfold checkEntry Allowed
  rw [bind_eq_ok]
  simp only [ensure_eq_ok]
  cases node <;> simp [pure_eq_ok]

theorem flatten_ownFile (path : Path Text) (entries : List (Text × Node Text)) :
    ((entries.filter (fun entry => entry.2.isDirectory)
        ++ entries.filter (fun entry => !entry.2.isDirectory)).map
      (fun entry => entry.2.ownFile (path ++ [entry.1]))).flatten
      = entries.flatMap (fun entry => entry.2.ownFile (path ++ [entry.1])) := by
  induction entries with
  | nil => rfl
  | cons entry rest ih =>
    rw [List.map_append, List.flatten_append] at ih
    rw [List.map_append, List.flatten_append, List.flatMap_cons, ← ih]
    obtain ⟨name, node⟩ := entry
    cases node with
    | directory listable entries => rfl
    | file content =>
      have hempty : ((rest.filter (fun entry => entry.2.isDirectory)).map
          (fun entry => entry.2.ownFile (path ++ [entry.1]))).flatten = [] := by
        rw [List.flatten_eq_nil_iff]
        intro files hmem
        obtain ⟨⟨name', node'⟩, hnode, rfl⟩ := List.mem_map.mp hmem
        have hdirectory : node'.isDirectory = true := (List.mem_filter.mp hnode).2
        cases node' with
        | directory listable entries => rfl
        | file content => exact absurd hdirectory Bool.false_ne_true
        | symlink => rfl
        | special => rfl
      show ((rest.filter (fun entry => entry.2.isDirectory)).map _).flatten
        ++ (_ ++ List.flatten _) = _ ++ (_ ++ _)
      rw [hempty]
      rfl
    | symlink => rfl
    | special => rfl

theorem Entries.ownFiles_spec {own : List (TreeFile Text)} (h : entries.ownFiles path = .ok own) :
    (∀ entry ∈ entries.toList, Allowed entry) ∧
      own = entries.toList.flatMap (fun entry => entry.2.ownFile (path ++ [entry.1])) := by
  simp only [ownFiles, bind_eq_ok, pure_eq_ok] at h
  obtain ⟨files, hfiles, rfl⟩ := h
  obtain ⟨hallowed, rfl⟩ := (mapM_checked checkEntry_eq_ok).mp hfiles
  refine ⟨?_, flatten_ownFile path _⟩
  intro entry hmem
  by_cases hdirectory : entry.2.isDirectory = true
  · exact hallowed entry (List.mem_append_left _ (List.mem_filter.mpr ⟨hmem, hdirectory⟩))
  · exact hallowed entry (List.mem_append_right _
      (List.mem_filter.mpr ⟨hmem, by simpa using hdirectory⟩))

mutual

theorem Node.files_of_walk {path : Path Text} {node : Node Text} {below : List (TreeFile Text)}
    (hsymlink : node ≠ .symlink) (hspecial : node ≠ .special) (hlistable : node.Listable)
    (h : node.walk path = .ok below) :
    ∃ found, (node.mapNames Utf8.encode).files (path.map Utf8.encode) = .ok found ∧
      found.Perm ((node.ownFile path ++ below).map (TreeFile.mapNames Utf8.encode)) := by
  match node with
  | .file content =>
    cases h
    exact ⟨_, rfl, .refl _⟩
  | .directory true entries =>
    simp only [Node.walk, bind_eq_ok, pure_eq_ok] at h
    obtain ⟨own, hown, later, hlater, rfl⟩ := h
    obtain ⟨hallowed, rfl⟩ := Entries.ownFiles_spec hown
    exact Entries.files_of_walk hallowed hlistable.2 hlater
  | .directory false entries => exact absurd hlistable.1 Bool.false_ne_true
  | .symlink => exact absurd rfl hsymlink
  | .special => exact absurd rfl hspecial

theorem Entries.files_of_walk {path : Path Text} {entries : Entries Text}
    {below : List (TreeFile Text)} (hallowed : ∀ entry ∈ entries.toList, Allowed entry)
    (hlistable : entries.Listable) (h : entries.walkBelow path = .ok below) :
    ∃ found, (entries.mapNames Utf8.encode).files (path.map Utf8.encode) = .ok found ∧
      found.Perm ((entries.toList.flatMap (fun entry => entry.2.ownFile (path ++ [entry.1])) ++
        below).map (TreeFile.mapNames Utf8.encode)) := by
  match entries with
  | .nil =>
    cases h
    exact ⟨[], rfl, .refl _⟩
  | .cons name node rest =>
    simp only [Entries.walkBelow, bind_eq_ok, pure_eq_ok] at h
    obtain ⟨own, hown, others, hothers, rfl⟩ := h
    obtain ⟨⟨_, hsymlink, hspecial⟩, hrest⟩ := List.forall_mem_cons.mp hallowed
    obtain ⟨found, hfound, hperm⟩ := Node.files_of_walk hsymlink hspecial hlistable.1 hown
    obtain ⟨found', hfound', hperm'⟩ := Entries.files_of_walk hrest hlistable.2 hothers
    rw [List.map_append, List.map_singleton] at hfound
    refine ⟨found ++ found', ?_, ?_⟩
    · simp only [Entries.mapNames, Entries.files, hfound, hfound']
      rfl
    · -- what lies below comes behind the directory's own files
      refine (hperm.append hperm').trans ?_
      rw [← List.map_append]
      refine List.Perm.map _ ?_
      show ((node.ownFile (path ++ [name]) ++ own) ++ (_ ++ others)).Perm
        ((node.ownFile (path ++ [name]) ++ _) ++ (own ++ others))
      rw [List.append_assoc, List.append_assoc]
      exact (List.perm_append_comm_assoc own _ others).append_left _

end

/-! ## The digests agree -/

theorem encode_gitName : Utf8.encode gitName = dotGit := by decide

theorem Entries.without_of_notMem [DecidableEq Bytes] {skipped : Bytes} {entries : Entries Bytes}
    (h : skipped ∉ entries.names) : entries.without skipped = entries := by
  match entries with
  | .nil => rfl
  | .cons name node rest =>
    rw [names, List.mem_cons, not_or] at h
    rw [without, if_neg (Ne.symm h.1), Entries.without_of_notMem h.2]

theorem Entries.without_dotGit (hallowed : ∀ entry ∈ entries.toList, Allowed entry) :
    (entries.mapNames Utf8.encode).without dotGit = entries.mapNames Utf8.encode := by
  refine Entries.without_of_notMem ?_
  rw [names_mapNames, names_eq]
  intro hmem
  obtain ⟨name, hname, hgit⟩ := List.mem_map.mp hmem
  obtain ⟨entry, hentry, rfl⟩ := List.mem_map.mp hname
  rw [← encode_gitName] at hgit
  exact (hallowed entry hentry).1 (Utf8.encode_injective hgit)

theorem encode_asPosix (path : Path Text) :
    Utf8.encode (asPosix path) = genericString (path.map Utf8.encode) := by
  induction path with
  | nil => rfl
  | cons name rest ih =>
    cases rest with
    | nil => simp [asPosix]
    | cons next rest =>
      have hslash : Utf8.encode ['/'] = [0x2F] := by decide
      have hjoin : asPosix (name :: next :: rest) = name ++ (['/'] ++ asPosix (next :: rest)) := by
        simp [asPosix, List.intercalate]
      rw [hjoin, Utf8.encode_append, Utf8.encode_append, hslash, ih]
      exact (genericString_cons _ _ _).symm

theorem eq_of_path (hbeside : files.Pairwise Beside) {a b : TreeFile Bytes} (ha : a ∈ files)
    (hb : b ∈ files) (h : a.path = b.path) : a = b := by
  by_contra hne
  have hsymmetric : Std.Symm (@Beside Bytes) := ⟨fun _ _ hab => ⟨hab.2, hab.1⟩⟩
  exact (hbeside.forall ha hb hne).1 (h ▸ List.prefix_rfl)

theorem packageFiles_of_walk (hroot : (root.mapNames Utf8.encode).WellFormed ValidName)
    (hdirectory : root.isDirectory = true) (hlistable : root.Listable)
    {files : List (TreeFile Text)} (h : root.walk [] = .ok files) :
    packageFiles (root.mapNames Utf8.encode)
      = .ok ((files.insertionSort (fun a b => asPosix a.path ≤ asPosix b.path)).map
          (TreeFile.mapNames Utf8.encode)) := by
  match root with
  | .directory false entries => exact absurd hlistable.1 Bool.false_ne_true
  | .directory true entries =>
    simp only [Node.walk, bind_eq_ok, pure_eq_ok] at h
    obtain ⟨own, hown, below, hbelow, rfl⟩ := h
    obtain ⟨hallowed, rfl⟩ := Entries.ownFiles_spec hown
    obtain ⟨found, hfound, hperm⟩ := Entries.files_of_walk hallowed hlistable.2 hbelow
    have hpackage : packageFiles ((Node.directory true entries).mapNames Utf8.encode)
        = .ok (found.insertionSort (fun a b => genericString a.path ≤ genericString b.path)) := by
      simp only [packageFiles, bind_eq_ok, pure_eq_ok]
      refine ⟨entries.mapNames Utf8.encode, rfl, found, ?_, rfl⟩
      rw [Entries.without_dotGit hallowed]
      exact hfound
    obtain ⟨hvalid, hbeside, hsorted⟩ := packageFiles_spec hroot hpackage
    rw [hpackage]
    refine congrArg Except.ok ?_
    -- the order of encoded paths is that of the paths
    rw [List.map_insertionSort (fun a b : TreeFile Text => asPosix a.path ≤ asPosix b.path)
      (fun a b : TreeFile Bytes => genericString a.path ≤ genericString b.path)]
    · -- one order of the same files, in which files with one path are one file
      refine List.Perm.eq_of_pairwise ?_ hsorted (List.pairwise_insertionSort _ _) ?_
      · intro a b ha hb hle hge
        have hb' : b ∈ found.insertionSort (fun a b => genericString a.path ≤
            genericString b.path) := by
          rw [List.mem_insertionSort] at hb ⊢
          exact hperm.mem_iff.mpr hb
        exact eq_of_path hbeside ha hb'
          (genericString_injective (hvalid a ha) (hvalid b hb') (le_antisymm hle hge))
      · exact (List.perm_insertionSort _ _).trans (hperm.trans (List.perm_insertionSort _ _).symm)
    · intro a _ b _
      show asPosix a.path ≤ asPosix b.path ↔
        genericString (a.path.map Utf8.encode) ≤ genericString (b.path.map Utf8.encode)
      rw [← encode_asPosix, ← encode_asPosix, Utf8.encode_le_iff]

theorem listable_of_packageFiles {walked : List (TreeFile Text)} (hwalk : root.walk [] = .ok walked)
    (h : packageFiles (root.mapNames Utf8.encode) = .ok files) : root.Listable := by
  simp only [packageFiles, bind_eq_ok] at h
  obtain ⟨entries', hentries, found, hfound, _⟩ := h
  cases root with
  | directory opened entries =>
    cases opened with
    | false => cases hentries
    | true =>
      simp only [Node.walk, bind_eq_ok] at hwalk
      obtain ⟨own, hown, _⟩ := hwalk
      obtain ⟨hallowed, _⟩ := Entries.ownFiles_spec hown
      cases hentries
      rw [Entries.without_dotGit hallowed] at hfound
      exact ⟨rfl, Entries.listable_of_files hfound⟩
  | file content | symlink | special => cases hentries

theorem feedFile_eq (files : List (TreeFile Text)) (fed : Bytes) {result : Bytes}
    (h : files.foldlM feedFile fed = .ok result) :
    ∃ contents, (files.map (TreeFile.mapNames Utf8.encode)).mapM readFile = .ok contents ∧
      result = fed ++ encodeEntries contents := by
  induction files generalizing fed with
  | nil =>
    cases h
    exact ⟨[], rfl, (List.append_nil _).symm⟩
  | cons file rest ih =>
    rw [foldlM_cons_ok] at h
    obtain ⟨next, hnext, hrest⟩ := h
    obtain ⟨contents, hcontents, rfl⟩ := ih next hrest
    simp only [feedFile, bind_eq_ok, require_eq_ok, pure_eq_ok] at hnext
    obtain ⟨content, hcontent, rfl⟩ := hnext
    refine ⟨(file.path.map Utf8.encode, content) :: contents, ?_, ?_⟩
    · rw [List.map_cons, List.mapM_cons]
      simp only [bind_eq_ok, pure_eq_ok]
      refine ⟨_, ?_, contents, hcontents, rfl⟩
      simp only [readFile, bind_eq_ok, require_eq_ok, pure_eq_ok]
      exact ⟨content, hcontent, rfl⟩
    · rw [encodeEntries_cons, encode_asPosix]
      simp only [List.append_assoc, List.cons_append, List.nil_append]

/-- A digest of the package manager is the compiler's exactly if every directory
    of the tree can be listed. -/
theorem treeDigest_agrees_iff {root : Node Text}
    (hroot : (root.mapNames Utf8.encode).WellFormed ValidName) {digest : List Char}
    (h : treeDigest root = .ok digest) :
    packageTreeSha256 (root.mapNames Utf8.encode) = .ok digest ↔ root.Listable := by
  simp only [treeDigest, bind_eq_ok, ensure_eq_ok, pure_eq_ok] at h
  obtain ⟨_, hdirectory, files, hfiles, fed, hfed, rfl⟩ := h
  rw [packageTreeSha256_eq]
  constructor
  · intro hpackage
    cases hcontents : packageContents (root.mapNames Utf8.encode) with
    | error e =>
      rw [hcontents] at hpackage
      cases hpackage
    | ok contents =>
      simp only [packageContents, bind_eq_ok] at hcontents
      obtain ⟨_, hpackageFiles, _⟩ := hcontents
      exact listable_of_packageFiles hfiles hpackageFiles
  · intro hlistable
    obtain ⟨contents, hcontents, hbytes⟩ := feedFile_eq _ _ hfed
    have hread : packageContents (root.mapNames Utf8.encode) = .ok contents := by
      simp only [packageContents, bind_eq_ok]
      exact ⟨_, packageFiles_of_walk hroot hdirectory hlistable hfiles, hcontents⟩
    rw [hread, hbytes]
    rfl

/-! A package with the files `b`, `a/x`, `a/c/y` and `a-b`, listed out of order, and
a package with a directory `d` that cannot be listed. -/

def readableTree : Node Text :=
  .directory true (.cons ['b'] (.file (some [0x31]))
    (.cons ['a'] (.directory true (.cons ['x'] (.file (some []))
      (.cons ['c'] (.directory true (.cons ['y'] (.file (some [0x32])) .nil)) .nil)))
    (.cons ['a', '-', 'b'] (.file (some [0x33])) .nil)))

def guardedTree : Node Text := .directory true (.cons ['d'] (.directory false .nil) .nil)

theorem readableTree_agrees :
    packageTreeSha256 (readableTree.mapNames Utf8.encode)
        = .ok (Sha256.hexdigest ([0x61, 0x2D, 0x62, 0, 0x33, 0] ++
          [0x61, 0x2F, 0x63, 0x2F, 0x79, 0, 0x32, 0] ++ [0x61, 0x2F, 0x78, 0, 0] ++
          [0x62, 0, 0x31, 0])) ↔
      readableTree.Listable := by
  have hdigest : treeDigest readableTree = .ok (Sha256.hexdigest ([0x61, 0x2D, 0x62, 0, 0x33, 0] ++
      [0x61, 0x2F, 0x63, 0x2F, 0x79, 0, 0x32, 0] ++ [0x61, 0x2F, 0x78, 0, 0] ++
      [0x62, 0, 0x31, 0])) := rfl
  refine treeDigest_agrees_iff ?_ hdigest
  refine ⟨by decide, by decide, trivial, by decide, by decide, ?_,
    by decide, by decide, trivial, trivial⟩
  exact ⟨by decide, by decide, trivial, by decide, by decide,
    ⟨by decide, by decide, trivial, trivial⟩, trivial⟩

/-- The compiler rejects a package that the package manager has a digest for. -/
theorem guardedTree_rejected :
    ¬ ∀ (root : Node Text) (digest : List Char),
      (root.mapNames Utf8.encode).WellFormed ValidName → treeDigest root = .ok digest →
      packageTreeSha256 (root.mapNames Utf8.encode) = .ok digest := by
  intro h
  have hagrees := h guardedTree (Sha256.hexdigest []) ⟨by decide, by decide, trivial, trivial⟩ rfl
  have hrejected : packageTreeSha256 (guardedTree.mapNames Utf8.encode)
      = .error (.unlistable [[0x64]]) := rfl
  rw [hrejected] at hagrees
  cases hagrees

end Cwhip.Packages
