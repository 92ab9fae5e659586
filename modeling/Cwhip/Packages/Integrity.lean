/-
  Cwhip.Packages.Integrity

  The digest of a package tree, as the compiler computes it: the regular files
  in the order of their paths, each path and each content followed by a zero
  byte, fed to SHA-256.
-/

import Mathlib.Data.List.Sort
import Cwhip.Lib.Utf8
import Cwhip.Packages.Tree
import Cwhip.Packages.Digest

namespace Cwhip.Packages

open Cwhip.Lib

/-! ## The digest -/

/-- `.git` -/
def dotGit : Bytes := [0x2E, 0x67, 0x69, 0x74]

/-- The path as one string, its names separated by slashes. -/
def genericString (path : Path Bytes) : Bytes := [0x2F].intercalate path

/-- The pieces in which a file is read. -/
def chunks (size : Nat) : Nat → Bytes → List Bytes
  | 0, _ => []
  | _ + 1, [] => []
  | fuel + 1, byte :: rest =>
    (byte :: rest).take size :: chunks size fuel ((byte :: rest).drop size)

def hashFile (hash : Sha256) (file : TreeFile Bytes) : Except (TreeError Bytes) Sha256 := do
  let content ← require file.content (.unreadable file.path)
  pure ((chunks 8192 content.length content).foldl Sha256.update hash)

/-- One file of the tree: its path and its content, each followed by a zero
    byte. -/
def hashEntry (hash : Sha256) (file : TreeFile Bytes) : Except (TreeError Bytes) Sha256 := do
  let named := (hash.update (genericString file.path)).update [0]
  let read ← hashFile named file
  pure (read.update [0])

/-- The regular files outside a top-level `.git`, in the order of their paths. -/
def packageFiles (root : Node Bytes) : Except (TreeError Bytes) (List (TreeFile Bytes)) := do
  let entries ← root.rootEntries
  let files ← (entries.without dotGit).files []
  pure (files.insertionSort (fun a b => genericString a.path ≤ genericString b.path))

def packageTreeSha256 (root : Node Bytes) : Except (TreeError Bytes) (List Char) := do
  let files ← packageFiles root
  let hash ← files.foldlM hashEntry Sha256.start
  pure hash.finish

/-! ## What is fed to the hash -/

/-- The content of a file that can be opened. -/
def readFile (file : TreeFile Bytes) : Except (TreeError Bytes) (Path Bytes × Bytes) := do
  let content ← require file.content (.unreadable file.path)
  pure (file.path, content)

def packageContents (root : Node Bytes) : Except (TreeError Bytes) (List (Path Bytes × Bytes)) := do
  let files ← packageFiles root
  files.mapM readFile

def encodeEntry (entry : Path Bytes × Bytes) : Bytes :=
  genericString entry.1 ++ 0 :: (entry.2 ++ [0])

def encodeEntries (entries : List (Path Bytes × Bytes)) : Bytes := entries.flatMap encodeEntry

theorem chunks_flatten {size : Nat} (hsize : 0 < size) :
    ∀ (fuel : Nat) (content : Bytes), content.length ≤ fuel →
      (chunks size fuel content).flatten = content := by
  intro fuel
  induction fuel with
  | zero =>
    intro content h
    rw [List.eq_nil_of_length_eq_zero (Nat.le_zero.mp h)]
    rfl
  | succ fuel ih =>
    intro content h
    cases content with
    | nil => rfl
    | cons byte rest =>
      have hless : ((byte :: rest).drop size).length ≤ fuel := by
        rw [List.length_drop]
        simp only [List.length_cons] at h ⊢
        omega
      rw [chunks, List.flatten_cons, ih _ hless, List.take_append_drop]

theorem feeds_pieces {hash : Sha256} {message : Bytes} (h : hash.Feeds message)
    (pieces : List Bytes) : (pieces.foldl Sha256.update hash).Feeds
    (message ++ pieces.flatten) := by
  induction pieces generalizing hash message with
  | nil =>
    rw [List.flatten_nil, List.append_nil]
    exact h
  | cons piece rest ih =>
    have hrest := ih (h.update piece)
    rw [List.append_assoc] at hrest
    exact hrest

theorem hashEntry_eq {hash : Sha256} {message : Bytes} (h : hash.Feeds message)
    (file : TreeFile Bytes) :
    match readFile file with
    | .error e => hashEntry hash file = .error e
    | .ok entry =>
      ∃ next, hashEntry hash file = .ok next ∧ next.Feeds (message ++ encodeEntry entry) := by
  unfold readFile hashEntry hashFile
  cases hcontent : file.content with
  | none => rfl
  | some content =>
    refine ⟨_, rfl, ?_⟩
    have hfed := (feeds_pieces ((h.update (genericString file.path)).update [0])
      (chunks 8192 content.length content)).update [0]
    rw [chunks_flatten (by omega) _ _ (Nat.le_refl _)] at hfed
    have hbytes : message ++ encodeEntry (file.path, content)
        = message ++ genericString file.path ++ [0] ++ content ++ [0] := by
      simp [encodeEntry]
    rw [hbytes]
    exact hfed

theorem packageTreeSha256_eq (root : Node Bytes) :
    packageTreeSha256 root
      = (packageContents root).map (fun entries =>
      Lib.Sha256.hexdigest (encodeEntries entries)) := by
  have hall : ∀ (files : List (TreeFile Bytes)) (hash : Sha256) (message : Bytes),
      hash.Feeds message →
      (files.foldlM hashEntry hash).map Sha256.finish
        = (files.mapM readFile).map
            (fun entries => Lib.Sha256.hexdigest (message ++ encodeEntries entries)) := by
    intro files
    induction files with
    | nil =>
      intro hash message hfeeds
      show Except.ok hash.finish
        = Except.ok (Lib.Sha256.hexdigest (message ++ encodeEntries []))
      rw [hfeeds.finish, show encodeEntries [] = [] from rfl, List.append_nil]
    | cons file rest ih =>
      intro hash message hfeeds
      have hone := hashEntry_eq hfeeds file
      rw [List.foldlM_cons, List.mapM_cons]
      cases hread : readFile file with
      | error e =>
        rw [hread] at hone
        rw [show hashEntry hash file = .error e from hone]
        rfl
      | ok entry =>
        rw [hread] at hone
        obtain ⟨next, hnext, hfed⟩ := hone
        have hrest := ih next _ hfed
        rw [hnext]
        simp only [bind, Except.bind]
        rw [hrest]
        cases rest.mapM readFile with
        | error e => rfl
        | ok entries =>
          simp only [Except.map, pure, Except.pure, encodeEntries, List.flatMap_cons,
            List.append_assoc]
  unfold packageTreeSha256 packageContents
  cases packageFiles root with
  | error e => rfl
  | ok files =>
    have hfiles := hall files Sha256.start [] Sha256.Feeds.start
    simp only [bind, Except.bind]
    simp only [List.nil_append] at hfiles
    rw [← hfiles]
    cases files.foldlM hashEntry Sha256.start with
    | error e => rfl
    | ok hash => rfl

end Cwhip.Packages
