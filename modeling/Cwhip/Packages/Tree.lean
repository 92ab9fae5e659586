/-
  Cwhip.Packages.Tree

  Package trees on disk, and the walk that collects their regular files.

  Names are left open: the compiler sees names as bytes, the package manager as
  text.
-/

import Mathlib.Data.List.Basic
import Cwhip.Lib.Except
import Cwhip.Lib.Texts

namespace Cwhip.Packages

open Cwhip.Lib

mutual

/-- What a path names. -/
inductive Node (ν : Type) where
  /-- A regular file; without content if it cannot be opened. -/
  | file (content : Option Bytes)
  /-- A directory, whose entries may be unlistable for lack of permission. -/
  | directory (listable : Bool) (entries : Entries ν)
  | symlink
  | special

/-- Directory entries, in the order the file system lists them. -/
inductive Entries (ν : Type) where
  | nil
  | cons (name : ν) (node : Node ν) (rest : Entries ν)

end

/-- A path below the package root. -/
abbrev Path (ν : Type) := List ν

structure TreeFile (ν : Type) where
  path : Path ν
  content : Option Bytes
  deriving DecidableEq

/-- Why a tree has no digest. -/
inductive TreeError (ν : Type) where
  /-- "package integrity root must be a real directory" -/
  | notDirectory
  /-- "package integrity rejects symlinks and special files" -/
  | rejected (path : Path ν)
  /-- The directory cannot be opened. -/
  | unlistable (path : Path ν)
  /-- "cannot read package integrity input" -/
  | unreadable (path : Path ν)
  deriving DecidableEq

variable {ν : Type}

def Entries.names : Entries ν → List ν
  | .nil => []
  | .cons name _ rest => name :: rest.names

/-- The entries without those of one name. -/
def Entries.without [DecidableEq ν] (skipped : ν) : Entries ν → Entries ν
  | .nil => .nil
  | .cons name node rest =>
    if name = skipped then rest.without skipped else .cons name node (rest.without skipped)

/-! ## Well-formed trees -/

mutual

/-- Names are valid, and distinct within a directory. -/
def Node.WellFormed (valid : ν → Prop) : Node ν → Prop
  | .directory _ entries => entries.WellFormed valid
  | .file _ => True
  | .symlink => True
  | .special => True

def Entries.WellFormed (valid : ν → Prop) : Entries ν → Prop
  | .nil => True
  | .cons name node rest =>
    valid name ∧ name ∉ rest.names ∧ node.WellFormed valid ∧ rest.WellFormed valid

end

theorem Entries.mem_names_without [DecidableEq ν] {skipped name : ν} {entries : Entries ν} :
    name ∈ (entries.without skipped).names ↔ name ∈ entries.names ∧ name ≠ skipped := by
  match entries with
  | .nil => simp [without, names]
  | .cons first node rest =>
    have ih := @Entries.mem_names_without _ skipped name rest
    unfold without
    split
    · next heq =>
      rw [ih, names, List.mem_cons, heq]
      constructor
      · exact fun h => ⟨.inr h.1, h.2⟩
      · exact fun h => ⟨h.1.resolve_left h.2, h.2⟩
    · next hne =>
      rw [names, names, List.mem_cons, List.mem_cons, ih]
      constructor
      · rintro (rfl | h)
        · exact ⟨.inl rfl, hne⟩
        · exact ⟨.inr h.1, h.2⟩
      · rintro ⟨rfl | h, hskipped⟩
        · exact .inl rfl
        · exact .inr ⟨h, hskipped⟩

theorem Entries.WellFormed.without [DecidableEq ν] {valid : ν → Prop} {entries : Entries ν}
    (h : entries.WellFormed valid) (skipped : ν) :
    (entries.without skipped).WellFormed valid := by
  match entries with
  | .nil => trivial
  | .cons first node rest =>
    obtain ⟨hvalid, hdistinct, hnode, hrest⟩ := h
    have ih := hrest.without skipped
    unfold Entries.without
    split
    · exact ih
    · exact ⟨hvalid, fun hmem => hdistinct (mem_names_without.mp hmem).1, hnode, ih⟩

/-! ## The walk -/

mutual

/-- The regular files below a path; symlinks and special files are refused. -/
def Node.files (path : Path ν) : Node ν → Except (TreeError ν) (List (TreeFile ν))
  | .file content => .ok [⟨path, content⟩]
  | .directory listable entries => do
      ensure (listable = true) (.unlistable path)
      entries.files path
  | .symlink => .error (.rejected path)
  | .special => .error (.rejected path)

def Entries.files (path : Path ν) : Entries ν → Except (TreeError ν) (List (TreeFile ν))
  | .nil => .ok []
  | .cons name node rest => do
      let own ← node.files (path ++ [name])
      let others ← rest.files path
      pure (own ++ others)

end

/-- The entries below a root that has to be a listable directory. -/
def Node.rootEntries : Node ν → Except (TreeError ν) (Entries ν)
  | .directory listable entries => do
      ensure (listable = true) (.unlistable [])
      pure entries
  | _ => .error .notDirectory

/-! ## Paths of the walk -/

mutual

theorem Node.files_below {valid : ν → Prop} {path : Path ν} {node : Node ν}
    {found : List (TreeFile ν)}
    (hvalid : node.WellFormed valid) (h : node.files path = .ok found) {file : TreeFile ν}
    (hmem : file ∈ found) : ∃ suffix, file.path = path ++ suffix ∧ ∀ name ∈ suffix, valid name := by
  match node with
  | .file content =>
    cases h
    rw [List.mem_singleton.mp hmem]
    exact ⟨[], (List.append_nil _).symm, fun _ h => (nomatch h)⟩
  | .directory listable entries =>
    simp only [Node.files, bind_eq_ok, ensure_eq_ok] at h
    obtain ⟨_, _, h⟩ := h
    obtain ⟨name, suffix, _, hpath, hsuffix⟩ := Entries.files_below hvalid h hmem
    exact ⟨name :: suffix, hpath, hsuffix⟩
  | .symlink => cases h
  | .special => cases h

theorem Entries.files_below {valid : ν → Prop} {path : Path ν} {entries : Entries ν}
    {found : List (TreeFile ν)} (hvalid : entries.WellFormed valid)
    (h : entries.files path = .ok found) {file : TreeFile ν} (hmem : file ∈ found) :
    ∃ name suffix, name ∈ entries.names ∧ file.path = path ++ name :: suffix ∧
      ∀ part ∈ name :: suffix, valid part := by
  match entries with
  | .nil =>
    cases h
    cases hmem
  | .cons first node rest =>
    obtain ⟨hfirst, _, hnode, hrest⟩ := hvalid
    simp only [Entries.files, bind_eq_ok, pure_eq_ok] at h
    obtain ⟨own, hown, others, hothers, rfl⟩ := h
    rcases List.mem_append.mp hmem with hmem | hmem
    · obtain ⟨suffix, hpath, hsuffix⟩ := Node.files_below hnode hown hmem
      refine ⟨first, suffix, List.mem_cons_self, ?_, ?_⟩
      · rw [hpath, List.append_assoc]
        rfl
      · exact List.forall_mem_cons.mpr ⟨hfirst, hsuffix⟩
    · obtain ⟨name, suffix, hname, hpath, hsuffix⟩ := Entries.files_below hrest hothers hmem
      exact ⟨name, suffix, List.mem_cons_of_mem _ hname, hpath, hsuffix⟩

end

/-- Neither path leads through the other. -/
def Beside (first second : TreeFile ν) : Prop :=
  ¬ first.path <+: second.path ∧ ¬ second.path <+: first.path

theorem not_prefix_of_diverge {path suffix suffix' : Path ν} {name name' : ν} (h : name ≠ name') :
    ¬ (path ++ name :: suffix) <+: (path ++ name' :: suffix') := by
  rw [List.prefix_append_right_inj, List.cons_prefix_cons]
  exact fun hprefix => h hprefix.1

mutual

theorem Node.files_beside {valid : ν → Prop} {path : Path ν} {node : Node ν}
    {found : List (TreeFile ν)} (hvalid : node.WellFormed valid)
    (h : node.files path = .ok found) : found.Pairwise Beside := by
  match node with
  | .file content =>
    cases h
    exact List.pairwise_singleton _ _
  | .directory listable entries =>
    simp only [Node.files, bind_eq_ok, ensure_eq_ok] at h
    obtain ⟨_, _, h⟩ := h
    exact Entries.files_beside hvalid h
  | .symlink => cases h
  | .special => cases h

theorem Entries.files_beside {valid : ν → Prop} {path : Path ν} {entries : Entries ν}
    {found : List (TreeFile ν)} (hvalid : entries.WellFormed valid)
    (h : entries.files path = .ok found) : found.Pairwise Beside := by
  match entries with
  | .nil =>
    cases h
    exact List.Pairwise.nil
  | .cons first node rest =>
    obtain ⟨_, hdistinct, hnode, hrest⟩ := hvalid
    simp only [Entries.files, bind_eq_ok, pure_eq_ok] at h
    obtain ⟨own, hown, others, hothers, rfl⟩ := h
    refine List.pairwise_append.mpr
      ⟨Node.files_beside hnode hown, Entries.files_beside hrest hothers, ?_⟩
    intro file hfile other hother
    -- the two paths part at the name of this entry
    obtain ⟨suffix, hpath, _⟩ := Node.files_below hnode hown hfile
    obtain ⟨name, suffix', hname, hpath', _⟩ := Entries.files_below hrest hothers hother
    have hne : first ≠ name := fun heq => hdistinct (heq ▸ hname)
    rw [List.append_assoc] at hpath
    rw [Beside, hpath, hpath']
    exact ⟨not_prefix_of_diverge hne, not_prefix_of_diverge (Ne.symm hne)⟩

end

end Cwhip.Packages
