/-
  Cwhip.Packages.TreeBinding

  Which package trees the digest binds.

  Paths have no zero bytes but contents may, so the encoding of several files
  is also that of fewer files with longer contents.  Only a tree with at most
  one file can be bound, and only if its content does not itself read as the
  end of one file and the beginning of another.
-/

import Cwhip.Packages.Integrity

namespace Cwhip.Packages

open Cwhip.Lib
open List (append_assoc mem_cons_self not_mem_nil)

/-- A name that a directory entry can have. -/
def ValidName (name : Bytes) : Prop :=
  name ≠ [] ∧ 0 ∉ name ∧ 0x2F ∉ name ∧ name ≠ [0x2E] ∧ name ≠ [0x2E, 0x2E]

instance (name : Bytes) : Decidable (ValidName name) :=
  inferInstanceAs (Decidable (_ ∧ _ ∧ _ ∧ _ ∧ _))

/-- A path that a hashed file can have. -/
def ValidPath (path : Path Bytes) : Prop :=
  path ≠ [] ∧ (∀ name ∈ path, ValidName name) ∧ path.head? ≠ some dotGit

instance (path : Path Bytes) : Decidable (ValidPath path) :=
  inferInstanceAs (Decidable (_ ∧ _ ∧ _))

/-- Trees with other contents have another encoding. -/
def Binds (contents : List (Path Bytes × Bytes)) : Prop :=
  ∀ (other : Node Bytes) (otherContents : List (Path Bytes × Bytes)),
    other.WellFormed ValidName → packageContents other = .ok otherContents →
    (∃ entry, ¬ (entry ∈ contents ↔ entry ∈ otherContents)) →
    encodeEntries otherContents ≠ encodeEntries contents

/-! ## Paths as strings -/

@[simp] theorem genericString_singleton (name : Bytes) : genericString [name] = name := by
  simp [genericString]

theorem genericString_cons (name next : Bytes) (path : Path Bytes) :
    genericString (name :: next :: path) = name ++ 0x2F :: genericString (next :: path) := by
  simp [genericString, List.intercalate]

variable {path path' : Path Bytes} {root : Node Bytes}

theorem genericString_append (hpath : path ≠ []) (suffix : Path Bytes) :
    ∃ rest, genericString (path ++ suffix) = genericString path ++ rest := by
  induction path with
  | nil => exact absurd rfl hpath
  | cons name rest ih =>
    cases rest with
    | nil =>
      cases suffix with
      | nil => exact ⟨[], (List.append_nil _).symm⟩
      | cons next suffix =>
        refine ⟨0x2F :: genericString (next :: suffix), ?_⟩
        rw [genericString_singleton]
        exact genericString_cons name next suffix
    | cons next rest =>
      obtain ⟨tail, htail⟩ := ih (List.cons_ne_nil _ _)
      refine ⟨tail, ?_⟩
      show genericString (name :: next :: (rest ++ suffix)) = _
      rw [genericString_cons, genericString_cons, append_assoc, List.cons_append, ← htail]
      rfl

theorem le_append (text rest : Bytes) : text ≤ text ++ rest := by
  induction text with
  | nil =>
    cases rest with
    | nil => exact le_refl _
    | cons byte rest =>
      have hless : ([] : Bytes) < byte :: rest := List.Lex.nil
      exact le_of_lt hless
  | cons byte text ih => exact List.cons_le_cons byte ih

theorem genericString_le_of_below (hpath : path ≠ [])
    (h : path <+: path') : genericString path ≤ genericString path' := by
  obtain ⟨suffix, rfl⟩ := h
  obtain ⟨rest, hrest⟩ := genericString_append hpath suffix
  rw [hrest]
  exact le_append _ _

theorem genericString_injective (hpath : ValidPath path) (hpath' : ValidPath path')
    (h : genericString path = genericString path') : path = path' := by
  have hsplit : ∀ {p : Path Bytes}, ValidPath p → (genericString p).splitOn 0x2F = p :=
    fun hp => List.splitOn_intercalate _ (fun name hmem => (hp.2.1 name hmem).2.2.1) hp.1
  rw [← hsplit hpath, h, hsplit hpath']

theorem zero_notMem_genericString (h : ∀ name ∈ path, ValidName name) :
    0 ∉ genericString path := by
  induction path with
  | nil => exact not_mem_nil
  | cons name rest ih =>
    obtain ⟨hname, hrest⟩ := List.forall_mem_cons.mp h
    cases rest with
    | nil =>
      simpa [genericString] using hname.2.1
    | cons next rest =>
      have hlater := ih hrest
      rw [genericString_cons, List.mem_append, List.mem_cons]
      rintro (hmem | heq | hmem)
      · exact hname.2.1 hmem
      · exact absurd heq (by decide)
      · exact hlater hmem

/-! ## Trees with one or two files -/

/-- Directories leading to a node. -/
def chain : Path Bytes → Node Bytes → Node Bytes
  | [], node => node
  | name :: rest, node => .directory true (.cons name (chain rest node) .nil)

/-- Directories leading to two files whose paths lie beside each other. -/
def fork : Path Bytes → Bytes → Path Bytes → Bytes → Node Bytes
  | name :: path, content, name' :: path', content' =>
    if name = name' then .directory true (.cons name (fork path content path' content') .nil)
    else .directory true (.cons name (chain path (.file (some content)))
      (.cons name' (chain path' (.file (some content'))) .nil))
  | path, content, _, _ => chain path (.file (some content))

theorem chain_wellFormed (h : ∀ name ∈ path, ValidName name) (content : Bytes) :
    (chain path (.file (some content))).WellFormed ValidName := by
  induction path with
  | nil => trivial
  | cons name rest ih =>
    obtain ⟨hname, hrest⟩ := List.forall_mem_cons.mp h
    exact ⟨hname, not_mem_nil, ih hrest, trivial⟩

theorem chain_files (path start : Path Bytes) (content : Bytes) :
    (chain path (.file (some content))).files start = .ok [⟨start ++ path, some content⟩] := by
  induction path generalizing start with
  | nil => rw [List.append_nil]; rfl
  | cons name rest ih =>
    have hrest := ih (start ++ [name])
    rw [append_assoc] at hrest
    simp only [chain, Node.files, Entries.files, hrest]
    rfl

theorem fork_wellFormed (h : ∀ name ∈ path, ValidName name) (h' : ∀ name ∈ path', ValidName name)
    (content content' : Bytes) :
    (fork path content path' content').WellFormed ValidName := by
  induction path generalizing path' with
  | nil => exact chain_wellFormed h content
  | cons name rest ih =>
    cases path' with
    | nil => exact chain_wellFormed h content
    | cons name' rest' =>
      obtain ⟨hname, hrest⟩ := List.forall_mem_cons.mp h
      obtain ⟨hname', hrest'⟩ := List.forall_mem_cons.mp h'
      unfold fork
      split
      · exact ⟨hname, not_mem_nil, ih hrest hrest', trivial⟩
      · next hne =>
        refine ⟨hname, ?_, chain_wellFormed hrest content, hname', not_mem_nil,
          chain_wellFormed hrest' content', trivial⟩
        exact fun hmem => hne (List.mem_singleton.mp hmem)

theorem fork_files (h : ¬ path <+: path') (h' : ¬ path' <+: path) (start : Path Bytes)
    (content content' : Bytes) :
    (fork path content path' content').files start
      = .ok [⟨start ++ path, some content⟩, ⟨start ++ path', some content'⟩] := by
  induction path generalizing path' start with
  | nil => exact absurd List.nil_prefix h
  | cons name rest ih =>
    cases path' with
    | nil => exact absurd List.nil_prefix h'
    | cons name' rest' =>
      unfold fork
      split
      · next heq =>
        subst heq
        rw [List.cons_prefix_cons] at h h'
        have hrest := ih (fun hp => h ⟨rfl, hp⟩) (fun hp => h' ⟨rfl, hp⟩) (start ++ [name])
        rw [append_assoc, append_assoc] at hrest
        simp only [Node.files, Entries.files, hrest]
        rfl
      · have hfirst := chain_files rest (start ++ [name]) content
        have hsecond := chain_files rest' (start ++ [name']) content'
        rw [append_assoc] at hfirst hsecond
        simp only [Node.files, Entries.files, hfirst, hsecond]
        rfl

variable {entries : Entries Bytes} {files : List (TreeFile Bytes)} {content : Bytes}

theorem packageContents_eq (hgit : entries.without dotGit = entries)
    (hfiles : entries.files [] = .ok files)
    (hsorted : files.Pairwise (fun a b => genericString a.path ≤ genericString b.path)) :
    packageContents (.directory true entries) = files.mapM readFile := by
  have hroot : Node.rootEntries (.directory true entries) = .ok entries := rfl
  simp only [packageContents, packageFiles, hroot, hgit, hfiles, bind, Except.bind,
    pure, Except.pure]
  rw [hsorted.insertionSort_eq]

theorem chain_contents (hpath : ValidPath path) (content : Bytes) :
    (chain path (.file (some content))).WellFormed ValidName ∧
      packageContents (chain path (.file (some content))) = .ok [(path, content)] := by
  refine ⟨chain_wellFormed hpath.2.1 content, ?_⟩
  obtain ⟨hne, _, hgit⟩ := hpath
  cases path with
  | nil => exact absurd rfl hne
  | cons name rest =>
    have hname : name ≠ dotGit := fun heq => hgit (heq ▸ rfl)
    have hfiles := chain_files (name :: rest) [] content
    simp only [chain, Node.files, bind, Except.bind, ensure] at hfiles
    rw [chain, packageContents_eq (by simp [Entries.without, hname]) hfiles
      (List.pairwise_singleton _ _)]
    rfl

theorem fork_contents (hpath : ValidPath path) (hpath' : ValidPath path')
    (hbeside : ¬ path <+: path') (hless : genericString path < genericString path')
    (content content' : Bytes) :
    (fork path content path' content').WellFormed ValidName ∧
      packageContents (fork path content path' content') = .ok [(path, content),
      (path', content')] := by
  refine ⟨fork_wellFormed hpath.2.1 hpath'.2.1 content content', ?_⟩
  have hbeside' : ¬ path' <+: path := fun hprefix =>
    absurd (genericString_le_of_below hpath'.1 hprefix) (not_le.mpr hless)
  have hfiles := fork_files hbeside hbeside' [] content content'
  have hsorted : [TreeFile.mk path (some content), ⟨path', some content'⟩].Pairwise
      (fun a b => genericString a.path ≤ genericString b.path) :=
    List.pairwise_pair.mpr (le_of_lt hless)
  obtain ⟨hne, _, hgit⟩ := hpath
  obtain ⟨hne', _, hgit'⟩ := hpath'
  cases path with
  | nil => exact absurd rfl hne
  | cons name rest =>
    cases path' with
    | nil => exact absurd rfl hne'
    | cons name' rest' =>
      have hname : name ≠ dotGit := fun heq => hgit (heq ▸ rfl)
      have hname' : name' ≠ dotGit := fun heq => hgit' (heq ▸ rfl)
      unfold fork at hfiles ⊢
      split at hfiles
      · next heq =>
        rw [if_pos heq, packageContents_eq (by simp [Entries.without, hname]) hfiles hsorted]
        rfl
      · next hdiffers =>
        rw [if_neg hdiffers,
          packageContents_eq (by simp [Entries.without, hname, hname']) hfiles hsorted]
        rfl

/-! ## Contents of accepted trees -/

theorem rootEntries_wellFormed (hroot : root.WellFormed ValidName)
    (h : root.rootEntries = .ok entries) : entries.WellFormed ValidName := by
  cases root with
  | directory listable entries' =>
    simp only [Node.rootEntries, bind_eq_ok, ensure_eq_ok, pure_eq_ok] at h
    obtain ⟨_, _, rfl⟩ := h
    exact hroot
  | file content => cases h
  | symlink => cases h
  | special => cases h

theorem packageFiles_spec (hroot : root.WellFormed ValidName) (h : packageFiles root = .ok files) :
    (∀ file ∈ files, ValidPath file.path) ∧ files.Pairwise Beside ∧
      files.Pairwise (fun a b => genericString a.path ≤ genericString b.path) := by
  simp only [packageFiles, bind_eq_ok, pure_eq_ok] at h
  obtain ⟨entries, hentries, found, hfound, rfl⟩ := h
  have hwell := (rootEntries_wellFormed hroot hentries).without dotGit
  refine ⟨?_, ?_, List.pairwise_insertionSort _ _⟩
  · intro file hmem
    rw [List.mem_insertionSort] at hmem
    obtain ⟨name, suffix, hname, hpath, hvalid⟩ := Entries.files_below hwell hfound hmem
    rw [List.nil_append] at hpath
    rw [hpath]
    refine ⟨List.cons_ne_nil _ _, hvalid, ?_⟩
    have hnot := (Entries.mem_names_without.mp hname).2
    simpa using hnot
  · have hbeside := Entries.files_beside hwell hfound
    refine (List.Perm.pairwise_iff ?_ (List.perm_insertionSort _ found)).mpr hbeside
    exact fun h => ⟨h.2, h.1⟩

theorem readFile_path {file : TreeFile Bytes} {entry : Path Bytes × Bytes}
    (h : readFile file = .ok entry) : entry.1 = file.path := by
  simp only [readFile, bind_eq_ok, pure_eq_ok] at h
  obtain ⟨_, _, rfl⟩ := h
  rfl

/-- An entry comes before another one and does not lead to it. -/
def Before (first second : Path Bytes × Bytes) : Prop :=
  genericString first.1 < genericString second.1 ∧ ¬ first.1 <+: second.1

theorem packageContents_spec (hroot : root.WellFormed ValidName)
    {contents : List (Path Bytes × Bytes)} (h : packageContents root = .ok contents) :
    (∀ entry ∈ contents, ValidPath entry.1) ∧ contents.Pairwise Before := by
  simp only [packageContents, bind_eq_ok] at h
  obtain ⟨files, hfiles, hread⟩ := h
  obtain ⟨hvalid, hbeside, hsorted⟩ := packageFiles_spec hroot hfiles
  have hpaths : contents.map (·.1) = files.map (·.path) := mapM_map_eq hread fun _ _ =>
    readFile_path
  refine ⟨?_, ?_⟩
  · intro entry hmem
    have hpath : entry.1 ∈ contents.map (·.1) := List.mem_map_of_mem hmem
    rw [hpaths] at hpath
    obtain ⟨file, hfile, heq⟩ := List.mem_map.mp hpath
    exact heq ▸ hvalid file hfile
  · have hboth : files.Pairwise (fun a b =>
        genericString a.path < genericString b.path ∧ ¬ a.path <+: b.path) := by
      refine List.Pairwise.imp_of_mem ?_ (List.Pairwise.and hbeside hsorted)
      rintro a b ha hb ⟨hab, hle⟩
      refine ⟨lt_of_le_of_ne hle ?_, hab.1⟩
      intro heq
      have hsame := genericString_injective (hvalid a ha) (hvalid b hb) heq
      exact hab.1 (hsame ▸ List.prefix_rfl)
    have hmapped : (files.map (·.path)).Pairwise (fun a b =>
        genericString a < genericString b ∧ ¬ a <+: b) := List.pairwise_map.mpr hboth
    rw [← hpaths] at hmapped
    have hcontents : contents.Pairwise (fun a b =>
        genericString a.1 < genericString b.1 ∧ ¬ a.1 <+: b.1) := List.pairwise_map.mp hmapped
    exact hcontents

/-! ## Encodings -/

theorem cut_at_zero {first second rest rest' : Bytes} (hfirst : 0 ∉ first) (hsecond : 0 ∉ second)
    (h : first ++ 0 :: rest = second ++ 0 :: rest') : first = second ∧ rest = rest' := by
  induction first generalizing second with
  | nil =>
    cases second with
    | nil => exact ⟨rfl, (List.cons.inj h).2⟩
    | cons byte second => exact absurd ((List.cons.inj h).1 ▸ mem_cons_self) hsecond
  | cons byte first ih =>
    cases second with
    | nil => exact absurd ((List.cons.inj h).1 ▸ mem_cons_self) hfirst
    | cons byte' second =>
      obtain ⟨hbyte, htail⟩ := List.cons.inj h
      obtain ⟨heq, hrest⟩ := ih (fun hmem => hfirst (List.mem_cons_of_mem _ hmem))
        (fun hmem => hsecond (List.mem_cons_of_mem _ hmem)) htail
      rw [hbyte, heq]
      exact ⟨rfl, hrest⟩

theorem encodeEntries_cons (entry : Path Bytes × Bytes) (rest : List (Path Bytes × Bytes)) :
    encodeEntries (entry :: rest)
      = genericString entry.1 ++ 0 :: (entry.2 ++ 0 :: encodeEntries rest) := by
  simp [encodeEntries, encodeEntry]

theorem encodeEntries_end (entries : List (Path Bytes × Bytes)) :
    ∃ body, 0 :: encodeEntries entries = body ++ [0] := by
  induction entries with
  | nil => exact ⟨[], rfl⟩
  | cons entry rest ih =>
    obtain ⟨body, hbody⟩ := ih
    refine ⟨0 :: (genericString entry.1 ++ 0 :: (entry.2 ++ body)), ?_⟩
    rw [encodeEntries_cons, hbody]
    simp

/-- The content reads as the end of one file and the beginning of another one
    that can follow it. -/
def Splits (path : Path Bytes) (content : Bytes) : Prop :=
  ∃ before other after, content = before ++ 0 :: (genericString other ++ 0 :: after) ∧
    ValidPath other ∧ genericString path < genericString other ∧ ¬ path <+: other

/-! ## Which trees are bound -/

theorem not_binds_two {first second : Path Bytes × Bytes} {rest : List (Path Bytes × Bytes)}
    (hvalid : ValidPath first.1) (hbefore : (first :: second :: rest).Pairwise Before) :
    ¬ Binds (first :: second :: rest) := by
  obtain ⟨body, hbody⟩ := encodeEntries_end (second :: rest)
  obtain ⟨hwell, hcontents⟩ := chain_contents hvalid (first.2 ++ body)
  have hlonger : 0 < body.length := by
    have hlength := congrArg List.length hbody
    rw [encodeEntries_cons] at hlength
    simp only [List.length_cons, List.length_append, List.length_nil] at hlength
    omega
  intro hbinds
  refine hbinds _ _ hwell hcontents ⟨(first.1, first.2 ++ body), ?_⟩ ?_
  · -- the merged file is none of the tree's
    rw [List.mem_singleton, iff_true_right rfl]
    intro hmem
    rcases List.mem_cons.mp hmem with heq | hmem
    · have hlength := congrArg (fun entry : Path Bytes × Bytes => entry.2.length) heq
      simp only [List.length_append] at hlength
      omega
    · exact ((List.pairwise_cons.mp hbefore).1 _ hmem).2 List.prefix_rfl
  · rw [encodeEntries_cons, encodeEntries_cons first, show encodeEntries [] = [] from rfl, hbody,
      append_assoc]

theorem not_binds_splits (hvalid : ValidPath path)
    (h : Splits path content) : ¬ Binds [(path, content)] := by
  obtain ⟨before, other, after, rfl, hother, hless, hbeside⟩ := h
  obtain ⟨hwell, hcontents⟩ := fork_contents hvalid hother hbeside hless before after
  intro hbinds
  refine hbinds _ _ hwell hcontents ⟨(path, before), ?_⟩ ?_
  · rw [iff_true_right mem_cons_self, List.mem_singleton]
    intro heq
    have hlength := congrArg (fun entry : Path Bytes × Bytes => entry.2.length) heq
    simp only [List.length_append, List.length_cons] at hlength
    omega
  · rw [encodeEntries_cons, encodeEntries_cons, encodeEntries_cons, show encodeEntries [] = []
      from rfl]
    simp

theorem binds_nil : Binds [] := by
  rintro other otherContents _ _ ⟨entry, hdiffers⟩ heq
  cases otherContents with
  | nil => exact hdiffers Iff.rfl
  | cons first rest =>
    rw [encodeEntries_cons] at heq
    exact absurd heq (by simp [encodeEntries])

theorem binds_single (hvalid : ValidPath path)
    (h : ¬ Splits path content) : Binds [(path, content)] := by
  rintro other otherContents hwell hcontents ⟨entry, hdiffers⟩ heq
  obtain ⟨hpaths, hbefore⟩ := packageContents_spec hwell hcontents
  cases otherContents with
  | nil =>
    rw [encodeEntries_cons] at heq
    exact absurd heq.symm (by simp [encodeEntries])
  | cons first rest =>
    have hfirst := hpaths first mem_cons_self
    rw [encodeEntries_cons, encodeEntries_cons] at heq
    -- up to the first zero byte both are the path
    obtain ⟨hpath, hrest⟩ := cut_at_zero (zero_notMem_genericString hfirst.2.1)
      (zero_notMem_genericString hvalid.2.1) heq
    have hsame := genericString_injective hfirst hvalid hpath
    cases rest with
    | nil =>
      have hcontent : first.2 = content := List.append_cancel_right hrest
      rw [show first = (path, content) from Prod.ext hsame hcontent] at hdiffers
      exact hdiffers Iff.rfl
    | cons second rest =>
      obtain ⟨body, hbody⟩ := encodeEntries_end rest
      refine h ⟨first.2, second.1, second.2 ++ body, ?_, hpaths second (by simp), ?_, ?_⟩
      · -- both encodings end with the same zero byte
        have hlast : content ++ [0]
            = (first.2 ++ 0 :: (genericString second.1 ++ 0 :: (second.2 ++ body))) ++ [0] := by
          show content ++ 0 :: encodeEntries [] = _
          rw [← hrest, encodeEntries_cons, hbody]
          simp only [append_assoc, List.cons_append]
        exact List.append_cancel_right hlast
      · rw [← hsame]
        exact ((List.pairwise_cons.mp hbefore).1 second mem_cons_self).1
      · rw [← hsame]
        exact ((List.pairwise_cons.mp hbefore).1 second mem_cons_self).2

/-- The digest binds an accepted tree exactly if the tree has no file, or one
    file whose content does not read as two. -/
theorem digest_binds_iff {root : Node Bytes} (hroot : root.WellFormed ValidName)
    {contents : List (Path Bytes × Bytes)} (h : packageContents root = .ok contents) :
    Binds contents ↔
      contents = [] ∨ ∃ path content, contents = [(path, content)] ∧ ¬ Splits path content := by
  obtain ⟨hpaths, hbefore⟩ := packageContents_spec hroot h
  constructor
  · intro hbinds
    match contents with
    | [] => exact .inl rfl
    | [(path, content)] =>
      refine .inr ⟨path, content, rfl, ?_⟩
      intro hsplits
      exact not_binds_splits (hpaths _ mem_cons_self) hsplits hbinds
    | first :: second :: rest =>
      exact absurd hbinds (not_binds_two (hpaths first mem_cons_self) hbefore)
  · rintro (rfl | ⟨path, content, rfl, hsplits⟩)
    · exact binds_nil
    · exact binds_single (hpaths _ mem_cons_self) hsplits

/-! Two trees with one encoding: `a` with the content `x␀b␀y`, and `a` and `b`
with the contents `x` and `y`. -/

def mergedTree : Node Bytes :=
  .directory true (.cons [0x61] (.file (some [0x78, 0, 0x62, 0, 0x79])) .nil)

def separateTree : Node Bytes :=
  .directory true (.cons [0x61] (.file (some [0x78])) (.cons [0x62] (.file (some [0x79])) .nil))

theorem separateTree_wellFormed : separateTree.WellFormed ValidName :=
  ⟨by decide, by decide, trivial, by decide, by decide, trivial, trivial⟩

theorem separateTree_contents :
    packageContents separateTree = .ok [([[0x61]], [0x78]), ([[0x62]], [0x79])] := by
  decide

theorem separateTree_not_bound : ¬ Binds [([[0x61]], [0x78]), ([[0x62]], [0x79])] := by
  rw [digest_binds_iff separateTree_wellFormed separateTree_contents]
  rintro (h | ⟨path, content, h, _⟩)
  · exact absurd h (by decide)
  · exact absurd (congrArg List.length h) (by simp)

/-- Different trees are hashed from the same bytes. -/
theorem digest_does_not_bind :
    ¬ ∀ (root other : Node Bytes) (contents otherContents : List (Path Bytes × Bytes)),
      root.WellFormed ValidName → other.WellFormed ValidName →
      packageContents root = .ok contents → packageContents other = .ok otherContents →
      (∃ entry, ¬ (entry ∈ contents ↔ entry ∈ otherContents)) →
      encodeEntries otherContents ≠ encodeEntries contents := by
  intro h
  have hmerged : packageContents mergedTree = .ok [([[0x61]], [0x78, 0, 0x62, 0, 0x79])] := by
    decide
  refine h separateTree mergedTree _ _ separateTree_wellFormed
    ⟨by decide, by decide, trivial, trivial⟩ separateTree_contents hmerged
    ⟨([[0x62]], [0x79]), ?_⟩ rfl
  decide

end Cwhip.Packages
