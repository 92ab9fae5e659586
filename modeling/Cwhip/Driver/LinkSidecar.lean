/-
  Cwhip.Driver.LinkSidecar

  The file beside an object that names the libraries its packages link with
  (`main.cpp`).

  A value is a row of its own, and quotes and backslashes in it are escaped;
  a line feed is not.
-/

import Cwhip.Lib.FirstOccurrence
import Cwhip.Lib.Lines
import Cwhip.Driver.ShellCommand

namespace Cwhip.Driver

open Cwhip.Lib
open List (append_assoc cons_append flatMap_cons mem_cons singleton_append)

structure LinkInputs where
  libraryPaths : List Text
  libraries : List Text
  deriving DecidableEq

/-- `linkSidecarPath` -/
def linkSidecarPath (objectPath : Text) : Text := objectPath ++ ".cwhip-link".toList

/-! ## Writing -/

/-- `std::quoted`, written. -/
def quoted (value : Text) : Text :=
  '"' :: (value.flatMap fun c => if c = '"' ∨ c = '\\' then ['\\', c] else [c]) ++ ['"']

def sidecarRow (kind : Char) (value : Text) : Text := kind :: ' ' :: quoted value

def sidecarHeader : Text := "CWHIP-LINK 1".toList

/-- `writeLinkSidecar`: the content of the file. -/
def writeLinkSidecar (inputs : LinkInputs) : Text :=
  sidecarHeader ++ '\n' ::
    ((inputs.libraryPaths.flatMap fun path => sidecarRow 'L' path ++ ['\n']) ++
      inputs.libraries.flatMap fun library => sidecarRow 'l' library ++ ['\n'])

/-! ## Reading -/

/-- `isspace`, in the C locale. -/
def isBlank (c : Char) : Bool :=
  c == ' ' || c == '\t' || c == '\n' || c == Char.ofNat 11 || c == Char.ofNat 12 || c == '\r'

/-- `std::quoted`, read, behind the opening quote: the value, and the rest. -/
def quotedTail : Text → Option (Text × Text)
  | [] => none
  | c :: rest =>
    if c = '\\' then
      match rest with
      | [] => none
      | escaped :: rest => (quotedTail rest).map fun read => (escaped :: read.1, read.2)
    else if c = '"' then some ([], rest)
    else (quotedTail rest).map fun read => (c :: read.1, read.2)

/-- `>> std::quoted(value)`: a value without quotes is a word. -/
def readQuoted (row : Text) : Option (Text × Text) :=
  match row.dropWhile isBlank with
  | [] => none
  | c :: rest =>
    if c = '"' then quotedTail rest
    else some ((c :: rest).takeWhile (!isBlank ·), (c :: rest).dropWhile (!isBlank ·))

/-- The kind and the value of a row. -/
def parseRow (line : Text) : Option (Char × Text) :=
  match line.dropWhile isBlank with
  | [] => none
  | kind :: rest =>
    (readQuoted rest).bind fun (value, trailing) =>
      if trailing.dropWhile isBlank ≠ [] ∨ (kind ≠ 'L' ∧ kind ≠ 'l') ∨ value = [] then none
      else some (kind, value)

/-- The rows of a file, from a line number on. -/
def readRows (path : Text) : Nat → List Text → LinkInputs → Except Text LinkInputs
  | _, [], inputs => .ok inputs
  | number, line :: rest, inputs =>
    if line = [] then readRows path (number + 1) rest inputs
    else
      match parseRow line with
      | none =>
        .error (path ++ ':' :: (Nat.repr number).toList ++
          ": invalid package link metadata row".toList)
      | some (kind, value) =>
        if kind = 'L' then
          readRows path (number + 1) rest
            { inputs with libraryPaths := appendUnique inputs.libraryPaths value }
        else if value.head? = some '-' then
          .error (path ++ ':' :: (Nat.repr number).toList ++ ": invalid library name".toList)
        else
          readRows path (number + 1) rest
            { inputs with libraries := appendUnique inputs.libraries value }

/-- What opening a file gives. -/
inductive SidecarFile where
  | absent
  | unreadable
  | content (text : Text)

/-- The loop of `readLinkSidecars`. -/
def readLinkSidecarsFrom (files : Text → SidecarFile) :
    List Text → LinkInputs → Except Text LinkInputs
  | [], inputs => .ok inputs
  | objectPath :: rest, inputs =>
    match files (linkSidecarPath objectPath) with
    | .absent => readLinkSidecarsFrom files rest inputs
    | .unreadable =>
      .error ("cannot read package link metadata: ".toList ++ linkSidecarPath objectPath)
    | .content text =>
      match lines '\n' text with
      | [] =>
        .error ("invalid package link metadata header: ".toList ++ linkSidecarPath objectPath)
      | header :: rows =>
        if header = sidecarHeader then do
          let inputs ← readRows (linkSidecarPath objectPath) 2 rows inputs
          readLinkSidecarsFrom files rest inputs
        else
          .error ("invalid package link metadata header: ".toList ++ linkSidecarPath objectPath)

/-- `readLinkSidecars` -/
def readLinkSidecars (files : Text → SidecarFile) (objectPaths : List Text) :
    Except Text LinkInputs :=
  readLinkSidecarsFrom files objectPaths ⟨[], []⟩

/-- What `main` links with: the inputs of its own packages, then of the objects. -/
def linkedInputs (files : Text → SidecarFile) (own : LinkInputs) (objectPaths : List Text) :
    Except Text LinkInputs := do
  let sidecars ← readLinkSidecars files objectPaths
  return ⟨appendAllUnique (appendAllUnique [] own.libraryPaths) sidecars.libraryPaths,
    appendAllUnique (appendAllUnique [] own.libraries) sidecars.libraries⟩

/-! ## What compilation admits -/

/-- `readManifest`: letters, digits and a few marks, not starting with a dash. -/
def isLibraryName (library : Text) : Bool :=
  library != [] && library.head? != some '-' && library.all fun c =>
    c.isAlphanum || c == '_' || c == '-' || c == '.' || c == '+'

/-- The library directories are absolute paths. -/
structure Admitted (inputs : LinkInputs) : Prop where
  paths : ∀ path ∈ inputs.libraryPaths, path.head? = some '/'
  libraries : ∀ library ∈ inputs.libraries, isLibraryName library = true

/-! ## Rows -/

theorem quotedTail_escaped (c : Char) (rest : Text) :
    quotedTail ('\\' :: c :: rest) = (quotedTail rest).map fun read => (c :: read.1, read.2) := by
  rw [quotedTail.eq_def]
  exact if_pos rfl

theorem quotedTail_plain {c : Char} (h : ¬ (c = '"' ∨ c = '\\')) (rest : Text) :
    quotedTail (c :: rest) = (quotedTail rest).map fun read => (c :: read.1, read.2) := by
  rw [not_or] at h
  rw [quotedTail.eq_def]
  dsimp only
  rw [if_neg h.2, if_neg h.1]

theorem quotedTail_quoted (value rest : Text) :
    quotedTail ((value.flatMap fun c => if c = '"' ∨ c = '\\' then ['\\', c] else [c]) ++ '"' ::
      rest) = some (value, rest) := by
  induction value with
  | nil =>
    rw [List.flatMap_nil, List.nil_append, quotedTail.eq_def]
    rfl
  | cons c value ih =>
    rw [flatMap_cons, append_assoc]
    split
    · rw [cons_append, singleton_append, quotedTail_escaped, ih]
      rfl
    · next hplain =>
      rw [singleton_append, quotedTail_plain hplain, ih]
      rfl

theorem quotedTail_cut (value : Text) :
    quotedTail (value.flatMap fun c => if c = '"' ∨ c = '\\' then ['\\', c] else [c]) = none := by
  induction value with
  | nil => rfl
  | cons c value ih =>
    rw [flatMap_cons]
    split
    · rw [cons_append, singleton_append, quotedTail_escaped, ih]
      rfl
    · next hplain =>
      rw [singleton_append, quotedTail_plain hplain, ih]
      rfl

variable {kind : Char} {value : Text}

theorem parseRow_kind (hkind : kind = 'L' ∨ kind = 'l') (rest : Text) :
    parseRow (kind :: ' ' :: '"' :: rest) = (quotedTail rest).bind fun (value, trailing) =>
      if trailing.dropWhile isBlank ≠ [] ∨ value = [] then none else some (kind, value) := by
  have hread : readQuoted (' ' :: '"' :: rest) = quotedTail rest := by
    rw [readQuoted, List.dropWhile_cons_of_pos (by decide), List.dropWhile_cons_of_neg (by decide)]
    exact if_pos rfl
  rcases hkind with rfl | rfl
  · rw [parseRow, List.dropWhile_cons_of_neg (by decide)]
    simp [hread]
  · rw [parseRow, List.dropWhile_cons_of_neg (by decide)]
    simp [hread]

theorem parseRow_row (hkind : kind = 'L' ∨ kind = 'l') (hvalue : value ≠ []) :
    parseRow (sidecarRow kind value) = some (kind, value) := by
  rw [sidecarRow, quoted, cons_append, parseRow_kind hkind, quotedTail_quoted, Option.bind_some]
  exact if_neg (by simp [hvalue])

theorem parseRow_cut (hkind : kind = 'L' ∨ kind = 'l') (value : Text) :
    parseRow (kind :: ' ' :: '"' :: value.flatMap fun c => if c = '"' ∨ c = '\\' then ['\\', c]
      else [c]) = none := by
  rw [parseRow_kind hkind, quotedTail_cut]
  rfl

theorem quoted_free (h : '\n' ∉ value) : '\n' ∉ quoted value := by
  intro hmem
  simp only [quoted, cons_append, mem_cons, List.mem_append, List.mem_flatMap,
    List.not_mem_nil, or_false] at hmem
  rcases hmem with hquote | ⟨c, hc, hmem⟩ | hquote
  · exact absurd hquote (by decide)
  · have hsame : '\n' = c := by
      split at hmem
      · rcases List.mem_cons.mp hmem with hslash | hmem
        · exact absurd hslash (by decide)
        · exact List.mem_singleton.mp hmem
      · exact List.mem_singleton.mp hmem
    exact h (hsame ▸ hc)
  · exact absurd hquote (by decide)

/-! ## One file -/

/-- The inputs after the rows of a file. -/
def LinkInputs.merge (first second : LinkInputs) : LinkInputs :=
  ⟨appendAllUnique first.libraryPaths second.libraryPaths,
    appendAllUnique first.libraries second.libraries⟩

def NewlineFree (inputs : LinkInputs) : Prop := ∀ path ∈ inputs.libraryPaths, '\n' ∉ path

theorem sidecarRow_free (hkind : kind = 'L' ∨ kind = 'l')
    (h : '\n' ∉ value) : '\n' ∉ sidecarRow kind value := by
  rw [sidecarRow, mem_cons, mem_cons, not_or, not_or]
  refine ⟨?_, by decide, quoted_free h⟩
  rcases hkind with rfl | rfl
  · decide
  · decide

theorem isLibraryName_spec {library : Text} (h : isLibraryName library = true) :
    library ≠ [] ∧ library.head? ≠ some '-' ∧ '\n' ∉ library := by
  simp only [isLibraryName, Bool.and_eq_true, bne_iff_ne, List.all_eq_true] at h
  refine ⟨h.1.1, h.1.2, fun hmem => ?_⟩
  exact absurd (h.2 _ hmem) (by decide)

theorem readRows_libraries (path : Text) {libraries : List Text}
    (h : ∀ library ∈ libraries, isLibraryName library = true) (number : Nat) (inputs : LinkInputs) :
    readRows path number (lines '\n' (libraries.flatMap fun library =>
        sidecarRow 'l' library ++ ['\n']))
        inputs = .ok { inputs with libraries := appendAllUnique inputs.libraries libraries } := by
  induction libraries generalizing number inputs with
  | nil => rfl
  | cons library libraries ih =>
    obtain ⟨hlibrary, hrest⟩ := List.forall_mem_cons.mp h
    obtain ⟨hne, hdash, hfree⟩ := isLibraryName_spec hlibrary
    rw [flatMap_cons, append_assoc, singleton_append,
      lines_cons (sidecarRow_free (.inr rfl) hfree), readRows,
      if_neg (show sidecarRow 'l' library ≠ [] from fun hnil => nomatch hnil),
      parseRow_row (.inr rfl) hne]
    dsimp only
    rw [if_neg (by decide), if_neg hdash, ih hrest]
    rfl

theorem readRows_broken (path value rest : Text) (h : '\n' ∈ value) (number : Nat)
    (inputs : LinkInputs) :
    ∃ error, readRows path number (lines '\n' (sidecarRow 'L' value ++ rest)) inputs =
    .error error := by
  obtain ⟨front, back, rfl, hfront⟩ := List.eq_append_cons_of_mem h
  have hfree : '\n' ∉ 'L' :: ' ' :: '"' ::
      front.flatMap fun c => if c = '"' ∨ c = '\\' then ['\\', c] else [c] := by
    have hrow := sidecarRow_free (.inl rfl : 'L' = 'L' ∨ 'L' = 'l') hfront
    rw [sidecarRow, quoted, cons_append] at hrow
    intro hmem
    apply hrow
    rw [← cons_append, ← cons_append, ← cons_append]
    exact List.mem_append_left _ hmem
  have hcut : ∃ after, sidecarRow 'L' (front ++ '\n' :: back) ++ rest
      = ('L' :: ' ' :: '"' :: front.flatMap fun c => if c = '"' ∨ c = '\\' then ['\\', c] else [c])
        ++ '\n' :: after := by
    refine ⟨(back.flatMap fun c => if c = '"' ∨ c = '\\' then ['\\', c] else [c]) ++ '"' :: rest,
      ?_⟩
    simp [sidecarRow, quoted, List.flatMap_append, flatMap_cons]
  obtain ⟨after, hcut⟩ := hcut
  rw [hcut, lines_cons hfree, readRows, if_neg (fun hnil => nomatch hnil), parseRow_cut (.inl rfl)]
  exact ⟨_, rfl⟩

theorem readRows_written (path : Text) {inputs : LinkInputs} (h : Admitted inputs) (number : Nat)
    (found : LinkInputs) :
    (NewlineFree inputs → readRows path number (lines '\n' (
      (inputs.libraryPaths.flatMap fun path => sidecarRow 'L' path ++ ['\n']) ++
        inputs.libraries.flatMap fun library => sidecarRow 'l' library ++ ['\n'])) found
      = .ok (found.merge inputs)) ∧
    (¬ NewlineFree inputs → ∃ error, readRows path number (lines '\n' (
      (inputs.libraryPaths.flatMap fun path => sidecarRow 'L' path ++ ['\n']) ++
        inputs.libraries.flatMap fun library => sidecarRow 'l' library ++ ['\n'])) found
      = .error error) := by
  obtain ⟨paths, libraries⟩ := inputs
  obtain ⟨hpaths, hlibraries⟩ := h
  dsimp only at hpaths hlibraries ⊢
  induction paths generalizing number found with
  | nil =>
    refine ⟨fun _ => readRows_libraries path hlibraries number found, fun hnot => ?_⟩
    exact absurd (fun value hvalue => nomatch hvalue) hnot
  | cons value paths ih =>
    obtain ⟨hvalue, hrest⟩ := List.forall_mem_cons.mp hpaths
    have hne : value ≠ [] := by
      rintro rfl
      cases hvalue
    rw [flatMap_cons, append_assoc, append_assoc, singleton_append]
    by_cases hfree : '\n' ∈ value
    · -- no row follows the broken one
      refine ⟨fun hnone => absurd hfree (hnone value List.mem_cons_self), fun _ => ?_⟩
      exact readRows_broken path value _ hfree number found
    · rw [lines_cons (sidecarRow_free (.inl rfl) hfree), readRows,
        if_neg (show sidecarRow 'L' value ≠ [] from fun hnil => nomatch hnil),
        parseRow_row (.inl rfl) hne]
      dsimp only
      rw [if_pos rfl]
      obtain ⟨hok, herror⟩ :=
        ih (number + 1) { found with libraryPaths := appendUnique found.libraryPaths value } hrest
      constructor
      · intro hall
        exact hok fun other hother => hall other (List.mem_cons_of_mem _ hother)
      · intro hnot
        apply herror
        intro hall
        exact hnot (List.forall_mem_cons.mpr ⟨hfree, hall⟩)

/-! ## All files -/

section

variable {files : Text → SidecarFile}

/-- Each object has no sidecar or the one that was written for it. -/
def Written (files : Text → SidecarFile) (objects : List (Text × Option LinkInputs)) : Prop :=
  ∀ object ∈ objects, match object.2 with
    | none => files (linkSidecarPath object.1) = .absent
    | some inputs =>
      Admitted inputs ∧ files (linkSidecarPath object.1) = .content (writeLinkSidecar inputs)

/-- What objects name, one after the other. -/
def allInputs (objects : List (Text × Option LinkInputs)) : LinkInputs :=
  ⟨(objects.filterMap Prod.snd).flatMap LinkInputs.libraryPaths,
    (objects.filterMap Prod.snd).flatMap LinkInputs.libraries⟩

theorem readLinkSidecarsFrom_written {objects : List (Text × Option LinkInputs)}
    (h : Written files objects) (found : LinkInputs) :
    (NewlineFree (allInputs objects) →
      readLinkSidecarsFrom files (objects.map Prod.fst) found =
      .ok (found.merge (allInputs objects))) ∧
    (¬ NewlineFree (allInputs objects) →
      ∃ error, readLinkSidecarsFrom files (objects.map Prod.fst) found = .error error) := by
  induction objects generalizing found with
  | nil =>
    refine ⟨fun _ => rfl, fun hnot => ?_⟩
    exact absurd (fun value hvalue => nomatch hvalue) hnot
  | cons object objects ih =>
    obtain ⟨hobject, hrest⟩ := List.forall_mem_cons.mp h
    obtain ⟨objectPath, sidecar⟩ := object
    rw [List.map_cons, readLinkSidecarsFrom]
    cases sidecar with
    | none =>
      rw [show files (linkSidecarPath objectPath) = .absent from hobject]
      exact ih hrest found
    | some inputs =>
      obtain ⟨hadmitted, hfile⟩ := hobject
      have hheader : '\n' ∉ sidecarHeader := by decide +kernel
      obtain ⟨hok, herror⟩ := readRows_written (linkSidecarPath objectPath) hadmitted 2 found
      rw [hfile]
      dsimp only
      rw [writeLinkSidecar, lines_cons hheader]
      dsimp only
      rw [if_pos rfl]
      have hall : NewlineFree (allInputs ((objectPath, some inputs) :: objects))
          ↔ NewlineFree inputs ∧ NewlineFree (allInputs objects) := by
        simp only [NewlineFree, allInputs, List.filterMap_cons, flatMap_cons, List.mem_append,
          or_imp, forall_and]
      rw [hall]
      by_cases hfree : NewlineFree inputs
      · rw [hok hfree]
        obtain ⟨hok', herror'⟩ := ih hrest (found.merge inputs)
        constructor
        · intro hboth
          refine (hok' hboth.2).trans ?_
          simp only [LinkInputs.merge, allInputs, List.filterMap_cons, flatMap_cons,
            appendAllUnique_append]
        · intro hnot
          exact herror' fun hothers => hnot ⟨hfree, hothers⟩
      · obtain ⟨error, hread⟩ := herror hfree
        rw [hread]
        exact ⟨fun hboth => absurd hboth.1 hfree, fun _ => ⟨error, rfl⟩⟩

/-- What is read of the sidecars of objects are the directories and the names
    written for them, each where it comes first, and linking adds them to those of
    its own packages, exactly when no directory has a line feed in its path. -/
theorem sidecars_round_trip_iff {objects : List (Text × Option LinkInputs)}
    (h : Written files objects) (own : LinkInputs) :
    (readLinkSidecars files (objects.map Prod.fst) = .ok
        ⟨(allInputs objects).libraryPaths.eraseDups, (allInputs objects).libraries.eraseDups⟩ ∧
      linkedInputs files own (objects.map Prod.fst) = .ok
        ⟨(own.libraryPaths ++ (allInputs objects).libraryPaths).eraseDups,
          (own.libraries ++ (allInputs objects).libraries).eraseDups⟩) ↔
      ∀ path ∈ (allInputs objects).libraryPaths, '\n' ∉ path := by
  obtain ⟨hok, herror⟩ := readLinkSidecarsFrom_written h ⟨[], []⟩
  constructor
  · rintro ⟨hread, -⟩
    by_contra hnot
    obtain ⟨error, hfails⟩ := herror hnot
    cases hread.symm.trans hfails
  · intro hfree
    have hread := hok hfree
    have hmerge : ∀ own more : List Text,
        appendAllUnique (appendAllUnique [] own) (appendAllUnique [] more) =
            (own ++ more).eraseDups := by
      intro own more
      have hflat := appendAllUnique_flatMap (fun value : Text => [value]) (appendAllUnique [] own)
        [] more
      rw [List.flatMap_singleton', List.flatMap_singleton'] at hflat
      rw [hflat, List.nil_append, ← appendAllUnique_append, appendAllUnique_eraseDups]
    constructor
    · refine hread.trans ?_
      rw [LinkInputs.merge, appendAllUnique_eraseDups, appendAllUnique_eraseDups]
    · rw [linkedInputs, readLinkSidecars, hread]
      show Except.ok _ = Except.ok _
      rw [LinkInputs.merge, hmerge, hmerge]

end

/-! ## Objects that share a directory and a library -/

def firstInputs : LinkInputs := ⟨["/lib", "/a b"].map String.toList, ["m", "z"].map String.toList⟩

def secondInputs : LinkInputs := ⟨["/q\"r", "/lib"].map String.toList,
    ["z", "ssl"].map String.toList⟩

/-- Two objects with their sidecars, and one without in between. -/
def sharingObjects : List (Text × Option LinkInputs) :=
  [("x.o".toList, some firstInputs), ("y.o".toList, none), ("z.o".toList, some secondInputs)]

def sharingFiles (path : Text) : SidecarFile :=
  if path = "x.o.cwhip-link".toList then .content (writeLinkSidecar firstInputs)
  else if path = "z.o.cwhip-link".toList then .content (writeLinkSidecar secondInputs)
  else .absent

theorem sharingObjects_written : Written sharingFiles sharingObjects := by
  have hfirst : Admitted firstInputs := ⟨by decide +kernel, by decide +kernel⟩
  have hsecond : Admitted secondInputs := ⟨by decide +kernel, by decide +kernel⟩
  have hx : linkSidecarPath "x.o".toList = "x.o.cwhip-link".toList := by decide +kernel
  have hz : linkSidecarPath "z.o".toList = "z.o.cwhip-link".toList := by decide +kernel
  intro object hobject
  simp only [sharingObjects, mem_cons, List.not_mem_nil, or_false] at hobject
  rcases hobject with rfl | rfl | rfl
  · exact ⟨hfirst, by rw [hx]; exact if_pos rfl⟩
  · show sharingFiles _ = .absent
    rw [sharingFiles, if_neg (by decide +kernel), if_neg (by decide +kernel)]
  · refine ⟨hsecond, ?_⟩
    rw [hz, sharingFiles, if_neg (by decide +kernel), if_pos rfl]

theorem sidecars_round_trip_shared :
    readLinkSidecars sharingFiles (["x.o", "y.o", "z.o"].map String.toList) =
        .ok ⟨["/lib", "/a b", "/q\"r"].map String.toList, ["m", "z", "ssl"].map String.toList⟩ ∧
      linkedInputs sharingFiles ⟨["/opt", "/lib"].map String.toList, ["ssl".toList]⟩
          (["x.o", "y.o", "z.o"].map String.toList) =
        .ok ⟨["/opt", "/lib", "/a b", "/q\"r"].map String.toList,
        ["ssl", "m", "z"].map String.toList⟩ := by
  obtain ⟨hread, hlinked⟩ := (sidecars_round_trip_iff sharingObjects_written
    ⟨["/opt", "/lib"].map String.toList, ["ssl".toList]⟩).mpr (by decide +kernel)
  exact ⟨hread.trans (by decide +kernel), hlinked.trans (by decide +kernel)⟩

/-- Where the object of a package in a directory is. -/
def sampleObject (path : Text) : List (Text × Option LinkInputs) :=
  [("x.o".toList, some ⟨[path], ["m".toList]⟩)]

theorem sampleObject_written {path : Text} (hpath : path.head? = some '/') :
    Written (fun _ => .content (writeLinkSidecar ⟨[path], ["m".toList]⟩)) (sampleObject path) := by
  intro object hobject
  rw [List.mem_singleton.mp hobject]
  refine ⟨⟨?_, ?_⟩, rfl⟩
  · intro other hother
    rw [List.mem_singleton.mp hother]
    exact hpath
  · intro library hlibrary
    rw [List.mem_singleton.mp hlibrary]
    decide +kernel

/-- A directory whose name has a line feed is written, and cannot be read. -/
theorem sidecars_line_feed : ¬ ∀ (files : Text → SidecarFile)
    (objects : List (Text × Option LinkInputs)),
    Written files objects → readLinkSidecars files (objects.map Prod.fst) = .ok
      ⟨(allInputs objects).libraryPaths.eraseDups, (allInputs objects).libraries.eraseDups⟩ := by
  intro h
  have hpath : ("/a\nb".toList).head? = some '/' := by decide +kernel
  have hwritten := sampleObject_written hpath
  obtain ⟨error, hfails⟩ := (readLinkSidecarsFrom_written hwritten ⟨[], []⟩).2 (fun hfree => by
    exact hfree "/a\nb".toList List.mem_cons_self (by decide +kernel))
  cases hfails.symm.trans (h _ _ hwritten)

end Cwhip.Driver
