/-
  Cwhip.Packages.VersionGrammar

  The texts that `parseVersion` accepts, by the grammar of semantic versions:
  three numbers, a prerelease behind `-`, build metadata behind `+`.
-/

import Cwhip.Lib.NumeralOrder
import Cwhip.Packages.Version

namespace Cwhip.Packages

open Cwhip.Lib

/-! ## The grammar -/

/-- The parts of a version text. -/
structure Groups where
  major : Text
  minor : Text
  patch : Text
  prerelease : Option Text
  build : Option Text
  deriving DecidableEq, Repr

/-- `[0-9A-Za-z-]` -/
def partChar (c : Char) : Bool := c.isAlphanum || c == '-'

/-- A part of a prerelease or of build metadata, `[0-9A-Za-z-]+`. -/
def IsPart (part : Text) : Prop := part ≠ [] ∧ ∀ c ∈ part, partChar c = true

/-- Parts between dots. -/
def IsDotted (text : Text) : Prop := ∀ part ∈ text.splitOn '.', IsPart part

/-- A separator and what it introduces. -/
def optionText (c : Char) : Option Text → Text
  | none => []
  | some text => c :: text

def Groups.text (g : Groups) : Text :=
  g.major ++ '.' :: g.minor ++ '.' :: g.patch ++ optionText '-' g.prerelease ++
    optionText '+' g.build

/-- The parts are well formed, but numbers in the prerelease may have leading zeros. -/
structure Groups.WellFormed (g : Groups) : Prop where
  major : IsNumeral g.major
  minor : IsNumeral g.minor
  patch : IsNumeral g.patch
  prerelease : ∀ text, g.prerelease = some text → IsDotted text
  build : ∀ text, g.build = some text → IsDotted text

/-- Numbers in the prerelease have no leading zeros. -/
def Groups.Strict (g : Groups) : Prop :=
  ∀ text, g.prerelease = some text → ∀ part ∈ text.splitOn '.',
    (part.all Char.isDigit && decide (1 < part.length) && part.head? == some '0') = false

def Groups.version (g : Groups) : Version :=
  ⟨g.major, g.minor, g.patch, g.prerelease.getD [], g.build.getD []⟩

/-! ## Characters -/

variable {c d : Char} {text major minor patch : Text}

theorem IsPart.notMem {part : Text} (h : IsPart part) (hc : partChar c = false) : c ∉ part := by
  intro hmem
  rw [h.2 c hmem] at hc
  cases hc

theorem mem_of_mem_splitOn (hc : c ∈ text) (hne : c ≠ d) :
    ∃ piece ∈ text.splitOn d, c ∈ piece := by
  induction text with
  | nil => cases hc
  | cons first rest ih =>
    obtain ⟨head, tail, hsplit⟩ := List.exists_cons_of_ne_nil (List.splitOnP_ne_nil (· == d) rest)
    have hrest : rest.splitOn d = head :: tail := hsplit
    rw [List.splitOn, List.splitOnP_cons_eq_if_modifyHead, hsplit]
    rcases List.mem_cons.mp hc with rfl | hmem
    · rw [if_neg (by simpa using hne)]
      exact ⟨c :: head, List.mem_cons_self, List.mem_cons_self⟩
    · obtain ⟨piece, hpiece, hin⟩ := ih hmem
      rw [hrest] at hpiece
      split
      · exact ⟨piece, List.mem_cons_of_mem _ hpiece, hin⟩
      · rcases List.mem_cons.mp hpiece with rfl | htail
        · exact ⟨first :: piece, List.mem_cons_self, List.mem_cons_of_mem _ hin⟩
        · exact ⟨piece, List.mem_cons_of_mem _ htail, hin⟩

theorem splitOn_of_notMem (h : d ∉ text) : text.splitOn d = [text] := by
  apply List.splitOnP_eq_singleton
  intro c hc
  rw [beq_eq_false_iff_ne]
  rintro rfl
  exact h hc

theorem splitOn_append (h : d ∉ text) (rest : Text) :
    (text ++ d :: rest).splitOn d = text :: rest.splitOn d := by
  apply List.splitOnP_append_cons_of_forall_mem
  · intro c hc
    rw [beq_eq_false_iff_ne]
    rintro rfl
    exact h hc
  · exact beq_self_eq_true d

theorem IsDotted.notMem_plus (h : IsDotted text) : '+' ∉ text := by
  intro hmem
  obtain ⟨part, hpart, hin⟩ := mem_of_mem_splitOn hmem (show '+' ≠ '.' by decide)
  exact (h part hpart).notMem (by decide) hin

theorem IsDotted.ne_nil (h : IsDotted text) : text ≠ [] := by
  rintro rfl
  exact (h [] (List.mem_singleton_self [])).1 rfl

theorem validCoreNumber_iff (text : Text) : validCoreNumber text = true ↔ IsNumeral text := by
  unfold validCoreNumber
  rw [Bool.and_eq_true, Bool.and_eq_true, Bool.or_eq_true, Bool.not_eq_true',
    List.isEmpty_eq_false_iff,
    beq_iff_eq, bne_iff_ne, List.all_eq_true]
  constructor
  · rintro ⟨⟨hne, hhead⟩, hdigits⟩
    exact ⟨hne, hdigits, fun hlong => hhead.resolve_left (by omega)⟩
  · intro h
    refine ⟨⟨h.ne_nil, ?_⟩, h.digits⟩
    by_cases hone : text.length = 1
    · exact .inl hone
    · have hpos := List.length_pos_of_ne_nil h.ne_nil
      exact .inr (h.head (by omega))

theorem validPart_iff (strict : Bool) (part : Text) :
    validPart strict part = true ↔ IsPart part ∧
      (strict = true → (part.all Char.isDigit && decide (1 < part.length) && part.head? == some '0')
      = false) := by
  have hzero : (!(strict && part.all Char.isDigit && decide (1 < part.length) && part.head? ==
      some '0')) = true ↔
      (strict = true → (part.all Char.isDigit && decide (1 < part.length) && part.head? == some '0')
          = false) := by
    cases strict with
    | false => simp
    | true =>
      rw [Bool.true_and, Bool.not_eq_true']
      exact ⟨fun h _ => h, fun h => h rfl⟩
  unfold validPart IsPart
  rw [Bool.and_eq_true, hzero, Bool.and_eq_true, Bool.not_eq_true', List.isEmpty_eq_false_iff,
    List.all_eq_true]
  rfl

/-- The check accepts exactly dotted texts, under strict rules without leading zeros. -/
theorem validIdentifiers_iff (text : Text) (strict : Bool) :
    validIdentifiers text strict = true ↔ IsDotted text ∧
      (strict = true → ∀ part ∈ text.splitOn '.',
      (part.all Char.isDigit && decide (1 < part.length) && part.head? == some '0') = false) := by
  unfold validIdentifiers
  rw [Bool.and_eq_true, Bool.not_eq_true', List.isEmpty_eq_false_iff, List.all_eq_true]
  simp only [validPart_iff]
  constructor
  · rintro ⟨_, hparts⟩
    exact ⟨fun part hpart => (hparts part hpart).1, fun hstrict part hpart =>
      (hparts part hpart).2 hstrict⟩
  · rintro ⟨hdotted, hstrict⟩
    exact ⟨hdotted.ne_nil, fun part hpart => ⟨hdotted part hpart, fun h => hstrict h part hpart⟩⟩

theorem validOptional_iff (value : Option Text) (strict : Bool) :
    validOptional value strict = true ↔ ∀ text, value = some text →
    validIdentifiers text strict = true := by
  cases value with
  | none | some text => simp [validOptional]

/-! ## The parser -/

/-- A text is cut at the first such character. -/
theorem cutAt_eq_iff {before : Text} {after : Option Text} :
    cutAt c text = (before, after) ↔ text = before ++ optionText c after ∧ c ∉ before := by
  constructor
  · intro h
    cases after with
    | none =>
      obtain ⟨rfl, hnone⟩ := cutAt_none h
      exact ⟨(List.append_nil before).symm, hnone⟩
    | some after => exact cutAt_some h
  · rintro ⟨rfl, hnone⟩
    cases after with
    | none =>
      rw [optionText, List.append_nil]
      exact cutAt_of_notMem hnone
    | some after => exact cutAt_append after hnone

theorem splitOn_core {core : Text} (hmajor : IsNumeral major) (hminor : IsNumeral minor)
    (hpatch : IsNumeral patch) :
    core.splitOn '.' = [major, minor, patch] ↔ core = major ++ '.' :: minor ++ '.' :: patch := by
  constructor
  · intro h
    have hjoin : ['.'].intercalate (core.splitOn '.') = core := List.intercalate_splitOn '.'
    rw [h] at hjoin
    rw [← hjoin]
    simp [List.intercalate]
  · rintro rfl
    rw [List.append_assoc, List.cons_append, splitOn_append (hmajor.notMem rfl),
      splitOn_append (hminor.notMem rfl), splitOn_of_notMem (hpatch.notMem rfl)]

theorem core_notMem (hmajor : IsNumeral major) (hminor : IsNumeral minor) (hpatch : IsNumeral patch)
    (hc : c.isDigit = false) (hdot : c ≠ '.') :
    c ∉ major ++ '.' :: minor ++ '.' :: patch := by
  simp [hmajor.notMem hc, hminor.notMem hc, hpatch.notMem hc, hdot]

/-- A version is read exactly from the texts of the grammar. -/
theorem parseVersion_eq_some_iff (text : Text) (version : Version) :
    parseVersion text = some version ↔
      ∃ g : Groups, g.text = text ∧ g.WellFormed ∧ g.Strict ∧ g.version = version := by
  unfold parseVersion
  constructor
  · intro h
    generalize hplus : cutAt '+' text = cut at h
    obtain ⟨withoutBuild, build⟩ := cut
    dsimp only at h
    generalize hdash : cutAt '-' withoutBuild = cut at h
    obtain ⟨core, prerelease⟩ := cut
    dsimp only at h
    split at h
    · next hvalid =>
      rw [Bool.and_eq_true, validOptional_iff, validOptional_iff] at hvalid
      split at h
      · next major minor patch hcore =>
        split at h
        · next hnumbers =>
          rw [Bool.and_eq_true, Bool.and_eq_true, validCoreNumber_iff, validCoreNumber_iff,
            validCoreNumber_iff] at hnumbers
          obtain ⟨⟨hmajor, hminor⟩, hpatch⟩ := hnumbers
          refine ⟨⟨major, minor, patch, prerelease, build⟩, ?_, ?_, ?_, Option.some.inj h⟩
          · rw [(cutAt_eq_iff.mp hplus).1, (cutAt_eq_iff.mp hdash).1,
              (splitOn_core hmajor hminor hpatch).mp hcore]
            rfl
          · exact ⟨hmajor, hminor, hpatch,
              fun t ht => ((validIdentifiers_iff t true).mp (hvalid.2 t ht)).1,
              fun t ht => ((validIdentifiers_iff t false).mp (hvalid.1 t ht)).1⟩
          · exact fun t ht => ((validIdentifiers_iff t true).mp (hvalid.2 t ht)).2 rfl
        · cases h
      · cases h
    · cases h
  · rintro ⟨⟨major, minor, patch, prerelease, build⟩, rfl, hg, hstrict, rfl⟩
    have hcore : ∀ c : Char, c.isDigit = false → c ≠ '.' → c ∉ major ++ '.' :: minor ++
        '.' :: patch :=
      fun c => core_notMem hg.major hg.minor hg.patch
    -- the first '+' begins the build, and the first '-' before it the prerelease
    have hfront : '+' ∉ major ++ '.' :: minor ++ '.' :: patch ++ optionText '-' prerelease := by
      rw [List.mem_append, not_or]
      refine ⟨hcore '+' rfl (by decide), ?_⟩
      cases prerelease with
      | none => exact List.not_mem_nil
      | some t =>
        rw [optionText, List.mem_cons, not_or]
        exact ⟨by decide, (hg.prerelease t rfl).notMem_plus⟩
    have hplus : cutAt '+' (Groups.text ⟨major, minor, patch, prerelease, build⟩)
        = (major ++ '.' :: minor ++ '.' :: patch ++ optionText '-' prerelease, build) :=
      cutAt_eq_iff.mpr ⟨rfl, hfront⟩
    have hdash : cutAt '-' (major ++ '.' :: minor ++ '.' :: patch ++ optionText '-' prerelease)
        = (major ++ '.' :: minor ++ '.' :: patch, prerelease) :=
      cutAt_eq_iff.mpr ⟨rfl, hcore '-' rfl (by decide)⟩
    have hvalid : (validOptional build false && validOptional prerelease true) = true := by
      rw [Bool.and_eq_true, validOptional_iff, validOptional_iff]
      refine ⟨fun t ht => (validIdentifiers_iff t false).mpr ⟨hg.build t ht, fun h => nomatch h⟩,
        fun t ht => (validIdentifiers_iff t true).mpr ⟨hg.prerelease t ht, fun _ => hstrict t ht⟩⟩
    have hnumbers : (validCoreNumber major && validCoreNumber minor && validCoreNumber patch) =
        true := by
      rw [Bool.and_eq_true, Bool.and_eq_true, validCoreNumber_iff, validCoreNumber_iff,
        validCoreNumber_iff]
      exact ⟨⟨hg.major, hg.minor⟩, hg.patch⟩
    rw [hplus]
    dsimp only
    rw [hdash]
    dsimp only
    rw [if_pos hvalid, (splitOn_core hg.major hg.minor hg.patch).mpr rfl]
    dsimp only
    rw [if_pos hnumbers]
    rfl

end Cwhip.Packages
