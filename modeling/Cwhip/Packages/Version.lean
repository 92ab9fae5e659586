/-
  Cwhip.Packages.Version

  Semantic versions as the package registry reads and compares them: three core
  numbers, an optional prerelease after `-` and optional build metadata after
  `+`.  All tests of characters are about ASCII characters.
-/

import Mathlib.Data.List.Lex
import Mathlib.Data.Char
import Cwhip.Lib.Texts

namespace Cwhip.Packages

/-- What stands before the first `c`, and what stands after it, if there is one. -/
def cutAt (c : Char) : Text → Text × Option Text
  | [] => ([], none)
  | first :: rest =>
    if first = c then ([], some rest)
    else (first :: (cutAt c rest).1, (cutAt c rest).2)

variable {c : Char} {text before : Text}

theorem cutAt_none (h : cutAt c text = (before, none)) :
    before = text ∧ c ∉ text := by
  induction text generalizing before with
  | nil =>
    cases h
    exact ⟨rfl, List.not_mem_nil⟩
  | cons first rest ih =>
    unfold cutAt at h
    split at h
    · cases h
    · next hne =>
      obtain ⟨rfl, hnone⟩ := Prod.mk.inj h
      obtain ⟨heq, hmem⟩ := ih (Prod.ext rfl hnone)
      refine ⟨congrArg (first :: ·) heq, ?_⟩
      rw [List.mem_cons, not_or]
      exact ⟨fun h => hne h.symm, hmem⟩

theorem cutAt_some {after : Text} (h : cutAt c text = (before, some after)) :
    text = before ++ c :: after ∧ c ∉ before := by
  induction text generalizing before with
  | nil => cases h
  | cons first rest ih =>
    unfold cutAt at h
    split at h
    · next heq =>
      cases h
      rw [heq]
      exact ⟨rfl, List.not_mem_nil⟩
    · next hne =>
      obtain ⟨rfl, hsome⟩ := Prod.mk.inj h
      obtain ⟨heq, hmem⟩ := ih (Prod.ext rfl hsome)
      refine ⟨congrArg (first :: ·) heq, ?_⟩
      rw [List.mem_cons, not_or]
      exact ⟨fun h => hne h.symm, hmem⟩

theorem cutAt_append (after : Text) (h : c ∉ before) :
    cutAt c (before ++ c :: after) = (before, some after) := by
  induction before with
  | nil => simp [cutAt]
  | cons first rest ih =>
    rw [List.mem_cons, not_or] at h
    rw [List.cons_append, cutAt, if_neg (Ne.symm h.1), ih h.2]

theorem cutAt_of_notMem (h : c ∉ text) : cutAt c text = (text, none) := by
  induction text with
  | nil => rfl
  | cons first rest ih =>
    rw [List.mem_cons, not_or] at h
    rw [cutAt, if_neg (Ne.symm h.1), ih h.2]

/-! ## Parsing -/

structure Version where
  major : Text
  minor : Text
  patch : Text
  prerelease : Text
  build : Text
  deriving DecidableEq, Repr

def validCoreNumber (value : Text) : Bool :=
  !value.isEmpty && (value.length == 1 || value.head? != some '0') && value.all Char.isDigit

/-- One dot-separated part of a prerelease or of build metadata. -/
def validPart (rejectLeadingZero : Bool) (part : Text) : Bool :=
  !part.isEmpty && part.all (fun character => character.isAlphanum || character == '-') &&
    !(rejectLeadingZero && part.all Char.isDigit && decide (1 < part.length) &&
      part.head? == some '0')

def validIdentifiers (value : Text) (rejectLeadingZero : Bool) : Bool :=
  !value.isEmpty && (value.splitOn '.').all (validPart rejectLeadingZero)

/-- A part that is absent is fine; one that is present must be well formed. -/
def validOptional (value : Option Text) (rejectLeadingZero : Bool) : Bool :=
  match value with
  | none => true
  | some text => validIdentifiers text rejectLeadingZero

def parseVersion (text : Text) : Option Version :=
  let (withoutBuild, build) := cutAt '+' text
  let (core, prerelease) := cutAt '-' withoutBuild
  if validOptional build false && validOptional prerelease true then
    match core.splitOn '.' with
    | [major, minor, patch] =>
      if validCoreNumber major && validCoreNumber minor && validCoreNumber patch then
        some ⟨major, minor, patch, prerelease.getD [], build.getD []⟩
      else none
    | _ => none
  else none

theorem parseVersion_ne_nil (h : (parseVersion text).isSome) : text ≠ [] := by
  rintro rfl
  revert h
  decide

/-! ## Comparing -/

/-- Numbers without leading zeros: the longer one is greater. -/
def compareNumeric (lhs rhs : Text) : Ordering :=
  if lhs.length ≠ rhs.length then (if lhs.length < rhs.length then .lt else .gt)
  else if lhs ≠ rhs then (if lhs < rhs then .lt else .gt)
  else .eq

/-- One part of a prerelease against another: numbers come before names. -/
def comparePart (lhs rhs : Text) : Ordering :=
  let leftNumeric := lhs.all Char.isDigit
  let rightNumeric := rhs.all Char.isDigit
  if leftNumeric && rightNumeric then compareNumeric lhs rhs
  else if leftNumeric != rightNumeric then (if leftNumeric then .lt else .gt)
  else if lhs ≠ rhs then (if lhs < rhs then .lt else .gt)
  else .eq

/-- Parts in order; where one list ends, the shorter one is less. -/
def compareParts : List Text → List Text → Ordering
  | [], [] => .eq
  | [], _ :: _ => .lt
  | _ :: _, [] => .gt
  | lhs :: left, rhs :: right =>
    match comparePart lhs rhs with
    | .eq => compareParts left right
    | result => result

/-- A version without prerelease comes after all its prereleases. -/
def comparePrerelease (left right : Text) : Ordering :=
  if left.isEmpty then (if right.isEmpty then .eq else .gt)
  else if right.isEmpty then .lt
  else compareParts (left.splitOn '.') (right.splitOn '.')

def compareVersion (left right : Version) : Ordering :=
  (compareNumeric left.major right.major).then <|
  (compareNumeric left.minor right.minor).then <|
  (compareNumeric left.patch right.patch).then <|
  comparePrerelease left.prerelease right.prerelease

end Cwhip.Packages
