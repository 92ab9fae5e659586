/-
  Cwhip.Packages.PythonVersions

  `version_parts` and `compare_versions` of the package manager, against
  `parseVersion` and `compareVersion` of the compiler.

  Python's `int` refuses a text of more than 4300 digits.  `compare_versions`
  converts the core numbers, and the first parts that differ if both are
  numbers; so on long numbers it raises where the compiler compares texts.
-/

import Cwhip.Lib.Except
import Cwhip.Packages.VersionOrder
import Cwhip.Packages.VersionPattern

namespace Cwhip.Packages

open Cwhip.Lib

/-! ## The functions -/

/-- The exceptions: two of the program, and the one of `int`. -/
inductive VersionError where
  | invalidVersion (version : Text)
  | invalidPrerelease (version : Text)
  | tooManyDigits
  deriving DecidableEq, Repr

def hasLeadingZero (part : Text) : Bool :=
  part.all Char.isDigit && decide (1 < part.length) && part.head? == some '0'

/-- `version_parts` -/
def versionParts (version : Text) : Except VersionError (List Text × Option (List Text)) :=
  match fullmatch version with
  | none => .error (.invalidVersion version)
  | some groups =>
    let core := [groups.major, groups.minor, groups.patch]
    match groups.prerelease with
    | none => .ok (core, none)
    | some prerelease =>
      if (prerelease.splitOn '.').any hasLeadingZero then .error (.invalidPrerelease version)
      else .ok (core, if prerelease = [] then none else some (prerelease.splitOn '.'))

/-- The default of `sys.get_int_max_str_digits`. -/
def intMaxStrDigits : Nat := 4300

/-- `int` of a text of digits. -/
def int (part : Text) : Except VersionError Nat :=
  if part.length ≤ intMaxStrDigits then .ok (numeralValue part) else .error .tooManyDigits

/-- `(a > b) - (a < b)` -/
def difference {α : Type*} [LT α] [DecidableLT α] (a b : α) : Int :=
  (if b < a then 1 else 0) - (if a < b then 1 else 0)

/-- The loop over the parts. -/
def compareLoop : List (Text × Text) → Except VersionError (Option Int)
  | [] => .ok none
  | (lhs, rhs) :: rest =>
    if lhs = rhs then compareLoop rest
    else if lhs.all Char.isDigit && rhs.all Char.isDigit then do
      let a ← int lhs
      let b ← int rhs
      return some (difference a b)
    else if lhs.all Char.isDigit != rhs.all Char.isDigit then
      .ok (some (if lhs.all Char.isDigit then -1 else 1))
    else .ok (some (difference lhs rhs))

/-- What follows when the core numbers are equal. -/
def comparePre : Option (List Text) → Option (List Text) → Except VersionError Int
  | none, none => .ok 0
  | none, some _ => .ok 1
  | some _, none => .ok (-1)
  | some left, some right => do
    match ← compareLoop (left.zip right) with
    | some result => return result
    | none => return difference left.length right.length

/-- `compare_versions` -/
def compareVersions (left right : Text) : Except VersionError Int := do
  let (leftCore, leftPre) ← versionParts left
  let (rightCore, rightPre) ← versionParts right
  let leftNumeric ← leftCore.mapM int
  let rightNumeric ← rightCore.mapM int
  if leftNumeric ≠ rightNumeric then return difference leftNumeric rightNumeric
  comparePre leftPre rightPre

/-! ## What both programs accept -/

def Version.core (version : Version) : List Text := [version.major, version.minor, version.patch]

/-- The parts of the prerelease, if there is one. -/
def Version.parts (version : Version) : Option (List Text) :=
  if version.prerelease = [] then none else some (version.prerelease.splitOn '.')

variable {text part lhs rhs : Text} {parts : List Text} {l r : Version}

theorem versionParts_of_parseVersion {version : Version} (h : parseVersion text = some version) :
    versionParts text = .ok (version.core, version.parts) := by
  obtain ⟨g, htext, hg, hstrict, rfl⟩ := (parseVersion_eq_some_iff text version).mp h
  unfold versionParts
  rw [(fullmatch_iff text g).mpr ⟨htext, hg⟩]
  cases hprerelease : g.prerelease with
  | none =>
    simp only [Version.parts, Groups.version, hprerelease]
    rfl
  | some prerelease =>
    have hzero : ¬ (prerelease.splitOn '.').any hasLeadingZero = true := by
      rw [List.any_eq_true]
      rintro ⟨part, hpart, hhead⟩
      rw [hasLeadingZero, hstrict prerelease hprerelease part hpart] at hhead
      cases hhead
    dsimp only
    rw [hprerelease]
    dsimp only
    rw [if_neg hzero]
    simp only [Version.parts, Version.core, Groups.version, hprerelease, Option.getD_some]

theorem parseVersion_of_versionParts {parts : List Text × Option (List Text)}
    (h : versionParts text = .ok parts) : (parseVersion text).isSome = true := by
  unfold versionParts at h
  split at h
  · cases h
  · next g hmatch =>
    obtain ⟨htext, hg⟩ := (fullmatch_iff text g).mp hmatch
    have hstrict : g.Strict := by
      intro prerelease hprerelease part hpart
      rw [hprerelease] at h
      dsimp only at h
      split at h
      · cases h
      · next hzero =>
        have hnot := List.any_eq_false.mp (Bool.not_eq_true _ ▸ hzero) part hpart
        exact Bool.not_eq_true _ ▸ hnot
    rw [(parseVersion_eq_some_iff text g.version).mpr ⟨g, htext, hg, hstrict, rfl⟩]
    rfl

theorem parseVersion_isSome_iff (text : Text) :
    (parseVersion text).isSome = true ↔ ∃ parts, versionParts text = .ok parts := by
  constructor
  · intro h
    obtain ⟨version, hversion⟩ := Option.isSome_iff_exists.mp h
    exact ⟨_, versionParts_of_parseVersion hversion⟩
  · rintro ⟨parts, h⟩
    exact parseVersion_of_versionParts h

/-! ## What they compare -/

/-- The sign by which a comparison is returned. -/
def orderInt : Ordering → Int
  | .lt => -1
  | .eq => 0
  | .gt => 1

theorem difference_compares {α : Type*} [Preorder α] [DecidableLT α] {o : Ordering} {a b : α}
    (h : o.Compares a b) : difference a b = orderInt o := by
  unfold difference
  cases o with
  | lt =>
    have hlt : a < b := h
    rw [if_neg hlt.not_gt, if_pos hlt]
    rfl
  | eq =>
    have heq : a = b := h
    rw [heq, if_neg (lt_irrefl b)]
    rfl
  | gt =>
    have hlt : b < a := h
    rw [if_pos hlt, if_neg hlt.not_gt]
    rfl

def firstDifference : List Text → List Text → Option (Text × Text)
  | lhs :: left, rhs :: right => if lhs = rhs then firstDifference left right else some (lhs, rhs)
  | _, _ => none

/-- Two parts that can be compared: if both are numbers, `int` accepts them. -/
def PartsConvert (pair : Text × Text) : Prop :=
  pair.1.all Char.isDigit = true → pair.2.all Char.isDigit = true →
    pair.1.length ≤ intMaxStrDigits ∧ pair.2.length ≤ intMaxStrDigits

/-- What `compare_versions` converts to numbers is short enough for `int`. -/
structure Version.ConvertsWith (l r : Version) : Prop where
  left : ∀ part ∈ l.core, part.length ≤ intMaxStrDigits
  right : ∀ part ∈ r.core, part.length ≤ intMaxStrDigits
  parts : l.core = r.core →
    ∀ pair, firstDifference (l.parts.getD []) (r.parts.getD []) = some pair → PartsConvert pair

theorem int_eq_ok (h : part.length ≤ intMaxStrDigits) : int part = .ok (numeralValue part) :=
  if_pos h

theorem int_eq_error (h : ¬ part.length ≤ intMaxStrDigits) : int part = .error .tooManyDigits :=
  if_neg h

theorem mapM_int (h : ∀ part ∈ parts, part.length ≤ intMaxStrDigits) :
    parts.mapM int = .ok (parts.map numeralValue) := by
  induction parts with
  | nil => rfl
  | cons part parts ih =>
    obtain ⟨hpart, hparts⟩ := List.forall_mem_cons.mp h
    rw [List.mapM_cons, int_eq_ok hpart, ok_bind, ih hparts, ok_bind]
    rfl

theorem mapM_int_error (h : ¬ ∀ part ∈ parts, part.length ≤ intMaxStrDigits) :
    parts.mapM int = .error .tooManyDigits := by
  induction parts with
  | nil => exact absurd (List.forall_mem_nil _) h
  | cons part parts ih =>
    rw [List.mapM_cons]
    by_cases hpart : part.length ≤ intMaxStrDigits
    · rw [int_eq_ok hpart, ok_bind, ih fun hparts => h (List.forall_mem_cons.mpr ⟨hpart, hparts⟩)]
      rfl
    · rw [int_eq_error hpart]
      rfl

theorem comparePart_self (part : Text) : comparePart part part = .eq := by
  unfold comparePart compareNumeric
  simp

theorem comparePart_ne (h : lhs ≠ rhs) : comparePart lhs rhs ≠ .eq := by
  unfold comparePart compareNumeric
  grind

theorem compareLoop_differ (hlhs : StrictPart lhs) (hrhs : StrictPart rhs) (hne : lhs ≠ rhs)
    (hconvert : PartsConvert (lhs, rhs)) (rest : List (Text × Text)) :
    compareLoop ((lhs, rhs) :: rest) = .ok (some (orderInt (comparePart lhs rhs))) := by
  rw [compareLoop, if_neg hne]
  unfold comparePart
  cases hl : lhs.all Char.isDigit with
  | true =>
    cases hr : rhs.all Char.isDigit with
    | true =>
      obtain ⟨hleft, hright⟩ := hconvert hl hr
      rw [int_eq_ok hleft, ok_bind, int_eq_ok hright, ok_bind]
      have hcompares := compareNumeric_compares (hlhs.numeral hl) (hrhs.numeral hr)
      rw [difference_compares hcompares]
      rfl
    | false => rfl
  | false =>
    cases hr : rhs.all Char.isDigit with
    | true => rfl
    | false => exact congrArg (fun sign => Except.ok (some sign)) (difference_compares
        (compares_ite lhs rhs))

theorem compareLoop_error (hne : lhs ≠ rhs) (hconvert : ¬ PartsConvert (lhs, rhs))
    (rest : List (Text × Text)) : compareLoop ((lhs, rhs) :: rest) = .error .tooManyDigits := by
  simp only [PartsConvert, not_forall] at hconvert
  obtain ⟨hl, hr, hlong⟩ := hconvert
  rw [compareLoop, if_neg hne, hl, hr]
  by_cases hleft : lhs.length ≤ intMaxStrDigits
  · show (int lhs >>= _) = _
    rw [int_eq_ok hleft, ok_bind, int_eq_error fun hright => hlong ⟨hleft, hright⟩]
    rfl
  · show (int lhs >>= _) = _
    rw [int_eq_error hleft]
    rfl

theorem comparePre_cons_self (part : Text) (left right : List Text) :
    comparePre (some (part :: left)) (some (part :: right)) = comparePre (some left)
    (some right) := by
  have hlength : difference (part :: left).length (part :: right).length =
      difference left.length right.length := by
    simp [difference]
  simp only [comparePre]
  rw [List.zip_cons_cons, compareLoop, if_pos rfl, hlength]

theorem comparePre_some {left right : List Text} (hleft : ∀ part ∈ left, StrictPart part)
    (hright : ∀ part ∈ right, StrictPart part) :
    ((∀ pair, firstDifference left right = some pair → PartsConvert pair) →
      comparePre (some left) (some right) = .ok (orderInt (compareParts left right))) ∧
    ((¬ ∀ pair, firstDifference left right = some pair → PartsConvert pair) →
      comparePre (some left) (some right) = .error .tooManyDigits) := by
  induction left generalizing right with
  | nil =>
    refine ⟨fun _ => ?_, fun h => absurd (fun pair hpair => by cases hpair) h⟩
    cases right with
    | nil => rfl
    | cons rhs right =>
      show Except.ok (difference 0 (right.length + 1)) = _
      rw [difference_compares (o := .lt) (Nat.succ_pos _)]
      rfl
  | cons lhs left ih =>
    cases right with
    | nil =>
      refine ⟨fun _ => ?_, fun h => absurd (fun pair hpair => by cases hpair) h⟩
      show Except.ok (difference (left.length + 1) 0) = _
      rw [difference_compares (o := .gt) (Nat.succ_pos _)]
      rfl
    | cons rhs right =>
      obtain ⟨hlhs, hlefts⟩ := List.forall_mem_cons.mp hleft
      obtain ⟨hrhs, hrights⟩ := List.forall_mem_cons.mp hright
      by_cases heq : lhs = rhs
      · subst heq
        rw [comparePre_cons_self, firstDifference, if_pos rfl, compareParts, comparePart_self]
        exact ih hlefts hrights
      · -- the first parts that differ
        have hparts : compareParts (lhs :: left) (rhs :: right) = comparePart lhs rhs := by
          rw [compareParts]
          split
          · next hsame => exact absurd hsame (comparePart_ne heq)
          · rfl
        rw [firstDifference, if_neg heq, hparts]
        constructor
        · intro hconvert
          show (compareLoop ((lhs, rhs) :: left.zip right) >>= _) = _
          rw [compareLoop_differ hlhs hrhs heq (hconvert _ rfl), ok_bind]
          rfl
        · intro hconvert
          have hpair : ¬ PartsConvert (lhs, rhs) := by
            intro hpair
            apply hconvert
            rintro pair hsome
            rw [← Option.some.inj hsome]
            exact hpair
          show (compareLoop ((lhs, rhs) :: left.zip right) >>= _) = _
          rw [compareLoop_error heq hpair]
          rfl

theorem comparePre_parts (hl : l.Parsed) (hr : r.Parsed) :
    ((∀ pair, firstDifference (l.parts.getD []) (r.parts.getD []) = some pair → PartsConvert pair) →
      comparePre l.parts r.parts = .ok (orderInt (comparePrerelease l.prerelease r.prerelease))) ∧
    ((¬ ∀ pair, firstDifference (l.parts.getD []) (r.parts.getD []) = some pair →
      PartsConvert pair) →
      comparePre l.parts r.parts = .error .tooManyDigits) := by
  unfold Version.parts comparePrerelease
  by_cases hleft : l.prerelease = []
  · -- no parts on the left: nothing is converted
    rw [if_pos hleft, hleft]
    refine ⟨fun _ => ?_, fun h => absurd (fun pair hpair => by cases hpair) h⟩
    by_cases hright : r.prerelease = []
    · rw [if_pos hright, hright]
      rfl
    · rw [if_neg hright, if_pos (show ([] : Text).isEmpty = true from rfl),
        if_neg (by rwa [List.isEmpty_iff])]
      rfl
  · rw [if_neg hleft, if_neg (show ¬ l.prerelease.isEmpty = true by rwa [List.isEmpty_iff])]
    by_cases hright : r.prerelease = []
    · rw [if_pos hright, hright]
      have hnone : firstDifference ((some (l.prerelease.splitOn '.')).getD [])
          ((none : Option (List Text)).getD [])
          = none := by
        cases l.prerelease.splitOn '.' <;> rfl
      rw [hnone]
      exact ⟨fun _ => rfl, fun h => absurd (fun pair hpair => by cases hpair) h⟩
    · rw [if_neg hright, if_neg (show ¬ r.prerelease.isEmpty = true by rwa [List.isEmpty_iff])]
      exact comparePre_some (hl.prerelease hleft) (hr.prerelease hright)

theorem numbers_compares (hl : l.Parsed) (hr : r.Parsed) :
    ((compareNumeric l.major r.major).then ((compareNumeric l.minor r.minor).then
      (compareNumeric l.patch r.patch))).Compares (l.core.map numeralValue)
      (r.core.map numeralValue) := by
  have hpatch := @compares_cons _ _ _ .eq _ _ [] [] (compareNumeric_compares hl.patch hr.patch) rfl
  have hminor := compares_cons (compareNumeric_compares hl.minor hr.minor) hpatch
  have hmajor := compares_cons (compareNumeric_compares hl.major hr.major) hminor
  rw [Ordering.then_eq] at hmajor
  exact hmajor

theorem core_eq_iff (hl : l.Parsed) (hr : r.Parsed) :
    l.core.map numeralValue = r.core.map numeralValue ↔ l.core = r.core := by
  unfold Version.core
  simp only [List.map_cons, List.map_nil, List.cons.injEq, and_true]
  rw [numeralValue_inj hl.major hr.major, numeralValue_inj hl.minor hr.minor,
    numeralValue_inj hl.patch hr.patch]

theorem compareVersions_eq {left right : Text} (hleft : parseVersion left = some l)
    (hright : parseVersion right = some r) :
    (l.ConvertsWith r → compareVersions left right = .ok (orderInt (compareVersion l r))) ∧
      (¬ l.ConvertsWith r → compareVersions left right = .error .tooManyDigits) := by
  have hl := parseVersion_parsed hleft
  have hr := parseVersion_parsed hright
  unfold compareVersions
  rw [versionParts_of_parseVersion hleft, ok_bind]
  dsimp only
  rw [versionParts_of_parseVersion hright, ok_bind]
  dsimp only
  by_cases hlcore : ∀ part ∈ l.core, part.length ≤ intMaxStrDigits
  · by_cases hrcore : ∀ part ∈ r.core, part.length ≤ intMaxStrDigits
    · rw [mapM_int hlcore, ok_bind, mapM_int hrcore, ok_bind]
      have hcompares := numbers_compares hl hr
      generalize ho : (compareNumeric l.major r.major).then ((compareNumeric l.minor r.minor).then
        (compareNumeric l.patch r.patch)) = o at hcompares
      have hversion : compareVersion l r =
          o.then (comparePrerelease l.prerelease r.prerelease) := by
        rw [← ho, Ordering.then_assoc, Ordering.then_assoc]
        rfl
      by_cases hcore : l.core = r.core
      · -- the numbers are equal: the prereleases decide
        have hvalues := (core_eq_iff hl hr).mpr hcore
        have heq : o = .eq := hcompares.eq_eq.mpr hvalues
        have hsame : compareVersion l r = comparePrerelease l.prerelease r.prerelease := by
          rw [hversion, heq]
          rfl
        rw [if_neg (not_not.mpr hvalues), hsame]
        obtain ⟨hok, herror⟩ := comparePre_parts hl hr
        exact ⟨fun h => hok (h.parts hcore), fun h => herror fun hparts =>
          h ⟨hlcore, hrcore, fun _ => hparts⟩⟩
      · -- the numbers decide
        have hvalues := fun h => hcore ((core_eq_iff hl hr).mp h)
        have hne : o ≠ .eq := fun heq => hvalues (hcompares.eq_eq.mp heq)
        have hsame : compareVersion l r = o := by
          rw [hversion]
          cases o with
          | lt => rfl
          | eq => exact absurd rfl hne
          | gt => rfl
        rw [if_pos hvalues, difference_compares hcompares, hsame]
        exact ⟨fun _ => rfl, fun h => absurd ⟨hlcore, hrcore, fun heq => absurd heq hcore⟩ h⟩
    · rw [mapM_int hlcore, ok_bind, mapM_int_error hrcore]
      exact ⟨fun h => absurd h.right hrcore, fun _ => rfl⟩
  · rw [mapM_int_error hlcore]
    exact ⟨fun h => absurd h.left hlcore, fun _ => rfl⟩

/-! ## The two comparisons -/

/-- Both programs accept the two texts or neither does, and where both accept
    them they compute the same relation, which is the order of precedence; only
    versions that differ at most in their build metadata are equal in it. -/
structure OrdersVersions (left right : Text) : Prop where
  acceptsLeft : (parseVersion left).isSome = true ↔ ∃ parts, versionParts left = .ok parts
  acceptsRight : (parseVersion right).isSome = true ↔ ∃ parts, versionParts right = .ok parts
  agrees : ∀ l r, parseVersion left = some l → parseVersion right = some r →
    compareVersions left right = .ok (orderInt (compareVersion l r))
  precedence : ∀ l r, parseVersion left = some l → parseVersion right = some r →
    (compareVersion l r).Compares l.precedence r.precedence
  equal : ∀ l r, parseVersion left = some l → parseVersion right = some r →
    compareVersion l r = .eq → { l with build := r.build } = r

/-- `int` accepts what `compare_versions` converts. -/
def Converts (left right : Text) : Prop :=
  ∀ l r, parseVersion left = some l → parseVersion right = some r → l.ConvertsWith r

/-- They agree exactly where `int` converts what the compiler accepts. -/
theorem ordersVersions_iff (left right : Text) : OrdersVersions left right ↔
    Converts left right := by
  constructor
  · intro h l r hleft hright
    by_contra hlong
    have hok := h.agrees l r hleft hright
    rw [(compareVersions_eq hleft hright).2 hlong] at hok
    cases hok
  · intro h
    have hcompares : ∀ l r, parseVersion left = some l → parseVersion right = some r →
        (compareVersion l r).Compares l.precedence r.precedence :=
      fun l r hleft hright => compareVersion_compares (parseVersion_parsed hleft)
        (parseVersion_parsed hright)
    refine ⟨parseVersion_isSome_iff left, parseVersion_isSome_iff right, ?_, hcompares, ?_⟩
    · intro l r hleft hright
      exact (compareVersions_eq hleft hright).1 (h l r hleft hright)
    · intro l r hleft hright heq
      have hsame := (hcompares l r hleft hright).eq_eq.mp heq
      exact (precedence_inj (parseVersion_parsed hleft) (parseVersion_parsed hright)).mp hsame

/-- `1.0.1` and 4300 zeros. -/
def longPatch : Groups :=
  ⟨['1'], ['0'], '1' :: List.replicate intMaxStrDigits '0', none, none⟩

theorem longPatch_parse : parseVersion longPatch.text = some longPatch.version := by
  have hone : IsNumeral ['1'] := isNumeral_singleton rfl
  have hzero : IsNumeral ['0'] := isNumeral_singleton rfl
  have hpatch : IsNumeral longPatch.patch := by
    refine ⟨List.cons_ne_nil _ _, ?_, fun _ hhead => ?_⟩
    · intro c hc
      rcases List.mem_cons.mp hc with rfl | hc
      · rfl
      · rw [List.eq_of_mem_replicate hc]
        rfl
    · exact absurd (Option.some.inj hhead) (by decide)
  refine (parseVersion_eq_some_iff _ _).mpr ⟨longPatch, rfl, ⟨hone, hzero, hpatch, ?_, ?_⟩, ?_, rfl⟩
  · exact fun t ht => by cases ht
  · exact fun t ht => by cases ht
  · exact fun t ht => by cases ht

/-- The package manager cannot compare it even with itself. -/
theorem longPatch_not_compared : ¬ ∀ left right, OrdersVersions left right := by
  intro h
  have hok := (h longPatch.text longPatch.text).agrees _ _ longPatch_parse longPatch_parse
  have hlong : ¬ longPatch.version.ConvertsWith longPatch.version := by
    intro hconverts
    have hshort : (longPatch.patch).length ≤ intMaxStrDigits :=
      hconverts.left _ (List.mem_cons_of_mem _ (List.mem_cons_of_mem _ List.mem_cons_self))
    rw [longPatch, List.length_cons, List.length_replicate] at hshort
    omega
  rw [(compareVersions_eq longPatch_parse longPatch_parse).2 hlong] at hok
  cases hok

end Cwhip.Packages
