/-
  Cwhip.Packages.VersionPattern

  The regular expression that a version of the package manager (`cwhip-pkg`) has
  to match, and the texts of the grammar: the pattern matches exactly these, with
  the groups that the grammar gives them.
-/

import Mathlib.Data.List.TakeWhile
import Cwhip.Packages.VersionGrammar

namespace Cwhip.Packages

open Cwhip.Lib
open List (append_assoc append_nil cons_append flatMap_cons)

/-! ## The pattern -/

/-- `(0|[1-9][0-9]*)` at the start of a text, and what follows it. -/
def matchNumber : Text → Option (Text × Text)
  | [] => none
  | c :: rest =>
    if c = '0' then some (['0'], rest)
    else if '1' ≤ c ∧ c ≤ '9' then
      some (c :: rest.takeWhile Char.isDigit, rest.dropWhile Char.isDigit)
    else none

/-- `\.` -/
def matchDot : Text → Option Text
  | [] => none
  | c :: rest => if c = '.' then some rest else none

/-- `[0-9A-Za-z-]+` -/
def matchPart (text : Text) : Option (Text × Text) :=
  if (text.takeWhile partChar).isEmpty then none
  else some (text.takeWhile partChar, text.dropWhile partChar)

variable {text part rest : Text} {c : Char} {group : Option Text}

theorem matchPart_eq_some (h : matchPart text = some (part, rest)) :
    text = part ++ rest ∧ IsPart part := by
  unfold matchPart at h
  split at h
  · cases h
  · next hne =>
    cases h
    refine ⟨List.takeWhile_append_dropWhile.symm, ?_, fun c hc => List.mem_takeWhile_imp hc⟩
    rwa [List.isEmpty_iff] at hne

/-- `(?:\.[0-9A-Za-z-]+)*` -/
def matchMore (text : Text) : Text × Text :=
  match text with
  | [] => ([], [])
  | c :: rest =>
    if c = '.' then
      match _h : matchPart rest with
      | some (part, after) => ('.' :: part ++ (matchMore after).1, (matchMore after).2)
      | none => ([], text)
    else ([], text)
termination_by text.length
decreasing_by
  all_goals
    have hlength := congrArg List.length (matchPart_eq_some (by assumption)).1
    rw [List.length_append] at hlength
    rw [List.length_cons]
    omega

/-- `[0-9A-Za-z-]+(?:\.[0-9A-Za-z-]+)*` -/
def matchDotted (text : Text) : Option (Text × Text) :=
  (matchPart text).map fun (part, after) => (part ++ (matchMore after).1, (matchMore after).2)

/-- An optional group behind a separator. -/
def matchOptional (c : Char) (text : Text) : Option Text × Text :=
  match text with
  | [] => (none, [])
  | first :: rest =>
    if first = c then
      match matchDotted rest with
      | some (group, after) => (some group, after)
      | none => (none, text)
    else (none, text)

/-- `VERSION_PATTERN.fullmatch`.  No repetition can be followed by a character
    that it takes, so a shorter match of one never leads further. -/
def fullmatch (version : Text) : Option Groups := do
  let (major, text) ← matchNumber version
  let text ← matchDot text
  let (minor, text) ← matchNumber text
  let text ← matchDot text
  let (patch, text) ← matchNumber text
  let (prerelease, text) := matchOptional '-' text
  let (build, text) := matchOptional '+' text
  if text.isEmpty then some ⟨major, minor, patch, prerelease, build⟩ else none

/-! ## The pattern and the grammar -/

/-- A dotted text is parts with dots in between. -/
theorem isDotted_iff (text : Text) :
    IsDotted text ↔ ∃ (part : Text) (more : List Text), text = part ++ more.flatMap ('.' :: ·) ∧
      IsPart part ∧
      ∀ other ∈ more, IsPart other := by
  constructor
  · intro h
    obtain ⟨part, more, hsplit⟩ := List.exists_cons_of_ne_nil (List.splitOnP_ne_nil (· == '.') text)
    have hparts : text.splitOn '.' = part :: more := hsplit
    have hjoin : ['.'].intercalate (text.splitOn '.') = text := List.intercalate_splitOn '.'
    rw [IsDotted, hparts] at h
    obtain ⟨hpart, hmore⟩ := List.forall_mem_cons.mp h
    refine ⟨part, more, ?_, hpart, hmore⟩
    rw [← hjoin, hparts]
    have hflat : ∀ (first : Text) (rest : List Text),
        ['.'].intercalate (first :: rest) = first ++ rest.flatMap ('.' :: ·) := by
      intro first rest
      induction rest generalizing first with
      | nil => simp [List.intercalate]
      | cons second rest ih =>
        have hnext := ih second
        simp only [List.intercalate, List.intersperse_cons_cons, List.flatten_cons, flatMap_cons]
          at hnext ⊢
        rw [hnext]
        rfl
    exact hflat part more
  · rintro ⟨part, more, rfl, hpart, hmore⟩
    have hdot : ∀ {p : Text}, IsPart p → '.' ∉ p := fun hp => hp.notMem (by decide)
    have hsplit : ∀ (first : Text) (rest : List Text), IsPart first →
        (∀ other ∈ rest, IsPart other) →
        (first ++ rest.flatMap ('.' :: ·)).splitOn '.' = first :: rest := by
      intro first rest
      induction rest generalizing first with
      | nil =>
        intro hfirst _
        rw [List.flatMap_nil, append_nil]
        exact splitOn_of_notMem (hdot hfirst)
      | cons second rest ih =>
        intro hfirst hrest
        obtain ⟨hsecond, hrest⟩ := List.forall_mem_cons.mp hrest
        rw [flatMap_cons, cons_append, splitOn_append (hdot hfirst), ih second hsecond hrest]
    rw [IsDotted, hsplit part more hpart hmore]
    exact List.forall_mem_cons.mpr ⟨hpart, hmore⟩

/-- What may follow a group: the end, or a character that it does not take. -/
def Stops (text : Text) : Prop := ∀ c, text.head? = some c → partChar c = false ∧ c ≠ '.'

/-- A part is matched to its end. -/
theorem takeWhile_part (h : IsPart part)
    (hrest : ∀ c, rest.head? = some c → partChar c = false) : matchPart (part ++ rest) =
    some (part, rest) := by
  have htake : (part ++ rest).takeWhile partChar = part ∧ (part ++ rest).dropWhile partChar =
      rest := by
    rw [List.takeWhile_append_of_pos h.2, List.dropWhile_append_of_pos h.2]
    cases rest with
    | nil => simp
    | cons c rest =>
      have hc : ¬ partChar c = true := by
        rw [hrest c rfl]
        exact Bool.false_ne_true
      rw [List.takeWhile_cons_of_neg hc, List.dropWhile_cons_of_neg hc, append_nil]
      exact ⟨rfl, rfl⟩
  unfold matchPart
  rw [htake.1, htake.2, if_neg]
  rw [List.isEmpty_iff]
  exact h.1

theorem matchMore_dot {after : Text} (h : matchPart rest = some (part, after)) :
    matchMore ('.' :: rest) = ('.' :: part ++ (matchMore after).1, (matchMore after).2) := by
  rw [matchMore, if_pos rfl]
  split
  · next heq =>
    rw [h] at heq
    cases heq
    rfl
  · next heq =>
    rw [h] at heq
    cases heq

theorem matchMore_stop (h : Stops text) : matchMore text = ([], text) := by
  cases text with
  | nil => rw [matchMore]
  | cons c rest => rw [matchMore, if_neg (h c rfl).2]

theorem matchPart_parts (hpart : IsPart part) (more : List Text)
    (hrest : Stops rest) : matchPart (part ++ (more.flatMap ('.' :: ·) ++ rest))
      = some (part, more.flatMap ('.' :: ·) ++ rest) := by
  apply takeWhile_part hpart
  intro c hc
  cases more with
  | nil => exact (hrest c hc).1
  | cons second more =>
    -- a further part starts with a dot
    rw [flatMap_cons, cons_append, cons_append, List.head?_cons] at hc
    rw [← Option.some.inj hc]
    decide

/-- All further parts are matched, up to what cannot belong to one. -/
theorem matchMore_parts {more : List Text} (hmore : ∀ other ∈ more, IsPart other)
    (hrest : Stops rest) : matchMore (more.flatMap ('.' :: ·) ++ rest) = (more.flatMap ('.' :: ·),
    rest) := by
  induction more with
  | nil => exact matchMore_stop hrest
  | cons part more ih =>
    obtain ⟨hpart, hmore⟩ := List.forall_mem_cons.mp hmore
    rw [flatMap_cons, cons_append, cons_append, append_assoc,
      matchMore_dot (matchPart_parts hpart more hrest), ih hmore]
    rfl

/-- What is matched is parts, and nothing is lost. -/
theorem matchMore_sound (text : Text) :
    text = (matchMore text).1 ++ (matchMore text).2 ∧
      ∃ more : List Text, (matchMore text).1 = more.flatMap ('.' :: ·) ∧ ∀ other ∈ more,
      IsPart other := by
  have hnone : ∀ {text : Text}, matchMore text = ([], text) →
      text = (matchMore text).1 ++ (matchMore text).2 ∧
        ∃ more : List Text, (matchMore text).1 = more.flatMap ('.' :: ·) ∧ ∀ other ∈ more,
            IsPart other := by
    intro text h
    rw [h]
    exact ⟨rfl, [], rfl, List.forall_mem_nil _⟩
  induction hlength : text.length using Nat.strongRecOn generalizing text with
  | _ length ih =>
    cases text with
    | nil => exact hnone (by rw [matchMore])
    | cons c rest =>
      by_cases hdot : c = '.'
      · subst hdot
        cases hpart : matchPart rest with
        | none =>
          apply hnone
          rw [matchMore, if_pos rfl]
          split
          · next heq =>
            rw [hpart] at heq
            cases heq
          · rfl
        | some found =>
          obtain ⟨part, after⟩ := found
          obtain ⟨hrest, hisPart⟩ := matchPart_eq_some hpart
          have hshort : after.length < length := by
            have hsplit := congrArg List.length hrest
            rw [List.length_append] at hsplit
            rw [List.length_cons] at hlength
            omega
          obtain ⟨hafter, more, hmore, hall⟩ := ih after.length hshort after rfl
          rw [matchMore_dot hpart]
          refine ⟨?_, part :: more, ?_, List.forall_mem_cons.mpr ⟨hisPart, hall⟩⟩
          · show '.' :: rest = '.' :: part ++ (matchMore after).1 ++ (matchMore after).2
            rw [append_assoc, ← hafter, hrest]
            rfl
          · show '.' :: part ++ (matchMore after).1 = _
            rw [hmore, flatMap_cons]
      · apply hnone
        rw [matchMore, if_neg hdot]

theorem matchDotted_sound {group : Text} (h : matchDotted text = some (group, rest)) :
    text = group ++ rest ∧ IsDotted group := by
  unfold matchDotted at h
  obtain ⟨⟨part, after⟩, hpart, heq⟩ := Option.map_eq_some_iff.mp h
  cases heq
  obtain ⟨htext, hisPart⟩ := matchPart_eq_some hpart
  obtain ⟨hafter, more, hmore, hall⟩ := matchMore_sound after
  refine ⟨?_, (isDotted_iff _).mpr ⟨part, more, by rw [hmore], hisPart, hall⟩⟩
  rw [append_assoc, ← hafter, htext]

/-- A dotted text is matched whole. -/
theorem matchDotted_complete {group : Text} (h : IsDotted group) (hrest : Stops rest) :
    matchDotted (group ++ rest) = some (group, rest) := by
  obtain ⟨part, more, rfl, hpart, hmore⟩ := (isDotted_iff group).mp h
  unfold matchDotted
  rw [append_assoc, matchPart_parts hpart more hrest, Option.map_some]
  dsimp only
  rw [matchMore_parts hmore hrest]

theorem matchNumber_sound {number : Text} (h : matchNumber text = some (number, rest)) :
    text = number ++ rest ∧ IsNumeral number := by
  unfold matchNumber at h
  split at h
  · cases h
  · next c tail =>
    split at h
    · next hzero =>
      cases h
      subst hzero
      refine ⟨rfl, List.cons_ne_nil _ _, ?_, fun hlong => absurd hlong (by decide)⟩
      intro c hc
      rw [List.mem_singleton.mp hc]
      rfl
    · split at h
      · next hne hdigit =>
        cases h
        refine ⟨?_, List.cons_ne_nil _ _, ?_, fun _ hhead => hne (Option.some.inj hhead)⟩
        · rw [cons_append, List.takeWhile_append_dropWhile]
        · intro d hd
          rcases List.mem_cons.mp hd with rfl | hd
          · exact Char.isDigit_iff_toNat.mpr ⟨Nat.le_trans (by decide) hdigit.1, hdigit.2⟩
          · exact List.mem_takeWhile_imp hd
      · cases h

/-- A number without leading zeros is matched whole. -/
theorem matchNumber_complete {number : Text} (h : IsNumeral number)
    (hrest : ∀ c, rest.head? = some c → c.isDigit = false) :
    matchNumber (number ++ rest) = some (number, rest) := by
  obtain ⟨c, tail, rfl⟩ := List.exists_cons_of_ne_nil h.ne_nil
  obtain ⟨hc, htail⟩ := List.forall_mem_cons.mp h.digits
  rw [cons_append, matchNumber]
  split
  · next hzero =>
    -- a zero is the whole number
    subst hzero
    have hnil : tail = [] := by
      by_contra hne
      have hpos := List.length_pos_of_ne_nil hne
      exact h.head (by rw [List.length_cons]; omega) rfl
    subst hnil
    rfl
  · next hzero =>
    have hrange := Char.isDigit_iff_toNat.mp hc
    have hne : c.toNat ≠ '0'.toNat := fun heq => hzero (Char.toNat_inj.mp heq)
    have hnonzero : '1' ≤ c ∧ c ≤ '9' := by
      refine ⟨?_, hrange.2⟩
      show '1'.toNat ≤ c.toNat
      exact Nat.lt_of_le_of_ne hrange.1 (Ne.symm hne)
    rw [if_pos hnonzero, List.takeWhile_append_of_pos htail, List.dropWhile_append_of_pos htail]
    cases rest with
    | nil => simp
    | cons d rest =>
      have hd : ¬ d.isDigit = true := by
        rw [hrest d rfl]
        exact Bool.false_ne_true
      rw [List.takeWhile_cons_of_neg hd, List.dropWhile_cons_of_neg hd, append_nil]

theorem matchDot_sound (h : matchDot text = some rest) : text = '.' :: rest := by
  cases text with
  | nil => cases h
  | cons c tail =>
    rw [matchDot] at h
    split at h
    · next hc => rw [hc, Option.some.inj h]
    · cases h

theorem matchOptional_sound (h : matchOptional c text = (group, rest)) :
    text = optionText c group ++ rest ∧ ∀ t, group = some t → IsDotted t := by
  have hnone : (none, text) = (group, rest) →
      text = optionText c group ++ rest ∧ ∀ t, group = some t → IsDotted t := by
    intro heq
    obtain ⟨rfl, rfl⟩ := Prod.mk.inj heq
    refine ⟨rfl, fun t ht => ?_⟩
    cases ht
  cases text with
  | nil => exact hnone h
  | cons first tail =>
    unfold matchOptional at h
    dsimp only at h
    split at h
    · next hfirst =>
      split at h
      · next t after hdotted =>
        obtain ⟨rfl, rfl⟩ := Prod.mk.inj h
        obtain ⟨htail, ht⟩ := matchDotted_sound hdotted
        refine ⟨?_, fun other hother => ?_⟩
        · rw [hfirst, htail]
          rfl
        · rw [← Option.some.inj hother]
          exact ht
      · exact hnone h
    · exact hnone h

/-- An optional group is matched where its character stands. -/
theorem matchOptional_complete (hgroup : ∀ t, group = some t → IsDotted t) (hrest : Stops rest)
    (hother : ∀ d, rest.head? = some d → d ≠ c) :
    matchOptional c (optionText c group ++ rest) = (group, rest) := by
  cases group with
  | none =>
    cases rest with
    | nil => rfl
    | cons d rest =>
      show matchOptional c (d :: rest) = _
      rw [matchOptional, if_neg (hother d rfl)]
  | some t =>
    show matchOptional c (c :: (t ++ rest)) = _
    rw [matchOptional, if_pos rfl, matchDotted_complete (hgroup t rfl) hrest]

theorem optionText_head {d : Char} (h : (optionText c group).head? = some d) :
    d = c := by
  cases group with
  | none => cases h
  | some t => exact (Option.some.inj h).symm

/-- The pattern matches exactly the well-formed groups, in one way. -/
theorem fullmatch_iff (text : Text) (g : Groups) :
    fullmatch text = some g ↔ g.text = text ∧ g.WellFormed := by
  constructor
  · intro h
    unfold fullmatch at h
    obtain ⟨⟨major, text₁⟩, hmajor, h⟩ := Option.bind_eq_some_iff.mp h
    obtain ⟨text₂, hdot, h⟩ := Option.bind_eq_some_iff.mp h
    obtain ⟨⟨minor, text₃⟩, hminor, h⟩ := Option.bind_eq_some_iff.mp h
    obtain ⟨text₄, hdot', h⟩ := Option.bind_eq_some_iff.mp h
    obtain ⟨⟨patch, text₅⟩, hpatch, h⟩ := Option.bind_eq_some_iff.mp h
    dsimp only at h
    split at h
    · next hend =>
      obtain rfl := Option.some.inj h
      obtain ⟨htext, hmajor⟩ := matchNumber_sound hmajor
      obtain ⟨htext₂, hminor⟩ := matchNumber_sound hminor
      obtain ⟨htext₄, hpatch⟩ := matchNumber_sound hpatch
      obtain ⟨htext₅, hprerelease⟩ :=
        matchOptional_sound (Prod.mk.eta (p := matchOptional '-' text₅)).symm
      obtain ⟨htext₆, hbuild⟩ :=
        matchOptional_sound (Prod.mk.eta (p := matchOptional '+' (matchOptional '-' text₅).2)).symm
      refine ⟨?_, hmajor, hminor, hpatch, hprerelease, hbuild⟩
      rw [List.isEmpty_iff] at hend
      have hrest : text₅ = optionText '-' (matchOptional '-' text₅).1
          ++ optionText '+' (matchOptional '+' (matchOptional '-' text₅).2).1 := by
        rw [hend, append_nil] at htext₆
        rw [← htext₆]
        exact htext₅
      rw [htext, matchDot_sound hdot, htext₂, matchDot_sound hdot', htext₄]
      rw [Groups.text, append_assoc, ← hrest]
      simp only [append_assoc, cons_append]
    · cases h
  · rintro ⟨rfl, hg⟩
    -- each part stops at the separator of the next, so the greedy match is this one
    have hbuild : matchOptional '+' (optionText '+' g.build ++ []) = (g.build, []) :=
      matchOptional_complete hg.build (fun c hc => by cases hc) (fun c hc => by cases hc)
    rw [append_nil] at hbuild
    have hplus : ∀ c, (optionText '+' g.build).head? = some c → c = '+' := fun c => optionText_head
    have hprerelease : matchOptional '-' (optionText '-' g.prerelease ++ optionText '+' g.build)
        = (g.prerelease, optionText '+' g.build) := by
      apply matchOptional_complete hg.prerelease
      · intro c hc
        rw [hplus c hc]
        decide
      · intro c hc
        rw [hplus c hc]
        decide
    have hpatch : matchNumber (g.patch ++ (optionText '-' g.prerelease ++ optionText '+' g.build))
        = some (g.patch, optionText '-' g.prerelease ++ optionText '+' g.build) := by
      apply matchNumber_complete hg.patch
      intro c hc
      cases hpre : g.prerelease with
      | none =>
        rw [hpre] at hc
        rw [hplus c hc]
        rfl
      | some t =>
        rw [hpre] at hc
        rw [← Option.some.inj hc]
        rfl
    have hdot : ∀ rest : Text, ∀ c, ('.' :: rest).head? = some c → c.isDigit = false := by
      intro rest c hc
      rw [← Option.some.inj hc]
      rfl
    have htext : g.text = g.major ++ ('.' :: (g.minor ++ ('.' :: (g.patch ++
        (optionText '-' g.prerelease ++ optionText '+' g.build))))) := by
      simp [Groups.text]
    unfold fullmatch
    rw [htext, matchNumber_complete hg.major (hdot _)]
    dsimp only [Option.bind_eq_bind, Option.bind_some]
    rw [matchDot, if_pos rfl, Option.bind_some, matchNumber_complete hg.minor (hdot _)]
    dsimp only [Option.bind_some]
    rw [matchDot, if_pos rfl, Option.bind_some, hpatch]
    dsimp only [Option.bind_some]
    rw [hprerelease]
    dsimp only
    rw [hbuild]
    rfl

end Cwhip.Packages
