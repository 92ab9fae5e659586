/-
  Cwhip.Packages.VersionOrder

  The precedence of semantic versions, as an order on keys, and that
  `compareVersion` compares keys.

  Numbers are compared by value.  A version without prerelease is above its
  prereleases, whose parts are compared one by one: numbers are below names,
  and a list is below its extensions.
-/

import Mathlib.Data.Prod.Lex
import Mathlib.Data.Sum.Order
import Mathlib.Order.WithBot
import Cwhip.Packages.VersionGrammar

namespace Cwhip.Packages

open Cwhip.Lib

/-! ## Precedence -/

/-- A part of a prerelease: a number or a name. -/
abbrev PartKey := Nat ⊕ₗ Text

/-- What decides between versions; no prerelease is `⊤`. -/
abbrev Precedence := Nat ×ₗ Nat ×ₗ Nat ×ₗ WithTop (List PartKey)

def partKey (part : Text) : PartKey :=
  if part.all Char.isDigit then toLex (.inl (numeralValue part)) else toLex (.inr part)

def prereleaseKey (prerelease : Text) : WithTop (List PartKey) :=
  if prerelease.isEmpty then ⊤ else ((prerelease.splitOn '.').map partKey : List PartKey)

def Version.precedence (version : Version) : Precedence :=
  toLex (numeralValue version.major, toLex (numeralValue version.minor,
    toLex (numeralValue version.patch, prereleaseKey version.prerelease)))

/-! ## Comparisons -/

theorem compares_map {α β : Type*} [Preorder α] [Preorder β] {f : α → β} (hf : StrictMono f)
    {o : Ordering} {a b : α} (h : o.Compares a b) : o.Compares (f a) (f b) := by
  cases o with
  | lt => exact hf h
  | eq => exact congrArg f h
  | gt => exact hf h

/-- A pair is compared by its first part, then by its second. -/
theorem compares_then {α β : Type*} [LinearOrder α] [LinearOrder β] {o o' : Ordering}
    {a a' : α} {b b' : β} (h : o.Compares a a') (h' : o'.Compares b b') :
    (o.then o').Compares (toLex (a, b)) (toLex (a', b')) := by
  cases o with
  | lt | gt => exact Prod.Lex.toLex_lt_toLex.mpr (.inl h)
  | eq =>
    have heq : a = a' := h
    subst heq
    cases o' with
    | lt | gt => exact Prod.Lex.toLex_lt_toLex.mpr (.inr ⟨rfl, h'⟩)
    | eq =>
      have heq : b = b' := h'
      exact heq ▸ rfl

theorem compares_cons {α : Type*} [LinearOrder α] {o o' : Ordering} {a a' : α} {as as' : List α}
    (h : o.Compares a a') (h' : o'.Compares as as') : (o.then o').Compares (a :: as)
    (a' :: as') := by
  cases o with
  | lt | gt => exact List.cons_lt_cons_iff.mpr (.inl h)
  | eq =>
    have heq : a = a' := h
    subst heq
    have hcons : StrictMono fun as => a :: as :=
      fun _ _ hlt => List.cons_lt_cons_iff.mpr (.inr ⟨rfl, hlt⟩)
    exact compares_map hcons h'

theorem compares_ite {α : Type*} [LinearOrder α] (a b : α) [Decidable (a = b)] [Decidable (a < b)] :
    (if a ≠ b then (if a < b then Ordering.lt else .gt) else .eq).Compares a b := by
  split
  · next hne =>
    split
    · assumption
    · next hnot => exact lt_of_le_of_ne (not_lt.mp hnot) (Ne.symm hne)
  · next heq => exact not_not.mp heq

/-- Numerals compare by their values. -/
theorem compareNumeric_compares {lhs rhs : Text} (hlhs : IsNumeral lhs) (hrhs : IsNumeral rhs) :
    (compareNumeric lhs rhs).Compares (numeralValue lhs) (numeralValue rhs) := by
  unfold compareNumeric
  split
  · -- the longer one is greater
    split
    · next hlt => exact numeralValue_lt_of_length hlhs hrhs hlt
    · exact numeralValue_lt_of_length hrhs hlhs (by omega)
  · next hlen =>
    have hlen := not_not.mp hlen
    have htext := compares_ite lhs rhs
    split at htext
    · next hne =>
      rw [if_pos hne]
      split at htext
      · next hlt =>
        rw [if_pos hlt]
        exact (numeralValue_lt_iff hlhs hrhs hlen).mpr hlt
      · next hnot =>
        rw [if_neg hnot]
        exact (numeralValue_lt_iff hrhs hlhs hlen.symm).mpr htext
    · next heq =>
      rw [if_neg heq]
      exact congrArg numeralValue htext

/-- A well-formed part: without leading zeros if it is a number. -/
def StrictPart (part : Text) : Prop :=
  IsPart part ∧
    (part.all Char.isDigit && decide (1 < part.length) && part.head? == some '0') = false

theorem StrictPart.numeral {part : Text} (h : StrictPart part)
    (hdigits : part.all Char.isDigit = true) :
    IsNumeral part := by
  refine ⟨h.1.1, List.all_eq_true.mp hdigits, fun hlong hhead => ?_⟩
  have hzero := h.2
  rw [hdigits, decide_eq_true hlong, hhead] at hzero
  cases hzero

/-- Numbers compare as numbers and come before words. -/
theorem comparePart_compares {lhs rhs : Text} (hlhs : StrictPart lhs) (hrhs : StrictPart rhs) :
    (comparePart lhs rhs).Compares (partKey lhs) (partKey rhs) := by
  unfold comparePart partKey
  cases hl : lhs.all Char.isDigit with
  | true =>
    cases hr : rhs.all Char.isDigit with
    | true =>
      exact compares_map Sum.Lex.inl_strictMono
        (compareNumeric_compares (hlhs.numeral hl) (hrhs.numeral hr))
    | false => exact Sum.Lex.inl_lt_inr _ _
  | false =>
    cases hr : rhs.all Char.isDigit with
    | true => exact Sum.Lex.inl_lt_inr _ _
    | false =>
      exact @compares_map _ PartKey _ _ _ Sum.Lex.inr_strictMono _ _ _ (compares_ite lhs rhs)

/-- Parts compare one after another, and a prefix is less. -/
theorem compareParts_compares {left right : List Text} (hleft : ∀ part ∈ left, StrictPart part)
    (hright : ∀ part ∈ right, StrictPart part) :
    (compareParts left right).Compares (left.map partKey) (right.map partKey) := by
  induction left generalizing right with
  | nil =>
    cases right with
    | nil => exact rfl
    | cons rhs right => exact List.nil_lt_cons _ _
  | cons lhs left ih =>
    cases right with
    | nil => exact List.nil_lt_cons _ _
    | cons rhs right =>
      obtain ⟨hlhs, hleft⟩ := List.forall_mem_cons.mp hleft
      obtain ⟨hrhs, hright⟩ := List.forall_mem_cons.mp hright
      have hthen : compareParts (lhs :: left) (rhs :: right)
          = (comparePart lhs rhs).then (compareParts left right) := by
        rw [compareParts]
        cases comparePart lhs rhs <;> rfl
      rw [hthen]
      exact compares_cons (comparePart_compares hlhs hrhs) (ih hleft hright)

/-- What holds of a version that has been parsed. -/
structure Version.Parsed (version : Version) : Prop where
  major : IsNumeral version.major
  minor : IsNumeral version.minor
  patch : IsNumeral version.patch
  prerelease : version.prerelease ≠ [] → ∀ part ∈ version.prerelease.splitOn '.', StrictPart part

theorem parseVersion_parsed {text : Text} {version : Version}
    (h : parseVersion text = some version) :
    version.Parsed := by
  obtain ⟨g, _, hg, hstrict, rfl⟩ := (parseVersion_eq_some_iff text version).mp h
  refine ⟨hg.major, hg.minor, hg.patch, ?_⟩
  show g.prerelease.getD [] ≠ [] → _
  cases hprerelease : g.prerelease with
  | none => exact fun hne => absurd rfl hne
  | some t =>
    intro _ part hpart
    rw [Groups.version, hprerelease] at hpart
    exact ⟨hg.prerelease t hprerelease part hpart, hstrict t hprerelease part hpart⟩

/-- A version without a prerelease is the greater. -/
theorem comparePrerelease_compares {left right : Text}
    (hleft : left ≠ [] → ∀ part ∈ left.splitOn '.', StrictPart part)
    (hright : right ≠ [] → ∀ part ∈ right.splitOn '.', StrictPart part) :
    (comparePrerelease left right).Compares (prereleaseKey left) (prereleaseKey right) := by
  unfold comparePrerelease prereleaseKey
  cases left with
  | nil =>
    cases right with
    | nil => exact rfl
    | cons c right => exact WithTop.coe_lt_top _
  | cons b left =>
    cases right with
    | nil => exact WithTop.coe_lt_top _
    | cons c right =>
      have hparts := compareParts_compares (hleft (List.cons_ne_nil b left))
        (hright (List.cons_ne_nil c right))
      exact compares_map WithTop.coe_strictMono hparts

/-- The comparator decides the order of precedence. -/
theorem compareVersion_compares {l r : Version} (hl : l.Parsed) (hr : r.Parsed) :
    (compareVersion l r).Compares l.precedence r.precedence :=
  compares_then (compareNumeric_compares hl.major hr.major)
    (compares_then (compareNumeric_compares hl.minor hr.minor)
      (compares_then (compareNumeric_compares hl.patch hr.patch)
        (comparePrerelease_compares hl.prerelease hr.prerelease)))

/-! ## Equal precedence -/

theorem partKey_inj {lhs rhs : Text} (hlhs : StrictPart lhs) (hrhs : StrictPart rhs)
    (h : partKey lhs = partKey rhs) : lhs = rhs := by
  unfold partKey at h
  cases hl : lhs.all Char.isDigit with
  | true =>
    cases hr : rhs.all Char.isDigit with
    | true =>
      rw [hl, hr] at h
      exact (numeralValue_inj (hlhs.numeral hl) (hrhs.numeral hr)).mp
        (Sum.inl.inj (toLex.injective h))
    | false =>
      rw [hl, hr] at h
      cases toLex.injective h
  | false =>
    cases hr : rhs.all Char.isDigit with
    | true =>
      rw [hl, hr] at h
      cases toLex.injective h
    | false =>
      rw [hl, hr] at h
      exact Sum.inr.inj (toLex.injective h)

theorem prereleaseKey_inj {left right : Text}
    (hleft : left ≠ [] → ∀ part ∈ left.splitOn '.', StrictPart part)
    (hright : right ≠ [] → ∀ part ∈ right.splitOn '.', StrictPart part)
    (h : prereleaseKey left = prereleaseKey right) : left = right := by
  unfold prereleaseKey at h
  cases left with
  | nil =>
    cases right with
    | nil => rfl
    | cons c right => cases h
  | cons b left =>
    cases right with
    | nil => cases h
    | cons c right =>
      have hkeys := WithTop.coe_injective h
      have hparts : (b :: left).splitOn '.' = (c :: right).splitOn '.' := by
        have hl := hleft (List.cons_ne_nil b left)
        have hr := hright (List.cons_ne_nil c right)
        generalize (b :: left).splitOn '.' = parts at hkeys hl ⊢
        generalize (c :: right).splitOn '.' = others at hkeys hr ⊢
        apply List.ext_getElem
        · simpa using congrArg List.length hkeys
        · intro index hindex hindex'
          apply partKey_inj (hl _ (List.getElem_mem hindex)) (hr _ (List.getElem_mem hindex'))
          have hat := congrArg (fun keys => keys[index]?) hkeys
          simpa [hindex, hindex'] using hat
      have hjoin : ∀ text : Text, ['.'].intercalate (text.splitOn '.') = text :=
        fun text => List.intercalate_splitOn '.'
      rw [← hjoin (b :: left), hparts, hjoin]

/-- Versions of one precedence differ in their build only. -/
theorem precedence_inj {l r : Version} (hl : l.Parsed) (hr : r.Parsed) :
    l.precedence = r.precedence ↔ { l with build := r.build } = r := by
  constructor
  · intro h
    obtain ⟨hmajor, h⟩ := Prod.mk.inj (toLex.injective h)
    obtain ⟨hminor, h⟩ := Prod.mk.inj (toLex.injective h)
    obtain ⟨hpatch, h⟩ := Prod.mk.inj (toLex.injective h)
    rw [(numeralValue_inj hl.major hr.major).mp hmajor,
      (numeralValue_inj hl.minor hr.minor).mp hminor,
      (numeralValue_inj hl.patch hr.patch).mp hpatch,
        prereleaseKey_inj hl.prerelease hr.prerelease h]
  · intro h
    rw [← h]
    rfl

end Cwhip.Packages
