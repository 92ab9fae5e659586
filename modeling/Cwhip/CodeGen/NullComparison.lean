/-
  Cwhip.CodeGen.NullComparison

  `v == null` and `v != null` of a value of type `any` (`CodeGenerator.cpp`,
  the comparison of an expression with the literal `null`).

  The emitted code compares the tag with that of objects.  A null of type
  `null` or of a class has this tag, but so has every object, and the null of a
  list, dict, buffer or handle has another one.
-/

import Cwhip.CodeGen.Boxing

namespace Cwhip.CodeGen

open Cwhip.Lib

/-- The code emitted for `value == null` and for `value != null`. -/
def nullComparison (equals : Bool) (value : DynamicValue) : Bool :=
  if equals then value.tag == objectTag else value.tag != objectTag

/-- The contents of a static type for which the tag tells whether they are null. -/
def NullByTag (type : ValueType) : Content → Prop
  | .plain _ => True
  | .instance _ _ => False
  | .null => type = .null ∨ ∃ name, type = .object name

/-- The comparison and the runtime's two other answers to whether a value is
    null all agree with what it holds. -/
structure NullAgrees (heap : ObjectHeap) (boxed : DynamicValue) (content : Content) : Prop where
  equal : nullComparison true boxed = true ↔ content = .null
  negated : nullComparison false boxed = !nullComparison true boxed
  required : nullComparison true boxed = true ↔ requireNull boxed.tag boxed.pointer = .ok ()
  named : nullComparison true boxed = true ↔ typeOf heap boxed = some nullName

/-! ## What the comparison, the check and the name answer -/

theorem nullComparison_tag (type : ValueType) (value : Value type) :
    nullComparison true (buildDynamicValue type value) = true ↔
      type = .null ∨ ∃ name, type = .object name := by
  have htag : (buildDynamicValue type value).tag = valueTag type := by
    cases type <;> rfl
  rw [nullComparison, if_pos rfl, htag, beq_iff_eq, valueTag_object]

variable {p : Program} {heap : ObjectHeap} {type : ValueType} {content : Content}

theorem requireNull_iff {value : Value type} (h : Holds p heap type value content) :
    requireNull (buildDynamicValue type value).tag (buildDynamicValue type value).pointer = .ok () ↔
      content = .null := by
  have hpasses : ∀ tag pointer, requireNull tag pointer = .ok () ↔
      isNullableTag tag = true ∧ pointer = 0 := by
    intro tag pointer
    unfold requireNull
    split
    · rename_i hfails
      refine iff_of_false nofun ?_
      rintro ⟨htag, hzero⟩
      rcases hfails with hscalar | hpointer
      · rw [htag] at hscalar
        cases hscalar
      · exact hpointer hzero
    · rename_i hpasses
      simp only [not_or, Bool.not_eq_true, Bool.not_eq_false', not_not] at hpasses
      exact iff_of_true rfl hpasses
  rw [hpasses]
  cases h with
  | int | bool | float | unsigned | descriptor => exact iff_of_false (fun h => nomatch h.1) nofun
  | list hnode hne | dict hnode hne | buffer hnode hne | handle hne =>
    exact iff_of_false (fun h => hne h.2) nofun
  | @object name pointer owner living hrefers =>
    obtain ⟨object, offset, hpointer, hne, -⟩ := hrefers.castClass_eq name
    refine iff_of_false (fun h => ?_) nofun
    have hzero : pointer = 0 := h.2
    omega
  | null | nullList | nullDict | nullBuffer | nullHandle | nullObject =>
    exact iff_of_true ⟨rfl, rfl⟩ rfl

theorem typeOf_null_iff {value : Value type} (h : Holds p heap type value content)
    (hkeyword : ∀ owner ∈ p.classes, owner.label.name ≠ nullName) :
    typeOf heap (buildDynamicValue type value) = some nullName ↔ content = .null := by
  rw [typeOf_eq h, Option.some.injEq]
  unfold nullName at hkeyword
  cases h with
  | object hrefers =>
    exact iff_of_false (by unfold nullName; exact hkeyword _ hrefers.declared) nofun
  | null | nullList | nullDict | nullBuffer | nullHandle | nullObject => exact iff_of_true rfl rfl
  | _ => exact iff_of_false (by unfold nullName; decide) nofun

/-! ## When they agree -/

/-- For a value stored in an `any` the comparison with null answers what the
    value is, and what the runtime's check and its type name answer, exactly if
    its tag tells whether it is null: not for objects, and not for the null of a
    list, dict, buffer or handle. -/
theorem nullComparison_agrees_iff {p : Program} {heap : ObjectHeap} {type : ValueType}
    {value : Value type} {content : Content} (h : Holds p heap type value content)
    (hkeyword : ∀ owner ∈ p.classes, owner.label.name ≠ nullName) :
    NullAgrees heap (buildDynamicValue type value) content ↔ NullByTag type content := by
  have hcompare := nullComparison_tag type value
  have hrequire := requireNull_iff h
  have hname := typeOf_null_iff h hkeyword
  have htag : (type = .null ∨ ∃ name, type = .object name) →
      (content = .null ↔ NullByTag type content) := by
    intro htype
    cases content with
    | null => exact iff_of_true rfl htype
    | «instance» owner living => exact iff_of_false nofun id
    | plain held =>
      rcases htype with rfl | ⟨name, rfl⟩
      · cases h
      · cases h
  have hother : ¬ (type = .null ∨ ∃ name, type = .object name) →
      (content ≠ .null ↔ NullByTag type content) := by
    intro htype
    cases content with
    | null => exact iff_of_false (fun hne => hne rfl) htype
    | plain held => exact iff_of_true nofun trivial
    | «instance» owner living =>
      cases h with
      | object hrefers => exact absurd (.inr ⟨_, rfl⟩) htype
  constructor
  · intro hagrees
    have hequal := hcompare.symm.trans hagrees.equal
    by_cases htype : type = .null ∨ ∃ name, type = .object name
    · exact (htag htype).mp (hequal.mp htype)
    · exact (hother htype).mp fun hnull => htype (hequal.mpr hnull)
  · intro hby
    have hequal : nullComparison true (buildDynamicValue type value) = true ↔ content = .null := by
      rw [hcompare]
      by_cases htype : type = .null ∨ ∃ name, type = .object name
      · exact iff_of_true htype ((htag htype).mpr hby)
      · exact iff_of_false htype ((hother htype).mpr hby)
    exact ⟨hequal, rfl, hequal.trans hrequire.symm, hequal.trans hname.symm⟩

/-- A list and the null of a class compare as they should, the null of a `list`
    variable does not. -/
theorem nullComparison_agrees_nulls :
    NullAgrees listHeap (buildDynamicValue .list ⟨(64 : Nat), false⟩) (.plain .list) ∧
      NullAgrees listHeap (buildDynamicValue (.object ['A']) ⟨Nat.zero, false⟩) .null ∧
      ¬ NullAgrees listHeap (buildDynamicValue .list ⟨Nat.zero, false⟩) .null := by
  have hkeyword : ∀ owner ∈ diamondProgram.classes, owner.label.name ≠ nullName := by
    unfold nullName
    decide
  have hlist : Holds diamondProgram listHeap .list ⟨(64 : Nat), false⟩ (.plain .list) :=
    .list (by decide) (by decide)
  have hobject : Holds diamondProgram listHeap (.object ['A']) ⟨Nat.zero, false⟩ .null :=
    .nullObject _
  have hnull : Holds diamondProgram listHeap .list ⟨Nat.zero, false⟩ .null := .nullList
  refine ⟨(nullComparison_agrees_iff hlist hkeyword).mpr trivial,
    (nullComparison_agrees_iff hobject hkeyword).mpr (.inr ⟨_, rfl⟩), ?_⟩
  rw [nullComparison_agrees_iff hnull hkeyword, NullByTag]
  simp

/-- That null does not compare equal to null. -/
theorem null_list_unequal : ¬ ∀ (p : Program) (heap : ObjectHeap) (type : ValueType)
    (value : Value type) (content : Content), Holds p heap type value content →
    NullAgrees heap (buildDynamicValue type value) content := by
  intro h
  have hagrees := h diamondProgram listHeap .list _ _ .nullList
  have hequal := hagrees.equal.mpr rfl
  cases hequal

end Cwhip.CodeGen
