/-
  Cwhip.Semantic.EnumReferences

  What the initializers of enum members mean, apart from the evaluation that
  computes it: which member a name stands for, which members a member refers to,
  and the exact value of an initializer when the values of members are given.

  Given values solve a program if each member has the exact value of its
  initializer, or is one more than the member before it, and everything on the
  way fits in 64 bits.
-/

import Cwhip.Semantic.EnumValues

namespace Cwhip.Semantic.Hierarchy

open Cwhip.Lib Relation
open Cwhip.CodeGen

variable (p : Program) (fuel : Nat)

/-! ## References -/

/-- A name stands for one member, which can be reached. -/
structure RefersTo (declaration target : ClassDeclaration) (name : String)
    (owner : ClassDeclaration) (index : Nat) :
    Prop where
  count : countEnumMembers p fuel target name = some 1
  accessible : accessibleMemberCount p fuel declaration target name = some 1
  reached : memberAccessible p fuel declaration target name = some true
  found : findEnumMember p fuel declaration target name = some (some (owner, index))

/-- The names of an initializer, with the classes they are looked up in. -/
def EnumExpression.references (declaration : ClassDeclaration) : EnumExpression →
    List (ClassDeclaration × String)
  | .integer _ => []
  | .identifier name => [(declaration, name)]
  | .member path name =>
    match path.bind p.find with
    | some target => [(target, name)]
    | none => []
  | .unary operation left =>
    if operation = '-' ∧ left.isMinimum = true then [] else left.references declaration
  | .binary _ left right => left.references declaration ++ right.references declaration
  | .other => []

/-- A member refers to the members that its initializer names, or without an
    initializer to the one before it. -/
def Refers (this next : ClassDeclaration × Nat) : Prop :=
  ∃ member, this.1.enumMembers[this.2]? = some member ∧
    match member.initializer with
    | some initializer => ∃ reference ∈ initializer.references p this.1,
        RefersTo p fuel this.1 reference.1 reference.2 next.1 next.2
    | none => next.1 = this.1 ∧ previousMember this.1 this.2 member.blockIndex = some next.2

/-- No member refers to itself, on any way. -/
def AcyclicReferences : Prop := ∀ member, IsMember p member →
    ¬ TransGen (Refers p fuel) member member

/-- Of the members of its own class a member names those before it only. -/
def EarlierReferences (c : ClassDeclaration) (index : Nat)
    (references : List (ClassDeclaration × String)) : Prop :=
  ∀ reference ∈ references, ∀ owner place, RefersTo p fuel c reference.1 reference.2 owner place →
    owner.name = c.name → place < index

/-- Within its class an initializer names members before its own only. -/
def NamesEarlier : Prop :=
  ∀ c ∈ p.classes, ∀ (index : Nat) (member : EnumMember) (initializer : EnumExpression),
    c.enumMembers[index]? = some member → member.initializer = some initializer →
      EarlierReferences p fuel c index (initializer.references p c)

/-! ## Exact values -/

/-- A signed number of 64 bits. -/
def InRange (value : Int) : Prop := Literals.int64Min ≤ value ∧ value ≤ int64Max

instance (value : Int) : Decidable (InRange value) := inferInstanceAs (Decidable (_ ∧ _))

/-- Values of members, where they are known. -/
abbrev EnumValuation := String × Nat → Option Int

/-- The exact value of an initializer, with everything on the way in range.
    `INT64_MIN % -1` counts as out of range, like the quotient. -/
def ExactValue (valuation : EnumValuation) (declaration : ClassDeclaration) : EnumExpression → Int →
    Prop
  | .integer text, value => Literals.mathValue (.integer text.toList) = some value ∧ InRange value
  | .identifier name, value => ∃ owner index,
      RefersTo p fuel declaration declaration name owner index ∧
        valuation (owner.name, index) = some value
  | .member path name, value => ∃ target, path.bind p.find = some target ∧ ∃ owner index,
      RefersTo p fuel declaration target name owner index ∧
        valuation (owner.name, index) = some value
  | .unary operation left, value =>
    if operation = '-' ∧ left.isMinimum = true then value = Literals.int64Min
    else ∃ operand, ExactValue valuation declaration left operand ∧
      (operation = '+' ∧ value = operand ∨ operation = '-' ∧ value = -operand ∧ InRange value)
  | .binary operation left right, value => ∃ a b,
      ExactValue valuation declaration left a ∧ ExactValue valuation declaration right b ∧
        Literals.exactOperation operation.toList a b = some value ∧ InRange value ∧
        ¬ (operation = "%" ∧ a = Literals.int64Min ∧ b = -1)
  | .other, _ => False

def MemberValue (valuation : EnumValuation) (c : ClassDeclaration) (index : Nat) (value : Int) :
    Prop :=
  ∃ member, c.enumMembers[index]? = some member ∧
    match member.initializer with
    | some initializer => ExactValue p fuel valuation c initializer value
    | none =>
      match previousMember c index member.blockIndex with
      | none => value = 0
      | some previous => ∃ before, valuation (c.name, previous) = some before ∧ value = before + 1 ∧
          InRange value

/-- Values that fit the initializers. -/
def Solves (values : String × Nat → Int) : Prop :=
  ∀ c ∈ p.classes, ∀ index, index < c.enumMembers.length →
    MemberValue p fuel (fun member => some (values member)) c index (values (c.name, index))

variable {p fuel}

variable {declaration : ClassDeclaration} {index : Nat} {valuation valuation' : EnumValuation}
  {expression : EnumExpression} {value : Int}

theorem RefersTo.unique {target : ClassDeclaration} {name : String}
    {owner owner' : ClassDeclaration} {index' : Nat}
    (h : RefersTo p fuel declaration target name owner index)
    (h' : RefersTo p fuel declaration target name owner' index') : owner = owner' ∧
    index = index' := by
  have hfound := h.found.symm.trans h'.found
  exact Prod.mk.inj (Option.some.inj (Option.some.inj hfound))

theorem ExactValue.mono
    (hle : ∀ member value, valuation member = some value → valuation' member = some value)
    (h : ExactValue p fuel valuation declaration expression value) :
    ExactValue p fuel valuation' declaration expression value := by
  induction expression generalizing value with
  | integer text => exact h
  | identifier name =>
    obtain ⟨owner, index, hrefers, hvalue⟩ := h
    exact ⟨owner, index, hrefers, hle _ _ hvalue⟩
  | member path name =>
    obtain ⟨target, htarget, owner, index, hrefers, hvalue⟩ := h
    exact ⟨target, htarget, owner, index, hrefers, hle _ _ hvalue⟩
  | unary operation left ih =>
    rw [ExactValue] at h ⊢
    split
    · next hminimum => rwa [if_pos hminimum] at h
    · next hminimum =>
      rw [if_neg hminimum] at h
      obtain ⟨operand, hoperand, hresult⟩ := h
      exact ⟨operand, ih hoperand, hresult⟩
  | binary operation left right ihLeft ihRight =>
    obtain ⟨a, b, ha, hb, hresult⟩ := h
    exact ⟨a, b, ihLeft ha, ihRight hb, hresult⟩
  | other => exact h

theorem ExactValue.unique {valuation valuation' : EnumValuation}
    (hsame : ∀ member value value', valuation member = some value →
    valuation' member = some value' → value = value')
    {declaration : ClassDeclaration} {expression : EnumExpression} {value value' : Int}
    (h : ExactValue p fuel valuation declaration expression value)
    (h' : ExactValue p fuel valuation' declaration expression value') : value = value' := by
  induction expression generalizing value value' with
  | integer text => exact Option.some.inj (h.1.symm.trans h'.1)
  | identifier name =>
    obtain ⟨owner, index, hrefers, hvalue⟩ := h
    obtain ⟨owner', index', hrefers', hvalue'⟩ := h'
    obtain ⟨rfl, rfl⟩ := hrefers.unique hrefers'
    exact hsame _ _ _ hvalue hvalue'
  | member path name =>
    obtain ⟨target, htarget, owner, index, hrefers, hvalue⟩ := h
    obtain ⟨target', htarget', owner', index', hrefers', hvalue'⟩ := h'
    obtain rfl := Option.some.inj (htarget.symm.trans htarget')
    obtain ⟨rfl, rfl⟩ := hrefers.unique hrefers'
    exact hsame _ _ _ hvalue hvalue'
  | unary operation left ih =>
    rw [ExactValue] at h h'
    split at h
    · next hminimum =>
      rw [if_pos hminimum] at h'
      rw [h, h']
    · next hminimum =>
      rw [if_neg hminimum] at h'
      obtain ⟨operand, hoperand, hresult⟩ := h
      obtain ⟨operand', hoperand', hresult'⟩ := h'
      obtain rfl := ih hoperand hoperand'
      rcases hresult with ⟨rfl, rfl⟩ | ⟨rfl, rfl, _⟩
      · rcases hresult' with ⟨_, rfl⟩ | ⟨hminus, _⟩
        · rfl
        · exact absurd hminus (by decide)
      · rcases hresult' with ⟨hplus, _⟩ | ⟨_, rfl, _⟩
        · exact absurd hplus (by decide)
        · rfl
  | binary operation left right ihLeft ihRight =>
    obtain ⟨a, b, ha, hb, hresult, _⟩ := h
    obtain ⟨a', b', ha', hb', hresult', _⟩ := h'
    obtain rfl := ihLeft ha ha'
    obtain rfl := ihRight hb hb'
    exact Option.some.inj (hresult.symm.trans hresult')
  | other => exact absurd h id

theorem ExactValue.known (h : ExactValue p fuel valuation declaration expression value) :
    ∀ reference ∈ expression.references p declaration, ∃ owner index known,
      RefersTo p fuel declaration reference.1 reference.2 owner index ∧
        valuation (owner.name, index) = some known := by
  induction expression generalizing value with
  | integer text => exact List.forall_mem_nil _
  | identifier name =>
    obtain ⟨owner, index, hrefers, hvalue⟩ := h
    intro reference hreference
    rw [List.mem_singleton.mp hreference]
    exact ⟨owner, index, value, hrefers, hvalue⟩
  | member path name =>
    obtain ⟨target, htarget, owner, index, hrefers, hvalue⟩ := h
    intro reference hreference
    rw [EnumExpression.references, htarget] at hreference
    rw [List.mem_singleton.mp hreference]
    exact ⟨owner, index, value, hrefers, hvalue⟩
  | unary operation left ih =>
    rw [ExactValue] at h
    rw [EnumExpression.references]
    split
    · exact List.forall_mem_nil _
    · next hminimum =>
      rw [if_neg hminimum] at h
      obtain ⟨operand, hoperand, _⟩ := h
      exact ih hoperand
  | binary operation left right ihLeft ihRight =>
    obtain ⟨a, b, ha, hb, _⟩ := h
    exact List.forall_mem_append.mpr ⟨ihLeft ha, ihRight hb⟩
  | other => exact absurd h id

theorem MemberValue.mono
    (hle : ∀ member value, valuation member = some value → valuation' member = some value)
    {c : ClassDeclaration} (h : MemberValue p fuel valuation c index value) :
    MemberValue p fuel valuation' c index value := by
  obtain ⟨member, hmember, h⟩ := h
  refine ⟨member, hmember, ?_⟩
  split at h
  · exact h.mono hle
  · split at h
    · exact h
    · obtain ⟨before, hbefore, hresult⟩ := h
      exact ⟨before, hle _ _ hbefore, hresult⟩

theorem MemberValue.unique {valuation valuation' : EnumValuation}
    (hsame : ∀ member value value', valuation member = some value →
    valuation' member = some value' → value = value')
    {c : ClassDeclaration} {index : Nat} {value value' : Int}
    (h : MemberValue p fuel valuation c index value)
    (h' : MemberValue p fuel valuation' c index value') : value = value' := by
  obtain ⟨member, hmember, h⟩ := h
  obtain ⟨member', hmember', h'⟩ := h'
  obtain rfl := Option.some.inj (hmember.symm.trans hmember')
  split at h
  · next heq =>
    rw [heq] at h'
    exact h.unique hsame h'
  · next heq =>
    rw [heq] at h'
    dsimp only at h'
    split at h
    · next hprevious =>
      rw [hprevious] at h'
      rw [h]
      exact h'.symm
    · next hprevious =>
      rw [hprevious] at h'
      obtain ⟨before, hbefore, rfl, _⟩ := h
      obtain ⟨before', hbefore', rfl, _⟩ := h'
      rw [hsame _ _ _ hbefore hbefore']

theorem MemberValue.known {this next : ClassDeclaration × Nat}
    (h : MemberValue p fuel valuation this.1 this.2 value) (hrefers : Refers p fuel this next) :
    ∃ known, valuation (next.1.name, next.2) = some known := by
  obtain ⟨member, hmember, h⟩ := h
  obtain ⟨member', hmember', hrefers⟩ := hrefers
  obtain rfl := Option.some.inj (hmember.symm.trans hmember')
  split at h
  · next heq =>
    rw [heq] at hrefers
    obtain ⟨reference, hreference, hrefers⟩ := hrefers
    obtain ⟨owner, index, known, hrefers', hknown⟩ := h.known reference hreference
    obtain ⟨rfl, rfl⟩ := hrefers.unique hrefers'
    exact ⟨known, hknown⟩
  · next heq =>
    rw [heq] at hrefers
    obtain ⟨hclass, hprevious⟩ := hrefers
    rw [hprevious] at h
    obtain ⟨before, hbefore, _⟩ := h
    rw [hclass]
    exact ⟨before, hbefore⟩

end Cwhip.Semantic.Hierarchy
