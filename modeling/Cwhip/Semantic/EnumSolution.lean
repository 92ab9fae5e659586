/-
  Cwhip.Semantic.EnumSolution

  The evaluation of enum members computes the exact values: every value found is
  the exact value of its member, and a program with exact values and without a
  member that refers to itself is accepted.

  The values found form a list in which each entry rests on the entries after it.
  In that order members can be shown not to refer to themselves.  The other way
  round, every member being resolved refers, on some way, to the one that is
  resolved now, so that one cannot be among them.
-/

import Cwhip.Semantic.EnumResults

namespace Cwhip.Semantic.Hierarchy

open Cwhip.Lib Relation Filter
open Cwhip.CodeGen

variable {p : Program} {fuel : Nat}

/-! ## The classes of references -/

theorem references_classes {declaration : ClassDeclaration} (hdeclaration : declaration ∈ p.classes)
    (expression : EnumExpression) : ∀ reference ∈ expression.references p declaration,
    reference.1 ∈ p.classes := by
  induction expression with
  | integer text => exact List.forall_mem_nil _
  | identifier name => exact List.forall_mem_singleton.mpr hdeclaration
  | member path name =>
    rw [EnumExpression.references]
    split
    · next target htarget =>
      obtain ⟨className, _, hfind⟩ := Option.bind_eq_some_iff.mp htarget
      exact List.forall_mem_singleton.mpr (Program.mem_of_find hfind).1
    · exact List.forall_mem_nil _
  | unary operation left ih =>
    rw [EnumExpression.references]
    split
    · exact List.forall_mem_nil _
    · exact ih
  | binary operation left right ihLeft ihRight => exact List.forall_mem_append.mpr ⟨ihLeft, ihRight⟩
  | other => exact List.forall_mem_nil _

variable {c : ClassDeclaration} {index : Nat} {value : Int} {st' : EnumState}
  {classes : List ClassDeclaration}

theorem previousMember_less {blockIndex previous : Nat}
    (h : previousMember c index blockIndex = some previous) : previous < index :=
  List.mem_range.mp (List.mem_reverse.mp (List.mem_of_find?_eq_some h))

/-- What a member refers to is a member. -/
theorem Refers.isMember {this next : ClassDeclaration × Nat} (hthis : IsMember p this)
    (h : Refers p fuel this next) :
    IsMember p next := by
  obtain ⟨member, _, h⟩ := h
  split at h
  · next initializer _ =>
    obtain ⟨reference, hreference, hrefers⟩ := h
    exact findEnumMember_member (references_classes hthis.1 initializer reference hreference)
      hrefers.found
  · obtain ⟨hclass, hprevious⟩ := h
    have hless := previousMember_less hprevious
    unfold IsMember at hthis ⊢
    rw [hclass]
    exact ⟨hthis.1, hless.trans hthis.2⟩

/-! ## Values found -/

/-- The values of a list, the latest first. -/
def found (values : List ((String × Nat) × Int)) : EnumValuation := EnumState.value ⟨values, []⟩

variable {member : String × Nat} {rest : List ((String × Nat) × Int)}

theorem found_cons {other : String × Nat} :
    found ((member, value) :: rest) other = if member = other then some value
    else found rest other := by
  unfold found EnumState.value
  by_cases hsame : member = other
  · rw [if_pos hsame, List.find?_cons_of_pos (by simpa using hsame)]
    rfl
  · rw [if_neg hsame, List.find?_cons_of_neg (by simpa using hsame)]

/-- A new value replaces none that was found. -/
theorem found_extends (hfresh : found rest member = none) (other : String × Nat) (known : Int)
    (h : found rest other = some known) :
    found ((member, value) :: rest) other = some known := by
  rw [found_cons, if_neg, h]
  rintro rfl
  rw [hfresh] at h
  cases h

/-- A value that a member has, with its references where they may be. -/
structure Resolved (p : Program) (fuel : Nat) (valuation : EnumValuation) (c : ClassDeclaration)
    (index : Nat) (value : Int) : Prop where
  exact : MemberValue p fuel valuation c index value
  inRange : InRange value
  earlier : ∀ member initializer, c.enumMembers[index]? = some member →
    member.initializer = some initializer →
    EarlierReferences p fuel c index (initializer.references p c)

/-- More values resolve no less. -/
theorem Resolved.mono {valuation valuation' : EnumValuation}
    (hle : ∀ member value, valuation member = some value → valuation' member = some value)
    (h : Resolved p fuel valuation c index value) :
    Resolved p fuel valuation' c index value :=
  ⟨h.exact.mono hle, h.inRange, h.earlier⟩

/-- Each value rests on those found before it. -/
inductive Settled (p : Program) (fuel : Nat) : List ((String × Nat) × Int) → Prop
  | nil : Settled p fuel []
  | cons {c : ClassDeclaration} {index : Nat} {value : Int} {rest : List ((String × Nat) × Int)}
      (hc : c ∈ p.classes) (hfresh : found rest (c.name, index) = none)
      (hresolved : Resolved p fuel (found rest) c index value) (hrest : Settled p fuel rest) :
      Settled p fuel (((c.name, index), value) :: rest)

namespace Settled

variable {values : List ((String × Nat) × Int)}

variable {value : Int}

/-- A value that was found is that of its expression. -/
theorem resolved (h : Settled p fuel values) {c : ClassDeclaration} (hc : c ∈ p.classes)
    {index : Nat}
    (hvalue : found values (c.name, index) = some value) :
    Resolved p fuel (found values) c index value := by
  induction h with
  | nil => cases hvalue
  | cons hd hfresh hresolved _ ih =>
    rw [found_cons] at hvalue
    split at hvalue
    · next hsame =>
      obtain ⟨hname, rfl⟩ := Prod.mk.inj hsame
      obtain rfl := Program.eq_of_name hd hc hname
      obtain rfl := Option.some.inj hvalue
      exact hresolved.mono (found_extends hfresh)
    · exact (ih hvalue).mono (found_extends hfresh)

/-- Any solution has the values that were found. -/
theorem agrees (h : Settled p fuel values) {exact : String × Nat → Int}
    (hsolves : Solves p fuel exact) {member : String × Nat}
    (hvalue : found values member = some value) : value = exact member := by
  induction h generalizing member value with
  | nil => cases hvalue
  | cons hc hfresh hresolved _ ih =>
    rw [found_cons] at hvalue
    split at hvalue
    · next hsame =>
      obtain rfl := Option.some.inj hvalue
      rw [← hsame]
      obtain ⟨declared, hdeclared, _⟩ := hresolved.exact
      have hindex := (List.getElem?_eq_some_iff.mp hdeclared).1
      refine hresolved.exact.unique ?_ (hsolves _ hc _ hindex)
      intro other known known' hknown hknown'
      rw [ih hknown]
      exact Option.some.inj hknown'
    · exact ih hvalue

/-- No cycle runs through a member that has a value. -/
theorem acc (h : Settled p fuel values) {this : ClassDeclaration × Nat} (hthis : IsMember p this)
    (hvalue : found values (this.1.name, this.2) = some value) :
    Acc (fun next this => Refers p fuel this next) this := by
  induction h generalizing this value with
  | nil => cases hvalue
  | cons hc hfresh hresolved _ ih =>
    rw [found_cons] at hvalue
    split at hvalue
    · next hsame =>
      obtain ⟨hname, hindex⟩ := Prod.mk.inj hsame
      obtain rfl := Program.eq_of_name hc hthis.1 hname
      subst hindex
      refine Acc.intro this fun next hrefers => ?_
      obtain ⟨known, hknown⟩ := hresolved.exact.known hrefers
      exact ih (hrefers.isMember hthis) hknown
    · exact ih hthis hvalue

end Settled

theorem not_transGen_of_acc {α : Type} {r : α → α → Prop} {a : α} (h : Acc r a) :
    ¬ TransGen r a a := by
  have hacc := h.transGen
  clear h
  induction hacc with
  | intro b _ ih => exact fun hcycle => ih b hcycle hcycle

/-! ## Values are exact -/

structure EnumState.Valid (p : Program) (fuel : Nat) (st : EnumState) : Prop where
  proper : st.Proper p
  settled : Settled p fuel st.values
  fresh : ∀ member ∈ st.resolving, st.value member = none

/-- More values, with the same members being resolved. -/
structure EnumState.Extends (p : Program) (fuel : Nat) (st st' : EnumState) : Prop where
  valid : st'.Valid p fuel
  resolving : st'.resolving = st.resolving
  keeps : ∀ member value, st.value member = some value → st'.value member = some value

theorem EnumState.Valid.extends_self {st : EnumState} (h : st.Valid p fuel) :
    st.Extends p fuel st :=
  ⟨h, rfl, fun _ _ hvalue => hvalue⟩

/-- Each step adds values to those before it. -/
theorem EnumState.Extends.trans {st st'' : EnumState} (h : st.Extends p fuel st')
    (h' : st'.Extends p fuel st'') :
    st.Extends p fuel st'' :=
  ⟨h'.valid, h'.resolving.trans h.resolving, fun member value hvalue =>
    h'.keeps member value (h.keeps member value hvalue)⟩

/-- What is resolved gets its exact value. -/
def ResolvesExactly (p : Program) (fuel : Nat)
    (resolve : ClassDeclaration → Nat → EnumState → Run (Int × EnumState)) : Prop :=
  ∀ c index, IsMember p (c, index) → ∀ st : EnumState, st.Valid p fuel → ∀ result,
    (resolve c index st).outcome = some (.ok result) →
      st.Extends p fuel result.2 ∧ result.2.value (c.name, index) = some result.1 ∧ InRange result.1

section

variable {resolve : ClassDeclaration → Nat → EnumState → Run (Int × EnumState)}
  {declaration : ClassDeclaration}
  {memberIndex : Nat} {st : EnumState} {result : Int × EnumState}

/-- The value of a reference is the one its member gets. -/
theorem evaluateReference_exact (hresolve : ResolvesExactly p fuel resolve)
    {target : ClassDeclaration}
    (htarget : target ∈ p.classes) {name : String} (hst : st.Valid p fuel)
    (h : (evaluateReference p fuel resolve declaration memberIndex target name st).outcome =
    some (.ok result)) :
    st.Extends p fuel result.2 ∧
      (∃ owner index, RefersTo p fuel declaration target name owner index ∧
        result.2.value (owner.name, index) = some result.1) ∧
      InRange result.1 ∧ EarlierReferences p fuel declaration memberIndex [(target, name)] := by
  obtain ⟨owner, index, hrefers, hearlier, _, hresolved⟩ := evaluateReference_ok.mp h
  have hmember := findEnumMember_member htarget hrefers.found
  obtain ⟨hextends, hvalue, hrange⟩ := hresolve owner index hmember st hst result hresolved
  refine ⟨hextends, ⟨owner, index, hrefers, hvalue⟩, hrange, ?_⟩
  intro reference hreference owner' place hrefers' hname
  rw [List.mem_singleton.mp hreference] at hrefers'
  obtain ⟨rfl, rfl⟩ := hrefers.unique hrefers'
  exact Nat.lt_of_not_le fun hlater => hearlier ⟨hname, hlater⟩

/-- The value of an expression is that over the values found. -/
theorem evaluateEnumExpression_exact (hresolve : ResolvesExactly p fuel resolve)
    (hdeclaration : declaration ∈ p.classes) {expression : EnumExpression} (hst : st.Valid p fuel)
    (h : (evaluateEnumExpression p fuel resolve declaration memberIndex expression st).outcome =
    some (.ok result)) :
    st.Extends p fuel result.2 ∧ ExactValue p fuel result.2.value declaration expression result.1 ∧
      InRange result.1 ∧
        EarlierReferences p fuel declaration memberIndex (expression.references p declaration) := by
  induction expression generalizing st result with
  | integer text =>
    obtain ⟨⟨hvalue, hrange⟩, hsame⟩ := evaluateInteger_ok.mp h
    rw [hsame]
    exact ⟨hst.extends_self, ⟨hvalue, hrange⟩, hrange, List.forall_mem_nil _⟩
  | identifier name => exact evaluateReference_exact hresolve hdeclaration hst h
  | member path name =>
    rw [evaluateEnumExpression] at h
    split at h
    · next target htarget =>
      obtain ⟨className, _, hfind⟩ := Option.bind_eq_some_iff.mp htarget
      obtain ⟨hextends, hvalue, hrange, hearlier⟩ :=
        evaluateReference_exact hresolve (Program.mem_of_find hfind).1 hst h
      refine ⟨hextends, ⟨target, htarget, hvalue⟩, hrange, ?_⟩
      rw [EnumExpression.references, htarget]
      exact hearlier
    · exact absurd h Run.refuse_ok
  | unary operation left ih =>
    rw [ExactValue, EnumExpression.references]
    by_cases hminimum : operation = '-' ∧ left.isMinimum = true
    · rw [evaluateEnumExpression, if_pos hminimum] at h
      obtain rfl := Run.done_ok.mp h
      rw [if_pos hminimum, if_pos hminimum]
      have hrange : InRange Literals.int64Min := by decide
      exact ⟨hst.extends_self, rfl, hrange, List.forall_mem_nil _⟩
    · rw [if_neg hminimum, if_neg hminimum]
      obtain ⟨operand, hoperand, hresult⟩ := (evaluateUnary_ok hminimum).mp h
      obtain ⟨hextends, hexact, hrange, hearlier⟩ := ih hst hoperand
      have hnegated : operand ≠ Literals.int64Min → InRange (-operand) := by
        intro hne
        unfold InRange Literals.int64Min int64Max at *
        omega
      rcases hresult with ⟨hplus, hvalue⟩ | ⟨hminus, hvalue, hne⟩
      · rw [hvalue]
        exact ⟨hextends, ⟨operand, hexact, Or.inl ⟨hplus, rfl⟩⟩, hrange, hearlier⟩
      · rw [hvalue]
        have hfits := hnegated hne
        exact ⟨hextends, ⟨operand, hexact, Or.inr ⟨hminus, rfl, hfits⟩⟩, hfits, hearlier⟩
  | binary operation left right ihLeft ihRight =>
    obtain ⟨a, between, b, hleft, hright, hvalue⟩ := evaluateBinary_ok.mp h
    obtain ⟨hextends, hexact, hrange, hearlier⟩ := ihLeft hst hleft
    obtain ⟨hextends', hexact', _, hearlier'⟩ := ihRight hextends.valid hright
    obtain ⟨hoperation, hfits, hremainder⟩ := (constantOperation_iff hrange).mp hvalue
    refine ⟨hextends.trans hextends', ?_, hfits, List.forall_mem_append.mpr ⟨hearlier, hearlier'⟩⟩
    exact ⟨a, b, hexact.mono hextends'.keeps, hexact', hoperation, hfits, hremainder⟩
  | other => exact absurd h Run.refuse_ok

theorem implicitValue_exact (hresolve : ResolvesExactly p fuel resolve) {c : ClassDeclaration}
    {index : Nat} (hmember : IsMember p (c, index)) {blockIndex : Nat} (hst : st.Valid p fuel)
    (h : (implicitValue resolve c index blockIndex st).outcome = some (.ok result)) :
    st.Extends p fuel result.2 ∧ InRange result.1 ∧
      match previousMember c index blockIndex with
      | none => result.1 = 0
      | some previous => ∃ before, result.2.value (c.name, previous) = some before ∧
          result.1 = before + 1 ∧ InRange result.1 := by
  unfold implicitValue at h
  cases hprevious : previousMember c index blockIndex with
  | none =>
    rw [hprevious] at h
    obtain rfl := Run.done_ok.mp h
    have hzero : InRange 0 := by decide
    exact ⟨hst.extends_self, hzero, rfl⟩
  | some previous =>
    rw [hprevious] at h
    obtain ⟨⟨before, after⟩, hbefore, h⟩ := Run.bind_ok.mp h
    have hless := previousMember_less hprevious
    obtain ⟨hextends, hvalue, hrange⟩ :=
      hresolve c previous ⟨hmember.1, hless.trans hmember.2⟩ st hst _ hbefore
    dsimp only at h
    split at h
    · exact absurd h Run.refuse_ok
    next hfits =>
    obtain rfl := Run.done_ok.mp h
    have hnext : InRange (before + 1) := by
      unfold InRange Literals.int64Min int64Max at *
      omega
    exact ⟨hextends, hnext, before, hvalue, rfl, hnext⟩

end

/-- The state in which a member is resolved. -/
def EnumState.enter (st : EnumState) (member : String × Nat) : EnumState :=
  { st with resolving := member :: st.resolving }

/-- A member without a value may be entered. -/
theorem EnumState.Valid.enter {st : EnumState} (hst : st.Valid p fuel)
    (hmember : IsMember p (c, index)) (hnew : (c.name, index) ∉ st.resolving)
    (hnone : st.value (c.name, index) = none) : (st.enter (c.name, index)).Valid p fuel := by
  refine ⟨⟨?_, ?_⟩, hst.settled, ?_⟩
  · exact List.nodup_cons.mpr ⟨hnew, hst.proper.nodup⟩
  · exact List.cons_subset.mpr ⟨hmember.mem, hst.proper.members⟩
  · exact List.forall_mem_cons.mpr ⟨hnone, hst.fresh⟩

/-- Leaving records the value of the member that was entered. -/
theorem EnumState.Extends.leave {st left : EnumState} (hst : st.Valid p fuel) (hc : c ∈ p.classes)
    (hextends : (st.enter (c.name, index)).Extends p fuel left)
    (hresolved : Resolved p fuel left.value c index value) :
    st.Extends p fuel ⟨((c.name, index), value) :: left.values, st.resolving⟩ := by
  have hentered : (c.name, index) :: st.resolving = left.resolving := hextends.resolving.symm
  have hnodup : ((c.name, index) :: st.resolving).Nodup := hentered ▸ hextends.valid.proper.nodup
  have hfresh : ∀ member ∈ (c.name, index) :: st.resolving, left.value member = none :=
    hentered ▸ hextends.valid.fresh
  have hnone : found left.values (c.name, index) = none := hfresh _ List.mem_cons_self
  refine ⟨⟨hst.proper.of_eq rfl, .cons hc hnone hresolved hextends.valid.settled,
    fun member hmember => ?_⟩, rfl,
    fun member known hknown => found_extends hnone member known
      (hextends.keeps member known hknown)⟩
  -- the value is not that of another member being resolved
  refine found_cons.trans ?_
  rw [if_neg]
  · exact hfresh member (List.mem_cons_of_mem _ hmember)
  · rintro rfl
    exact (List.nodup_cons.mp hnodup).1 hmember

/-- By induction on the depth every member gets its exact value. -/
theorem resolveEnumValue_exact {depth : Nat} :
    ResolvesExactly p fuel (resolveEnumValue p fuel depth) := by
  induction depth with
  | zero =>
    intro c index _ st _ result h
    cases h
  | succ depth ih =>
    intro c index hmember st hst result h
    obtain ⟨hc, hindex⟩ := hmember
    rw [resolveEnumValue, List.getElem?_eq_getElem hindex] at h
    cases hvalue : st.value (c.name, index) with
    | some value =>
      rw [hvalue] at h
      obtain rfl := Run.done_ok.mp h
      exact ⟨hst.extends_self, hvalue, (hst.settled.resolved hc hvalue).inRange⟩
    | none =>
      rw [hvalue] at h
      dsimp only at h
      split at h
      · exact absurd h Run.refuse_ok
      next hnew =>
      obtain ⟨⟨value, left⟩, hevaluated, h⟩ := Run.bind_ok.mp h
      obtain rfl := Run.done_ok.mp h
      have hentered := hst.enter ⟨hc, hindex⟩ hnew hvalue
      -- one lemma for each of the two ways to the value
      have hresolved : (st.enter (c.name, index)).Extends p fuel left ∧
          Resolved p fuel left.value c index value := by
        cases hinitializer : c.enumMembers[index].initializer with
        | some initializer =>
          rw [hinitializer] at hevaluated
          obtain ⟨hextends, hexact, hrange, hearlier⟩ :=
            evaluateEnumExpression_exact ih hc hentered hevaluated
          refine ⟨hextends, ⟨c.enumMembers[index], List.getElem?_eq_getElem hindex, ?_⟩, hrange, ?_⟩
          · rw [hinitializer]
            exact hexact
          · intro member initializer' hmember' hinitializer'
            obtain rfl := Option.some.inj ((List.getElem?_eq_getElem hindex).symm.trans hmember')
            obtain rfl := Option.some.inj (hinitializer.symm.trans hinitializer')
            exact hearlier
        | none =>
          rw [hinitializer] at hevaluated
          obtain ⟨hextends, hrange, hexact⟩ :=
            implicitValue_exact ih ⟨hc, hindex⟩ hentered hevaluated
          refine ⟨hextends, ⟨c.enumMembers[index], List.getElem?_eq_getElem hindex, ?_⟩, hrange, ?_⟩
          · rw [hinitializer]
            exact hexact
          · intro member initializer' hmember' hinitializer'
            obtain rfl := Option.some.inj ((List.getElem?_eq_getElem hindex).symm.trans hmember')
            cases hinitializer.symm.trans hinitializer'
      refine ⟨hresolved.1.leave hst hc hresolved.2, ?_, hresolved.2.inRange⟩
      exact found_cons.trans (if_pos rfl)

theorem resolveEnumMembers_exact {indices : List Nat}
    (hindices : ∀ index ∈ indices, IsMember p (c, index)) {st : EnumState} (hst : st.Valid p fuel)
    (h : (resolveEnumMembers p fuel c indices st).outcome = some (.ok st')) :
    st.Extends p fuel st' ∧ ∀ index ∈ indices, ∃ value, st'.value (c.name, index) = some value := by
  induction indices generalizing st with
  | nil =>
    obtain rfl := Run.done_ok.mp h
    exact ⟨hst.extends_self, List.forall_mem_nil _⟩
  | cons index rest ih =>
    rw [List.forall_mem_cons] at hindices
    rw [resolveEnumMembers] at h
    obtain ⟨⟨value, between⟩, hvalue, h⟩ := Run.bind_ok.mp h
    obtain ⟨hextends, hfound, _⟩ := resolveEnumValue_exact c index hindices.1 st hst _ hvalue
    obtain ⟨hextends', hfound'⟩ := ih hindices.2 hextends.valid h
    exact ⟨hextends.trans hextends',
      List.forall_mem_cons.mpr ⟨⟨value, hextends'.keeps _ _ hfound⟩, hfound'⟩⟩

theorem resolveEnumConstants_exact (hclasses : ∀ c ∈ classes, c ∈ p.classes) {st : EnumState}
    (hst : st.Valid p fuel)
    (h : (resolveEnumConstants p fuel classes st).outcome = some (.ok st')) :
    st.Extends p fuel st' ∧
      ∀ c ∈ classes, ∀ index, index < c.enumMembers.length → ∃ value, st'.value (c.name, index) =
      some value := by
  induction classes generalizing st with
  | nil =>
    obtain rfl := Run.done_ok.mp h
    exact ⟨hst.extends_self, List.forall_mem_nil _⟩
  | cons c rest ih =>
    rw [List.forall_mem_cons] at hclasses
    rw [resolveEnumConstants] at h
    obtain ⟨between, hbetween, h⟩ := Run.bind_ok.mp h
    have hindices : ∀ index ∈ List.range c.enumMembers.length, IsMember p (c, index) :=
      fun index hindex => ⟨hclasses.1, List.mem_range.mp hindex⟩
    obtain ⟨hextends, hfound⟩ := resolveEnumMembers_exact hindices hst hbetween
    obtain ⟨hextends', hfound'⟩ := ih hclasses.2 hextends.valid h
    refine ⟨hextends.trans hextends', List.forall_mem_cons.mpr ⟨fun index hindex => ?_, hfound'⟩⟩
    obtain ⟨value, hvalue⟩ := hfound index (List.mem_range.mpr hindex)
    exact ⟨value, hextends'.keeps _ _ hvalue⟩

/-! ## Solutions -/

theorem valid_start : EnumState.Valid p fuel ⟨[], []⟩ :=
  ⟨⟨List.nodup_nil, List.nil_subset _⟩, .nil, List.forall_mem_nil _⟩

/-- An accepted program has a solution, and no reference cycle. -/
theorem resolveEnumConstants_solves (hclasses : ∀ c, c ∈ classes ↔ c ∈ p.classes) {st : EnumState}
    (h : (resolveEnumConstants p fuel classes ⟨[], []⟩).outcome = some (.ok st)) :
    NamesEarlier p fuel ∧ AcyclicReferences p fuel ∧ Solves p fuel fun member =>
    (st.value member).getD 0 := by
  obtain ⟨hextends, hfound⟩ := resolveEnumConstants_exact (fun c hc => (hclasses c).mp hc)
    valid_start h
  have hsettled := hextends.valid.settled
  have hvalues : ∀ c ∈ p.classes, ∀ index, index < c.enumMembers.length →
      ∃ value, st.value (c.name, index) = some value := fun c hc => hfound c ((hclasses c).mpr hc)
  refine ⟨?_, ?_, ?_⟩
  · intro c hc index member initializer hmember hinitializer
    obtain ⟨value, hvalue⟩ := hvalues c hc index (List.getElem?_eq_some_iff.mp hmember).1
    exact (hsettled.resolved hc hvalue).earlier member initializer hmember hinitializer
  · intro member hmember
    obtain ⟨value, hvalue⟩ := hvalues member.1 hmember.1 member.2 hmember.2
    have hacc := not_transGen_of_acc (hsettled.acc hmember hvalue)
    exact fun hcycle => hacc (transGen_swap.mpr hcycle)
  · intro c hc index hindex
    obtain ⟨value, hvalue⟩ := hvalues c hc index hindex
    dsimp only
    rw [hvalue, Option.getD_some]
    refine (hsettled.resolved hc hvalue).exact.mono fun member known hknown => ?_
    change st.value member = some known at hknown
    rw [hknown, Option.getD_some]

/-- It is the only one. -/
theorem resolveEnumConstants_value (hclasses : ∀ c, c ∈ classes ↔ c ∈ p.classes) {st : EnumState}
    (h : (resolveEnumConstants p fuel classes ⟨[], []⟩).outcome = some (.ok st))
    {values : String × Nat → Int} (hsolves : Solves p fuel values) (hc : c ∈ p.classes)
    (hindex : index < c.enumMembers.length) :
    st.value (c.name, index) = some (values (c.name, index)) := by
  obtain ⟨hextends, hfound⟩ := resolveEnumConstants_exact (fun c hc => (hclasses c).mp hc)
    valid_start h
  obtain ⟨value, hvalue⟩ := hfound c ((hclasses c).mpr hc) index hindex
  rw [hvalue, hextends.valid.settled.agrees hsolves hvalue]

end Cwhip.Semantic.Hierarchy
