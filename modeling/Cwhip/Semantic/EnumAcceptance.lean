/-
  Cwhip.Semantic.EnumAcceptance

  Which enum members are accepted: those with exact values, of which none refers
  to itself and none names a later one of its class.  The order of the classes
  makes no difference.
-/

import Cwhip.Semantic.EnumSolution

namespace Cwhip.Semantic.Hierarchy

open Cwhip.Lib Relation Filter
open Cwhip.CodeGen

variable {p : Program} {fuel : Nat} {values : String × Nat → Int}

/-! ## Members with exact values are resolved -/

/-- What is resolved is found, if there is room for the members being resolved
    and they all refer, on some way, to the member. -/
def ResolvesAll (p : Program) (fuel depth : Nat) (values : String × Nat → Int)
    (resolve : ClassDeclaration → Nat → EnumState → Run (Int × EnumState)) : Prop :=
  ∀ c index, IsMember p (c, index) → ∀ st : EnumState, st.Valid p fuel →
    p.members.length < depth + st.resolving.length →
      (∀ member ∈ st.resolving, ∃ this, IsMember p this ∧ (this.1.name, this.2) = member ∧
        TransGen (Refers p fuel) this (c, index)) →
      ∃ left, (resolve c index st).outcome = some (.ok (values (c.name, index), left))

/-- The members being resolved refer to this one or are it. -/
def EnumState.ReachedBy (p : Program) (fuel : Nat) (st : EnumState)
    (next : ClassDeclaration × Nat) : Prop :=
  ∀ member ∈ st.resolving, ∃ this, IsMember p this ∧ (this.1.name, this.2) = member ∧
    ReflTransGen (Refers p fuel) this next

theorem not_resolving_of_reaches (hacyclic : AcyclicReferences p fuel) {st : EnumState}
    {next : ClassDeclaration × Nat}
    (hnext : IsMember p next)
    (hreaches : ∀ member ∈ st.resolving, ∃ this, IsMember p this ∧ (this.1.name, this.2) = member ∧
      TransGen (Refers p fuel) this next) : (next.1.name, next.2) ∉ st.resolving := by
  intro hmem
  obtain ⟨this, hthis, hsame, hway⟩ := hreaches _ hmem
  obtain ⟨hname, hindex⟩ := Prod.mk.inj hsame
  have heq : this = next := Prod.ext (Program.eq_of_name hthis.1 hnext.1 hname) hindex
  rw [heq] at hway
  exact hacyclic next hnext hway

section

variable {depth : Nat} {resolve : ClassDeclaration → Nat → EnumState → Run (Int × EnumState)}
  {declaration : ClassDeclaration} {memberIndex : Nat} {st : EnumState}

theorem evaluateReference_found (hacyclic : AcyclicReferences p fuel)
    (hresolve : ResolvesAll p fuel depth values resolve) {target owner : ClassDeclaration}
    (htarget : target ∈ p.classes) {name : String} {index : Nat}
    (hrefers : RefersTo p fuel declaration target name owner index)
    (hreference : Refers p fuel (declaration, memberIndex) (owner, index))
    (hearlier : owner.name = declaration.name → index < memberIndex) (hst : st.Valid p fuel)
    (hroom : p.members.length < depth + st.resolving.length)
    (hreached : st.ReachedBy p fuel (declaration, memberIndex)) :
    ∃ left, (evaluateReference p fuel resolve declaration memberIndex target name st).outcome =
      some (.ok (values (owner.name, index), left)) := by
  have hmember := findEnumMember_member htarget hrefers.found
  have hreaches : ∀ member ∈ st.resolving, ∃ this, IsMember p this ∧
      (this.1.name, this.2) = member ∧
      TransGen (Refers p fuel) this (owner, index) := by
    intro member hmem
    obtain ⟨this, hthis, hsame, hway⟩ := hreached member hmem
    exact ⟨this, hthis, hsame, TransGen.tail' hway hreference⟩
  obtain ⟨left, hresolved⟩ := hresolve owner index hmember st hst hroom hreaches
  refine ⟨left, evaluateReference_ok.mpr ⟨owner, index, hrefers, ?_, ?_, hresolved⟩⟩
  · rintro ⟨hname, hlater⟩
    have hless := hearlier hname
    omega
  · exact fun h => not_resolving_of_reaches hacyclic hmember hreaches h.2

theorem evaluateEnumExpression_found (hacyclic : AcyclicReferences p fuel)
    (hresolve : ResolvesAll p fuel depth values resolve) (hexactly : ResolvesExactly p fuel resolve)
    (hdeclaration : declaration ∈ p.classes) {expression : EnumExpression} {value : Int}
    (hrefers : ∀ reference ∈ expression.references p declaration, ∀ owner index,
      RefersTo p fuel declaration reference.1 reference.2 owner index →
        Refers p fuel (declaration, memberIndex) (owner, index))
    (hearlier : EarlierReferences p fuel declaration memberIndex
    (expression.references p declaration))
    (hvalue : ExactValue p fuel (fun member => some (values member)) declaration expression value)
    (hst : st.Valid p fuel) (hroom : p.members.length < depth + st.resolving.length)
    (hreached : st.ReachedBy p fuel (declaration, memberIndex)) :
    ∃ left, (evaluateEnumExpression p fuel resolve declaration memberIndex expression st).outcome =
      some (.ok (value, left)) := by
  induction expression generalizing st value with
  | integer text => exact ⟨st, evaluateInteger_ok.mpr ⟨hvalue, rfl⟩⟩
  | identifier name =>
    obtain ⟨owner, index, hto, hvalue⟩ := hvalue
    obtain rfl := Option.some.inj hvalue
    have hmem : (declaration, name) ∈ (EnumExpression.identifier name).references p declaration :=
      List.mem_singleton_self _
    exact evaluateReference_found hacyclic hresolve hdeclaration hto
      (hrefers _ hmem owner index hto)
      (hearlier _ hmem owner index hto) hst hroom hreached
  | member path name =>
    obtain ⟨target, htarget, owner, index, hto, hvalue⟩ := hvalue
    obtain rfl := Option.some.inj hvalue
    obtain ⟨className, _, hfind⟩ := Option.bind_eq_some_iff.mp htarget
    have hmem : (target, name) ∈ (EnumExpression.member path name).references p declaration := by
      rw [EnumExpression.references, htarget]
      exact List.mem_singleton_self _
    rw [evaluateEnumExpression, htarget]
    exact evaluateReference_found hacyclic hresolve (Program.mem_of_find hfind).1 hto
      (hrefers _ hmem owner index hto) (hearlier _ hmem owner index hto) hst hroom hreached
  | unary operation left ih =>
    rw [ExactValue] at hvalue
    rw [EnumExpression.references] at hrefers hearlier
    by_cases hminimum : operation = '-' ∧ left.isMinimum = true
    · rw [if_pos hminimum] at hvalue
      rw [evaluateEnumExpression, if_pos hminimum, hvalue]
      exact ⟨st, Run.done_ok.mpr rfl⟩
    · rw [if_neg hminimum] at hvalue hrefers hearlier
      obtain ⟨operand, hoperand, hresult⟩ := hvalue
      obtain ⟨after, hevaluated⟩ := ih hrefers hearlier hoperand hst hroom hreached
      refine ⟨after, (evaluateUnary_ok hminimum).mpr ⟨operand, hevaluated, ?_⟩⟩
      rcases hresult with hplus | ⟨hminus, rfl, hfits⟩
      · exact Or.inl hplus
      · refine Or.inr ⟨hminus, rfl, ?_⟩
        rintro rfl
        exact absurd hfits (by decide)
  | binary operation left right ihLeft ihRight =>
    obtain ⟨a, b, ha, hb, hoperation, hfits, hremainder⟩ := hvalue
    rw [EnumExpression.references, List.forall_mem_append] at hrefers
    have hearlier := List.forall_mem_append.mp hearlier
    obtain ⟨between, hleft⟩ := ihLeft hrefers.1 hearlier.1 ha hst hroom hreached
    obtain ⟨hextends, _, hrange, _⟩ := evaluateEnumExpression_exact hexactly hdeclaration hst hleft
    -- the left operand leaves nothing being resolved, so the right one has as much room
    have hroom' : p.members.length < depth + between.resolving.length := by
      rw [hextends.resolving]
      exact hroom
    have hreached' : between.ReachedBy p fuel (declaration, memberIndex) := by
      unfold EnumState.ReachedBy
      rw [hextends.resolving]
      exact hreached
    obtain ⟨last, hright⟩ := ihRight hrefers.2 hearlier.2 hb hextends.valid hroom' hreached'
    exact ⟨last, evaluateBinary_ok.mpr ⟨a, between, b, hleft, hright,
      (constantOperation_iff hrange).mpr ⟨hoperation, hfits, hremainder⟩⟩⟩
  | other => exact absurd hvalue id

theorem implicitValue_found (hresolve : ResolvesAll p fuel depth values resolve)
    {c : ClassDeclaration} {index : Nat}
    (hmember : IsMember p (c, index)) {blockIndex : Nat} {value : Int}
    (hrefers : ∀ previous, previousMember c index blockIndex = some previous →
      Refers p fuel (c, index) (c, previous))
    (hvalue : match previousMember c index blockIndex with
      | none => value = 0
      | some previous => ∃ before, some (values (c.name, previous)) = some before ∧
          value = before + 1 ∧ InRange value)
    (hst : st.Valid p fuel) (hroom : p.members.length < depth + st.resolving.length)
    (hreached : st.ReachedBy p fuel (c, index)) :
    ∃ left, (implicitValue resolve c index blockIndex st).outcome = some (.ok (value, left)) := by
  unfold implicitValue
  cases hprevious : previousMember c index blockIndex with
  | none =>
    rw [hprevious] at hvalue
    exact ⟨st, Run.done_ok.mpr (congrArg (·, st) hvalue.symm)⟩
  | some previous =>
    rw [hprevious] at hvalue
    obtain ⟨before, hbefore, rfl, hfits⟩ := hvalue
    obtain rfl := Option.some.inj hbefore
    have hless := previousMember_less hprevious
    have hreaches : ∀ member ∈ st.resolving, ∃ this, IsMember p this ∧
        (this.1.name, this.2) = member ∧
        TransGen (Refers p fuel) this (c, previous) := by
      intro member hmem
      obtain ⟨this, hthis, hsame, hway⟩ := hreached member hmem
      exact ⟨this, hthis, hsame, TransGen.tail' hway (hrefers previous hprevious)⟩
    obtain ⟨left, hresolved⟩ :=
      hresolve c previous ⟨hmember.1, hless.trans hmember.2⟩ st hst hroom hreaches
    refine ⟨left, Run.bind_ok.mpr ⟨_, hresolved, ?_⟩⟩
    dsimp only
    rw [if_neg]
    · exact Run.done_ok.mpr rfl
    · intro hmax
      unfold InRange int64Max at *
      omega

end

theorem resolveEnumValue_found (hacyclic : AcyclicReferences p fuel)
    (hearlier : NamesEarlier p fuel)
    (hsolves : Solves p fuel values) {depth : Nat} :
    ResolvesAll p fuel depth values (resolveEnumValue p fuel depth) := by
  induction depth with
  | zero =>
    intro c index _ st hst hroom _
    -- there is no room for more members than there are
    have hle := (hst.proper.nodup.subperm hst.proper.members).length_le
    omega
  | succ depth ih =>
    intro c index hmember st hst hroom hreaches
    obtain ⟨hc, hindex⟩ := hmember
    have hget := List.getElem?_eq_getElem hindex
    rw [resolveEnumValue, hget]
    cases hvalue : st.value (c.name, index) with
    | some value =>
      rw [hst.settled.agrees hsolves hvalue]
      exact ⟨st, rfl⟩
    | none =>
      have hnew := not_resolving_of_reaches hacyclic ⟨hc, hindex⟩ hreaches
      have hentered := hst.enter ⟨hc, hindex⟩ hnew hvalue
      have hroom' : p.members.length < depth + (st.enter (c.name, index)).resolving.length := by
        change _ < depth + (st.resolving.length + 1)
        omega
      have hreached : (st.enter (c.name, index)).ReachedBy p fuel (c, index) := by
        refine List.forall_mem_cons.mpr ⟨⟨(c, index), ⟨hc, hindex⟩, rfl, .refl⟩,
          fun member hmem => ?_⟩
        obtain ⟨this, hthis, hsame, hway⟩ := hreaches member hmem
        exact ⟨this, hthis, hsame, hway.to_reflTransGen⟩
      obtain ⟨member, hmember, hexact⟩ := hsolves c hc index hindex
      obtain rfl := Option.some.inj (hget.symm.trans hmember)
      dsimp only
      rw [if_neg hnew]
      cases hinitializer : c.enumMembers[index].initializer with
      | some initializer =>
        rw [hinitializer] at hexact
        have hrefers : ∀ reference ∈ initializer.references p c, ∀ owner place,
            RefersTo p fuel c reference.1 reference.2 owner place →
              Refers p fuel (c, index) (owner, place) := by
          intro reference hreference owner place hto
          refine ⟨c.enumMembers[index], hget, ?_⟩
          rw [hinitializer]
          exact ⟨reference, hreference, hto⟩
        obtain ⟨left, hevaluated⟩ := evaluateEnumExpression_found hacyclic ih resolveEnumValue_exact
          hc hrefers
          (hearlier c hc index _ initializer hget hinitializer) hexact hentered hroom' hreached
        exact ⟨_, Run.bind_ok.mpr ⟨_, hevaluated, rfl⟩⟩
      | none =>
        rw [hinitializer] at hexact
        have hrefers : ∀ previous, previousMember c index c.enumMembers[index].blockIndex =
            some previous →
            Refers p fuel (c, index) (c, previous) := by
          intro previous hprevious
          refine ⟨c.enumMembers[index], hget, ?_⟩
          rw [hinitializer]
          exact ⟨rfl, hprevious⟩
        obtain ⟨left, hevaluated⟩ :=
          implicitValue_found ih ⟨hc, hindex⟩ hrefers hexact hentered hroom' hreached
        exact ⟨_, Run.bind_ok.mpr ⟨_, hevaluated, rfl⟩⟩

theorem resolveEnumMembers_found (hacyclic : AcyclicReferences p fuel)
    (hearlier : NamesEarlier p fuel)
    (hsolves : Solves p fuel values) (hroom : p.members.length < fuel) {c : ClassDeclaration}
    {indices : List Nat}
    (hindices : ∀ index ∈ indices, IsMember p (c, index)) {st : EnumState} (hst : st.Valid p fuel)
    (hnone : st.resolving = []) : ∃ st', (resolveEnumMembers p fuel c indices st).outcome =
    some (.ok st') := by
  induction indices generalizing st with
  | nil => exact ⟨st, rfl⟩
  | cons index rest ih =>
    rw [List.forall_mem_cons] at hindices
    have hreaches : ∀ member ∈ st.resolving, ∃ this, IsMember p this ∧
        (this.1.name, this.2) = member ∧
        TransGen (Refers p fuel) this (c, index) := by
      rw [hnone]
      exact List.forall_mem_nil _
    obtain ⟨left, hresolved⟩ := resolveEnumValue_found hacyclic hearlier hsolves c index
      hindices.1 st hst (by rw [hnone]; exact hroom) hreaches
    obtain ⟨hextends, _⟩ := resolveEnumValue_exact c index hindices.1 st hst _ hresolved
    obtain ⟨st', hrest⟩ := ih hindices.2 hextends.valid (hextends.resolving.trans hnone)
    exact ⟨st', Run.bind_ok.mpr ⟨_, hresolved, hrest⟩⟩

theorem resolveEnumConstants_found (hacyclic : AcyclicReferences p fuel)
    (hearlier : NamesEarlier p fuel)
    (hsolves : Solves p fuel values) (hroom : p.members.length < fuel)
    {classes : List ClassDeclaration}
    (hclasses : ∀ c ∈ classes, c ∈ p.classes) {st : EnumState} (hst : st.Valid p fuel)
    (hnone : st.resolving = []) :
    ∃ st', (resolveEnumConstants p fuel classes st).outcome = some (.ok st') := by
  induction classes generalizing st with
  | nil => exact ⟨st, rfl⟩
  | cons c rest ih =>
    rw [List.forall_mem_cons] at hclasses
    have hindices : ∀ index ∈ List.range c.enumMembers.length, IsMember p (c, index) :=
      fun index hindex => ⟨hclasses.1, List.mem_range.mp hindex⟩
    obtain ⟨between, hbetween⟩ := resolveEnumMembers_found hacyclic hearlier hsolves hroom
      hindices hst hnone
    obtain ⟨hextends, _⟩ := resolveEnumMembers_exact hindices hst hbetween
    obtain ⟨st', hrest⟩ := ih hclasses.2 hextends.valid (hextends.resolving.trans hnone)
    exact ⟨st', Run.bind_ok.mpr ⟨_, hbetween, hrest⟩⟩

theorem resolveEnumConstants_accepts {classes : List ClassDeclaration}
    (hclasses : ∀ c, c ∈ classes ↔ c ∈ p.classes)
    (hroom : p.members.length < fuel) :
    (∃ st, (resolveEnumConstants p fuel classes ⟨[], []⟩).outcome = some (.ok st)) ↔
      NamesEarlier p fuel ∧ AcyclicReferences p fuel ∧ ∃ values, Solves p fuel values := by
  constructor
  · rintro ⟨st, h⟩
    obtain ⟨hearlier, hacyclic, hsolves⟩ := resolveEnumConstants_solves hclasses h
    exact ⟨hearlier, hacyclic, _, hsolves⟩
  · rintro ⟨hearlier, hacyclic, values, hsolves⟩
    exact resolveEnumConstants_found hacyclic hearlier hsolves hroom (fun c hc =>
      (hclasses c).mp hc) valid_start rfl

/-! ## The order of the classes -/

section

variable {p' : Program}

theorem find_eq_some {name : String} {c : ClassDeclaration} :
    p.find name = some c ↔ c ∈ p.classes ∧ c.name = name := by
  constructor
  · exact Program.mem_of_find
  · rintro ⟨hc, rfl⟩
    exact Program.find_self hc

theorem find_of_perm (h : p'.classes.Perm p.classes) : p'.find = p.find := by
  funext name
  ext c
  rw [find_eq_some, find_eq_some, h.mem_iff]

theorem baseClasses_of_find (h : p'.find = p.find) : p'.baseClasses = p.baseClasses := by
  funext c
  unfold Program.baseClasses
  rw [h]

theorem subclassLoop_of_find (h : p'.find = p.find) (base : String) (fuel : Nat)
    (visited : List String) (pending : List ClassDeclaration) :
    subclassLoop p' base fuel visited pending = subclassLoop p base fuel visited pending := by
  induction fuel generalizing visited pending with
  | zero => rfl
  | succ fuel ih =>
    cases pending with
    | nil => rfl
    | cons current pending => rw [subclassLoop, subclassLoop, baseClasses_of_find h, ih, ih]

theorem admits_of_find (h : p'.find = p.find) (fuel : Nat) : admits p' fuel = admits p fuel := by
  have hsubclass : isSubclassOf p' fuel = isSubclassOf p fuel := by
    funext type base
    unfold isSubclassOf
    rw [h]
    simp only [subclassLoop_of_find h]
  funext currentClass r
  unfold admits
  rw [hsubclass]

theorem edgeAccessible_of_find (h : p'.find = p.find) (fuel : Nat) :
    edgeAccessible p' fuel = edgeAccessible p fuel := by
  unfold edgeAccessible
  rw [admits_of_find h]

theorem memberAccessible_of_find (h : p'.find = p.find) (fuel : Nat) :
    memberAccessible p' fuel = memberAccessible p fuel := by
  have hdeclaration : declarationAccessible p' fuel = declarationAccessible p fuel := by
    unfold declarationAccessible
    rw [admits_of_find h]
  unfold memberAccessible accessibleBody
  rw [hdeclaration, baseClasses_of_find h]

theorem countVisit_of_find (h : p'.find = p.find) : countVisit p' = countVisit p := by
  unfold countVisit countBody
  rw [baseClasses_of_find h]

theorem findEnumMember_of_find (h : p'.find = p.find) (fuel : Nat) :
    findEnumMember p' fuel = findEnumMember p fuel := by
  have hedge : enumEdge p' fuel = enumEdge p fuel := by
    unfold enumEdge
    rw [edgeAccessible_of_find h, memberAccessible_of_find h]
  unfold findEnumMember enumBody
  rw [hedge, baseClasses_of_find h]

theorem evaluateReference_of_find (h : p'.find = p.find) (fuel : Nat) :
    evaluateReference p' fuel = evaluateReference p fuel := by
  have hcount : countEnumMembers p' fuel = countEnumMembers p fuel := by
    unfold countEnumMembers
    rw [countVisit_of_find h]
  have haccessible : accessibleMemberCount p' fuel = accessibleMemberCount p fuel := by
    unfold accessibleMemberCount accessibleOwn
    rw [countVisit_of_find h, edgeAccessible_of_find h, memberAccessible_of_find h]
  unfold evaluateReference
  rw [hcount, haccessible, memberAccessible_of_find h, findEnumMember_of_find h]

theorem resolveEnumValue_of_find (h : p'.find = p.find) (fuel depth : Nat) :
    resolveEnumValue p' fuel depth = resolveEnumValue p fuel depth := by
  have hexpression : ∀ resolve declaration memberIndex expression st,
      evaluateEnumExpression p' fuel resolve declaration memberIndex expression st =
        evaluateEnumExpression p fuel resolve declaration memberIndex expression st := by
    intro resolve declaration memberIndex expression
    induction expression with
    | integer text => exact fun _ => rfl
    | identifier name =>
      intro st
      rw [evaluateEnumExpression, evaluateEnumExpression, evaluateReference_of_find h]
    | member path name =>
      intro st
      rw [evaluateEnumExpression, evaluateEnumExpression, h, evaluateReference_of_find h]
    | unary operation left ih =>
      intro st
      rw [evaluateEnumExpression, evaluateEnumExpression, ih]
    | binary operation left right ihLeft ihRight =>
      intro st
      rw [evaluateEnumExpression, evaluateEnumExpression, ihLeft]
      simp only [ihRight]
    | other => exact fun _ => rfl
  induction depth with
  | zero => rfl
  | succ depth ih =>
    funext c index st
    rw [resolveEnumValue, resolveEnumValue, ih]
    simp only [hexpression]

theorem resolveEnumConstants_of_find (h : p'.find = p.find) (fuel : Nat)
    (classes : List ClassDeclaration)
    (st : EnumState) : resolveEnumConstants p' fuel classes st = resolveEnumConstants p fuel
    classes st := by
  have hmembers : ∀ c indices st, resolveEnumMembers p' fuel c indices st =
      resolveEnumMembers p fuel c indices st := by
    intro c indices
    induction indices with
    | nil => exact fun _ => rfl
    | cons index rest ih =>
      intro st
      rw [resolveEnumMembers, resolveEnumMembers, resolveEnumValue_of_find h]
      simp only [ih]
  induction classes generalizing st with
  | nil => rfl
  | cons c rest ih =>
    rw [resolveEnumConstants, resolveEnumConstants, hmembers]
    simp only [ih]

end

/-! ## Evaluation -/

/-- The values of the enum members of a program. -/
def enumConstants (p : Program) (fuel : Nat) : Option (Except String EnumState) :=
  (resolveEnumConstants p fuel p.classes ⟨[], []⟩).outcome

/-- The evaluation ends, accepts what has exact values, none of it referring to
    itself or within its class to a later member, and finds these values; in
    another order of the classes it accepts the same and finds the same. -/
structure EvaluatesExactly (p : Program) (fuel : Nat) : Prop where
  ends : (enumConstants p fuel).isSome
  accepts : (∃ st, enumConstants p fuel = some (.ok st)) ↔
    NamesEarlier p fuel ∧ AcyclicReferences p fuel ∧ ∃ values, Solves p fuel values
  exact : ∀ st, enumConstants p fuel = some (.ok st) → ∃ values, Solves p fuel values ∧
    ∀ c ∈ p.classes, ∀ index, index < c.enumMembers.length →
      st.value (c.name, index) = some (values (c.name, index))
  unique : ∀ values values', Solves p fuel values → Solves p fuel values' → NamesEarlier p fuel →
    AcyclicReferences p fuel → ∀ c ∈ p.classes, ∀ index, index < c.enumMembers.length →
      values (c.name, index) = values' (c.name, index)
  order : ∀ p' : Program, p'.classes.Perm p.classes →
    ((∃ st, enumConstants p' fuel = some (.ok st)) ↔ ∃ st, enumConstants p fuel = some (.ok st)) ∧
      ∀ st st', enumConstants p fuel = some (.ok st) → enumConstants p' fuel = some (.ok st') →
        ∀ c ∈ p.classes, ∀ index, index < c.enumMembers.length →
          st'.value (c.name, index) = st.value (c.name, index)

/-- Enum members are evaluated exactly, in a program without a cycle of
    inheritance: the checks before have refused the others
    (`acyclic_of_validated`). -/
theorem eventually_evaluatesExactly (p : Program)
    (hacyclic : ∀ c ∈ p.classes, ¬ LeadsToCycle p.Inherits c) :
    ∀ᶠ fuel in atTop, EvaluatesExactly p fuel := by
  filter_upwards [eventually_enoughFuel hacyclic, eventually_gt_atTop p.members.length] with fuel
    henough hroom
  have hself : ∀ c, c ∈ p.classes ↔ c ∈ p.classes := fun _ => Iff.rfl
  have haccepts := resolveEnumConstants_accepts hself hroom
  have hvalue : ∀ values st, Solves p fuel values → enumConstants p fuel = some (.ok st) →
      ∀ c ∈ p.classes, ∀ index, index < c.enumMembers.length →
        st.value (c.name, index) = some (values (c.name, index)) :=
    fun values st hsolves hst c hc index hindex =>
      resolveEnumConstants_value hself hst hsolves hc hindex
  refine ⟨?_, haccepts, ?_, ?_, ?_⟩
  · exact (resolveEnumConstants_sound (List.Subset.refl p.classes) rfl).ends ⟨henough, hroom⟩
  · intro st hst
    obtain ⟨_, _, hsolves⟩ := resolveEnumConstants_solves hself hst
    exact ⟨_, hsolves, hvalue _ st hsolves hst⟩
  · intro values values' hsolves hsolves' hearlier hreferences c hc index hindex
    obtain ⟨st, hst⟩ := haccepts.mpr ⟨hearlier, hreferences, values, hsolves⟩
    have hfirst := hvalue values st hsolves hst c hc index hindex
    have hsecond := hvalue values' st hsolves' hst c hc index hindex
    exact Option.some.inj (hfirst.symm.trans hsecond)
  · intro p' hperm
    have hmem : ∀ c, c ∈ p'.classes ↔ c ∈ p.classes := fun _ => hperm.mem_iff
    -- only the order in which the classes are gone through is another one
    have hsame : enumConstants p' fuel = (resolveEnumConstants p fuel p'.classes ⟨[],
        []⟩).outcome :=
      congrArg Run.outcome (resolveEnumConstants_of_find (find_of_perm hperm) fuel p'.classes ⟨[],
        []⟩)
    rw [hsame]
    refine ⟨(resolveEnumConstants_accepts hmem hroom).trans haccepts.symm, ?_⟩
    intro st st' hst hst' c hc index hindex
    obtain ⟨_, _, hsolves⟩ := resolveEnumConstants_solves hself hst
    rw [hvalue _ st hsolves hst c hc index hindex,
      resolveEnumConstants_value hmem hst' hsolves hc hindex]

theorem acyclic_of_no_bases (h : ∀ c ∈ p.classes, c.bases = []) : ∀ c ∈ p.classes,
    ¬ LeadsToCycle p.Inherits c := by
  intro c hc hcycle
  have hnone : ∀ d, ¬ p.Inherits c d := by
    rintro d ⟨base, hbase, _⟩
    unfold Program.baseClasses at hbase
    rw [h c hc] at hbase
    cases hbase
  rcases leadsToCycle_iff.mp hcycle with hself | ⟨d, hedge, _⟩
  · obtain ⟨d, hedge, _⟩ := TransGen.head'_iff.mp hself
    exact hnone d hedge
  · exact hnone d hedge

/-- `class A { enum { X = B.Z + 1, Y } }`, `class B { enum { Z = 3, W = A.Y } }` -/
def crossing : Program where
  classes :=
    [⟨"A", [], [], [⟨"X", .publicAccess, 0,
        some (.binary "+" (.member (some "B") "Z") (.integer "1"))⟩,
        ⟨"Y", .publicAccess, 0, none⟩], []⟩,
      ⟨"B", [], [], [⟨"Z", .publicAccess, 0, some (.integer "3")⟩,
        ⟨"W", .publicAccess, 0, some (.member (some "A") "Y")⟩], []⟩]
  methodDefinitions := []
  uniqueNames := by decide
  resolved := by decide

theorem crossing_evaluatesExactly :
    (∀ᶠ fuel in atTop, EvaluatesExactly crossing fuel) ∧
      ((enumConstants crossing 5).map fun result => result.toOption.map EnumState.values) =
        some (some [(("B", 1), 5), (("A", 1), 5), (("A", 0), 4), (("B", 0), 3)]) :=
  ⟨eventually_evaluatesExactly crossing (acyclic_of_no_bases (by decide)), by decide⟩

/-! ## A later member -/

/-- `class C { enum { A = B, B = 1 } }` -/
def laterClass : ClassDeclaration where
  name := "C"
  bases := []
  fields := []
  enumMembers := [⟨"A", .publicAccess, 0, some (.identifier "B")⟩,
    ⟨"B", .publicAccess, 0, some (.integer "1")⟩]
  methods := []

def laterMember : Program where
  classes := [laterClass]
  methodDefinitions := []
  uniqueNames := by decide
  resolved := by decide

theorem laterMember_refersTo (fuel : Nat) : RefersTo laterMember (fuel + 1) laterClass laterClass
    "B" laterClass 1 where
  count := rfl
  accessible := rfl
  reached := rfl
  found := rfl

theorem laterMember_refers {fuel : Nat} {this next : ClassDeclaration × Nat}
    (hthis : IsMember laterMember this)
    (h : Refers laterMember (fuel + 1) this next) : this.2 < next.2 := by
  obtain ⟨c, index⟩ := this
  obtain rfl := List.mem_singleton.mp hthis.1
  obtain ⟨member, hmember, h⟩ := h
  match index with
  | 0 =>
    obtain rfl := Option.some.inj hmember
    obtain ⟨reference, hreference, hrefers⟩ := h
    rw [List.mem_singleton.mp hreference] at hrefers
    obtain ⟨_, hplace⟩ := (laterMember_refersTo fuel).unique hrefers
    show 0 < next.2
    omega
  | 1 =>
    obtain rfl := Option.some.inj hmember
    obtain ⟨reference, hreference, _⟩ := h
    cases hreference
  | index + 2 => cases hmember

/-- Both members have exact values and none refers to itself, but the first names
    the second. -/
theorem laterMember_refused :
    (∀ᶠ fuel in atTop, AcyclicReferences laterMember fuel ∧
      ∃ values, Solves laterMember fuel values) ∧
      ∀ fuel st, enumConstants laterMember fuel ≠ some (.ok st) := by
  constructor
  · filter_upwards [eventually_ge_atTop 1] with fuel hfuel
    obtain ⟨fuel, rfl⟩ := Nat.exists_eq_add_of_le' hfuel
    constructor
    · intro member hmember hcycle
      have hless : ∀ next, TransGen (Refers laterMember (fuel + 1)) member next →
          IsMember laterMember next ∧ member.2 < next.2 := by
        intro next hway
        induction hway with
        | single hrefers => exact ⟨hrefers.isMember hmember, laterMember_refers hmember hrefers⟩
        | tail _ hrefers ih =>
          exact ⟨hrefers.isMember ih.1, ih.2.trans (laterMember_refers ih.1 hrefers)⟩
      exact Nat.lt_irrefl _ (hless member hcycle).2
    · refine ⟨fun _ => 1, fun c hc index hindex => ?_⟩
      obtain rfl := List.mem_singleton.mp hc
      match index with
      | 0 => exact ⟨_, rfl, laterClass, 1, laterMember_refersTo fuel, rfl⟩
      | 1 =>
        have hone : Literals.mathValue (.integer "1".toList) = some 1 ∧ InRange 1 := by decide
        exact ⟨_, rfl, hone⟩
      | index + 2 => exact absurd hindex (by simp [laterClass])
  · intro fuel st hst
    obtain ⟨hearlier, _⟩ := resolveEnumConstants_solves (fun _ => Iff.rfl) hst
    match fuel with
    | 0 => cases hst
    | fuel + 1 =>
      have hless := hearlier laterClass (List.mem_singleton_self _) 0 _ _ rfl rfl _
        (List.mem_singleton_self _) laterClass 1 (laterMember_refersTo fuel) rfl
      omega

end Cwhip.Semantic.Hierarchy
