/-
  Cwhip.Semantic.EnumValues

  The values of enum members, in a program without a cycle of inheritance: the
  evaluation ends, and searches classes of the program only.

  A member that is being resolved is refused, so the members being resolved are
  distinct and there are no more of them than members.
-/

import Cwhip.Semantic.SearchesEnd

namespace Cwhip.Semantic.Hierarchy

open Cwhip.Lib Relation Filter

variable {p : Program}

/-! ## Access -/

/-- The edges of the classes that `isSubclassOf` has not visited. -/
def remainingEdges (visited : List String) : List ClassDeclaration → Nat
  | [] => 0
  | c :: rest =>
    (if c.name ∈ visited then 0 else (p.baseClasses c).length) + remainingEdges visited rest

theorem remainingEdges_le (name : String) (visited : List String)
    (classes : List ClassDeclaration) :
    remainingEdges (p := p) (name :: visited) classes ≤ remainingEdges
    (p := p) visited classes := by
  induction classes with
  | nil => exact Nat.le_refl _
  | cons c rest ih =>
    rw [remainingEdges, remainingEdges]
    refine Nat.add_le_add ?_ ih
    by_cases hvisited : c.name ∈ visited
    · rw [if_pos (List.mem_cons_of_mem _ hvisited)]
      exact Nat.zero_le _
    · rw [if_neg hvisited]
      split
      · exact Nat.zero_le _
      · exact Nat.le_refl _

variable {c : ClassDeclaration} {st st' : EnumState}

variable {visited : List String} {classes : List ClassDeclaration} {currentClass : ClassDeclaration}
  {name : String}
  {visit : ClassDeclaration → List String → Option (Option (ClassDeclaration × Nat) × List String)}
  {follow : Base × ClassDeclaration → Option Bool} {bases : List (Base × ClassDeclaration)}
  {member : ClassDeclaration × Nat}

/-- Visiting a class uses up the edges to its bases. -/
theorem remainingEdges_visit (hc : c ∈ classes) (hvisited : c.name ∉ visited) :
    (p.baseClasses c).length + remainingEdges (p := p) (c.name :: visited) classes ≤
      remainingEdges (p := p) visited classes := by
  induction classes with
  | nil => cases hc
  | cons first rest ih =>
    rw [remainingEdges, remainingEdges]
    rcases List.mem_cons.mp hc with rfl | hrest
    · rw [if_pos List.mem_cons_self, if_neg hvisited]
      have hle := remainingEdges_le (p := p) c.name visited rest
      omega
    · have hle := ih hrest
      by_cases hfirst : first.name ∈ visited
      · rw [if_pos hfirst, if_pos (List.mem_cons_of_mem _ hfirst)]
        omega
      · rw [if_neg hfirst]
        split
        · omega
        · omega

/-- The loop follows each edge of the hierarchy once. -/
theorem subclassLoop_ends {base : String} {fuel : Nat} {pending : List ClassDeclaration}
    (hpending : ∀ c ∈ pending, c ∈ p.classes)
    (hfuel : pending.length + remainingEdges (p := p) visited p.classes < fuel) :
    (subclassLoop p base fuel visited pending).isSome := by
  induction fuel generalizing visited pending with
  | zero => omega
  | succ fuel ih =>
    cases pending with
    | nil => rfl
    | cons current pending =>
      rw [List.forall_mem_cons] at hpending
      rw [List.length_cons] at hfuel
      rw [subclassLoop]
      split
      · exact ih hpending.2 (by omega)
      · next hvisited =>
        split
        · rfl
        · have hvisit := remainingEdges_visit (p := p) hpending.1 hvisited
          refine ih ?_ ?_
          · intro c hc
            rcases List.mem_append.mp hc with hc | hc
            · obtain ⟨edge, hedge, rfl⟩ := List.mem_map.mp (List.mem_reverse.mp hc)
              exact (Program.base_mem hedge).1
            · exact hpending.2 c hc
          · rw [List.length_append, List.length_reverse, List.length_map]
            omega

theorem isSubclassOf_ends {fuel : Nat} (hfuel : 1 + remainingEdges (p := p) [] p.classes < fuel)
    (type base : String) : (isSubclassOf p fuel type base).isSome := by
  unfold isSubclassOf
  split
  · rfl
  · next c hfind =>
    split
    · rfl
    · refine subclassLoop_ends ?_ hfuel
      intro d hd
      rw [List.mem_singleton.mp hd]
      exact (Program.mem_of_find hfind).1

theorem admits_ends {fuel : Nat} (hfuel : 1 + remainingEdges (p := p) [] p.classes < fuel)
    (currentClass : ClassDeclaration) (r : Inheritance.Restriction String) :
        (admits p fuel currentClass r).isSome := by
  unfold admits
  split
  · rfl
  · rfl
  · split
    · rfl
    · exact isSubclassOf_ends hfuel _ _

theorem accessibleBody_returns {fuel : Nat}
    (hfuel : 1 + remainingEdges (p := p) [] p.classes < fuel) :
    ReturnsBelow p.Declares p.below (accessibleBody p fuel currentClass name) := by
  intro visit c hc hvisit path
  have hloop : ∀ bases : List (Base × ClassDeclaration),
      (∀ base ∈ bases, ∀ s, (visit base.2 s).isSome) →
      (accessibleBases visit c.name path bases).isSome := by
    intro bases
    induction bases with
    | nil => exact fun _ => rfl
    | cons base rest ih =>
      intro hbases
      rw [List.forall_mem_cons] at hbases
      refine isSome_andThen (hbases.1 _) fun found _ => ?_
      split
      · rfl
      · exact ih hbases.2
  unfold accessibleBody
  split
  · refine isSome_andThen (admits_ends hfuel _ _) fun declared _ => ?_
    split
    · rfl
    · exact admits_ends hfuel _ _
  · exact hloop _ fun base hbase => hvisit _ (List.mem_map_of_mem hbase)

/-! ## Enough fuel -/

theorem enumBases_isSome (hfollow : ∀ base ∈ bases, (follow base).isSome)
    (hvisit : ∀ base ∈ bases, ∀ s, (visit base.2 s).isSome)
    (result : Option (ClassDeclaration × Nat)) (seenVirtual : List String) :
    (enumBases visit follow bases result seenVirtual).isSome := by
  induction bases generalizing result seenVirtual with
  | nil => rfl
  | cons base rest ih =>
    rw [List.forall_mem_cons] at hfollow hvisit
    refine isSome_andThen hfollow.1 fun followed _ => ?_
    split
    · exact ih hfollow.2 hvisit.2 _ _
    · refine isSome_andThen (hvisit.1 _) fun found _ => ?_
      obtain ⟨candidate, seen⟩ := found
      dsimp only
      split
      · exact ih hfollow.2 hvisit.2 _ _
      · rfl
      · exact ih hfollow.2 hvisit.2 _ _

/-- The searches of the evaluation return. -/
structure EnoughFuel (p : Program) (fuel : Nat) : Prop where
  counted : ∀ c ∈ p.classes, ∀ name, (countEnumMembers p fuel c name).isSome
  accessible : ∀ currentClass, ∀ c ∈ p.classes, ∀ name,
    (accessibleMemberCount p fuel currentClass c name).isSome
  reached : ∀ currentClass, ∀ c ∈ p.classes, ∀ name,
    (memberAccessible p fuel currentClass c name).isSome
  found : ∀ currentClass, ∀ c ∈ p.classes, ∀ name,
    (findEnumMember p fuel currentClass c name).isSome

/-- Without cycles every search through the bases ends, with enough fuel. -/
theorem eventually_ends {σ β : Type} (hacyclic : ∀ c ∈ p.classes, ¬ LeadsToCycle p.Inherits c) :
    ∀ᶠ fuel in atTop, ∀ c ∈ p.classes,
      ∀ body : (ClassDeclaration → σ → Option β) → ClassDeclaration → σ → Option β,
        ReturnsBelow p.Declares p.below body → ∀ s, (fueled body fuel c s).isSome :=
  (eventually_all_finite p.classes.finite_toSet).mpr fun c hc =>
    Program.search_ends hc (hacyclic c hc)

/-- Some fuel is enough for all searches of a program. -/
theorem eventually_enoughFuel (hacyclic : ∀ c ∈ p.classes, ¬ LeadsToCycle p.Inherits c) :
    ∀ᶠ fuel in atTop, EnoughFuel p fuel := by
  filter_upwards [eventually_ends (σ := List String) (β := Nat × List String) hacyclic,
    eventually_ends (σ := Edges) (β := Bool) hacyclic,
    eventually_ends (σ := List String)
      (β := Option (ClassDeclaration × Nat) × List String) hacyclic,
    eventually_gt_atTop (1 + remainingEdges (p := p) [] p.classes)] with fuel hcount haccess hfound
      hfuel
  have hreached : ∀ currentClass, ∀ c ∈ p.classes, ∀ name,
      (memberAccessible p fuel currentClass c name).isSome :=
    fun currentClass c hc name => haccess c hc _ (accessibleBody_returns hfuel) []
  have hedge : ∀ currentClass owner base, (edgeAccessible p fuel currentClass owner base).isSome :=
    fun _ _ _ => admits_ends hfuel _ _
  refine ⟨?_, ?_, hreached, ?_⟩
  · intro c hc name
    simpa [countEnumMembers, countVisit] using hcount c hc _ nonzero_returns []
  · intro currentClass c hc name
    have hreturns : ReturnsBelow p.Declares p.below
        (countBody p (fun current base => edgeAccessible p fuel currentClass current base.1)
          (accessibleOwn p fuel currentClass name)) := by
      refine countBody_returns (fun d hd => ?_) fun _ _ _ _ => hedge _ _ _
      unfold accessibleOwn
      split
      · simpa using hreached currentClass d hd name
      · rfl
    simpa [accessibleMemberCount, countVisit] using hcount c hc _ hreturns []
  · intro currentClass c hc name
    have hreturns : ReturnsBelow p.Declares p.below (enumBody p fuel currentClass name) := by
      intro visit d hd hvisit seenVirtual
      unfold enumBody
      split
      · rfl
      · refine enumBases_isSome (fun base hbase => ?_)
          (fun base hbase => hvisit _ (List.mem_map_of_mem hbase)) _ _
        refine isSome_andThen (hedge _ _ _) fun accessible _ => ?_
        split
        · rfl
        · exact hreached _ _ (Program.base_mem hbase).1 _
    simpa [findEnumMember] using hfound c hc _ hreturns []

/-! ## Evaluation -/

/-- The run searches classes of the program, ends if `enough` says that there is
    enough fuel, and has such results. -/
structure Run.Sound {α : Type} (p : Program) (enough : Prop) (result : α → Prop) (run : Run α) :
    Prop where
  searched : ∀ c ∈ run.searched, c ∈ p.classes
  ends : enough → run.outcome.isSome
  result : ∀ a, run.outcome = some (.ok a) → result a

namespace Run.Sound

variable {α β : Type} {enough : Prop} {result : α → Prop} {result' : β → Prop}

theorem done {a : α} (h : result a) : Run.Sound p enough result (.done a) where
  searched := by simp [Run.done]
  ends _ := rfl
  result a' h' := by
    obtain rfl : a = a' := Except.ok.inj (Option.some.inj h')
    exact h

theorem refuse (message : String) : Run.Sound p enough result (.refuse message) where
  searched := by simp [Run.refuse]
  ends _ := rfl
  result _ h' := nomatch (Option.some.inj h' : Except.error message = Except.ok _)

variable {found : Option α} {next : α → Run β}

theorem search {c : ClassDeclaration} (hc : c ∈ p.classes) (hends : enough → found.isSome)
    (hfound : ∀ a, found = some a → result a) : Run.Sound p enough result (.search c found) where
  searched d hd := by
    rw [List.mem_singleton.mp hd]
    exact hc
  ends h := by simpa [Run.search] using hends h
  result a h := by
    obtain ⟨a', hfound', hok⟩ := Option.map_eq_some_iff.mp h
    rw [← Except.ok.inj hok]
    exact hfound a' hfound'

theorem mono {enough' : Prop} {run : Run α} (henough : enough' → enough)
    (h : Run.Sound p enough result run) : Run.Sound p enough' result run :=
  ⟨h.searched, fun henough' => h.ends (henough henough'), h.result⟩

/-- A sound run may go on in any sound way. -/
theorem andThen {run : Run α} (h : Run.Sound p enough result run)
    (hnext : ∀ a, result a → Run.Sound p enough result' (next a)) :
    Run.Sound p enough result' (run.andThen next) := by
  unfold Run.andThen
  cases houtcome : run.outcome with
  | none =>
    exact ⟨h.searched, fun henough => by simpa [houtcome] using h.ends henough, fun _ hnone =>
      nomatch hnone⟩
  | some outcome =>
    cases outcome with
    | error message =>
      exact ⟨h.searched, fun _ => rfl, fun _ herror => nomatch (Option.some.inj herror)⟩
    | ok a =>
      have hrest := hnext a (h.result a houtcome)
      refine ⟨fun c hc => ?_, hrest.ends, hrest.result⟩
      rcases List.mem_append.mp hc with hc | hc
      · exact h.searched c hc
      · exact hrest.searched c hc

theorem searchThen {c : ClassDeclaration} (hc : c ∈ p.classes) (hends : enough → found.isSome)
    (hnext : ∀ a, found = some a → Run.Sound p enough result' (next a)) :
    Run.Sound p enough result' ((Run.search c found).andThen next) :=
  (search hc hends fun _ ha => ha : Run.Sound p enough (fun a => found = some a) _).andThen hnext

end Run.Sound

def IsMember (p : Program) (member : ClassDeclaration × Nat) : Prop :=
  member.1 ∈ p.classes ∧ member.2 < member.1.enumMembers.length

theorem enumBases_member
    (hvisit : ∀ base ∈ bases, ∀ s member s', visit base.2 s = some (some member, s') →
    IsMember p member)
    {result : Option (ClassDeclaration × Nat)}
    (hresult : ∀ member, result = some member → IsMember p member) {seenVirtual : List String}
    {seen : List String}
    (h : enumBases visit follow bases result seenVirtual = some (some member, seen)) :
    IsMember p member := by
  induction bases generalizing result seenVirtual with
  | nil => exact hresult member (congrArg Prod.fst (Option.some.inj h))
  | cons base rest ih =>
    rw [List.forall_mem_cons] at hvisit
    simp only [enumBases, Option.bind_eq_bind] at h
    obtain ⟨followed, _, h⟩ := Option.bind_eq_some_iff.mp h
    split at h
    · exact ih hvisit.2 hresult h
    · obtain ⟨⟨candidate, seen'⟩, hcandidate, h⟩ := Option.bind_eq_some_iff.mp h
      dsimp only at h
      split at h
      · exact ih hvisit.2 hresult h
      · cases h
      · next found =>
        refine ih hvisit.2 (fun member hmember => ?_) h
        rw [← Option.some.inj hmember]
        exact hvisit.1 _ _ _ hcandidate

/-- What is found is a member of the program. -/
theorem findEnumMember_member {fuel : Nat} (hc : c ∈ p.classes)
    (h : findEnumMember p fuel currentClass c name = some (some member)) : IsMember p member := by
  have hfueled : ∀ depth c s member s', c ∈ p.classes →
      fueled (enumBody p fuel currentClass name) depth c s = some (some member, s') →
          IsMember p member := by
    intro depth
    induction depth with
    | zero =>
      intro c s member s' _ h
      cases h
    | succ depth ih =>
      intro c s member s' hc h
      rw [fueled, enumBody] at h
      split at h
      · next index hindex =>
        obtain rfl := Option.some.inj (congrArg Prod.fst (Option.some.inj h))
        obtain ⟨hless, _⟩ := List.findIdx?_eq_some_iff_getElem.mp hindex
        exact ⟨hc, hless⟩
      · have hnone : ∀ member, (none : Option (ClassDeclaration × Nat)) = some member →
            IsMember p member := by
          rintro _ ⟨⟩
        exact enumBases_member
          (fun base hbase s member s' => ih base.2 s member s' (Program.base_mem hbase).1) hnone h
  obtain ⟨⟨found, seen⟩, hfound, rfl⟩ := Option.map_eq_some_iff.mp h
  exact hfueled fuel c [] member seen hc hfound

/-- The members of the program, by the names of their classes. -/
def Program.members (p : Program) : List (String × Nat) :=
  p.classes.flatMap fun c => (List.range c.enumMembers.length).map fun index => (c.name, index)

theorem IsMember.mem {index : Nat} (h : IsMember p (c, index)) :
    (c.name, index) ∈ p.members :=
  List.mem_flatMap.mpr ⟨c, h.1, List.mem_map.mpr ⟨index, List.mem_range.mpr h.2, rfl⟩⟩

/-- The members being resolved are distinct members of the program. -/
structure EnumState.Proper (p : Program) (st : EnumState) : Prop where
  nodup : st.resolving.Nodup
  members : st.resolving ⊆ p.members

/-- Enough for the searches, and for the members that are not being resolved. -/
def EnoughDepth (p : Program) (fuel depth : Nat) (st : EnumState) : Prop :=
  EnoughFuel p fuel ∧ p.members.length < depth + st.resolving.length

/-- A member is resolved, and those being resolved stay the same. -/
def Resolves (p : Program) (fuel depth : Nat)
    (resolve : ClassDeclaration → Nat → EnumState → Run (Int × EnumState)) : Prop :=
  ∀ c ∈ p.classes, ∀ index st, st.Proper p →
    Run.Sound p (EnoughDepth p fuel depth st) (fun result => result.2.resolving = st.resolving)
      (resolve c index st)

theorem EnumState.Proper.of_eq (h : st.Proper p) (heq : st'.resolving = st.resolving) :
    st'.Proper p :=
  ⟨heq ▸ h.nodup, heq ▸ h.members⟩

theorem EnoughDepth.of_eq {fuel depth : Nat} (heq : st'.resolving = st.resolving)
    (h : EnoughDepth p fuel depth st) : EnoughDepth p fuel depth st' := by
  unfold EnoughDepth at h ⊢
  rw [heq]
  exact h

theorem Run.Sound.of_eq {fuel depth : Nat} (heq : st'.resolving = st.resolving)
    {run : Run (Int × EnumState)}
    (h : Run.Sound p (EnoughDepth p fuel depth st') (fun result => result.2.resolving =
    st'.resolving) run) :
    Run.Sound p (EnoughDepth p fuel depth st)
    (fun result => result.2.resolving = st.resolving) run :=
  ⟨h.searched, fun henough => h.ends (henough.of_eq heq), fun a ha => (h.result a ha).trans heq⟩

section

variable {fuel depth : Nat} {resolve : ClassDeclaration → Nat → EnumState → Run (Int × EnumState)}
  {declaration : ClassDeclaration} {memberIndex : Nat}

variable {st : EnumState}

/-- A reference is evaluated to its end, and resolving stays as it was. -/
theorem evaluateReference_sound (hresolve : Resolves p fuel depth resolve)
    {target : ClassDeclaration} (htarget : target ∈ p.classes) (name : String) (hst : st.Proper p) :
    Run.Sound p (EnoughDepth p fuel depth st) (fun result => result.2.resolving = st.resolving)
      (evaluateReference p fuel resolve declaration memberIndex target name st) := by
  unfold evaluateReference
  refine .searchThen htarget (fun henough => henough.1.counted target htarget name) fun count _ =>
    ?_
  split
  · exact .refuse _
  refine .searchThen htarget (fun henough => henough.1.accessible declaration target htarget name)
    fun accessible _ => ?_
  have hreached : Run.Sound p (EnoughDepth p fuel depth st) (fun _ => True)
      (if accessible = 0 then Run.done false
        else Run.search target (memberAccessible p fuel declaration target name)) := by
    split
    · exact .done trivial
    · exact .search htarget (fun henough => henough.1.reached declaration target htarget name)
        fun _ _ => trivial
  refine hreached.andThen fun reached _ => ?_
  split
  · exact .refuse _
  split
  · exact .refuse _
  refine .searchThen htarget (fun henough => henough.1.found declaration target htarget name)
    fun found hfound => ?_
  split
  · exact .refuse _
  · next owner index =>
    split
    · exact .refuse _
    split
    · exact .refuse _
    · exact hresolve owner (findEnumMember_member htarget hfound).1 index st hst

/-- So is an expression, part by part. -/
theorem evaluateEnumExpression_sound (hresolve : Resolves p fuel depth resolve)
    (hdeclaration : declaration ∈ p.classes) (expression : EnumExpression) (hst : st.Proper p) :
    Run.Sound p (EnoughDepth p fuel depth st) (fun result => result.2.resolving = st.resolving)
      (evaluateEnumExpression p fuel resolve declaration memberIndex expression st) := by
  induction expression generalizing st with
  | integer value =>
    unfold evaluateEnumExpression
    split
    · exact .done rfl
    · exact .refuse _
  | identifier name => exact evaluateReference_sound hresolve hdeclaration name hst
  | member path name =>
    unfold evaluateEnumExpression
    split
    · next target htarget =>
      obtain ⟨className, _, hfind⟩ := Option.bind_eq_some_iff.mp htarget
      exact evaluateReference_sound hresolve (Program.mem_of_find hfind).1 name hst
    · exact .refuse _
  | unary operation left ih =>
    unfold evaluateEnumExpression
    split
    · exact .done rfl
    · refine (ih hst).andThen fun evaluated hsame => ?_
      dsimp only
      split
      · exact .done hsame
      · split
        · split
          · exact .refuse _
          · exact .done hsame
        · exact .refuse _
  | binary operation left right ihLeft ihRight =>
    unfold evaluateEnumExpression
    refine (ihLeft hst).andThen fun evaluated hsame => ?_
    refine Run.Sound.of_eq hsame ((ihRight (hst.of_eq hsame)).andThen fun evaluated' hsame' => ?_)
    dsimp only
    split
    · exact .refuse _
    · split
      · split
        · exact .done hsame'
        · exact .refuse _
      · exact .refuse _
  | other => exact .refuse _

/-- So is the value behind the previous member. -/
theorem implicitValue_sound (hresolve : Resolves p fuel depth resolve) {c : ClassDeclaration}
    (hc : c ∈ p.classes) (index blockIndex : Nat) (hst : st.Proper p) :
    Run.Sound p (EnoughDepth p fuel depth st) (fun result => result.2.resolving = st.resolving)
      (implicitValue resolve c index blockIndex st) := by
  unfold implicitValue
  split
  · exact .done rfl
  · refine (hresolve c hc _ st hst).andThen fun evaluated hsame => ?_
    dsimp only
    split
    · exact .refuse _
    · exact .done hsame

end

/-! ## Resolution -/

/-- Each level resolves with one member less left to resolve. -/
theorem resolveEnumValue_resolves {fuel depth : Nat} :
    Resolves p fuel depth (resolveEnumValue p fuel depth) := by
  induction depth with
  | zero =>
    intro c hc index st hst
    refine ⟨fun d hd => absurd hd List.not_mem_nil, fun henough => ?_, by rintro _ ⟨⟩⟩
    -- there is no room for more members than there are
    have hle := (hst.nodup.subperm hst.members).length_le
    have hless := henough.2
    omega
  | succ depth ih =>
    intro c hc index st hst
    rw [resolveEnumValue]
    split
    · exact .done rfl
    · exact .done rfl
    · next member hvalue hmember =>
      split
      · exact .refuse _
      · next hfresh =>
        have hindex : index < c.enumMembers.length := (List.getElem?_eq_some_iff.mp hmember).1
        have hproper : EnumState.Proper p { st with resolving := (c.name, index) ::
            st.resolving } :=
          ⟨List.nodup_cons.mpr ⟨hfresh, hst.nodup⟩,
            List.cons_subset.mpr ⟨IsMember.mem ⟨hc, hindex⟩, hst.members⟩⟩
        have henter : EnoughDepth p fuel (depth + 1) st →
            EnoughDepth p fuel depth { st with resolving := (c.name, index) :: st.resolving } := by
          intro henough
          refine ⟨henough.1, ?_⟩
          have hless := henough.2
          rw [List.length_cons]
          omega
        refine (Run.Sound.mono henter ?_ : Run.Sound p (EnoughDepth p fuel (depth + 1) st)
          (fun result => result.2.resolving = (c.name, index) :: st.resolving) _).andThen
            fun _ _ => .done rfl
        split
        · exact evaluateEnumExpression_sound ih hc _ hproper
        · exact implicitValue_sound ih hc _ _ hproper

theorem resolveEnumMembers_sound {fuel : Nat} (hc : c ∈ p.classes) {indices : List Nat}
    (hst : st.resolving = []) :
    Run.Sound p (EnoughFuel p fuel ∧ p.members.length < fuel) (fun st => st.resolving = [])
      (resolveEnumMembers p fuel c indices st) := by
  induction indices generalizing st with
  | nil => exact .done hst
  | cons index rest ih =>
    have hproper : st.Proper p :=
      ⟨by rw [hst]; exact List.nodup_nil, by rw [hst]; exact List.nil_subset _⟩
    have hresolves : Resolves p fuel fuel (resolveEnumValue p fuel fuel) :=
      resolveEnumValue_resolves
    have hresolved := hresolves c hc index st hproper
    have hone : Run.Sound p (EnoughFuel p fuel ∧ p.members.length < fuel)
        (fun result => result.2.resolving = st.resolving)
            (resolveEnumValue p fuel fuel c index st) :=
      ⟨hresolved.searched, fun henough => hresolved.ends ⟨henough.1, Nat.lt_add_right _ henough.2⟩,
        hresolved.result⟩
    rw [resolveEnumMembers]
    exact hone.andThen fun result hresult => ih (hresult.trans hst)

/-- The whole pass ends, whatever it refuses. -/
theorem resolveEnumConstants_sound {fuel : Nat} (hclasses : classes ⊆ p.classes)
    (hst : st.resolving = []) :
    Run.Sound p (EnoughFuel p fuel ∧ p.members.length < fuel) (fun _ => True)
      (resolveEnumConstants p fuel classes st) := by
  induction classes generalizing st with
  | nil => exact .done trivial
  | cons c rest ih =>
    rw [List.cons_subset] at hclasses
    rw [resolveEnumConstants]
    exact (resolveEnumMembers_sound hclasses.1 hst).andThen fun st hst => ih hclasses.2 hst

end Cwhip.Semantic.Hierarchy
