/-
  Cwhip.Semantic.HierarchyChecks

  When the checks on classes end, report every cycle and search no hierarchy with
  a cycle.

  A class that only inherits from a cycle passes its own search for one.  If it is
  declared before the classes of the cycle, nothing keeps the comparison of its
  members with its bases from a search that does not end.
-/

import Cwhip.Semantic.EnumValues

namespace Cwhip.Semantic.Hierarchy

open Cwhip.Lib Relation Filter

variable {p : Program} {validateType : String → Bool → Option String}

/-! ## The steps of a class -/

def Step.IsCheck : Step → Prop
  | .check _ _ => True
  | _ => False

/-- The class has a member that is compared with its bases. -/
def ClassDeclaration.Compared (c : ClassDeclaration) : Prop :=
  c.enumMembers ≠ [] ∨ c.fields ≠ [] ∨ ∃ method ∈ c.methods, method.isConstructor = false

def Step.Local (p : Program) (c : ClassDeclaration) : Step → Prop
  | .check _ _ => True
  | .cycle d => d = c
  | .compare base _ _ => base ∈ p.below c ∧ c.Compared

variable {c base : ClassDeclaration} {step : Step} {α : Type} {passed rest steps : List Step}
  {search : Search} {message : String} {fuel : Nat}

theorem Step.IsCheck.local (h : step.IsCheck) : step.Local p c := by
  cases step with
  | check passes message => trivial
  | cycle d => cases h
  | compare base search message => cases h

variable {l : List α} {β : Type} {d : ClassDeclaration}

theorem pairSteps_check {clash : α → α → Bool} {message : α → String} :
    ∀ step ∈ pairSteps clash message l, step.IsCheck := by
  induction l with
  | nil => exact fun step hstep => absurd hstep List.not_mem_nil
  | cons first rest ih =>
    intro step hstep
    rcases List.mem_append.mp hstep with hstep | hstep
    · obtain ⟨other, _, rfl⟩ := List.mem_map.mp hstep
      trivial
    · exact ih step hstep

theorem definitionSteps_check : ∀ step ∈ definitionSteps p c, step.IsCheck := by
  intro step hstep
  obtain ⟨method, _, rfl⟩ := List.mem_map.mp hstep
  trivial

theorem baseSteps_check {directBases : List String} {bases : List Base} :
    ∀ step ∈ baseSteps directBases bases, step.IsCheck := by
  induction bases generalizing directBases with
  | nil => exact fun step hstep => absurd hstep List.not_mem_nil
  | cons base rest ih =>
    intro step hstep
    rcases List.mem_cons.mp hstep with rfl | hstep
    · trivial
    · exact ih step hstep

theorem typeSteps_check : ∀ step ∈ typeSteps validateType c, step.IsCheck := by
  intro step hstep
  rcases List.mem_append.mp hstep with hstep | hstep
  · obtain ⟨field, _, rfl⟩ := List.mem_map.mp hstep
    trivial
  · obtain ⟨method, _, hstep⟩ := List.mem_flatMap.mp hstep
    rcases List.mem_cons.mp hstep with rfl | hstep
    · trivial
    · rcases List.mem_cons.mp hstep with rfl | hstep
      · trivial
      · obtain ⟨type, _, rfl⟩ := List.mem_map.mp hstep
        trivial

theorem constructorSteps_check : ∀ step ∈ constructorSteps p c, step.IsCheck := by
  intro step hstep
  unfold constructorSteps at hstep
  split at hstep
  · cases hstep
  · obtain ⟨base, _, rfl⟩ := List.mem_map.mp hstep
    trivial

theorem enumSteps_local {members : List EnumMember}
    (hmembers : members ≠ [] → c.Compared) : ∀ step ∈ enumSteps p c members, step.Local p c := by
  induction members with
  | nil => exact fun step hstep => absurd hstep List.not_mem_nil
  | cons member rest ih =>
    intro step hstep
    rw [enumSteps, List.append_assoc, List.cons_append] at hstep
    rcases List.mem_append.mp hstep with hstep | hstep
    · obtain ⟨other, _, rfl⟩ := List.mem_map.mp hstep
      trivial
    · rcases List.mem_cons.mp hstep with rfl | hstep
      · trivial
      · rcases List.mem_append.mp hstep with hstep | hstep
        · obtain ⟨base, hbase, hstep⟩ := List.mem_flatMap.mp hstep
          obtain ⟨search, _, rfl⟩ := List.mem_map.mp hstep
          exact ⟨List.mem_map_of_mem hbase, hmembers (List.cons_ne_nil _ _)⟩
        · exact ih (fun _ => hmembers (List.cons_ne_nil _ _)) step hstep

theorem inheritedFieldSteps_local :
    ∀ step ∈ inheritedFieldSteps p c, step.Local p c := by
  intro step hstep
  obtain ⟨field, hfield, hstep⟩ := List.mem_flatMap.mp hstep
  obtain ⟨base, hbase, hstep⟩ := List.mem_flatMap.mp hstep
  have hcompared : base.2 ∈ p.below c ∧ c.Compared :=
    ⟨List.mem_map_of_mem hbase, Or.inr (Or.inl (List.ne_nil_of_mem hfield))⟩
  rcases List.mem_cons.mp hstep with rfl | hstep
  · exact hcompared
  · rw [List.mem_singleton.mp hstep]
    exact hcompared

theorem inheritedMethodSteps_local :
    ∀ step ∈ inheritedMethodSteps p c, step.Local p c := by
  intro step hstep
  obtain ⟨method, hmethod, hstep⟩ := List.mem_flatMap.mp hstep
  obtain ⟨base, hbase, hstep⟩ := List.mem_flatMap.mp hstep
  obtain ⟨hmem, hordinary⟩ := List.mem_filter.mp hmethod
  have hcompared : base.2 ∈ p.below c ∧ c.Compared :=
    ⟨List.mem_map_of_mem hbase, Or.inr (Or.inr ⟨method, hmem, by simpa using hordinary⟩)⟩
  rcases List.mem_cons.mp hstep with rfl | hstep
  · exact hcompared
  · rw [List.mem_singleton.mp hstep]
    exact hcompared

/-- Only checks stand before the search for a cycle. -/
theorem classSteps_eq (p : Program) (validateType : String → Bool → Option String)
    (c : ClassDeclaration) :
    ∃ own rest, classSteps p validateType c = own ++ .cycle c :: rest ∧
      (∀ step ∈ own, step.IsCheck) ∧
      ∀ step ∈ rest, step.Local p c := by
  refine ⟨definitionSteps p c ++ baseSteps [] c.bases, typeSteps validateType c ++ fieldSteps c ++
    enumSteps p c c.enumMembers ++ constructorSteps p c ++ inheritedFieldSteps p c ++
      inheritedMethodSteps p c ++ methodSteps c, ?_, ?_, ?_⟩
  · simp only [classSteps, List.append_assoc, List.cons_append, List.nil_append]
  · exact List.forall_mem_append.mpr ⟨definitionSteps_check, baseSteps_check⟩
  · simp only [List.forall_mem_append]
    exact ⟨⟨⟨⟨⟨⟨fun step h => (typeSteps_check step h).local, fun step h =>
      (pairSteps_check step h).local⟩,
      enumSteps_local Or.inl⟩, fun step h => (constructorSteps_check step h).local⟩,
        inheritedFieldSteps_local⟩,
      inheritedMethodSteps_local⟩, fun step h => (pairSteps_check step h).local⟩

/-- Every comparison is with a base of the class. -/
theorem classSteps_local : ∀ step ∈ classSteps p validateType c, step.Local p c := by
  obtain ⟨own, rest, heq, hown, hrest⟩ := classSteps_eq p validateType c
  rw [heq, List.forall_mem_append, List.forall_mem_cons]
  exact ⟨fun step h => (hown step h).local, rfl, hrest⟩

theorem exists_compare (validateType : String → Bool → Option String) (hbase : base ∈ p.below c)
    (h : c.Compared) :
    ∃ search message, .compare base search message ∈ classSteps p validateType c := by
  obtain ⟨edge, hedge, rfl⟩ := List.mem_map.mp hbase
  unfold classSteps
  rcases h with henum | hfield | ⟨method, hmethod, hordinary⟩
  · obtain ⟨member, rest, heq⟩ := List.exists_cons_of_ne_nil henum
    refine ⟨.fields member.name, "enum member '" ++ member.name ++
      "' collides with an inherited class member", ?_⟩
    have hstep : Step.compare edge.2 (.fields member.name)
        ("enum member '" ++ member.name ++ "' collides with an inherited class member") ∈
          enumSteps p c c.enumMembers := by
      rw [heq, enumSteps]
      refine List.mem_append_left _ (List.mem_append_right _ (List.mem_cons_of_mem _ ?_))
      exact List.mem_flatMap.mpr ⟨edge, hedge, by simp⟩
    simp only [List.mem_append, hstep, true_or, or_true]
  · obtain ⟨field, hmem⟩ := List.exists_mem_of_ne_nil _ hfield
    refine ⟨.fields field.name, "field '" ++ field.name ++ "' duplicates an inherited field", ?_⟩
    have hstep : Step.compare edge.2 (.fields field.name)
        ("field '" ++ field.name ++ "' duplicates an inherited field") ∈ inheritedFieldSteps p c :=
      List.mem_flatMap.mpr ⟨field, hmem, List.mem_flatMap.mpr ⟨edge, hedge, by simp⟩⟩
    simp only [List.mem_append, hstep, true_or, or_true]
  · refine ⟨.enumMembers method.name, "method '" ++ method.name ++
      "' collides with an inherited enum member", ?_⟩
    have hstep : Step.compare edge.2 (.enumMembers method.name)
        ("method '" ++ method.name ++
            "' collides with an inherited enum member") ∈ inheritedMethodSteps p c :=
      List.mem_flatMap.mpr ⟨method, List.mem_filter.mpr ⟨hmethod, by simp [hordinary]⟩,
        List.mem_flatMap.mpr ⟨edge, hedge, by simp⟩⟩
    simp only [List.mem_append, hstep, true_or, or_true]

/-- A class is checked for cycles before it is compared. -/
theorem cycle_before_compare
    (h : classSteps p validateType c = passed ++ .compare base search message :: rest) :
    .cycle c ∈ passed := by
  obtain ⟨own, others, heq, hown, _⟩ := classSteps_eq p validateType c
  rw [heq] at h
  rcases List.append_eq_append_iff.mp h with ⟨more, hpassed, hmore⟩ | ⟨more, howned, hmore⟩
  · cases more with
    | nil => cases hmore
    | cons first more =>
      rw [hpassed, (List.cons.inj hmore).1]
      simp
  · cases more with
    | nil => cases hmore
    | cons first more =>
      have hcheck := hown first (by rw [howned]; simp)
      rw [← (List.cons.inj hmore).1] at hcheck
      cases hcheck

/-! ## Runs of steps -/

def Step.PassesWith (p : Program) (fuel : Nat) (step : Step) : Prop :=
  (step.run p fuel).outcome = some (.ok ())

def Step.Passes (p : Program) (step : Step) : Prop := ∃ fuel, step.PassesWith p fuel

theorem Run.andThen_ok {run : Run α} {next : α → Run β} {b : β} :
    (run.andThen next).outcome = some (.ok b) ↔
      ∃ a, run.outcome = some (.ok a) ∧ (next a).outcome = some (.ok b) := by
  unfold Run.andThen
  cases run.outcome with
  | none => simp
  | some outcome => cases outcome <;> simp

theorem passes_cycle :
    (Step.cycle c).PassesWith p fuel ↔ hasCycle p fuel c = some false := by
  constructor
  · intro h
    obtain ⟨cyclic, hcyclic, hrest⟩ := Run.andThen_ok.mp h
    obtain ⟨_, hfound, hok⟩ := Option.map_eq_some_iff.mp hcyclic
    rw [hfound, Except.ok.inj hok]
    cases cyclic with
    | false => rfl
    | true => cases hrest
  · intro h
    refine Run.andThen_ok.mpr ⟨false, ?_, rfl⟩
    rw [h]
    rfl

theorem passes_compare :
    (Step.compare base search message).PassesWith p fuel ↔ search.clashes p fuel base =
    some false := by
  constructor
  · intro h
    obtain ⟨clashes, hclashes, hrest⟩ := Run.andThen_ok.mp h
    obtain ⟨_, hfound, hok⟩ := Option.map_eq_some_iff.mp hclashes
    rw [hfound, Except.ok.inj hok]
    cases clashes with
    | false => rfl
    | true => cases hrest
  · intro h
    refine Run.andThen_ok.mpr ⟨false, ?_, rfl⟩
    rw [h]
    rfl

theorem Step.PassesWith.mono {fuel' : Nat} (hle : fuel ≤ fuel') (h : step.PassesWith p fuel) :
    step.PassesWith p fuel' := by
  cases step with
  | check passes message => exact h
  | cycle c => exact passes_cycle.mpr (cycleLoop_mono hle (passes_cycle.mp h))
  | compare base search message => exact passes_compare.mpr (clashes_mono hle (passes_compare.mp h))

/-- A step that passes does so with every larger fuel. -/
theorem Step.Passes.eventually (h : step.Passes p) : ∀ᶠ fuel in atTop, step.PassesWith p fuel := by
  obtain ⟨bound, hbound⟩ := h
  exact eventually_atTop.mpr ⟨bound, fun fuel hfuel => hbound.mono hfuel⟩

theorem Step.searched_run
    (h : d ∈ (step.run p fuel).searched) : ∃ search message, step = .compare d search message := by
  cases step with
  | check passes message =>
    rw [Step.run] at h
    split at h
    · cases h
    · cases h
  | cycle c =>
    have hnone : (Step.run p fuel (.cycle c)).searched = [] := by
      show (Run.andThen _ _).searched = []
      unfold Run.andThen
      cases hasCycle p fuel c with
      | none => rfl
      | some cyclic => cases cyclic <;> rfl
    rw [hnone] at h
    cases h
  | compare base search message =>
    have hbase : (Step.run p fuel (.compare base search message)).searched = [base] := by
      show (Run.andThen _ _).searched = [base]
      unfold Run.andThen Run.search
      cases search.clashes p fuel base with
      | none => rfl
      | some clashes => cases clashes <;> rfl
    rw [hbase] at h
    exact ⟨search, message, by rw [List.mem_singleton.mp h]⟩

theorem Step.mem_searched_compare :
    base ∈ (Step.run p fuel (.compare base search message)).searched := by
  show base ∈ (Run.andThen _ _).searched
  unfold Run.andThen Run.search
  cases search.clashes p fuel base with
  | none => exact List.mem_singleton_self base
  | some clashes => exact List.mem_append_left _ (List.mem_singleton_self base)

theorem forM_cons :
    (step :: rest).forM (Step.run p fuel) =
      (step.run p fuel).andThen fun _ => rest.forM (Step.run p fuel) := rfl

theorem forM_searched (h : d ∈ (steps.forM (Step.run p fuel)).searched) :
    ∃ passed search message rest, steps = passed ++ .compare d search message :: rest ∧
      ∀ step ∈ passed, step.PassesWith p fuel := by
  induction steps with
  | nil => cases h
  | cons step rest ih =>
    rw [forM_cons, Run.andThen] at h
    have hfirst (h : d ∈ (step.run p fuel).searched) :
        ∃ passed search message rest', step :: rest = passed ++ .compare d search message :: rest' ∧
          ∀ step ∈ passed, step.PassesWith p fuel := by
      obtain ⟨search, message, rfl⟩ := Step.searched_run h
      exact ⟨[], search, message, rest, rfl, by simp⟩
    split at h
    · next hpasses =>
      rcases List.mem_append.mp h with h | h
      · exact hfirst h
      · obtain ⟨passed, search, message, rest', rfl, hpassed⟩ := ih h
        exact ⟨step :: passed, search, message, rest', rfl,
          List.forall_mem_cons.mpr ⟨hpasses, hpassed⟩⟩
    · exact hfirst h
    · exact hfirst h

theorem forM_compare (hpassed : ∀ step ∈ passed, step.PassesWith p fuel) :
    base ∈ ((passed ++ .compare base search message :: rest).forM (Step.run p fuel)).searched := by
  induction passed with
  | nil =>
    rw [List.nil_append, forM_cons, Run.andThen]
    split
    · exact List.mem_append_left _ Step.mem_searched_compare
    · exact Step.mem_searched_compare
    · exact Step.mem_searched_compare
  | cons step others ih =>
    rw [List.forall_mem_cons] at hpassed
    have hfirst : (step.run p fuel).outcome = some (.ok ()) := hpassed.1
    rw [List.cons_append, forM_cons, Run.andThen, hfirst]
    exact List.mem_append_right _ (ih hpassed.2)

/-- Where the steps do not end, one of them does not. -/
theorem forM_none (h : (steps.forM (Step.run p fuel)).outcome = none) :
    ∃ passed step rest, steps = passed ++ step :: rest ∧ (∀ step ∈ passed, step.PassesWith p fuel) ∧
      (step.run p fuel).outcome = none := by
  induction steps with
  | nil => cases h
  | cons step rest ih =>
    rw [forM_cons, Run.andThen] at h
    split at h
    · next hpasses =>
      obtain ⟨passed, stopped, rest', rfl, hpassed, hstopped⟩ := ih h
      exact ⟨step :: passed, stopped, rest', rfl, List.forall_mem_cons.mpr ⟨hpasses, hpassed⟩,
        hstopped⟩
    · cases h
    · next hnone => exact ⟨[], step, rest, rfl, by simp, hnone⟩

theorem forM_stops (hpassed : ∀ step ∈ passed, step.PassesWith p fuel)
    (hstep : (step.run p fuel).outcome = none) :
    ((passed ++ step :: rest).forM (Step.run p fuel)).outcome = none := by
  induction passed with
  | nil => rw [List.nil_append, forM_cons, Run.andThen, hstep]
  | cons first others ih =>
    rw [List.forall_mem_cons] at hpassed
    have hfirst : (first.run p fuel).outcome = some (.ok ()) := hpassed.1
    rw [List.cons_append, forM_cons, Run.andThen, hfirst]
    exact ih hpassed.2

theorem forM_ok (h : (steps.forM (Step.run p fuel)).outcome = some (.ok ())) :
    ∀ step ∈ steps, step.PassesWith p fuel := by
  induction steps with
  | nil => exact fun step hstep => absurd hstep List.not_mem_nil
  | cons step rest ih =>
    obtain ⟨_, hfirst, hrest⟩ := Run.andThen_ok.mp (forM_cons (p := p) ▸ h)
    exact List.forall_mem_cons.mpr ⟨hfirst, ih hrest⟩

theorem flatMap_split {f : α → List β} {passed rest : List β} {b : β}
    (h : l.flatMap f = passed ++ b :: rest) :
    ∃ before a after own others, l = before ++ a :: after ∧ f a = own ++ b :: others ∧
      passed = before.flatMap f ++ own := by
  induction l generalizing passed with
  | nil => simp at h
  | cons first l ih =>
    rw [List.flatMap_cons] at h
    rcases List.append_eq_append_iff.mp h with ⟨more, rfl, hmore⟩ | ⟨more, hfirst, hmore⟩
    · obtain ⟨before, a, after, own, others, rfl, ha, rfl⟩ := ih hmore
      exact ⟨first :: before, a, after, own, others, rfl, ha, by simp⟩
    · cases more with
      | nil =>
        have hnext : l.flatMap f = [] ++ b :: rest := hmore.symm
        obtain ⟨before, a, after, own, others, rfl, ha, hnil⟩ := ih hnext
        exact ⟨first :: before, a, after, own, others, rfl, ha, by simp [← hnil, hfirst]⟩
      | cons head more =>
        obtain ⟨rfl, rfl⟩ := List.cons.inj hmore
        exact ⟨[], first, l, passed, more, rfl, hfirst, rfl⟩

/-! ## The law -/

/-- The checks on classes end, refuse a program with a cycle, and search only
    hierarchies without one. -/
structure ValidatesHierarchy (p : Program) (validateType : String → Bool → Option String) :
    Prop where
  ends : ∀ᶠ fuel in atTop, (analyzeClasses p validateType fuel).outcome.isSome
  reports : (∃ c ∈ p.classes, TransGen p.Inherits c c) →
    ∀ᶠ fuel in atTop, ∃ message, (analyzeClasses p validateType fuel).outcome =
      some (.error message)
  acyclic : ∀ fuel, ∀ c ∈ (analyzeClasses p validateType fuel).searched, ¬ LeadsToCycle p.Inherits c

/-- Every comparison that is reached is with a base that leads to no cycle. -/
def ComparesAcyclic (p : Program) (validateType : String → Bool → Option String) : Prop :=
  ∀ before c after, p.classes = before ++ c :: after →
    (∀ d ∈ before, ∀ step ∈ classSteps p validateType d, step.Passes p) →
    ∀ passed base search message rest,
      classSteps p validateType c = passed ++ .compare base search message :: rest →
      (∀ step ∈ passed, step.Passes p) → ¬ LeadsToCycle p.Inherits base

theorem not_cyclic_of_passes (hc : c ∈ p.classes)
    (h : (Step.cycle c).PassesWith p fuel) : ¬ TransGen p.Inherits c c :=
  fun hcycle => Bool.false_ne_true ((hasCycle_iff hc (passes_cycle.mp h)).mpr hcycle)

theorem ComparesAcyclic.compared (h : ComparesAcyclic p validateType)
    (heq : p.classes.flatMap (classSteps p validateType) = passed ++ .compare base search message ::
    rest)
    (hpassed : ∀ step ∈ passed, step.PassesWith p fuel) : ¬ LeadsToCycle p.Inherits base := by
  obtain ⟨before, c, after, own, others, hclasses, hsteps, rfl⟩ := flatMap_split heq
  rw [List.forall_mem_append] at hpassed
  refine h before c after hclasses (fun d hd step hstep => ?_) own base search message others hsteps
    fun step hstep => ⟨fuel, hpassed.2 step hstep⟩
  exact ⟨fuel, hpassed.1 step (List.mem_flatMap.mpr ⟨d, hd, hstep⟩)⟩

/-- With enough fuel a step ends, unless it searches above a cycle. -/
theorem step_ends (hstep : step ∈ p.classes.flatMap (classSteps p validateType)) :
    ∀ᶠ fuel in atTop, (∀ base search message, step = .compare base search message →
      ¬ LeadsToCycle p.Inherits base) → (step.run p fuel).outcome ≠ none := by
  obtain ⟨c, hc, hstep⟩ := List.mem_flatMap.mp hstep
  have hlocal := classSteps_local step hstep
  cases step with
  | check passes message =>
    refine Eventually.of_forall fun fuel _ => ?_
    rw [Step.run]
    split
    · exact Option.some_ne_none _
    · exact Option.some_ne_none _
  | cycle d =>
    have heq : d = c := hlocal
    subst heq
    filter_upwards [eventually_gt_atTop p.classes.length] with fuel hfuel _
    obtain ⟨cyclic, hcyclic⟩ := Option.isSome_iff_exists.mp (hasCycle_ends hc hfuel)
    show (Run.andThen _ _).outcome ≠ none
    rw [hcyclic]
    cases cyclic with
    | false | true => exact Option.some_ne_none _
  | compare base search message =>
    by_cases hleads : LeadsToCycle p.Inherits base
    · exact Eventually.of_forall fun fuel h => absurd hleads (h base search message rfl)
    · filter_upwards [clashes_ends (Program.declares_below c hc base hlocal.1) hleads] with fuel
        hends _
      obtain ⟨clashes, hclashes⟩ := Option.isSome_iff_exists.mp (hends search)
      show (Run.andThen _ _).outcome ≠ none
      rw [hclashes]
      cases clashes with
      | false | true => exact Option.some_ne_none _

/-- The checks end where nothing on a cycle is compared. -/
theorem ComparesAcyclic.validate_ends (h : ComparesAcyclic p validateType) :
    ∀ᶠ fuel in atTop, (validateClasses p validateType fuel).outcome ≠ none := by
  have hsteps := (eventually_all_finite
    (p.classes.flatMap (classSteps p validateType)).finite_toSet).mpr fun step hstep =>
      step_ends hstep
  filter_upwards [hsteps] with fuel hends hnone
  obtain ⟨passed, stopped, rest, heq, hpassed, hstopped⟩ := forM_none hnone
  refine hends stopped (by show stopped ∈ _; rw [heq]; simp)
    (fun base search message hcompare => ?_) hstopped
  subst hcompare
  exact h.compared heq hpassed

theorem acyclic_of_validated (h : (validateClasses p validateType fuel).outcome = some (.ok ()))
    (hc : c ∈ p.classes) : ¬ LeadsToCycle p.Inherits c := by
  intro ⟨d, hreach, hcycle⟩
  have hd : d ∈ p.classes := Program.mem_of_reach hc hreach
  obtain ⟨own, rest, heq, _⟩ := classSteps_eq p validateType d
  have hstep : Step.cycle d ∈ p.classes.flatMap (classSteps p validateType) :=
    List.mem_flatMap.mpr ⟨d, hd, by rw [heq]; simp⟩
  exact not_cyclic_of_passes hd (forM_ok h _ hstep) hcycle

theorem analyzeClasses_cases (p : Program) (validateType : String → Bool → Option String)
    (fuel : Nat) :
    ((validateClasses p validateType fuel).outcome = some (.ok ()) ∧
      (analyzeClasses p validateType fuel).outcome = (resolveEnumConstants p fuel p.classes ⟨[],
      []⟩).outcome ∧
      (analyzeClasses p validateType fuel).searched =
        (validateClasses p validateType fuel).searched ++
          (resolveEnumConstants p fuel p.classes ⟨[], []⟩).searched) ∨
    ((validateClasses p validateType fuel).outcome ≠ some (.ok ()) ∧
      ((analyzeClasses p validateType fuel).outcome = none ↔
        (validateClasses p validateType fuel).outcome = none) ∧
      (∀ st, (analyzeClasses p validateType fuel).outcome ≠ some (.ok st)) ∧
      (analyzeClasses p validateType fuel).searched =
      (validateClasses p validateType fuel).searched) := by
  have heq : analyzeClasses p validateType fuel = (validateClasses p validateType fuel).andThen
      fun _ => resolveEnumConstants p fuel p.classes ⟨[], []⟩ := rfl
  rw [heq, Run.andThen]
  cases houtcome : (validateClasses p validateType fuel).outcome with
  | none => exact Or.inr ⟨nofun, by simp, nofun, rfl⟩
  | some outcome =>
    cases outcome with
    | ok _ => exact Or.inl ⟨rfl, rfl, rfl⟩
    | error message => exact Or.inr ⟨nofun, by simp, nofun, rfl⟩

/-- Then what is accepted has no cycle. -/
theorem ComparesAcyclic.validates (h : ComparesAcyclic p validateType) :
    ValidatesHierarchy p validateType := by
  have hends : ∀ᶠ fuel in atTop, (analyzeClasses p validateType fuel).outcome.isSome := by
    by_cases hacyclic : ∀ c ∈ p.classes, ¬ LeadsToCycle p.Inherits c
    · filter_upwards [h.validate_ends, eventually_enoughFuel hacyclic,
        eventually_gt_atTop p.members.length]
        with fuel hvalidated henough hmembers
      rw [Option.isSome_iff_ne_none]
      rcases analyzeClasses_cases p validateType fuel with
        ⟨_, houtcome, _⟩ | ⟨_, hnone, _⟩
      · rw [houtcome, ← Option.isSome_iff_ne_none]
        exact (resolveEnumConstants_sound (List.Subset.refl _) rfl).ends ⟨henough, hmembers⟩
      · exact fun hstopped => hvalidated (hnone.mp hstopped)
    · -- then some class does not pass
      filter_upwards [h.validate_ends] with fuel hvalidated
      rw [Option.isSome_iff_ne_none]
      rcases analyzeClasses_cases p validateType fuel with
        ⟨hok, _⟩ | ⟨_, hnone, _⟩
      · exact absurd (fun c hc => acyclic_of_validated hok hc) hacyclic
      · exact fun hstopped => hvalidated (hnone.mp hstopped)
  refine ⟨hends, fun ⟨c, hc, hcycle⟩ => ?_, fun fuel d hd => ?_⟩
  · filter_upwards [hends] with fuel hsome
    obtain ⟨outcome, houtcome⟩ := Option.isSome_iff_exists.mp hsome
    rcases analyzeClasses_cases p validateType fuel with
      ⟨hok, _⟩ | ⟨_, _, hno, _⟩
    · exact absurd ⟨c, .refl, hcycle⟩ (acyclic_of_validated hok hc)
    · cases outcome with
      | ok st => exact absurd houtcome (hno st)
      | error message => exact ⟨message, houtcome⟩
  · have hcompared (hd : d ∈ (validateClasses p validateType fuel).searched) :
        ¬ LeadsToCycle p.Inherits d := by
      obtain ⟨passed, search, message, rest, heq, hpassed⟩ := forM_searched hd
      exact h.compared heq hpassed
    rcases analyzeClasses_cases p validateType fuel with
      ⟨hok, _, hsearched⟩ | ⟨_, _, _, hsearched⟩
    · rw [hsearched] at hd
      rcases List.mem_append.mp hd with hd | hd
      · exact hcompared hd
      · exact acyclic_of_validated hok
          ((resolveEnumConstants_sound (List.Subset.refl _) rfl).searched d hd)
    · rw [hsearched] at hd
      exact hcompared hd

theorem ValidatesHierarchy.comparesAcyclic (h : ValidatesHierarchy p validateType) :
    ComparesAcyclic p validateType := by
  intro before c after hclasses hbefore passed base search message rest hsteps hpassed
  -- fuel with which all that comes before passes
  have hall : ∀ᶠ fuel in atTop, ∀ step ∈ before.flatMap (classSteps p validateType) ++ passed,
      step.PassesWith p fuel := by
    refine (eventually_all_finite (List.finite_toSet _)).mpr fun step hstep => ?_
    rcases List.mem_append.mp hstep with hstep | hstep
    · obtain ⟨d, hd, hstep⟩ := List.mem_flatMap.mp hstep
      exact (hbefore d hd step hstep).eventually
    · exact (hpassed step hstep).eventually
  obtain ⟨fuel, hfuel⟩ := hall.exists
  have heq : p.classes.flatMap (classSteps p validateType) =
      (before.flatMap (classSteps p validateType) ++ passed) ++
        .compare base search message :: (rest ++ after.flatMap (classSteps p validateType)) := by
    rw [hclasses, List.flatMap_append, List.flatMap_cons, hsteps]
    simp only [List.append_assoc, List.cons_append]
  have hsearched : base ∈ (validateClasses p validateType fuel).searched := by
    rw [validateClasses, heq]
    exact forM_compare hfuel
  refine h.acyclic fuel base ?_
  rcases analyzeClasses_cases p validateType fuel with ⟨_, _, hboth⟩ | ⟨_, _, _, hsame⟩
  · rw [hboth]
    exact List.mem_append_left _ hsearched
  · rw [hsame]
    exact hsearched

/-- The step compares with a base that leads to a cycle. -/
def Step.MeetsCycle (p : Program) : Step → Prop
  | .compare base _ _ => LeadsToCycle p.Inherits base
  | _ => False

/-- A class that inherits from a cycle it is no part of, and has a member that is
    compared with its bases, is declared behind a class that is refused, or is
    itself refused before its first comparison with a base that leads to a
    cycle. -/
def RefusedInTime (p : Program) (validateType : String → Bool → Option String) : Prop :=
  ∀ before c after, p.classes = before ++ c :: after → LeadsToCycle p.Inherits c →
    ¬ TransGen p.Inherits c c → c.Compared →
    (∃ d ∈ before, ∃ step ∈ classSteps p validateType d, ¬ step.Passes p) ∨
      ∃ passed refused rest, classSteps p validateType c = passed ++ refused :: rest ∧
        ¬ refused.Passes p ∧
        ∀ step ∈ passed ++ [refused], ¬ step.MeetsCycle p

theorem exists_first {kind : α → Prop} (h : ∃ a ∈ l, kind a) :
    ∃ before a after, l = before ++ a :: after ∧ kind a ∧ ∀ b ∈ before, ¬ kind b := by
  classical
  induction l with
  | nil => simp at h
  | cons first rest ih =>
    by_cases hfirst : kind first
    · exact ⟨[], first, rest, rfl, hfirst, by simp⟩
    · obtain ⟨a, ha, hkind⟩ := h
      rcases List.mem_cons.mp ha with rfl | ha
      · exact absurd hkind hfirst
      · obtain ⟨before, a', after, rfl, ha', hbefore⟩ := ih ⟨a, ha, hkind⟩
        exact ⟨first :: before, a', after, rfl, ha', List.forall_mem_cons.mpr ⟨hfirst, hbefore⟩⟩

theorem refusedInTime_iff : RefusedInTime p validateType ↔ ComparesAcyclic p validateType := by
  constructor
  · intro h before c after hclasses hbefore passed base search message rest hsteps hpassed hleads
    have hc : c ∈ p.classes := by rw [hclasses]; simp
    have hstep : Step.compare base search message ∈ classSteps p validateType
      c := by rw [hsteps]; simp
    obtain ⟨hbelow, hcompared⟩ := classSteps_local _ hstep
    obtain ⟨edge, hedge, rfl⟩ := List.mem_map.mp hbelow
    have hnot : ¬ TransGen p.Inherits c c := by
      obtain ⟨fuel, hcycle⟩ := hpassed _ (cycle_before_compare hsteps)
      exact not_cyclic_of_passes hc hcycle
    have hclassLeads : LeadsToCycle p.Inherits c :=
      leadsToCycle_iff.mpr (Or.inr ⟨edge.2, ⟨edge, hedge, rfl⟩, hleads⟩)
    rcases h before c after hclasses hclassLeads hnot hcompared with
      ⟨d, hd, step, hstep, hrefused⟩ | ⟨passed', refused, rest', heq, hrefused, hmeets⟩
    · exact hrefused (hbefore d hd step hstep)
    · -- the refusing step stands behind the comparison
      rw [hsteps] at heq
      rcases List.append_eq_append_iff.mp heq with ⟨more, hpassed', hmore⟩ | ⟨more, hpassed', hmore⟩
      · refine hmeets (.compare edge.2 search message) ?_ hleads
        cases more with
        | nil => simp [(List.cons.inj hmore).1]
        | cons first more => simp [hpassed', (List.cons.inj hmore).1]
      · cases more with
        | nil =>
          refine hmeets (.compare edge.2 search message) ?_ hleads
          simp [(List.cons.inj hmore).1]
        | cons first more =>
          exact hrefused (hpassed refused (by rw [hpassed', (List.cons.inj hmore).1]; simp))
  · intro h before c after hclasses hleads hnot hcompared
    by_cases hbefore : ∀ d ∈ before, ∀ step ∈ classSteps p validateType d, step.Passes p
    · right
      -- the first comparison with a base that leads to a cycle
      rcases leadsToCycle_iff.mp hleads with hcycle | ⟨base, ⟨edge, hedge, rfl⟩, hbase⟩
      · exact absurd hcycle hnot
      obtain ⟨search, message, hstep⟩ :=
        exists_compare validateType (List.mem_map_of_mem hedge) hcompared
      have hsome : ∃ step ∈ classSteps p validateType c, step.MeetsCycle p := ⟨_, hstep, hbase⟩
      obtain ⟨first, step, rest, hsteps, hmeets, hfirst⟩ := exists_first hsome
      have hrefused : ∃ step ∈ first, ¬ step.Passes p := by
        by_contra hnone
        push Not at hnone
        cases step with
        | check passes message | cycle d => exact hmeets
        | compare base search message =>
          exact h before c after hclasses hbefore first base search message rest hsteps hnone hmeets
      obtain ⟨passed, refused, others, rfl, hrefused, _⟩ := exists_first hrefused
      refine ⟨passed, refused, others ++ step :: rest, by rw [hsteps]; simp, hrefused, ?_⟩
      intro step hstep
      exact hfirst step (by rcases List.mem_append.mp hstep with hstep | hstep <;> simp_all)
    · left
      push Not at hbefore
      exact hbefore

/-- Hierarchy validation is sound exactly if the classes that only inherit from a
    cycle are refused in time. -/
theorem validatesHierarchy_iff (p : Program) (validateType : String → Bool → Option String) :
    ValidatesHierarchy p validateType ↔ RefusedInTime p validateType :=
  ⟨fun h => refusedInTime_iff.mpr h.comparesAcyclic, fun h => (refusedInTime_iff.mp h).validates⟩

/-! ## A class in front of a cycle -/

def inherits (name : String) : Base := ⟨name, .publicAccess, false⟩

/-- `class D : A { int x; }` -/
def derived : ClassDeclaration := ⟨"D", [inherits "A"], [⟨"int", "x", .publicAccess⟩], [], []⟩

/-- `class A : B {}` -/
def cyclicA : ClassDeclaration := ⟨"A", [inherits "B"], [], [], []⟩

/-- `class B : A {}` -/
def cyclicB : ClassDeclaration := ⟨"B", [inherits "A"], [], [], []⟩

def frontOfCycle : Program where
  classes := [derived, cyclicA, cyclicB]
  methodDefinitions := []
  uniqueNames := by decide
  resolved := by decide

theorem frontOfCycle_search {own : ClassDeclaration → Option (Option Nat)}
    (hA : own cyclicA = some none)
    (hB : own cyclicB = some none) (fuel : Nat) (seenVirtual : List String) :
    fueled (countBody frontOfCycle everyBase own) fuel cyclicA seenVirtual = none ∧
      fueled (countBody frontOfCycle everyBase own) fuel cyclicB seenVirtual = none := by
  induction fuel generalizing seenVirtual with
  | zero => exact ⟨rfl, rfl⟩
  | succ fuel ih =>
    have hbasesA : frontOfCycle.baseClasses cyclicA = [(inherits "B", cyclicB)] := by decide
    have hbasesB : frontOfCycle.baseClasses cyclicB = [(inherits "A", cyclicA)] := by decide
    constructor
    · rw [fueled, countBody, hbasesA, hA]
      simp [countBases, everyBase, inherits, (ih seenVirtual).2]
    · rw [fueled, countBody, hbasesB, hB]
      simp [countBases, everyBase, inherits, (ih seenVirtual).1]

/-- The checks of such a program do not end, so they report no cycle. -/
theorem frontOfCycle_endless :
    (∀ fuel, (analyzeClasses frontOfCycle (fun _ _ => none) fuel).outcome = none) ∧
      ¬ ∀ p validateType, ValidatesHierarchy p validateType := by
  have hendless : ∀ fuel, (analyzeClasses frontOfCycle (fun _ _ => none) fuel).outcome = none := by
    intro fuel
    have hsteps : ∃ first second third message rest,
        frontOfCycle.classes.flatMap (classSteps frontOfCycle fun _ _ => none) =
          [.check true first, .cycle derived, .check true second, .check true third,
            .compare cyclicA (.fields "x") message] ++ rest :=
      ⟨_, _, _, _, _, rfl⟩
    obtain ⟨first, second, third, message, rest, hsteps⟩ := hsteps
    have hcompare : (Step.run frontOfCycle fuel (.compare cyclicA (.fields "x") message)).outcome =
        none := by
      have hsearch : Search.clashes frontOfCycle fuel cyclicA (.fields "x") = none := by
        show ((fueled _ fuel cyclicA []).map Prod.fst).map _ = none
        rw [(frontOfCycle_search rfl rfl fuel []).1]
        rfl
      show (Run.andThen _ _).outcome = none
      rw [hsearch]
      rfl
    have hvalidate : (validateClasses frontOfCycle (fun _ _ => none) fuel).outcome = none := by
      rw [validateClasses, hsteps]
      cases hcycle : hasCycle frontOfCycle fuel derived with
      | none =>
        have hstuck : (Step.run frontOfCycle fuel (.cycle derived)).outcome = none := by
          show (Run.andThen _ _).outcome = none
          rw [hcycle]
          rfl
        have hpassed : ∀ step ∈ [Step.check true first], step.PassesWith frontOfCycle fuel := by
          simp [Step.PassesWith, Step.run, Run.done]
        exact forM_stops hpassed hstuck
      | some cyclic =>
        have hpasses : Step.PassesWith frontOfCycle fuel (.cycle derived) := by
          have hfour : hasCycle frontOfCycle (fuel + 4) derived = some false :=
            cycleLoop_mono (Nat.le_add_left 4 fuel)
              (by decide : hasCycle frontOfCycle 4 derived = some false)
          have hsame : hasCycle frontOfCycle (fuel + 4) derived = some cyclic :=
            cycleLoop_mono (Nat.le_add_right fuel 4) hcycle
          rw [passes_cycle, hcycle, ← hsame, hfour]
        have hchecks : ∀ message, Step.PassesWith frontOfCycle fuel (.check true message) :=
          fun _ => rfl
        have hpassed : ∀ step ∈ [Step.check true first, .cycle derived, .check true second,
            .check true third],
            step.PassesWith frontOfCycle fuel := by
          simp [hpasses, hchecks]
        exact forM_stops hpassed hcompare
    rcases analyzeClasses_cases frontOfCycle (fun _ _ => none) fuel with ⟨hok, _⟩ | ⟨_, hnone, _⟩
    · rw [hvalidate] at hok
      cases hok
    · exact hnone.mpr hvalidate
  refine ⟨hendless, fun hclaim => ?_⟩
  obtain ⟨fuel, hsome⟩ := (hclaim frontOfCycle fun _ _ => none).ends.exists
  rw [hendless fuel] at hsome
  cases hsome

end Cwhip.Semantic.Hierarchy
