/-
  Cwhip.Semantic.SearchesEnd

  A search over the bases of a class from which no cycle can be reached ends, and
  more fuel does not change what it finds.

  That holds of every body whose calls are on the bases of its class.
-/

import Cwhip.Semantic.CycleCheck

namespace Cwhip.Semantic.Hierarchy

open Cwhip.Lib Relation Filter

variable {p : Program}

/-! ## Loops over bases -/

section Loops

variable {visit visit' : ClassDeclaration → List String → Option (Nat × List String)}
  {follow : Base × ClassDeclaration → Option Bool}

variable {bases : List (Base × ClassDeclaration)}

theorem countBases_isSome (hfollow : ∀ base ∈ bases, (follow base).isSome)
    (hvisit : ∀ base ∈ bases, ∀ s, (visit base.2 s).isSome) (seenVirtual : List String) :
    (countBases visit follow bases seenVirtual).isSome := by
  induction bases generalizing seenVirtual with
  | nil => rfl
  | cons base rest ih =>
    rw [List.forall_mem_cons] at hfollow hvisit
    refine isSome_andThen hfollow.1 fun followed _ => ?_
    split
    · exact ih hfollow.2 hvisit.2 _
    · refine isSome_andThen (hvisit.1 _) fun counted _ => ?_
      exact isSome_andThen (ih hfollow.2 hvisit.2 _) fun _ _ => rfl

theorem countBases_mono (h : ∀ c s found, visit c s = some found → visit' c s = some found)
    {seenVirtual : List String} {found : Nat × List String}
    (hfound : countBases visit follow bases seenVirtual = some found) :
    countBases visit' follow bases seenVirtual = some found := by
  induction bases generalizing seenVirtual found with
  | nil => exact hfound
  | cons base rest ih =>
    simp only [countBases, Option.bind_eq_bind] at hfound ⊢
    obtain ⟨followed, hfollowed, hfound⟩ := Option.bind_eq_some_iff.mp hfound
    rw [hfollowed, Option.bind_some]
    split at hfound
    · next hskip =>
      rw [if_pos hskip]
      exact ih hfound
    · next henter =>
      rw [if_neg henter]
      obtain ⟨⟨count, seen⟩, hcount, hfound⟩ := Option.bind_eq_some_iff.mp hfound
      obtain ⟨⟨others, seen'⟩, hothers, hfound⟩ := Option.bind_eq_some_iff.mp hfound
      rw [h _ _ _ hcount, Option.bind_some]
      dsimp only at hothers ⊢
      rw [ih hothers]
      exact hfound

end Loops

/-- More fuel finds the same count. -/
theorem countBody_mono {follow : ClassDeclaration → Base × ClassDeclaration → Option Bool}
    {own : ClassDeclaration → Option (Option Nat)} : Monotone₂ (countBody p follow own) := by
  intro visit visit' h c seenVirtual found hfound
  unfold countBody at hfound ⊢
  rw [Option.bind_eq_bind] at hfound ⊢
  obtain ⟨counted, hcounted, hfound⟩ := Option.bind_eq_some_iff.mp hfound
  rw [hcounted, Option.bind_some]
  cases counted with
  | some count => exact hfound
  | none => exact countBases_mono h hfound

def Program.Declares (p : Program) (c : ClassDeclaration) : Prop := c ∈ p.classes

/-- The classes that a search at a class goes on to. -/
def Program.below (p : Program) (c : ClassDeclaration) : List ClassDeclaration :=
    (p.baseClasses c).map Prod.snd

theorem Program.declares_below (c : ClassDeclaration) (_ : p.Declares c) (d : ClassDeclaration)
    (hd : d ∈ p.below c) : p.Declares d := by
  obtain ⟨base, hbase, rfl⟩ := List.mem_map.mp hd
  exact (Program.base_mem hbase).1

variable {own : ClassDeclaration → Option (Option Nat)} {name : String} {base : ClassDeclaration}

/-- A count returns where the counts of the bases do. -/
theorem countBody_returns {follow : ClassDeclaration → Base × ClassDeclaration → Option Bool}
    (hown : ∀ c, p.Declares c → (own c).isSome)
    (hfollow : ∀ c, p.Declares c → ∀ base ∈ p.baseClasses c, (follow c base).isSome) :
    ReturnsBelow p.Declares p.below (countBody p follow own) := by
  intro visit c hc hvisit seenVirtual
  refine isSome_andThen (hown c hc) fun counted _ => ?_
  cases counted with
  | some count => rfl
  | none => exact countBases_isSome (hfollow c hc) (fun base hbase =>
    hvisit _ (List.mem_map_of_mem hbase)) _

/-! ## Overloads -/

theorem overloadBody_mono : Monotone₂ (overloadBody p name) := by
  intro visit visit' h c found result hresult
  have hloop : ∀ bases found result, overloadBases visit bases found = some result →
      overloadBases visit' bases found = some result := by
    intro bases
    induction bases with
    | nil => exact fun _ _ hresult => hresult
    | cons base rest ih =>
      intro found result hresult
      rw [overloadBases, Option.bind_eq_bind] at hresult ⊢
      obtain ⟨found', hfound', hresult⟩ := Option.bind_eq_some_iff.mp hresult
      rw [h _ _ _ hfound', Option.bind_some]
      exact ih found' result hresult
  exact hloop _ _ _ hresult

/-- So does a search for overloads. -/
theorem overloadBody_returns :
    ReturnsBelow p.Declares p.below (overloadBody p name) := by
  intro visit c hc hvisit found
  have hloop : ∀ bases : List (Base × ClassDeclaration),
      (∀ base ∈ bases, ∀ s, (visit base.2 s).isSome) →
      ∀ found, (overloadBases visit bases found).isSome := by
    intro bases
    induction bases with
    | nil => exact fun _ _ => rfl
    | cons base rest ih =>
      intro hbases found
      rw [List.forall_mem_cons] at hbases
      exact isSome_andThen (hbases.1 found) fun found' _ => ih hbases.2 found'
  exact hloop _ (fun base hbase => hvisit _ (List.mem_map_of_mem hbase)) _

/-! ## The comparisons of the checks -/

theorem Program.search_ends {σ β : Type} {c : ClassDeclaration} (hc : c ∈ p.classes)
    (h : ¬ LeadsToCycle p.Inherits c) :
    ∀ᶠ fuel in atTop, ∀ body : (ClassDeclaration → σ → Option β) → ClassDeclaration → σ → Option β,
      ReturnsBelow p.Declares p.below body → ∀ s, (fueled body fuel c s).isSome :=
  fueled_returns Program.declares_below (Program.acc hc h) hc

theorem nonzero_returns {count : ClassDeclaration → Nat} :
    ReturnsBelow p.Declares p.below (countBody p everyBase fun c => nonzero (count c)) :=
  countBody_returns (fun _ _ => rfl) fun _ _ _ _ => rfl

/-- Every comparison ends for a class that leads to no cycle. -/
theorem clashes_ends (hbase : base ∈ p.classes) (h : ¬ LeadsToCycle p.Inherits base) :
    ∀ᶠ fuel in atTop, ∀ search : Search, (search.clashes p fuel base).isSome := by
  filter_upwards [Program.search_ends (σ := List String) (β := Nat × List String) hbase h,
    Program.search_ends (σ := List MethodDeclaration) (β := List MethodDeclaration) hbase h]
    with fuel hcount hoverloads
  intro search
  cases search with
  | fields name => simpa [Search.clashes, countFields, countVisit] using hcount _ nonzero_returns []
  | enumMembers name =>
    simpa [Search.clashes, countEnumMembers, countVisit] using hcount _ nonzero_returns []
  | methods name =>
    simpa [Search.clashes, countMethods, countVisit] using hcount _ nonzero_returns []
  | overridden method =>
    simpa [Search.clashes, findOverloads] using hoverloads _ overloadBody_returns []

theorem clashes_mono {fuel fuel' : Nat} (hle : fuel ≤ fuel') {search : Search} {clashes : Bool}
    (h : search.clashes p fuel base = some clashes) :
    search.clashes p fuel' base = some clashes := by
  have hcount {own : ClassDeclaration → Option (Option Nat)} {count : Nat}
      (h : countVisit p everyBase own fuel base = some count) :
      countVisit p everyBase own fuel' base = some count := by
    obtain ⟨found, hfound, rfl⟩ := Option.map_eq_some_iff.mp h
    exact Option.map_eq_some_iff.mpr ⟨found, fueled_mono countBody_mono hle hfound, rfl⟩
  cases search with
  | fields name | enumMembers name | methods name =>
    obtain ⟨count, hfound, rfl⟩ := Option.map_eq_some_iff.mp h
    exact Option.map_eq_some_iff.mpr ⟨count, hcount hfound, rfl⟩
  | overridden method =>
    obtain ⟨found, hfound, rfl⟩ := Option.map_eq_some_iff.mp h
    exact Option.map_eq_some_iff.mpr ⟨found, fueled_mono overloadBody_mono hle hfound, rfl⟩

end Cwhip.Semantic.Hierarchy
