/-
  Cwhip.CodeGen.Overloads

  Overload resolution in the analyzer (`conversionRank` and `selectOverload` in
  `SemanticInheritance.cpp`).

  The candidate that beats all others is selected, in any order of the
  candidates.  The rank of a conversion to a base is the length of a path, found
  by a search that tries the last base of a class first; a shared base may also
  be reached by a shorter one.
-/

import Mathlib.Algebra.GroupWithZero.Nat
import Cwhip.Lib.Dominance
import Cwhip.CodeGen.UpcastsAgree
import Mathlib.Data.Nat.Find

namespace Cwhip.CodeGen

open Cwhip.Lib
open Cwhip.Inheritance (AccessLevel BaseInfo)

/-! ## Assignability -/

@[irreducible] def stringType : Text := "String".toList

/-- `SemanticAnalyzer::isAssignable`, of two types. -/
def Context.isAssignableType (ctx : Context) (target source : Text) : Bool :=
  let isClass := fun name => (ctx.program.find name).isSome
  if target = source then true
  else if isCallbackType target || isCallbackType source then isCallbackType target &&
    source == nullName
  else if target = "any".toList then
    [stringType, nullName].contains source || isClass source ||
      (["int", "bool", "float", "unsigned", "list", "dict", "buffer", "handle", "type"].map
        String.toList).contains source
  else if source = "any".toList then
    target == stringType || isClass target ||
      (["int", "bool", "float", "unsigned", "dict", "list", "buffer", "handle"].map
        String.toList).contains target
  else if source = nullName then
    target == stringType || isClass target ||
      (["buffer", "handle", "list", "dict", "int", "unsigned", "float", "bool", "type"].map
        String.toList).contains target
  else
    match ctx.program.find target, ctx.program.find source with
    | some target, some source => ctx.isAssignable target source
    | _, _ => false

/-! ## Ranks -/

theorem sum_sizeOf_children (c : ClassDeclaration) (depth : Nat) :
    (((c.edges.reverse.map fun base => (base.2, depth)).map fun entry => sizeOf entry.1).sum)
      < sizeOf c := by
  have hedges : ∀ edges : Edges ClassInfo BaseInfo,
      ((edges.toList.map fun base => sizeOf base.2).sum) < sizeOf edges := by
    intro edges
    induction h : edges.toList generalizing edges with
    | nil =>
      cases edges with
      | nil => simp
      | cons edge child rest => cases h
    | cons first others ih =>
      cases edges with
      | nil => cases h
      | cons edge child rest =>
        rw [Edges.toList, List.cons.injEq] at h
        obtain ⟨rfl, hrest⟩ := h
        have hless := ih rest hrest
        simp only [List.map_cons, List.sum_cons, Edges.cons.sizeOf_spec]
        omega
  cases c with
  | node label edges =>
    have hless := hedges edges
    have hsum : (((edges.toList.reverse.map fun base => (base.2, depth)).map
        fun entry => sizeOf entry.1).sum) = (edges.toList.map fun base => sizeOf base.2).sum := by
      rw [List.map_map, List.map_reverse, List.sum_reverse]
      rfl
    show (((edges.toList.reverse.map fun base => (base.2, depth)).map
      fun entry => sizeOf entry.1).sum) < _
    rw [hsum, Tree.node.sizeOf_spec]
    omega

/-- The work-list of `conversionRank`, its last entry first.  Each class finds
    its bases by their names. -/
def rankSearch (target : Text) : List (ClassDeclaration × Nat) → List Text → Option Nat
  | [], _ => none
  | (current, depth) :: rest, visited =>
    if current.label.name ∈ visited then rankSearch target rest visited
    else if current.label.name = target then some depth
    else
      rankSearch target ((current.edges.reverse.map fun base => (base.2, depth + 1)) ++ rest)
        (current.label.name :: visited)
termination_by pending => (pending.map fun entry => sizeOf entry.1).sum
decreasing_by
  · rw [List.map_cons, List.sum_cons]
    dsimp only
    have hpos : 0 < sizeOf current := by
      cases current
      show 0 < 1 + _ + _
      omega
    omega
  · have hless := sum_sizeOf_children current (depth + 1)
    rw [List.map_append, List.sum_append, List.map_cons, List.sum_cons]
    exact Nat.add_lt_add_right hless _

/-- `SemanticAnalyzer::conversionRank`. -/
def Context.conversionRank (ctx : Context) (target source : Text) (isInteger : Bool) : Int :=
  if target = source then 0
  else if source = "int".toList ∧ target = "unsigned".toList ∧ isInteger = true then 1
  else if source = nullName ∧ (ctx.program.find target).isSome = true then 2
  else if ctx.isAssignableType target source = false then -1
  else
    match ctx.program.find source, ctx.program.find target with
    | some declaration, some _ =>
      match rankSearch target [(declaration, 0)] [] with
      | some depth => 2 + depth
      | none => 20
    | _, _ => 20

/-! ## Selection -/

/-- `<contextual-callback>`: the type of the argument depends on its parameter. -/
@[irreducible] def contextualCallback : Text := "<contextual-callback>".toList

/-- What selection reads of an argument. -/
structure Argument where
  type : Text
  /-- Its kind is `Integer`. -/
  isInteger : Bool
  /-- The type of a copy analyzed for a parameter type, unless that is an error. -/
  probe : Text → Option Text

def Argument.source (argument : Argument) (parameter : Text) : Option Text :=
  if argument.type = contextualCallback then argument.probe parameter else some argument.type

/-- The rank of one argument, `none` if it does not match. -/
def Context.argumentRank (ctx : Context) (parameter : Text) (argument : Argument) : Option Int := do
  let source ← argument.source parameter
  let rank := ctx.conversionRank parameter source argument.isInteger
  if rank < 0 then none else some rank

/-- The ranks of a viable candidate. -/
def Context.ranks (ctx : Context) (parameters : List Text) (arguments : List Argument) :
    Option (List Int) :=
  if parameters.length = arguments.length then
    (parameters.zip arguments).mapM fun pair => ctx.argumentRank pair.1 pair.2
  else none

/-- `noWorse && strictlyBetter`, over the indices of the arguments. -/
def beatsRanks (better worse : List Int) : Bool :=
  ((better.zip worse).all fun pair => pair.1 ≤ pair.2) && (better.zip worse).any fun pair =>
    pair.1 < pair.2

/-- What `selectOverload` returns. -/
structure Selection (α : Type) where
  method : Option α
  ambiguous : Bool

variable {α : Type}

/-- The viable candidates with their ranks. -/
def Context.viable (ctx : Context) (parameters : α → List Text) (candidates : List α)
    (arguments : List Argument) : List (α × List Int) :=
  candidates.filterMap fun candidate =>
    (ctx.ranks (parameters candidate) arguments).map fun ranks => (candidate, ranks)

/-- The candidates that no other one dominates. -/
def bestCandidates [DecidableEq α] (viable : List (α × List Int)) : List α :=
  (viable.filter fun candidate => !viable.any fun other =>
    decide (candidate.1 ≠ other.1) && beatsRanks other.2 candidate.2).map Prod.fst

/-- `SemanticAnalyzer::selectOverload`, on pointers to the candidates. -/
def Context.selectOverload [DecidableEq α] (ctx : Context) (parameters : α → List Text)
    (candidates : List α) (arguments : List Argument) : Selection α :=
  let viable := ctx.viable parameters candidates arguments
  if viable = [] then ⟨none, false⟩
  else
    let best := bestCandidates viable
    if best.length ≠ 1 then ⟨none, true⟩ else ⟨best.head?, false⟩

/-! ### The order of rank vectors -/

/-- At least as good in every argument, and better in some. -/
def BetterRanks (better worse : List Int) : Prop :=
  (∀ (index : Nat) (b w : Int), better[index]? = some b → worse[index]? = some w → b ≤ w) ∧
    ∃ (index : Nat) (b w : Int), better[index]? = some b ∧ worse[index]? = some w ∧ b < w

theorem beatsRanks_iff {better worse : List Int} :
    beatsRanks better worse = true ↔ BetterRanks better worse := by
  have hmem : ∀ pair : Int × Int, pair ∈ better.zip worse ↔
      ∃ index : Nat, better[index]? = some pair.1 ∧ worse[index]? = some pair.2 := by
    intro pair
    rw [List.mem_iff_getElem?]
    exact exists_congr fun index => List.getElem?_zip_eq_some
  unfold beatsRanks BetterRanks
  rw [Bool.and_eq_true, List.all_eq_true, List.any_eq_true]
  constructor
  · rintro ⟨hall, pair, hpair, hless⟩
    obtain ⟨index, hb, hw⟩ := (hmem pair).mp hpair
    refine ⟨fun i b w hib hiw => ?_, index, pair.1, pair.2, hb, hw, of_decide_eq_true hless⟩
    exact of_decide_eq_true (hall (b, w) ((hmem (b, w)).mpr ⟨i, hib, hiw⟩))
  · rintro ⟨hall, index, b, w, hb, hw, hless⟩
    refine ⟨fun pair hpair => ?_, (b, w), (hmem (b, w)).mpr ⟨index, hb, hw⟩, decide_eq_true hless⟩
    obtain ⟨i, hib, hiw⟩ := (hmem pair).mp hpair
    exact decide_eq_true (hall i pair.1 pair.2 hib hiw)

theorem not_betterRanks_self (ranks : List Int) : ¬ BetterRanks ranks ranks := by
  rintro ⟨_, index, b, w, hb, hw, hless⟩
  rw [hb, Option.some.injEq] at hw
  omega

theorem BetterRanks.trans {first second third : List Int} (hlength : first.length = second.length)
    (hlength' : second.length = third.length) (h : BetterRanks first second)
    (h' : BetterRanks second third) : BetterRanks first third := by
  -- the ranks of the second candidate stand between
  have hbetween : ∀ {index : Nat} {b w : Int}, first[index]? = some b → third[index]? = some w →
      ∃ m, second[index]? = some m ∧ b ≤ m ∧ m ≤ w := by
    intro index b w hb hw
    obtain ⟨hin, _⟩ := List.getElem?_eq_some_iff.mp hb
    have hm := List.getElem?_eq_getElem (hlength ▸ hin : index < second.length)
    exact ⟨_, hm, h.1 index b _ hb hm, h'.1 index _ w hm hw⟩
  refine ⟨fun index b w hb hw => ?_, ?_⟩
  · obtain ⟨m, _, hle, hle'⟩ := hbetween hb hw
    omega
  · obtain ⟨index, b, m, hb, hm, hless⟩ := h.2
    obtain ⟨hin, _⟩ := List.getElem?_eq_some_iff.mp hm
    have hw := List.getElem?_eq_getElem (hlength' ▸ hin : index < third.length)
    have hle := h'.1 index m _ hm hw
    exact ⟨index, b, _, hb, hw, by omega⟩

theorem Context.ranks_length {ctx : Context} {parameters : List Text} {arguments : List Argument}
    {ranks : List Int} (h : ctx.ranks parameters arguments = some ranks) :
    ranks.length = arguments.length := by
  unfold Context.ranks at h
  split at h
  · rename_i hlength
    have hmap : ∀ {l : List (Text × Argument)} {f : Text × Argument → Option Int} {bs : List Int},
        l.mapM f = some bs → bs.length = l.length := by
      intro l f bs hbs
      induction l generalizing bs with
      | nil =>
        cases hbs
        rfl
      | cons a rest ih =>
        simp only [List.mapM_cons, bind, Option.bind_eq_some_iff, pure, Option.some.injEq] at hbs
        obtain ⟨b, _, bs', hrest, rfl⟩ := hbs
        rw [List.length_cons, List.length_cons, ih hrest]
    rw [hmap h, List.length_zip, hlength, Nat.min_self]
  · cases h

/-! ### What is selected -/

section

variable (ctx : Context) (parameters : α → List Text) (arguments : List Argument)

/-- The candidate is viable and beats every other viable one. -/
def Context.Dominant (candidates : List α) (candidate : α) : Prop :=
  candidate ∈ candidates ∧ ∃ ranks, ctx.ranks (parameters candidate) arguments = some ranks ∧
    ∀ other ∈ candidates, other ≠ candidate → ∀ otherRanks,
      ctx.ranks (parameters other) arguments = some otherRanks → BetterRanks ranks otherRanks

/-- The order in which `selectOverload` compares viable candidates. -/
def beatsCandidate [DecidableEq α] (better worse : α × List Int) : Bool :=
  decide (worse.1 ≠ better.1) && beatsRanks better.2 worse.2

variable {ctx parameters arguments}

variable {candidates : List α}

theorem Context.mem_viable {entry : α × List Int} :
    entry ∈ ctx.viable parameters candidates arguments ↔
      entry.1 ∈ candidates ∧ ctx.ranks (parameters entry.1) arguments = some entry.2 := by
  unfold Context.viable
  rw [List.mem_filterMap]
  constructor
  · rintro ⟨candidate, hmem, hmap⟩
    obtain ⟨ranks, hranks, rfl⟩ := Option.map_eq_some_iff.mp hmap
    exact ⟨hmem, hranks⟩
  · rintro ⟨hmem, hranks⟩
    exact ⟨entry.1, hmem, by rw [hranks]; rfl⟩

theorem Context.viable_nodup (h : candidates.Nodup) :
    (ctx.viable parameters candidates arguments).Nodup := by
  apply h.filterMap
  intro a b entry ha hb
  obtain ⟨_, _, rfl⟩ := Option.map_eq_some_iff.mp ha
  obtain ⟨_, _, heq⟩ := Option.map_eq_some_iff.mp hb
  exact (Prod.mk.inj heq).1.symm

variable [DecidableEq α]

theorem Context.viable_order (candidates : List α) :
    StrictOrder beatsCandidate (ctx.viable parameters candidates arguments) where
  irrefl x _ := by simp [beatsCandidate]
  trans x hx y hy z hz hxy hyz := by
    simp only [beatsCandidate, Bool.and_eq_true, decide_eq_true_eq, beatsRanks_iff] at hxy hyz ⊢
    obtain ⟨_, hxranks⟩ := Context.mem_viable.mp hx
    obtain ⟨_, hyranks⟩ := Context.mem_viable.mp hy
    obtain ⟨_, hzranks⟩ := Context.mem_viable.mp hz
    have hbetter : BetterRanks x.2 z.2 := hxy.2.trans
      ((Context.ranks_length hxranks).trans (Context.ranks_length hyranks).symm)
      ((Context.ranks_length hyranks).trans (Context.ranks_length hzranks).symm) hyz.2
    refine ⟨fun hsame => ?_, hbetter⟩
    -- one candidate has one vector of ranks
    rw [hsame, hxranks, Option.some.injEq] at hzranks
    rw [hzranks] at hbetter
    exact not_betterRanks_self _ hbetter

theorem bestCandidates_eq (viable : List (α × List Int)) :
    bestCandidates viable = (undominated beatsCandidate viable).map Prod.fst := rfl

theorem Context.best_eq_iff (h : candidates.Nodup) {candidate : α} :
    bestCandidates (ctx.viable parameters candidates arguments) = [candidate] ↔
      ctx.Dominant parameters arguments candidates candidate := by
  rw [bestCandidates_eq]
  have horder : StrictOrder beatsCandidate (ctx.viable parameters candidates arguments) :=
    ctx.viable_order candidates
  have hiff := fun entry => horder.undominated_eq_singleton_iff (ctx.viable_nodup h) (c := entry)
  constructor
  · intro hbest
    obtain ⟨entry, hentry, hcandidate⟩ := List.map_eq_singleton_iff.mp hbest
    subst hcandidate
    obtain ⟨hmem, hall⟩ := (hiff entry).mp hentry
    obtain ⟨hin, hranks⟩ := Context.mem_viable.mp hmem
    refine ⟨hin, entry.2, hranks, fun other hother hne otherRanks hotherRanks => ?_⟩
    have hbeats := hall (other, otherRanks) (Context.mem_viable.mpr ⟨hother, hotherRanks⟩)
      fun heq => hne (congrArg Prod.fst heq)
    rw [beatsCandidate, Bool.and_eq_true, beatsRanks_iff] at hbeats
    exact hbeats.2
  · rintro ⟨hin, ranks, hranks, hall⟩
    have hone := (hiff (candidate, ranks)).mpr ⟨Context.mem_viable.mpr ⟨hin, hranks⟩, ?_⟩
    · rw [hone]
      rfl
    · intro other hother hne
      obtain ⟨hotherIn, hotherRanks⟩ := Context.mem_viable.mp hother
      have hdifferent : other.1 ≠ candidate := by
        rintro heq
        rw [heq, hranks, Option.some.injEq] at hotherRanks
        exact hne (Prod.ext heq hotherRanks.symm)
      rw [beatsCandidate, Bool.and_eq_true, decide_eq_true_eq, beatsRanks_iff]
      exact ⟨hdifferent, hall other.1 hotherIn hdifferent other.2 hotherRanks⟩

theorem Context.selectOverload_some (h : candidates.Nodup) {candidate : α} :
    (ctx.selectOverload parameters candidates arguments).method = some candidate ↔
      ctx.Dominant parameters arguments candidates candidate := by
  rw [← Context.best_eq_iff h]
  unfold Context.selectOverload
  dsimp only
  generalize ctx.viable parameters candidates arguments = viable
  by_cases hnone : viable = []
  · rw [if_pos hnone, hnone]
    simp [bestCandidates]
  · rw [if_neg hnone]
    by_cases hone : (bestCandidates viable).length ≠ 1
    · rw [if_pos hone]
      refine iff_of_false nofun fun hbest => hone ?_
      rw [hbest]
      rfl
    · rw [if_neg hone]
      obtain ⟨found, hfound⟩ := List.length_eq_one_iff.mp (not_not.mp hone)
      rw [hfound]
      simp

theorem Context.selectOverload_ambiguous (h : candidates.Nodup) :
    (ctx.selectOverload parameters candidates arguments).ambiguous = true ↔
      (∃ candidate ∈ candidates, (ctx.ranks (parameters candidate) arguments).isSome = true) ∧
        ∀ candidate, ¬ ctx.Dominant parameters arguments candidates candidate := by
  have hviable : ctx.viable parameters candidates arguments ≠ [] ↔
      ∃ candidate ∈ candidates, (ctx.ranks (parameters candidate) arguments).isSome = true := by
    constructor
    · intro hne
      obtain ⟨entry, hentry⟩ := List.exists_mem_of_ne_nil _ hne
      obtain ⟨hin, hranks⟩ := Context.mem_viable.mp hentry
      exact ⟨entry.1, hin, by rw [hranks]; rfl⟩
    · rintro ⟨candidate, hin, hsome⟩
      obtain ⟨ranks, hranks⟩ := Option.isSome_iff_exists.mp hsome
      exact List.ne_nil_of_mem (a := (candidate, ranks)) (Context.mem_viable.mpr ⟨hin, hranks⟩)
  rw [← hviable, ← forall_congr' fun candidate => not_congr (Context.best_eq_iff h)]
  unfold Context.selectOverload
  dsimp only
  generalize ctx.viable parameters candidates arguments = viable
  by_cases hnone : viable = []
  · rw [if_pos hnone]
    simp [hnone]
  · rw [if_neg hnone]
    by_cases hone : (bestCandidates viable).length ≠ 1
    · rw [if_pos hone]
      refine iff_of_true rfl ⟨hnone, fun candidate hbest => hone ?_⟩
      rw [hbest]
      rfl
    · rw [if_neg hone]
      obtain ⟨found, hfound⟩ := List.length_eq_one_iff.mp (not_not.mp hone)
      exact iff_of_false nofun fun hall => hall.2 found hfound

theorem Context.selectOverload_perm {candidates' : List α} (hperm : candidates.Perm candidates') :
    ctx.selectOverload parameters candidates arguments
      = ctx.selectOverload parameters candidates' arguments := by
  have hviable : (ctx.viable parameters candidates arguments).Perm
      (ctx.viable parameters candidates' arguments) := hperm.filterMap _
  have hbest : (bestCandidates (ctx.viable parameters candidates arguments)).Perm
      (bestCandidates (ctx.viable parameters candidates' arguments)) := by
    rw [bestCandidates_eq, bestCandidates_eq]
    exact (undominated_perm hviable).map _
  have hnil : ctx.viable parameters candidates arguments = [] ↔
      ctx.viable parameters candidates' arguments = [] := by
    rw [← List.length_eq_zero_iff, hviable.length_eq, List.length_eq_zero_iff]
  unfold Context.selectOverload
  dsimp only
  simp only [hnil, hbest.length_eq]
  split
  · rfl
  · split
    · rfl
    · rename_i hone
      obtain ⟨found, hfound⟩ := List.length_eq_one_iff.mp (not_not.mp hone)
      rw [hfound] at hbest
      rw [hfound, List.perm_singleton.mp hbest]

end

/-! ## Distances -/

/-- This many edges lead from a class to a base of the name. -/
inductive PathTo (target : Text) : ClassDeclaration → Nat → Prop where
  | here {c : ClassDeclaration} (h : c.label.name = target) : PathTo target c 0
  | step {c : ClassDeclaration} {base : BaseInfo × ClassDeclaration} (hbase : base ∈ c.edges)
      {n : Nat} (h : PathTo target base.2 n) : PathTo target c (n + 1)

/-- The inheritance distance. -/
def IsDistance (target : Text) (c : ClassDeclaration) (n : Nat) : Prop :=
  PathTo target c n ∧ ∀ m, PathTo target c m → n ≤ m

/-- The last of its bases that leads to the target. -/
def lastBase (target : Text) (c : ClassDeclaration) : Option (BaseInfo × ClassDeclaration) :=
  c.edges.reverse.find? fun base => leadsTo target base.2

/-- The path that takes such a base at every class. -/
inductive LastPath (target : Text) : ClassDeclaration → Nat → Prop where
  | here {c : ClassDeclaration} (h : c.label.name = target) : LastPath target c 0
  | step {c : ClassDeclaration} {base : BaseInfo × ClassDeclaration} (hne : c.label.name ≠ target)
      (hlast : lastBase target c = some base) {n : Nat} (h : LastPath target base.2 n) :
      LastPath target c (n + 1)

/-- At each class of that path, the base taken is a nearest one. -/
inductive LastIsNearest (target : Text) : ClassDeclaration → Prop where
  | here {c : ClassDeclaration} (h : c.label.name = target) : LastIsNearest target c
  | through {c : ClassDeclaration} {base : BaseInfo × ClassDeclaration}
      (hlast : lastBase target c = some base)
      (hnear : ∀ other ∈ c.edges, ∀ n m, IsDistance target base.2 n → PathTo target other.2 m →
        n ≤ m)
      (hrest : LastIsNearest target base.2) : LastIsNearest target c

theorem exists_pathTo (target : Text) (c : ClassDeclaration) (h : leadsTo target c = true) :
    ∃ n, PathTo target c n := by
  rcases leadsTo_step.mp h with hname | ⟨base, hbase, hleads⟩
  · exact ⟨0, .here hname⟩
  · have hbelow : base.2.Below c := ⟨base, hbase, Tree.mem_subtrees_self _⟩
    obtain ⟨n, hn⟩ := exists_pathTo target base.2 hleads
    exact ⟨n + 1, .step hbase hn⟩
termination_by Tree.below_wellFounded.wrap c
decreasing_by exact hbelow

variable {c : ClassDeclaration} {n : Nat}

theorem exists_distance {target : Text} (h : leadsTo target c = true) :
    ∃ n, IsDistance target c n := by
  classical
  have hexists := exists_pathTo target c h
  exact ⟨Nat.find hexists, Nat.find_spec hexists, fun m hm => Nat.find_min' hexists hm⟩

theorem lastBase_some {target : Text} {base : BaseInfo × ClassDeclaration}
    (h : lastBase target c = some base) : base ∈ c.edges ∧ leadsTo target base.2 = true :=
  ⟨List.mem_reverse.mp (List.mem_of_find?_eq_some h),
    List.find?_some (p := fun base : BaseInfo × ClassDeclaration => leadsTo target base.2) h⟩

theorem exists_lastPath (target : Text) (c : ClassDeclaration) (h : leadsTo target c = true) :
    ∃ n, LastPath target c n := by
  by_cases hname : c.label.name = target
  · exact ⟨0, .here hname⟩
  · obtain ⟨base, hbase, hleads⟩ := (leadsTo_step.mp h).resolve_left hname
    obtain ⟨last, hlast⟩ : ∃ last, lastBase target c = some last := by
      rw [← Option.isSome_iff_exists, lastBase, List.find?_isSome]
      exact ⟨base, List.mem_reverse.mpr hbase, hleads⟩
    obtain ⟨hmem, hlastLeads⟩ := lastBase_some hlast
    have hbelow : last.2.Below c := ⟨last, hmem, Tree.mem_subtrees_self _⟩
    obtain ⟨n, hn⟩ := exists_lastPath target last.2 hlastLeads
    exact ⟨n + 1, .step hname hlast hn⟩
termination_by Tree.below_wellFounded.wrap c
decreasing_by exact hbelow

theorem LastPath.pathTo {target : Text} (h : LastPath target c n) :
    PathTo target c n := by
  induction h with
  | here h => exact .here h
  | step _ hlast _ ih => exact .step (lastBase_some hlast).1 ih

theorem LastPath.isDistance_iff {target : Text}
    (h : LastPath target c n) : IsDistance target c n ↔ LastIsNearest target c := by
  induction h with
  | here h => exact iff_of_true ⟨.here h, fun m _ => Nat.zero_le m⟩ (.here h)
  | @step c base hne hlast n hpath ih =>
    constructor
    · rintro ⟨_, hleast⟩
      have hbase : IsDistance target base.2 n := by
        refine ⟨hpath.pathTo, fun m hm => ?_⟩
        exact Nat.le_of_succ_le_succ (hleast (m + 1) (.step (lastBase_some hlast).1 hm))
      refine .through hlast (fun other hother n' m hn' hm => ?_) (ih.mp hbase)
      have hle := hleast (m + 1) (.step hother hm)
      have hsame := hn'.2 n hbase.1
      omega
    · intro hnearest
      cases hnearest with
      | here hname => exact absurd hname hne
      | through hlast' hnear hrest =>
        rw [hlast, Option.some.injEq] at hlast'
        subst hlast'
        have hbase := ih.mpr hrest
        refine ⟨.step (lastBase_some hlast).1 hbase.1, fun m hm => ?_⟩
        cases hm with
        | here hname => exact absurd hname hne
        | step hother hleads => exact Nat.succ_le_succ (hnear _ hother n _ hbase hleads)

/-! ## The search -/

/-- What the search makes of a pending class: it ends with the last path, or
    passes over the class. -/
def Searches (target : Text) (c : ClassDeclaration) : Prop :=
  ∀ (depth : Nat) (rest : List (ClassDeclaration × Nat)) (visited : List Text),
    Fruitless target visited c →
    (∀ n, LastPath target c n → rankSearch target ((c, depth) :: rest) visited = some (depth + n)) ∧
    (leadsTo target c = false → ∃ visited',
      (∀ name ∈ visited', name ∈ visited ∨ ∃ u ∈ c.subtrees, u.label.name = name) ∧
      rankSearch target ((c, depth) :: rest) visited = rankSearch target rest visited')

variable {p : Program} {target : Text}

theorem searchesBases (hc : c ∈ p.classes) (bases : List (BaseInfo × ClassDeclaration))
    (hbases : ∀ base ∈ bases, base ∈ c.edges) (hsearch : ∀ base ∈ bases, Searches target base.2)
    (depth : Nat) (rest : List (ClassDeclaration × Nat)) :
    ∀ visited, (∀ base ∈ bases, Fruitless target visited base.2) →
      (∀ base n, bases.find? (fun base => leadsTo target base.2) = some base →
        LastPath target base.2 n →
        rankSearch target ((bases.map fun base => (base.2, depth)) ++ rest) visited =
        some (depth + n)) ∧
      (bases.find? (fun base => leadsTo target base.2) = none → ∃ visited',
        (∀ name ∈ visited', name ∈ visited ∨ ∃ u : ClassDeclaration, u.Below c ∧
        u.label.name = name) ∧
        rankSearch target ((bases.map fun base => (base.2, depth)) ++ rest) visited
          = rankSearch target rest visited') := by
  induction bases with
  | nil =>
    intro visited _
    exact ⟨nofun, fun _ => ⟨visited, fun name hname => .inl hname, rfl⟩⟩
  | cons base bases ih =>
    intro visited hfruitless
    have hedge := hbases base List.mem_cons_self
    obtain ⟨hfound, hpassed⟩ := hsearch base List.mem_cons_self depth
      ((bases.map fun base => (base.2, depth)) ++ rest) visited (hfruitless base List.mem_cons_self)
    cases hleads : leadsTo target base.2 with
    | true =>
      rw [List.find?_cons_of_pos (p := fun base : BaseInfo × ClassDeclaration =>
        leadsTo target base.2) hleads]
      refine ⟨?_, nofun⟩
      intro first n hfirst hpath
      cases hfirst
      exact hfound n hpath
    | false =>
      rw [List.find?_cons_of_neg (p := fun base : BaseInfo × ClassDeclaration =>
        leadsTo target base.2) (by simpa using hleads)]
      obtain ⟨visited', hvisited', hskip⟩ := hpassed hleads
      -- what was visited on the way leads nowhere in the other bases either
      have hstill : ∀ other ∈ bases, Fruitless target visited' other.2 := by
        intro other hother
        have hmem := List.mem_cons_of_mem base hother
        exact (hfruitless other hmem).beside (p.mem_base hc hedge)
          (p.mem_base hc (hbases other hmem))
          hleads hvisited'
      obtain ⟨hrestFound, hrestPassed⟩ := ih (fun b hb => hbases b (List.mem_cons_of_mem _ hb))
        (fun b hb => hsearch b (List.mem_cons_of_mem _ hb)) visited' hstill
      refine ⟨fun first n hfirst hpath => ?_, fun hnone => ?_⟩
      · exact hskip.trans (hrestFound first n hfirst hpath)
      · obtain ⟨visited'', hvisited'', hend⟩ := hrestPassed hnone
        refine ⟨visited'', fun name hname => ?_, hskip.trans hend⟩
        rcases hvisited'' name hname with hmiddle | hbelow
        · rcases hvisited' name hmiddle with hold | ⟨u, hu, huname⟩
          · exact .inl hold
          · exact .inr ⟨u, ⟨base, hedge, hu⟩, huname⟩
        · exact .inr hbelow

theorem searches (c : ClassDeclaration) (hc : c ∈ p.classes) : Searches target c := by
  intro depth rest visited hfruitless
  rw [rankSearch]
  by_cases hseen : c.label.name ∈ visited
  · have hnone := hfruitless _ hseen c (Tree.mem_subtrees_self c) rfl
    rw [if_pos hseen]
    refine ⟨fun n hpath => ?_, fun _ => ⟨visited, fun name hname => .inl hname, rfl⟩⟩
    have hyes : leadsTo target c = true := by
      cases hpath with
      | here hname => exact leadsTo_step.mpr (.inl hname)
      | step _ hlast _ =>
        exact leadsTo_step.mpr (.inr ⟨_, (lastBase_some hlast).1, (lastBase_some hlast).2⟩)
    rw [hnone] at hyes
    cases hyes
  · rw [if_neg hseen]
    by_cases hname : c.label.name = target
    · rw [if_pos hname]
      refine ⟨fun n hpath => ?_, fun hnone => ?_⟩
      · cases hpath with
        | here _ => rfl
        | step hne _ _ => exact absurd hname hne
      · rw [leadsTo_step.mpr (.inl hname)] at hnone
        cases hnone
    · rw [if_neg hname]
      have hbases : ∀ base ∈ c.edges.reverse, Fruitless target (c.label.name :: visited) base.2 :=
        fun base hbase => hfruitless.enter hc base (List.mem_reverse.mp hbase)
      obtain ⟨hfound, hpassed⟩ := searchesBases hc c.edges.reverse
        (fun base hbase => List.mem_reverse.mp hbase)
        (fun base hbase =>
          have hedge := List.mem_reverse.mp hbase
          have hbelow : base.2.Below c := ⟨base, hedge, Tree.mem_subtrees_self _⟩
          searches base.2 (p.mem_base hc hedge))
        (depth + 1) rest (c.label.name :: visited) hbases
      refine ⟨fun n hpath => ?_, fun hnone => ?_⟩
      · cases hpath with
        | here heq => exact absurd heq hname
        | @step _ base _ hlast n hrest =>
          rw [hfound base n hlast hrest]
          congr 1
          omega
      · have hall : c.edges.reverse.find? (fun base => leadsTo target base.2) = none := by
          rw [List.find?_eq_none]
          intro base hbase hleads
          rw [leadsTo_step.mpr (.inr ⟨base, List.mem_reverse.mp hbase, hleads⟩)] at hnone
          cases hnone
        obtain ⟨visited', hvisited', hend⟩ := hpassed hall
        refine ⟨visited', fun name hmem => ?_, hend⟩
        rcases hvisited' name hmem with hcons | ⟨u, hu, huname⟩
        · rcases List.mem_cons.mp hcons with rfl | hold
          · exact .inr ⟨c, Tree.mem_subtrees_self c, rfl⟩
          · exact .inl hold
        · exact .inr ⟨u, Tree.mem_subtrees.mpr (.inr hu), huname⟩
termination_by Tree.below_wellFounded.wrap c
decreasing_by exact hbelow

theorem rankSearch_eq (hc : c ∈ p.classes) (h : LastPath target c n) :
    rankSearch target [(c, 0)] [] = some n := by
  obtain ⟨hfound, _⟩ := searches c hc 0 [] [] nofun
  rw [hfound n h, Nat.zero_add]

/-! ## Ranks of conversions to a base -/

section

variable {ctx : Context} {source target : ClassDeclaration}

theorem Context.isAssignableType_classes
    (hkeywords : ∀ c ∈ ctx.program.classes, c.label.name ∉ nullName :: builtinTypes)
    (hsource : source ∈ ctx.program.classes) (htarget : target ∈ ctx.program.classes)
    (hne : target.label.name ≠ source.label.name) :
    ctx.isAssignableType target.label.name source.label.name = ctx.isAssignable target source := by
  have hany : ∀ c ∈ ctx.program.classes, c.label.name ≠ "any".toList := by
    intro c hc heq
    exact hkeywords c hc (heq ▸ List.mem_cons_of_mem _ (by simp [builtinTypes]))
  have hnull : source.label.name ≠ nullName := by
    intro heq
    exact hkeywords source hsource (heq ▸ List.mem_cons_self)
  have hsourceType := isQualified_not_callback (ctx.program.qualified source hsource)
  have htargetType := isQualified_not_callback (ctx.program.qualified target htarget)
  have hsourceFound := ctx.program.find_subtree hsource (Tree.mem_subtrees_self source)
  have htargetFound := ctx.program.find_subtree htarget (Tree.mem_subtrees_self target)
  unfold Context.isAssignableType
  dsimp only
  rw [if_neg hne, hsourceType, htargetType, if_neg (by decide), if_neg (hany target htarget),
    if_neg (hany source hsource), if_neg hnull, htargetFound, hsourceFound]

theorem leadsTo_of_assignable (hsource : source ∈ ctx.program.classes)
    (htarget : target ∈ ctx.program.classes)
    (hne : target.label.name ≠ source.label.name) (h : ctx.isAssignable target source = true) :
    leadsTo target.label.name source = true := by
  unfold Context.isAssignable at h
  rw [beq_eq_false_iff_ne.mpr (Ne.symm hne), Bool.false_or, Bool.and_eq_true] at h
  have hcount := (findsOneSubobject_iff hsource htarget).mp h.1
  exact leadsTo_iff.mpr ⟨target, mem_subtrees_of_count hsource htarget (by omega), rfl⟩

theorem Context.conversionRank_eq
    (hkeywords : ∀ c ∈ ctx.program.classes, c.label.name ∉ nullName :: builtinTypes)
    (hsource : source ∈ ctx.program.classes) (htarget : target ∈ ctx.program.classes)
    (hne : target.label.name ≠ source.label.name)
    (hassignable : ctx.isAssignableType target.label.name source.label.name = true)
    (isInteger : Bool)
    {n : Nat} (h : LastPath target.label.name source n) :
    ctx.conversionRank target.label.name source.label.name isInteger = 2 + n := by
  have hint : ¬ (source.label.name = "int".toList ∧ target.label.name = "unsigned".toList
      ∧ isInteger = true) := by
    rintro ⟨heq, _⟩
    exact hkeywords source hsource (heq ▸ List.mem_cons_of_mem _ (by simp [builtinTypes]))
  have hnull : ¬ (source.label.name = nullName ∧ (ctx.program.find target.label.name).isSome =
      true) := by
    rintro ⟨heq, _⟩
    exact hkeywords source hsource (heq ▸ List.mem_cons_self)
  unfold Context.conversionRank
  rw [if_neg hne, if_neg hint, if_neg hnull, if_neg (by rw [hassignable]; decide),
    ctx.program.find_subtree hsource (Tree.mem_subtrees_self source),
    ctx.program.find_subtree htarget (Tree.mem_subtrees_self target)]
  dsimp only
  rw [rankSearch_eq hsource h]

end

/-! ## What resolution promises -/

/-- What `selectOverload` promises for candidates. -/
structure Context.SelectsDominant [DecidableEq α] (ctx : Context) (parameters : α → List Text)
    (candidates : List α) (arguments : List Argument) : Prop where
  selected : ∀ candidate, (ctx.selectOverload parameters candidates arguments).method =
    some candidate ↔
    ctx.Dominant parameters arguments candidates candidate
  ambiguous : (ctx.selectOverload parameters candidates arguments).ambiguous = true ↔
    (∃ candidate ∈ candidates, (ctx.ranks (parameters candidate) arguments).isSome = true) ∧
      ∀ candidate, ¬ ctx.Dominant parameters arguments candidates candidate
  ordered : ∀ candidates', candidates.Perm candidates' →
    ctx.selectOverload parameters candidates' arguments
      = ctx.selectOverload parameters candidates arguments

def Context.RanksByDistance (ctx : Context) (target source : ClassDeclaration) (isInteger : Bool) :
    Prop :=
  ∀ distance, IsDistance target.label.name source distance →
    ctx.conversionRank target.label.name source.label.name isInteger = 2 + distance

/-- Selection is by dominance for every list of candidates, and the rank of a
    conversion to a base is its distance exactly if the last of the bases that
    lead there is always a nearest one. -/
theorem overloads_resolve_iff [DecidableEq α] {ctx : Context} {parameters : α → List Text}
    {candidates : List α} {arguments : List Argument} {target source : ClassDeclaration}
    {isInteger : Bool}
    (hcandidates : candidates.Nodup)
    (hkeywords : ∀ c ∈ ctx.program.classes, c.label.name ∉ nullName :: builtinTypes)
    (hsource : source ∈ ctx.program.classes) (htarget : target ∈ ctx.program.classes)
    (hne : target.label.name ≠ source.label.name)
    (hassignable : ctx.isAssignableType target.label.name source.label.name = true) :
    ctx.SelectsDominant parameters candidates arguments ∧
      (ctx.RanksByDistance target source isInteger ↔ LastIsNearest target.label.name source) := by
  constructor
  · exact
      { selected := fun candidate => ctx.selectOverload_some hcandidates
        ambiguous := ctx.selectOverload_ambiguous hcandidates
        ordered := fun candidates' hperm => (ctx.selectOverload_perm hperm).symm }
  · have hclasses := ctx.isAssignableType_classes hkeywords hsource htarget hne
    have hleads := leadsTo_of_assignable hsource htarget hne (hclasses ▸ hassignable)
    obtain ⟨n, hpath⟩ := exists_lastPath target.label.name source hleads
    obtain ⟨distance, hdistance⟩ := exists_distance hleads
    have hrank := ctx.conversionRank_eq hkeywords hsource htarget hne hassignable isInteger hpath
    rw [← hpath.isDistance_iff]
    constructor
    · intro hranks
      have hsame := hrank.symm.trans (hranks distance hdistance)
      have heq : n = distance := by omega
      exact heq ▸ hdistance
    · intro hnearest other hother
      have hle := hnearest.2 other hother.1
      have hge := hother.2 n hnearest.1
      rw [hrank]
      omega

/-! ### A base that is also shared -/

/-- `class A` -/
def sharedA : ClassDeclaration := .node (plainClass "A" []) .nil

/-- `class C : virtual A` -/
def middleC : ClassDeclaration := .node (plainClass "C" [])
    (.cons ⟨.publicAccess, true⟩ sharedA .nil)

/-- `class D : virtual A, C` -/
def detourD : ClassDeclaration :=
  .node (plainClass "D" [])
    (.cons ⟨.publicAccess, true⟩ sharedA (.cons ⟨.publicAccess, false⟩ middleC .nil))

def detourClasses : List ClassDeclaration := [sharedA, middleC, detourD]

theorem detourClasses_plain :
    ∀ c ∈ detourClasses, ∀ method ∈ c.label.methods, method.parameters = [] := by decide +kernel

def detourProgram : Program where
  classes := detourClasses
  resolved := by decide +kernel
  distinct := by decide +kernel
  qualified := by decide +kernel
  separate := by decide +kernel
  builtinBases := by decide +kernel
  directBases := by decide +kernel
  methodNames := by decide +kernel
  destructors := by decide +kernel
  plainDestructors := fun c hc method h _ => detourClasses_plain c hc method h
  methods := by decide +kernel
  types := normalized_of_plain detourClasses_plain
  overrides := by decide +kernel

def detourContext : Context := ⟨detourProgram, none, nofun⟩

/-- Of `f(A)` and `f(C)` a call with a `D` selects the second. -/
theorem detour_resolves :
    detourContext.SelectsDominant (fun parameter => [parameter]) [['A'], ['C']]
        [⟨['D'], false, fun _ => none⟩] ∧
      (detourContext.selectOverload (fun parameter => [parameter]) [['A'], ['C']]
        [⟨['D'], false, fun _ => none⟩]).method = some ['C'] ∧
      (detourContext.RanksByDistance sharedA detourD false ↔ LastIsNearest ['A'] detourD) := by
  have hresolves := @overloads_resolve_iff Text _ detourContext (fun parameter => [parameter])
    [['A'], ['C']] [⟨['D'], false, fun _ => none⟩] sharedA detourD false (by decide)
    (by unfold nullName; decide +kernel) (by decide +kernel) (by decide +kernel) (by decide)
    (by decide +kernel)
  exact ⟨hresolves.1, by decide +kernel, hresolves.2⟩

/-- `A` is a base of `D`, and its rank is that of the way through `C`. -/
theorem detour_rank : ¬ ∀ (ctx : Context) (target source : ClassDeclaration),
    (∀ c ∈ ctx.program.classes, c.label.name ∉ nullName :: builtinTypes) →
    source ∈ ctx.program.classes → target ∈ ctx.program.classes →
    target.label.name ≠ source.label.name →
    ctx.isAssignableType target.label.name source.label.name = true →
    ctx.RanksByDistance target source false := by
  intro h
  have hranks := h detourContext sharedA detourD (by unfold nullName; decide +kernel)
    (by decide +kernel) (by decide +kernel) (by decide) (by decide +kernel)
  have hedge : ((⟨.publicAccess, true⟩, sharedA) : BaseInfo × ClassDeclaration) ∈ detourD.edges :=
    List.mem_cons_self
  have hstep : PathTo ['A'] detourD 1 := .step hedge (.here rfl)
  have hdistance : IsDistance ['A'] detourD 1 := by
    refine ⟨hstep, fun m hm => ?_⟩
    cases hm with
    | here hname => cases hname
    | step _ _ => exact Nat.succ_pos _
  have hrank := hranks 1 hdistance
  have hpath : LastPath ['A'] detourD 2 :=
    .step (by decide)
      (by decide +kernel : lastBase ['A'] detourD = some (⟨.publicAccess, false⟩, middleC))
      (.step (by decide)
        (by decide +kernel : lastBase ['A'] middleC = some (⟨.publicAccess, true⟩, sharedA))
        (.here rfl))
  have htwo := detourContext.conversionRank_eq (by unfold nullName; decide +kernel)
    (by decide +kernel : detourD ∈ detourProgram.classes)
      (by decide +kernel : sharedA ∈ detourProgram.classes)
    (by decide) (by decide +kernel) false hpath
  rw [hrank] at htwo
  cases htwo

end Cwhip.CodeGen
