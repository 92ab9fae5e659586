/-
  Cwhip.CodeGen.Upcasts

  Conversions to a base: the paths that the analyzer counts
  (`SemanticInheritance.cpp`), the conversion that the generator emits
  (`CodeGeneratorLayout.cpp`), and the checked cast of the runtime over the base
  table (`CodeGeneratorModule.cpp`, `RuntimeGc.c`).
-/

import Cwhip.CodeGen.BaseAccess
import Cwhip.CodeGen.Construction
import Cwhip.CodeGen.DynamicValue
import Cwhip.CodeGen.FinalOverrider

namespace Cwhip.CodeGen

open Cwhip.Lib
open Cwhip.Inheritance (AccessLevel BaseInfo)

/-! ## The analyzer -/

mutual

/-- `countPaths` of `isAssignable`, on the virtual bases seen.  A base of the
    target's name is counted and not entered. -/
def countPaths (target : Text) : ClassDeclaration → List Text → Nat × List Text
  | .node _ bases, seen => countPathsBases target bases seen

def countPathsBases (target : Text) : Edges ClassInfo BaseInfo → List Text → Nat × List Text
  | .nil, seen => (0, seen)
  | .cons edge base rest, seen =>
    if edge.isVirtual = true ∧ base.label.name ∈ seen then countPathsBases target rest seen
    else
      let entered := if edge.isVirtual then base.label.name :: seen else seen
      let below := if base.label.name = target then (1, entered) else countPaths target base entered
      let after := countPathsBases target rest below.2
      (below.1 + after.1, after.2)

end

mutual

/-- `findPath` of `isAssignable` and of `convertObjectValue`: the first path of
    base names to the target. -/
def findPath (target : Text) : ClassDeclaration → Option (List Text)
  | .node _ bases => findPathBases target bases

def findPathBases (target : Text) : Edges ClassInfo BaseInfo → Option (List Text)
  | .nil => none
  | .cons _ base rest =>
    if base.label.name = target then some [base.label.name]
    else
      match findPath target base with
      | some path => some (base.label.name :: path)
      | none => findPathBases target rest

end

/-- The check of `isAssignable` that there is one subobject to convert to. -/
def Program.findsOneSubobject (p : Program) (target source : ClassDeclaration) : Bool :=
  p.isSubclassOf source.label.name target.label.name &&
    (countPaths target.label.name source []).1 == 1

/-- `SemanticAnalyzer::isAssignable`, of two classes. -/
def Context.isAssignable (ctx : Context) (target source : ClassDeclaration) : Bool :=
  source.label.name == target.label.name ||
    ctx.program.findsOneSubobject target source &&
      match findPath target.label.name source with
      | none => false
      | some path => ctx.basePathAccessible source path

/-! ## The generator -/

/-- `CodeGenerator::convertObjectValue`, of an object: the pointer that the
    emitted code computes. -/
def convertObjectValue (memory : Memory) (pointer : Nat) (source target : ClassDeclaration) :
    Option Nat :=
  if source.label.name = target.label.name then some pointer
  else do
    let path ← findPath target.label.name source
    let address ← emitSubobjectAddress memory pointer source path
    some (if pointer = 0 then 0 else address)

def baseEntry (owner : ClassDeclaration) (subobject : List Text × ClassDeclaration) :
    Option BaseEntry :=
  (subobjectFieldOffset owner subobject.1 0).map fun offset => ⟨subobject.2.label.name, offset⟩

def classMetadata (owner : ClassDeclaration) : Option ClassMeta :=
  (((subobjects owner).filter fun subobject => subobject.1 != []).mapM (baseEntry owner)).map
    fun bases => ⟨owner.label.name, bases⟩

/-! ## Counting -/

/-- Base subobjects with the name of a class. -/
def baseCount (target : Text) (entries : List (List Text × ClassDeclaration)) : Nat :=
  entries.countP fun entry => entry.2.label.name == target

/-- Lists of names that differ only in names of classes below the target. -/
def AgreeOff (target : ClassDeclaration) (seen seen' : List Text) : Prop :=
  ∀ name, (∀ v : ClassDeclaration, v.Below target → v.label.name ≠ name) →
    (name ∈ seen ↔ name ∈ seen')

variable {target root : ClassDeclaration} {seen seen' : List Text}

/-- Names below the target do not matter to its count. -/
theorem AgreeOff.trans_below {entered entered' : List Text} (h : AgreeOff target seen seen')
    (hgrows : seen ⊆ entered) (hgrows' : seen' ⊆ entered')
    (hbelow : ∀ name ∈ entered, name ∈ seen ∨ ∃ v : ClassDeclaration, v.Below target ∧
    v.label.name = name)
    (hbelow' : ∀ name ∈ entered', name ∈ seen' ∨ ∃ v : ClassDeclaration, v.Below target ∧
    v.label.name = name) :
    AgreeOff target entered entered' := by
  intro name hname
  constructor
  · intro hmem
    rcases hbelow name hmem with hmem | ⟨v, hv, heq⟩
    · exact hgrows' ((h name hname).mp hmem)
    · exact absurd heq (hname v hv)
  · intro hmem
    rcases hbelow' name hmem with hmem | ⟨v, hv, heq⟩
    · exact hgrows ((h name hname).mpr hmem)
    · exact absurd heq (hname v hv)

theorem AgreeOff.cons (h : AgreeOff target seen seen')
    (name : Text) : AgreeOff target (name :: seen) (name :: seen') := by
  intro other hother
  rw [List.mem_cons, List.mem_cons, h other hother]

mutual

/-- The count only adds names of classes below. -/
theorem countPaths_seen (target : Text) (c : ClassDeclaration) (seen : List Text) :
    seen ⊆ (countPaths target c seen).2 ∧ ∀ name ∈ (countPaths target c seen).2,
      name ∈ seen ∨ ∃ v : ClassDeclaration, v.Below c ∧ v.label.name = name := by
  match c with
  | .node info bases =>
    obtain ⟨hgrows, hnew⟩ := countPathsBases_seen target bases seen
    rw [countPaths]
    refine ⟨hgrows, fun name hname => (hnew name hname).imp_right ?_⟩
    rintro ⟨base, hbase, v, hv, heq⟩
    exact ⟨v, ⟨base, hbase, hv⟩, heq⟩

theorem countPathsBases_seen (target : Text) (bases : Edges ClassInfo BaseInfo) (seen : List Text) :
    seen ⊆ (countPathsBases target bases seen).2 ∧ ∀ name ∈ (countPathsBases target bases seen).2,
      name ∈ seen ∨ ∃ base ∈ bases.toList, ∃ v ∈ base.2.subtrees, v.label.name = name := by
  match bases with
  | .nil =>
    rw [countPathsBases]
    exact ⟨List.Subset.refl _, fun _ h => .inl h⟩
  | .cons edge base rest =>
    have hlater : ∀ {name : Text}, (∃ other ∈ rest.toList, ∃ v ∈ other.2.subtrees,
        v.label.name = name) →
        ∃ other ∈ (Edges.cons edge base rest).toList, ∃ v ∈ other.2.subtrees, v.label.name = name :=
      fun ⟨other, hother, hv⟩ => ⟨other, List.mem_cons_of_mem _ hother, hv⟩
    rw [countPathsBases]
    split
    · obtain ⟨hgrows, hnew⟩ := countPathsBases_seen target rest seen
      exact ⟨hgrows, fun name hname => (hnew name hname).imp_right hlater⟩
    · dsimp only
      generalize hentered : (if edge.isVirtual then base.label.name :: seen else seen) = entered
      have hkeep : seen ⊆ entered := by
        rw [← hentered]
        split
        · exact List.subset_cons_self _ _
        · exact List.Subset.refl _
      have hself : ∀ name ∈ entered, name ∈ seen ∨
          ∃ v ∈ base.subtrees, v.label.name = name := by
        intro name hname
        rw [← hentered] at hname
        split at hname
        · rcases List.mem_cons.mp hname with rfl | hname
          · exact .inr ⟨base, Tree.mem_subtrees_self _, rfl⟩
          · exact .inl hname
        · exact .inl hname
      have hbelow : entered ⊆ (if base.label.name = target then (1, entered)
            else countPaths target base entered).2 ∧
          ∀ name ∈ (if base.label.name = target then (1, entered)
            else countPaths target base entered).2,
            name ∈ entered ∨ ∃ v ∈ base.subtrees, v.label.name = name := by
        split
        · exact ⟨List.Subset.refl _, fun _ h => .inl h⟩
        · obtain ⟨hgrows, hnew⟩ := countPaths_seen target base entered
          refine ⟨hgrows, fun name hname => (hnew name hname).imp_right ?_⟩
          exact fun ⟨v, hv, heq⟩ => ⟨v, mem_subtrees_below hv, heq⟩
      generalize (if base.label.name = target then (1, entered)
        else countPaths target base entered) = below at *
      obtain ⟨hgrows, hnew⟩ := countPathsBases_seen target rest below.2
      refine ⟨fun _ h => hgrows (hbelow.1 (hkeep h)), ?_⟩
      intro name hname
      rcases hnew name hname with hname | hname
      · rcases hbelow.2 name hname with hname | hv
        · exact (hself name hname).imp_right fun hv => ⟨_, List.mem_cons_self, hv⟩
        · exact .inr ⟨_, List.mem_cons_self, hv⟩
      · exact .inr (hlater hname)

end

mutual

/-- A class without the target has no path to it. -/
theorem countPaths_absent {target : Text} {c : ClassDeclaration} (seen : List Text)
    (h : ∀ v : ClassDeclaration, v.Below c → v.label.name ≠ target) :
    (countPaths target c seen).1 = 0 := by
  match c with
  | .node info bases =>
    rw [countPaths]
    exact countPathsBases_absent seen fun base hbase v hv => h v ⟨base, hbase, hv⟩

theorem countPathsBases_absent {target : Text} {bases : Edges ClassInfo BaseInfo} (seen : List Text)
    (h : ∀ base ∈ bases.toList, ∀ v ∈ base.2.subtrees, v.label.name ≠ target) :
    (countPathsBases target bases seen).1 = 0 := by
  match bases with
  | .nil => rw [countPathsBases]
  | .cons edge base rest =>
    obtain ⟨hbase, hrest⟩ := List.forall_mem_cons.mp h
    rw [countPathsBases]
    split
    · exact countPathsBases_absent seen hrest
    · dsimp only
      rw [if_neg (hbase base (Tree.mem_subtrees_self _)),
        countPaths_absent _ fun v hv => hbase v (mem_subtrees_below hv),
        countPathsBases_absent _ hrest]

end

theorem subobjectsFrom_seen (c : ClassDeclaration) (path seen : List Text) :
    seen ⊆ (subobjectsFrom c path seen).2 ∧ ∀ name ∈ (subobjectsFrom c path seen).2,
      name ∈ seen ∨ ∃ v : ClassDeclaration, v.Below c ∧ v.label.name = name := by
  refine ⟨(subobjectsFrom_enumerated c path seen).grows, ?_⟩
  intro name hname
  rw [← virtualBasesFrom_seen] at hname
  rcases (virtualBasesFrom_lists c seen).2 name hname with hname | hname
  · exact .inl hname
  · obtain ⟨v, hv, heq⟩ := (virtualBasesFrom_lists c seen).1 name hname
    exact .inr ⟨v, hv.below, heq⟩

theorem baseCount_absent {target : Text} {c : ClassDeclaration} (hdistinct : DistinctBases c)
    (path seen : List Text) (h : ∀ v ∈ c.subtrees, v.label.name ≠ target) :
    baseCount target (subobjectsFrom c path seen).1 = 0 := by
  rw [baseCount, List.countP_eq_zero]
  intro entry hentry
  obtain ⟨rest, -, hwalk⟩ := subobjectsFrom_walk hdistinct hentry
  obtain ⟨spot, hspot⟩ := hwalk whole
  simpa using h entry.2 (walk_mem hspot)

/-- A class lies once in itself. -/
theorem baseCount_self (hdistinct : DistinctBases target) (hroot : Coherent root)
    (htarget : target ∈ root.subtrees) (path seen : List Text) :
    baseCount target.label.name (subobjectsFrom target path seen).1 = 1 := by
  match htree : target with
  | .node info bases =>
    rw [subobjectsFrom, baseCount, List.countP_cons_of_pos (by simp)]
    suffices hnone : (subobjectsBases bases path seen).1.countP
        (fun entry => entry.2.label.name == (Tree.label (.node info bases) : ClassInfo).name) = 0 by
      rw [hnone]
    rw [List.countP_eq_zero]
    intro entry hentry
    obtain ⟨base, hbase, rest, -, hwalk⟩ := subobjectsBases_walk
      (fun base hbase => hdistinct.subtree (Tree.mem_subtrees_edge hbase)) hentry
    obtain ⟨spot, hspot⟩ := hwalk whole
    have hbelow : entry.2.Below (.node info bases : ClassDeclaration) :=
      ⟨base, hbase, walk_mem hspot⟩
    intro hname
    -- an entry of the target's name would be the target below itself
    have hsame := hroot entry.2 (Tree.mem_subtrees_trans _ htarget (mem_subtrees_below hbelow))
      _ htarget (by simpa using hname)
    rw [hsame] at hbelow
    exact Tree.not_below_self _ hbelow

/-- What one base adds to the count, and what it sees. -/
def countEdge (target : Text) (edge : BaseInfo) (base : ClassDeclaration) (seen : List Text) :
    Nat × List Text :=
  if edge.isVirtual = true ∧ base.label.name ∈ seen then (0, seen)
  else
    let entered := if edge.isVirtual then base.label.name :: seen else seen
    if base.label.name = target then (1, entered) else countPaths target base entered

/-- What one base adds to the enumeration, and what it sees. -/
def subobjectsEdge (edge : BaseInfo) (base : ClassDeclaration) (path seen : List Text) :
    List (List Text × ClassDeclaration) × List Text :=
  if edge.isVirtual = true ∧ base.label.name ∈ seen then ([], seen)
  else
    subobjectsFrom base (path ++ [base.label.name])
      (if edge.isVirtual then base.label.name :: seen else seen)

theorem countPathsBases_cons (target : Text) (edge : BaseInfo) (base : ClassDeclaration)
    (rest : Edges ClassInfo BaseInfo) (seen : List Text) :
    countPathsBases target (.cons edge base rest) seen
      = ((countEdge target edge base seen).1
          + (countPathsBases target rest (countEdge target edge base seen).2).1,
        (countPathsBases target rest (countEdge target edge base seen).2).2) := by
  rw [countPathsBases, countEdge]
  split
  · rw [Nat.zero_add]
  · rfl

theorem subobjectsBases_cons (edge : BaseInfo) (base : ClassDeclaration)
    (rest : Edges ClassInfo BaseInfo) (path seen : List Text) :
    subobjectsBases (.cons edge base rest) path seen
      = ((subobjectsEdge edge base path seen).1
          ++ (subobjectsBases rest path (subobjectsEdge edge base path seen).2).1,
        (subobjectsBases rest path (subobjectsEdge edge base path seen).2).2) := by
  rw [subobjectsBases, subobjectsEdge]
  split
  · rfl
  · rfl

/-- The count of a base and the enumeration below it agree. -/
structure Agrees (target : ClassDeclaration) (count : Nat × List Text)
    (result : List (List Text × ClassDeclaration) × List Text) : Prop where
  count_eq : count.1 = baseCount target.label.name result.1
  seen_agree : AgreeOff target count.2 result.2

variable {base current : ClassDeclaration}

theorem entered_below (edge : BaseInfo) (hbelow : base.Below target) {out : List Text}
    (h : (if edge.isVirtual then base.label.name :: seen else seen) ⊆ out ∧
      ∀ name ∈ out, name ∈ (if edge.isVirtual then base.label.name :: seen else seen) ∨
        ∃ v : ClassDeclaration, v.Below base ∧ v.label.name = name) :
    seen ⊆ out ∧ ∀ name ∈ out, name ∈ seen ∨ ∃ v : ClassDeclaration, v.Below target ∧
    v.label.name = name := by
  obtain ⟨hgrows, hnew⟩ := h
  constructor
  · refine List.Subset.trans ?_ hgrows
    split
    · exact List.subset_cons_self _ _
    · exact List.Subset.refl _
  · intro name hname
    rcases hnew name hname with hname | ⟨v, hv, heq⟩
    · split at hname
      · rcases List.mem_cons.mp hname with rfl | hname
        · exact .inr ⟨base, hbelow, rfl⟩
        · exact .inl hname
      · exact .inl hname
    · obtain ⟨first, hfirst, hmem⟩ := hbelow
      exact .inr ⟨v, ⟨first, hfirst, Tree.mem_subtrees_trans _ hmem (mem_subtrees_below hv)⟩, heq⟩

/-- A base below the target adds no path to it. -/
theorem agrees_below (hdistinct : DistinctBases root) (hroot : Coherent root)
    (htarget : target ∈ root.subtrees) {edge : BaseInfo} (hbase : base ∈ root.subtrees)
    (hbelow : base.Below target) (path : List Text) (h : AgreeOff target seen seen') :
    Agrees target (countEdge target.label.name edge base seen)
    (subobjectsEdge edge base path seen') := by
  have hinner : ∀ v ∈ base.subtrees, v.Below target := by
    intro v hv
    obtain ⟨first, hfirst, hmem⟩ := hbelow
    exact ⟨first, hfirst, Tree.mem_subtrees_trans _ hmem hv⟩
  have habsent : ∀ v ∈ base.subtrees, v.label.name ≠ target.label.name := by
    intro v hv hname
    have hsame := hroot v (Tree.mem_subtrees_trans _ hbase hv) target htarget hname
    exact Tree.not_below_self target (hsame ▸ hinner v hv)
  -- whether the base is skipped or entered, only names below the target are seen
  have hcount : (countEdge target.label.name edge base seen).1 = 0 ∧
      seen ⊆ (countEdge target.label.name edge base seen).2 ∧
      ∀ name ∈ (countEdge target.label.name edge base seen).2,
        name ∈ seen ∨ ∃ v : ClassDeclaration, v.Below target ∧ v.label.name = name := by
    rw [countEdge]
    split
    · exact ⟨rfl, List.Subset.refl _, fun _ h => .inl h⟩
    · dsimp only
      rw [if_neg (habsent base (Tree.mem_subtrees_self _))]
      refine ⟨countPaths_absent _ fun v hv => habsent v (mem_subtrees_below hv), ?_⟩
      exact entered_below edge hbelow (countPaths_seen target.label.name base _)
  have hlist : baseCount target.label.name (subobjectsEdge edge base path seen').1 = 0 ∧
      seen' ⊆ (subobjectsEdge edge base path seen').2 ∧
      ∀ name ∈ (subobjectsEdge edge base path seen').2,
        name ∈ seen' ∨ ∃ v : ClassDeclaration, v.Below target ∧ v.label.name = name := by
    rw [subobjectsEdge]
    split
    · exact ⟨rfl, List.Subset.refl _, fun _ h => .inl h⟩
    · refine ⟨baseCount_absent (hdistinct.subtree hbase) _ _ habsent, ?_⟩
      exact entered_below edge hbelow (subobjectsFrom_seen base (path ++ [base.label.name]) _)
  exact ⟨by rw [hcount.1, hlist.1], h.trans_below hcount.2.1 hlist.2.1 hcount.2.2 hlist.2.2⟩

/-- Every edge counts the same paths in both. -/
theorem agrees_edge (hdistinct : DistinctBases root) (hroot : Coherent root)
    (htarget : target ∈ root.subtrees) (edge : BaseInfo) (hbase : base ∈ root.subtrees)
    (path : List Text) (h : AgreeOff target seen seen')
    (hinner : ∀ entered entered', base.label.name ≠ target.label.name →
      AgreeOff target entered entered' →
      Agrees target (countPaths target.label.name base entered)
        (subobjectsFrom base (path ++ [base.label.name]) entered')) :
    Agrees target (countEdge target.label.name edge base seen)
    (subobjectsEdge edge base path seen') := by
  by_cases hbelow : base.Below target
  · exact agrees_below hdistinct hroot htarget hbase hbelow path h
  have hoff : ∀ v : ClassDeclaration, v.Below target → v.label.name ≠ base.label.name := by
    intro v hv hname
    have hsame := hroot v (Tree.mem_subtrees_trans _ htarget (mem_subtrees_below hv))
      base hbase hname
    exact hbelow (hsame ▸ hv)
  have hseen := h _ hoff
  rw [countEdge, subobjectsEdge]
  by_cases hskip : edge.isVirtual = true ∧ base.label.name ∈ seen
  · rw [if_pos hskip, if_pos ⟨hskip.1, hseen.mp hskip.2⟩]
    exact ⟨rfl, h⟩
  · have hskip' : ¬ (edge.isVirtual = true ∧ base.label.name ∈ seen') :=
      fun h => hskip ⟨h.1, hseen.mpr h.2⟩
    rw [if_neg hskip, if_neg hskip']
    dsimp only
    have hentered : AgreeOff target (if edge.isVirtual then base.label.name :: seen else seen)
        (if edge.isVirtual then base.label.name :: seen' else seen') := by
      split
      · exact h.cons _
      · exact h
    generalize (if edge.isVirtual then base.label.name :: seen else seen) = entered at *
    generalize (if edge.isVirtual then base.label.name :: seen' else seen') = entered' at *
    by_cases hname : base.label.name = target.label.name
    · -- the target is counted once, and what is below it is not entered
      obtain rfl : base = target := hroot base hbase target htarget hname
      rw [if_pos rfl]
      obtain ⟨hgrows, hnew⟩ := subobjectsFrom_seen base (path ++ [base.label.name]) entered'
      refine ⟨(baseCount_self (hdistinct.subtree hbase) hroot hbase _ _).symm, ?_⟩
      exact hentered.trans_below (List.Subset.refl _) hgrows (fun _ h => .inl h) hnew
    · rw [if_neg hname]
      exact hinner entered entered' hname hentered

mutual

/-- The analyzer counts the subobjects the generator lays out. -/
theorem countPaths_agrees {root target : ClassDeclaration} (hdistinct : DistinctBases root)
    (hroot : Coherent root) (htarget : target ∈ root.subtrees) {c : ClassDeclaration}
    (hc : c ∈ root.subtrees) (hname : c.label.name ≠ target.label.name) (path : List Text)
    {seen seen' : List Text} (h : AgreeOff target seen seen') :
    Agrees target (countPaths target.label.name c seen) (subobjectsFrom c path seen') := by
  match c with
  | .node info bases =>
    have hbases := countPathsBases_agrees hdistinct hroot htarget bases
      (fun base hbase => Tree.mem_subtrees_trans _ hc (Tree.mem_subtrees_edge hbase)) path h
    rw [countPaths, subobjectsFrom]
    refine ⟨?_, hbases.seen_agree⟩
    rw [hbases.count_eq, baseCount, baseCount, List.countP_cons_of_neg (by simpa using hname)]

theorem countPathsBases_agrees {root target : ClassDeclaration} (hdistinct : DistinctBases root)
    (hroot : Coherent root) (htarget : target ∈ root.subtrees) (bases : Edges ClassInfo BaseInfo)
    (hbases : ∀ base ∈ bases.toList, base.2 ∈ root.subtrees) (path : List Text)
    {seen seen' : List Text} (h : AgreeOff target seen seen') :
    Agrees target (countPathsBases target.label.name bases seen)
    (subobjectsBases bases path seen') := by
  match bases with
  | .nil =>
    rw [countPathsBases, subobjectsBases]
    exact ⟨rfl, h⟩
  | .cons edge base rest =>
    obtain ⟨hbase, hrest⟩ := List.forall_mem_cons.mp hbases
    have hedge := agrees_edge hdistinct hroot htarget edge hbase path h
      fun entered entered' hname hentered =>
        countPaths_agrees hdistinct hroot htarget hbase hname _ hentered
    have hafter := countPathsBases_agrees hdistinct hroot htarget rest hrest path hedge.seen_agree
    rw [countPathsBases_cons, subobjectsBases_cons]
    refine ⟨?_, hafter.seen_agree⟩
    rw [hedge.count_eq, hafter.count_eq, baseCount, baseCount, baseCount, List.countP_append]

end

/-- One path to a class is one subobject of it. -/
theorem countPaths_subobjects {source : ClassDeclaration} (hdistinct : DistinctBases source)
    (hc : Coherent source) (htarget : target ∈ source.subtrees)
    (hname : source.label.name ≠ target.label.name) :
    (countPaths target.label.name source []).1 = baseCount target.label.name (subobjects source) :=
  (countPaths_agrees hdistinct hc htarget (Tree.mem_subtrees_self _) hname [] fun _ _ =>
    Iff.rfl).count_eq

/-! ## The first path -/

mutual

/-- Where no path is found there is none. -/
theorem findPath_none {target : Text} {c : ClassDeclaration} (h : findPath target c = none) :
    ∀ v : ClassDeclaration, v.Below c → v.label.name ≠ target := by
  match c with
  | .node info bases =>
    rw [findPath] at h
    rintro v ⟨base, hbase, hv⟩
    exact findPathBases_none h base hbase v hv

theorem findPathBases_none {target : Text} {bases : Edges ClassInfo BaseInfo}
    (h : findPathBases target bases = none) :
    ∀ base ∈ bases.toList, ∀ v ∈ base.2.subtrees, v.label.name ≠ target := by
  match bases with
  | .nil => exact fun _ h => (nomatch h)
  | .cons edge base rest =>
    rw [findPathBases] at h
    split at h
    · cases h
    · next hname =>
      split at h
      · cases h
      · next hnone =>
        rw [Edges.toList, List.forall_mem_cons]
        refine ⟨?_, findPathBases_none h⟩
        intro v hv
        rcases Tree.mem_subtrees.mp hv with rfl | hv
        · exact hname
        · exact findPath_none hnone v hv

end

/-- Virtual bases seen so far have been entered from the current class's derived
    classes, or do not lead to the target. -/
def Spares (root target current : ClassDeclaration) (seen : List Text) : Prop :=
  ∀ name ∈ seen, ∀ v ∈ root.subtrees, v.label.name = name → target ∈ v.subtrees →
    current ∈ v.subtrees

/-- No virtual base on the way to the target was skipped. -/
theorem Spares.not_seen (h : Spares root target current seen) {base : BaseInfo × ClassDeclaration}
    (hbase : base ∈ current.edges) (hmem : base.2 ∈ root.subtrees)
    (htarget : target ∈ base.2.subtrees) :
    base.2.label.name ∉ seen := by
  intro hseen
  -- the class would be below its own base
  exact Tree.not_below_self current ⟨base, hbase, h _ hseen base.2 hmem rfl htarget⟩

theorem Spares.enter (hroot : Coherent root) (h : Spares root target current seen)
    {base : BaseInfo × ClassDeclaration} (hbase : base ∈ current.edges)
    (hmem : base.2 ∈ root.subtrees) :
    Spares root target base.2 (if base.1.isVirtual then base.2.label.name :: seen else seen) := by
  have hseen : Spares root target base.2 seen := by
    intro name hname v hv heq htarget
    exact Tree.mem_subtrees_trans _ (h name hname v hv heq htarget) (Tree.mem_subtrees_edge hbase)
  split
  · intro name hname v hv heq htarget
    rcases List.mem_cons.mp hname with rfl | hname
    · rw [hroot v hv base.2 hmem heq]
      exact Tree.mem_subtrees_self _
    · exact hseen name hname v hv heq htarget
  · exact hseen

mutual

theorem findPath_absent {target : Text} {c : ClassDeclaration}
    (h : ∀ v : ClassDeclaration, v.Below c → v.label.name ≠ target) : findPath target c = none := by
  match c with
  | .node info bases =>
    rw [findPath]
    exact findPathBases_absent fun base hbase v hv => h v ⟨base, hbase, hv⟩

theorem findPathBases_absent {target : Text} {bases : Edges ClassInfo BaseInfo}
    (h : ∀ base ∈ bases.toList, ∀ v ∈ base.2.subtrees, v.label.name ≠ target) :
    findPathBases target bases = none := by
  match bases with
  | .nil => rw [findPathBases]
  | .cons edge base rest =>
    obtain ⟨hbase, hrest⟩ := List.forall_mem_cons.mp h
    rw [findPathBases, if_neg (hbase base (Tree.mem_subtrees_self _)),
      findPath_absent fun v hv => hbase v (mem_subtrees_below hv)]
    exact findPathBases_absent hrest

end

theorem subobjectsEdge_seen (edge : BaseInfo) (base : ClassDeclaration) (path seen : List Text) :
    ∀ name ∈ (subobjectsEdge edge base path seen).2,
      name ∈ seen ∨ ∃ v ∈ base.subtrees, v.label.name = name := by
  intro name hname
  rw [subobjectsEdge] at hname
  split at hname
  · exact .inl hname
  · rcases (subobjectsFrom_seen base _ _).2 name hname with hname | ⟨v, hv, heq⟩
    · split at hname
      · rcases List.mem_cons.mp hname with rfl | hname
        · exact .inr ⟨base, Tree.mem_subtrees_self _, rfl⟩
        · exact .inl hname
      · exact .inl hname
    · exact .inr ⟨v, mem_subtrees_below hv, heq⟩

mutual

/-- The first path is that of the first subobject in the list. -/
theorem findPath_listed {root target : ClassDeclaration} (hroot : Coherent root)
    (htarget : target ∈ root.subtrees) {c : ClassDeclaration} (hc : c ∈ root.subtrees)
    {found : List Text} (hfound : findPath target.label.name c = some found) (path : List Text)
    {seen : List Text} (h : Spares root target c seen) :
    found ≠ [] ∧ (path ++ found, target) ∈ (subobjectsFrom c path seen).1 := by
  match c with
  | .node info bases =>
    rw [findPath] at hfound
    obtain ⟨hne, hlisted⟩ :=
      findPathBases_listed hroot htarget hc bases (fun _ h => h) hfound path h
    rw [subobjectsFrom]
    exact ⟨hne, List.mem_cons_of_mem _ hlisted⟩

theorem findPathBases_listed {root target : ClassDeclaration} (hroot : Coherent root)
    (htarget : target ∈ root.subtrees) {current : ClassDeclaration} (hc : current ∈ root.subtrees)
    (bases : Edges ClassInfo BaseInfo) (hbases : ∀ base ∈ bases.toList, base ∈ current.edges)
    {found : List Text} (hfound : findPathBases target.label.name bases = some found)
    (path : List Text) {seen : List Text} (h : Spares root target current seen) :
    found ≠ [] ∧ (path ++ found, target) ∈ (subobjectsBases bases path seen).1 := by
  match bases with
  | .nil =>
    rw [findPathBases] at hfound
    cases hfound
  | .cons edge base rest =>
    obtain ⟨hedge, hrest⟩ := List.forall_mem_cons.mp hbases
    have hmem : base ∈ root.subtrees :=
      Tree.mem_subtrees_trans _ hc (Tree.mem_subtrees_edge hedge)
    have hentered := h.enter hroot hedge hmem
    rw [subobjectsBases_cons]
    -- a base that leads to the target is entered
    have henter : target ∈ base.subtrees → subobjectsEdge edge base path seen
        = subobjectsFrom base (path ++ [base.label.name])
          (if edge.isVirtual then base.label.name :: seen else seen) := by
      intro hleads
      exact if_neg fun hskip => h.not_seen hedge hmem hleads hskip.2
    rw [findPathBases] at hfound
    split at hfound
    · next hname =>
      obtain rfl := Option.some.inj hfound
      obtain rfl : base = target := hroot base hmem target htarget hname
      refine ⟨List.cons_ne_nil _ _, List.mem_append_left _ ?_⟩
      rw [henter (Tree.mem_subtrees_self _)]
      cases base with
      | node info bases => exact List.mem_cons_self
    · next hname =>
      split at hfound
      · next inner hinner =>
        obtain rfl := Option.some.inj hfound
        obtain ⟨-, hlisted⟩ :=
          findPath_listed hroot htarget hmem hinner (path ++ [base.label.name]) hentered
        have hleads : target ∈ base.subtrees := by
          by_contra hnot
          have hnone : findPath target.label.name base = none := findPath_absent fun v hv heq =>
            hnot (hroot v (Tree.mem_subtrees_trans _ hmem (mem_subtrees_below hv)) target htarget
              heq ▸ mem_subtrees_below hv)
          rw [hnone] at hinner
          cases hinner
        refine ⟨List.cons_ne_nil _ _, List.mem_append_left _ ?_⟩
        rw [henter hleads]
        rwa [List.append_assoc] at hlisted
      · next hnone =>
        have hafter : Spares root target current (subobjectsEdge edge base path seen).2 := by
          intro name hseen v hv heq hleads
          rcases subobjectsEdge_seen edge base path seen name hseen with hseen | ⟨w, hw, hw'⟩
          · exact h name hseen v hv heq hleads
          · -- what was newly seen does not lead to the target
            have hsame := hroot v hv w (Tree.mem_subtrees_trans _ hmem hw) (heq.trans hw'.symm)
            have hin : target ∈ base.subtrees := Tree.mem_subtrees_trans _ hw (hsame ▸ hleads)
            rcases Tree.mem_subtrees.mp hin with rfl | hin
            · exact absurd rfl hname
            · exact absurd rfl (findPath_none hnone target hin)
        obtain ⟨hne, hlisted⟩ :=
          findPathBases_listed hroot htarget hc rest hrest hfound path hafter
        exact ⟨hne, List.mem_append_right _ hlisted⟩

end

end Cwhip.CodeGen
