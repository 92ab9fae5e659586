/-
  Cwhip.Semantic.CycleCheck

  The search of a class for a cycle through itself: it ends, and finds one exactly
  if there is one.

  It walks over the ancestors with the names it has entered.  An ancestor that
  lies on a cycle of others is entered once and is no reason to refuse the class.
-/

import Cwhip.Semantic.ClassChecks

namespace Cwhip.Semantic.Hierarchy

open Cwhip.Lib Relation

variable {p : Program}

/-! ## Inheritance -/

/-- A class and one of its bases. -/
def Program.Inherits (p : Program) (c d : ClassDeclaration) : Prop :=
    ∃ base ∈ p.baseClasses c, base.2 = d

variable {d c : ClassDeclaration} {root : String} {path : List String}
  {pending : List ClassDeclaration} {fuel : Nat} {cyclic : Bool}

theorem Program.mem_of_find {name : String} (h : p.find name = some d) :
    d ∈ p.classes ∧ d.name = name :=
  ⟨List.mem_of_find?_eq_some h, by simpa using List.find?_some h⟩

theorem Program.eq_of_name (hc : c ∈ p.classes) (hd : d ∈ p.classes)
    (h : c.name = d.name) : c = d :=
  List.inj_on_of_nodup_map p.uniqueNames hc hd h

theorem Program.find_self (hc : c ∈ p.classes) : p.find c.name = some c := by
  cases hfind : p.find c.name with
  | none =>
    have hno := List.find?_eq_none.mp hfind c hc
    simp at hno
  | some d =>
    obtain ⟨hd, hname⟩ := Program.mem_of_find hfind
    rw [Program.eq_of_name hd hc hname]

variable {base : Base × ClassDeclaration} {bases : List (Base × ClassDeclaration)}
  {path' : List String} {pending' : List ClassDeclaration}

theorem Program.mem_baseClasses :
    base ∈ p.baseClasses c ↔ base.1 ∈ c.bases ∧ p.find base.1.name = some base.2 := by
  unfold Program.baseClasses
  rw [List.mem_filterMap]
  constructor
  · rintro ⟨edge, hedge, hfind⟩
    obtain ⟨d, hd, rfl⟩ := Option.map_eq_some_iff.mp hfind
    exact ⟨hedge, hd⟩
  · intro ⟨hedge, hfind⟩
    exact ⟨base.1, hedge, by rw [hfind]; rfl⟩

theorem Program.base_mem (h : base ∈ p.baseClasses c) :
    base.2 ∈ p.classes ∧ base.2.name = base.1.name :=
  Program.mem_of_find (Program.mem_baseClasses.mp h).2

theorem Program.mem_of_reach (hc : c ∈ p.classes) (h : ReflTransGen p.Inherits c d) :
    d ∈ p.classes := by
  induction h with
  | refl => exact hc
  | tail _ hedge _ =>
    obtain ⟨base, hbase, rfl⟩ := hedge
    exact (Program.base_mem hbase).1

/-- Without a cycle induction goes down to the bases. -/
theorem Program.acc (hc : c ∈ p.classes) (h : ¬ LeadsToCycle p.Inherits c) :
    Acc (fun d c => d ∈ (p.baseClasses c).map Prod.snd) c := by
  have hfinite : {d | ReflTransGen p.Inherits c d}.Finite :=
    p.classes.finite_toSet.subset fun _ hd => Program.mem_of_reach hc hd
  refine Subrelation.accessible ?_ (acc_of_not_leadsToCycle hfinite h)
  intro d c hd
  obtain ⟨base, hbase, heq⟩ := List.mem_map.mp hd
  exact ⟨base, hbase, heq⟩

/-! ## The bases of an ancestor -/

/-- The root was met among the bases. -/
theorem expand_none (h : expand root bases path pending = none) :
    ∃ base ∈ bases, base.1.name = root := by
  induction bases generalizing path pending with
  | nil => cases h
  | cons base rest ih =>
    rw [expand] at h
    split at h
    · split at h
      · next hroot => exact ⟨base, List.mem_cons_self, hroot⟩
      · obtain ⟨found, hfound, hroot⟩ := ih h
        exact ⟨found, List.mem_cons_of_mem _ hfound, hroot⟩
    · obtain ⟨found, hfound, hroot⟩ := ih h
      exact ⟨found, List.mem_cons_of_mem _ hfound, hroot⟩

/-- The bases that are new are entered and wait; none is the class itself. -/
structure Expanded (root : String) (bases : List (Base × ClassDeclaration))
    (path path' : List String) (pending pending' : List ClassDeclaration) : Prop where
  added : ∃ added : List ClassDeclaration, pending' = added ++ pending ∧
    path' = added.map ClassDeclaration.name ++ path ∧ ∀ d ∈ added, ∃ base ∈ bases, base.2 = d
  nodup : path.Nodup → path'.Nodup
  entered : ∀ base ∈ bases, base.1.name ∈ path' ∧ base.1.name ≠ root

/-- Otherwise the new bases are entered. -/
theorem expand_some (hnames : ∀ base ∈ bases, base.2.name = base.1.name) (hroot : root ∈ path)
    (h : expand root bases path pending = some (path', pending')) :
    Expanded root bases path path' pending pending' := by
  induction bases generalizing path pending with
  | nil =>
    obtain ⟨rfl, rfl⟩ := Prod.mk.inj (Option.some.inj h)
    exact ⟨⟨[], rfl, rfl, by simp⟩, id, by simp⟩
  | cons base rest ih =>
    have hrest : ∀ base ∈ rest, base.2.name = base.1.name := fun base hbase =>
      hnames base (List.mem_cons_of_mem _ hbase)
    rw [expand] at h
    by_cases hseen : base.1.name ∈ path
    · rw [if_pos hseen] at h
      by_cases hself : base.1.name = root
      · rw [if_pos hself] at h
        cases h
      · rw [if_neg hself] at h
        obtain ⟨⟨added, hpending, hpath, hadded⟩, hnodup, hentered⟩ := ih hrest hroot h
        refine ⟨⟨added, hpending, hpath, fun d hd => ?_⟩, hnodup, ?_⟩
        · obtain ⟨origin, horigin, heq⟩ := hadded d hd
          exact ⟨origin, List.mem_cons_of_mem _ horigin, heq⟩
        · rw [List.forall_mem_cons]
          exact ⟨⟨by rw [hpath]; exact List.mem_append_right _ hseen, hself⟩, hentered⟩
    · rw [if_neg hseen] at h
      obtain ⟨⟨added, hpending, hpath, hadded⟩, hnodup, hentered⟩ :=
        ih hrest (List.mem_cons_of_mem _ hroot) h
      have hname := hnames base List.mem_cons_self
      refine ⟨⟨added ++ [base.2], by simp [hpending], by simp [hpath, hname], fun d hd => ?_⟩,
        fun hpathNodup => hnodup (List.nodup_cons.mpr ⟨hseen, hpathNodup⟩), ?_⟩
      · rcases List.mem_append.mp hd with hd | hd
        · obtain ⟨origin, horigin, heq⟩ := hadded d hd
          exact ⟨origin, List.mem_cons_of_mem _ horigin, heq⟩
        · exact ⟨base, List.mem_cons_self, (List.mem_singleton.mp hd).symm⟩
      · rw [List.forall_mem_cons]
        refine ⟨⟨by rw [hpath]; simp, fun hself => hseen (hself ▸ hroot)⟩, hentered⟩

/-! ## The walk -/

/-- The names entered are those of ancestors; the bases of those that do not wait
    any more have been entered, and the class itself is none of them. -/
structure Walking (p : Program) (c : ClassDeclaration) (path : List String)
    (pending : List ClassDeclaration) : Prop where
  nodup : path.Nodup
  root : c.name ∈ path
  ancestors : ∀ name ∈ path, ∃ d, d.name = name ∧ ReflTransGen p.Inherits c d
  waiting : ∀ d ∈ pending, ReflTransGen p.Inherits c d
  closed : ∀ d, ReflTransGen p.Inherits c d → d.name ∈ path → d ∉ pending →
    ∀ base ∈ p.baseClasses d, base.1.name ∈ path ∧ base.1.name ≠ c.name

theorem Walking.start (hc : c ∈ p.classes) : Walking p c [c.name] [c] where
  nodup := List.nodup_singleton _
  root := List.mem_singleton_self _
  ancestors name hname := ⟨c, (List.mem_singleton.mp hname).symm, .refl⟩
  waiting d hd := by
    rw [List.mem_singleton.mp hd]
  closed d hreach hname hnot := by
    have heq : d = c :=
      Program.eq_of_name (Program.mem_of_reach hc hreach) hc (List.mem_singleton.mp hname)
    exact absurd (List.mem_singleton.mpr heq) hnot

/-- Expanding an ancestor keeps the invariant of the walk. -/
theorem Walking.expanded {c ancestor : ClassDeclaration} (hc : c ∈ p.classes)
    {path path' : List String}
    {pending pending' : List ClassDeclaration} (walking : Walking p c path (ancestor :: pending))
    (h : Expanded c.name (p.baseClasses ancestor) path path' pending pending') :
    Walking p c path' pending' := by
  obtain ⟨added, rfl, rfl, hadded⟩ := h.added
  have hancestor := walking.waiting ancestor List.mem_cons_self
  have haddedReach : ∀ d ∈ added, ReflTransGen p.Inherits c d := fun d hd =>
    hancestor.tail (hadded d hd)
  refine ⟨h.nodup walking.nodup, List.mem_append_right _ walking.root, ?_, ?_, ?_⟩
  · intro name hname
    rcases List.mem_append.mp hname with hname | hname
    · obtain ⟨d, hd, hdname⟩ := List.mem_map.mp hname
      exact ⟨d, hdname, haddedReach d hd⟩
    · exact walking.ancestors name hname
  · intro d hd
    rcases List.mem_append.mp hd with hd | hd
    · exact haddedReach d hd
    · exact walking.waiting d (List.mem_cons_of_mem _ hd)
  · intro d hreach hname hnot base hbase
    rw [List.mem_append, not_or] at hnot
    -- a class whose name was added is one of the added, which wait
    have hold : d.name ∈ path := by
      rcases List.mem_append.mp hname with hname | hname
      · obtain ⟨d', hd', hd'name⟩ := List.mem_map.mp hname
        have heq : d' = d := Program.eq_of_name (Program.mem_of_reach hc (haddedReach d' hd'))
          (Program.mem_of_reach hc hreach) hd'name
        exact absurd (heq ▸ hd') hnot.1
      · exact hname
    by_cases hself : d = ancestor
    · subst hself
      exact h.entered base hbase
    · have hearlier := walking.closed d hreach hold (by simp [hself, hnot.2]) base hbase
      exact ⟨List.mem_append_right _ hearlier.1, hearlier.2⟩

/-- Every class is entered once. -/
theorem cycleLoop_ends (hc : c ∈ p.classes) (walking : Walking p c path pending)
    (hfuel : pending.length + p.classes.length < fuel + path.length) :
    (cycleLoop p c.name fuel path pending).isSome := by
  induction fuel generalizing path pending with
  | zero =>
    -- there are no more names than classes
    have hsubset : path ⊆ p.classes.map ClassDeclaration.name := by
      intro name hname
      obtain ⟨d, rfl, hreach⟩ := walking.ancestors name hname
      exact List.mem_map_of_mem (Program.mem_of_reach hc hreach)
    have hlength := (walking.nodup.subperm hsubset).length_le
    rw [List.length_map] at hlength
    omega
  | succ fuel ih =>
    cases pending with
    | nil => rfl
    | cons ancestor pending =>
      rw [cycleLoop]
      cases hexpand : expand c.name (p.baseClasses ancestor) path pending with
      | none => rfl
      | some next =>
        obtain ⟨path', pending'⟩ := next
        have hexpanded := expand_some (fun base hbase => (Program.base_mem hbase).2)
          walking.root hexpand
        refine ih (walking.expanded hc hexpanded) ?_
        obtain ⟨added, rfl, rfl, _⟩ := hexpanded.added
        simp only [List.length_append, List.length_map, List.length_cons] at hfuel ⊢
        omega

/-- A finished walk did not meet the root. -/
theorem Walking.no_cycle (walking : Walking p c path []) :
    ¬ TransGen p.Inherits c c := by
  have hall : ∀ d, ReflTransGen p.Inherits c d → d.name ∈ path := by
    intro d hreach
    induction hreach with
    | refl => exact walking.root
    | @tail d next hreach hedge ih =>
      obtain ⟨base, hbase, rfl⟩ := hedge
      rw [(Program.base_mem hbase).2]
      exact (walking.closed d hreach ih List.not_mem_nil base hbase).1
  intro hcycle
  obtain ⟨last, hreach, base, hbase, hself⟩ := TransGen.tail'_iff.mp hcycle
  refine (walking.closed last hreach (hall last hreach) List.not_mem_nil base hbase).2 ?_
  rw [← (Program.base_mem hbase).2, hself]

/-- The loop finds a cycle exactly if there is one. -/
theorem cycleLoop_iff (hc : c ∈ p.classes) (walking : Walking p c path pending)
    (h : cycleLoop p c.name fuel path pending = some cyclic) : cyclic = true ↔
    TransGen p.Inherits c c := by
  induction fuel generalizing path pending with
  | zero => cases h
  | succ fuel ih =>
    cases pending with
    | nil =>
      cases h
      exact iff_of_false Bool.false_ne_true walking.no_cycle
    | cons ancestor pending =>
      rw [cycleLoop] at h
      cases hexpand : expand c.name (p.baseClasses ancestor) path pending with
      | none =>
        rw [hexpand] at h
        cases h
        obtain ⟨base, hbase, hroot⟩ := expand_none hexpand
        obtain ⟨hmem, hname⟩ := Program.base_mem hbase
        have hself : base.2 = c := Program.eq_of_name hmem hc (hname.trans hroot)
        exact iff_of_true rfl
          (.tail' (walking.waiting ancestor List.mem_cons_self) ⟨base, hbase, hself⟩)
      | some next =>
        obtain ⟨path', pending'⟩ := next
        rw [hexpand] at h
        exact ih (walking.expanded hc
          (expand_some (fun base hbase => (Program.base_mem hbase).2) walking.root hexpand)) h

theorem hasCycle_ends (hc : c ∈ p.classes) (hfuel : p.classes.length < fuel) :
    (hasCycle p fuel c).isSome :=
  cycleLoop_ends hc (Walking.start hc) (by simp only [List.length_singleton]; omega)

theorem hasCycle_iff (hc : c ∈ p.classes)
    (h : hasCycle p fuel c = some cyclic) : cyclic = true ↔ TransGen p.Inherits c c :=
  cycleLoop_iff hc (Walking.start hc) h

theorem cycleLoop_mono {fuel' : Nat} (hle : fuel ≤ fuel')
    (h : cycleLoop p root fuel path pending = some cyclic) :
    cycleLoop p root fuel' path pending = some cyclic := by
  induction fuel generalizing fuel' path pending with
  | zero => cases h
  | succ fuel ih =>
    obtain ⟨more, rfl⟩ : ∃ more, fuel' = more + 1 := ⟨fuel' - 1, by omega⟩
    cases pending with
    | nil => exact h
    | cons ancestor pending =>
      rw [cycleLoop] at h ⊢
      cases hexpand : expand root (p.baseClasses ancestor) path pending with
      | none =>
        rw [hexpand] at h
        exact h
      | some next =>
        rw [hexpand] at h
        exact ih (by omega) h

end Cwhip.Semantic.Hierarchy
