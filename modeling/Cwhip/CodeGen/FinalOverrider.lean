/-
  Cwhip.CodeGen.FinalOverrider

  When the tables of a class hold the final overriders.

  The generator looks at the dynamic class, at the classes on its path to the
  view and at the bases of the view.  An override that shares a virtual base
  with the view but lies on neither is passed over.
-/

import Cwhip.CodeGen.Overriders

namespace Cwhip.CodeGen

open Cwhip.Lib
open Cwhip.Inheritance (AccessLevel BaseInfo)

/-- The views of the bases, and if `wholeCounts` the view of the class itself. -/
def Counts (wholeCounts : Bool) (path : List Text) : Prop := path ≠ [] ∨ wholeCounts = true

/-- Whatever the order of the bases of a class, each slot of each view calls the
    final overrider, on the subobject of the class that declares it. -/
def DispatchesFinally (p : Program) (wholeCounts : Bool) : Prop :=
  ∀ owner ∈ p.classes, ∀ owner', Reordered owner owner' →
    ∀ view ∈ subobjects owner', Counts wholeCounts view.1 → ∀ slot ∈ methodSlots view.2,
      ∀ spot, walk owner' whole view.1 = some (view.2, spot) →
        ∃ impl called, implementation p owner' view slot = some impl ∧
          walk owner' whole impl.path = some (impl.owner, called) ∧
          impl.method ∈ impl.owner.label.ordinaryMethods ∧ SameSlot impl.method slot ∧
          FinalOverrider owner (slotKey slot) spot called

/-- One subobject declares the method and lies on every path to a declaration
    that overrides it for the view. -/
def Funnelled (p : Program) (wholeCounts : Bool) : Prop :=
  ∀ owner ∈ p.classes, ∀ path view spot, walk owner whole path = some (view, spot) →
    Counts wholeCounts path → ∀ key, (∃ u ∈ view.subtrees, Declares key u) →
      ∃ final, DeclaresAt owner key final ∧ ∀ path' u other,
        walk owner whole path' = some (u, other) → Overrides owner key spot other →
          Passes owner path' final

variable {p : Program} {wholeCounts : Bool} {key : SlotKey}

variable {c u owner : ClassDeclaration} {impl : Implementation} {slot : MethodDeclaration}
  {view : List Text × ClassDeclaration} {spot : Spot}

theorem exists_slot (hu : u ∈ c.subtrees) (h : Declares key u) :
    ∃ slot ∈ methodSlots c, slotKey slot = key := by
  obtain ⟨method, hmethod, rfl⟩ := h
  obtain ⟨slot, hslot, hsame⟩ := methodSlots_key hu hmethod
  exact ⟨slot, hslot, sameSlot_iff.mp hsame⟩

/-! ## From the tables to the paths -/

theorem edge_found (p : Program) (hc : c ∈ p.classes) {base : BaseInfo × ClassDeclaration}
    (h : base ∈ c.edges) :
    c.edges.find? (fun other => other.2.label.name == base.2.label.name) = some base :=
  find_of_mem (p.directBases c hc) h

theorem chosen_in_base {name : Text} {base : ClassDeclaration} (hfree : ¬ Implements slot c)
    (himplements : Implements slot impl.owner) (h : Chosen slot c ([name], base) impl) :
    ∃ rest, impl.path = name :: rest := by
  cases h with
  | onPath rest spot hpath hreached _ =>
    match hcut : impl.path with
    | [] =>
      rw [hcut] at hreached
      obtain ⟨rfl, _⟩ := Prod.mk.inj (Option.some.inj hreached)
      exact absurd himplements hfree
    | first :: more =>
      rw [hcut] at hpath
      exact ⟨more, by rw [(List.cons.inj hpath).1]⟩
  | below _ rest hpath _ => exact ⟨rest, hpath⟩

theorem DispatchesFinally.base (h : DispatchesFinally p wholeCounts) (hc : c ∈ p.classes)
    (hfree : ¬ Declares key c) {base : BaseInfo × ClassDeclaration} (hbase : base ∈ c.edges)
    (hu : u ∈ base.2.subtrees) (hdeclares : Declares key u) :
    ∃ inner, FinalOverrider c key (whole.enter base.1.isVirtual base.2.label.name)
        ((whole.enter base.1.isVirtual base.2.label.name).within inner) ∧
      FinalOverrider base.2 key whole inner := by
  have hroot := p.coherent hc
  have hdistinct := p.distinctBases hc
  have hreorder := baseFirst_reordered hbase
  have hfound := edge_found p hc hbase
  have hwalkBase : ∀ {rest v s},
      walk c whole (base.2.label.name :: rest) = some (v, s) ↔
        walk base.2 (whole.enter base.1.isVirtual base.2.label.name) rest = some (v, s) := by
    intro rest v s
    rw [walk_cons, hfound]
    simp
  generalize hview : whole.enter base.1.isVirtual base.2.label.name = viewSpot at hwalkBase ⊢
  obtain ⟨slot, hslot, rfl⟩ := exists_slot hu hdeclares
  have hwalk : walk (baseFirst c base) whole [base.2.label.name] = some (base.2, viewSpot) := by
    rw [hreorder.walk_eq hdistinct whole (List.cons_ne_nil _ _)]
    exact hwalkBase.mpr rfl
  obtain ⟨impl, called, himpl, hcalled, hmethod, hsame, hfinal⟩ :=
    h c hc _ hreorder _ (mem_subobjects_baseFirst c base)
      (.inl (List.cons_ne_nil _ _)) slot hslot _ hwalk
  have hfree' : ¬ Implements slot (baseFirst c base) := fun himplements =>
    hfree (implements_iff.mp himplements)
  obtain ⟨rest, hpath⟩ := chosen_in_base hfree' ⟨_, hmethod, hsame⟩
    (implementation_chosen (hreorder.findsBases (p.findsBases hc))
      (hreorder.distinctBases hdistinct)
      hwalk himpl)
  rw [hpath, hreorder.walk_eq hdistinct whole (List.cons_ne_nil _ _)] at hcalled
  obtain ⟨inner, hinner, rfl⟩ := walk_inner (hwalkBase.mp hcalled)
  refine ⟨inner, hfinal, ?_⟩
  have hdeclared : DeclaresAt base.2 (slotKey slot) inner :=
    ⟨rest, _, hinner, implements_iff.mp ⟨_, hmethod, hsame⟩⟩
  refine ⟨.of_leads hdeclared (.from_whole hinner), ?_⟩
  intro other hother
  obtain ⟨path, v, hv, hvDeclares⟩ := hother.1
  -- the other declaration of the base overrides in the class too
  have hvRoot : walk c whole (base.2.label.name :: path) = some (v, viewSpot.within other) :=
    hwalkBase.mpr (walk_from hv)
  have hleads := hfinal.2 _ (.of_leads ⟨_, v, hvRoot, hvDeclares⟩
    (.of_walk (hwalkBase.mpr rfl : walk c whole [_] = _) (walk_from hv)))
  obtain ⟨path', tail, w, x, hw, hx⟩ := hleads
  have hsameClass : w = impl.owner := walk_class hroot hw hcalled
  rw [hsameClass, walk_within, Option.map_eq_some_iff] at hx
  obtain ⟨⟨_, spot⟩, hspot, heq⟩ := hx
  obtain ⟨rfl, hshifted⟩ := Prod.mk.inj heq
  have hbaseCoherent := p.coherent (p.mem_base hc hbase)
  have hspotEq : spot = other := by
    refine within_injective hbaseCoherent base.1.isVirtual
      (walk_append_some.mpr ⟨_, hinner, hspot⟩) hv ?_
    rw [hview]
    exact hshifted
  rw [hspotEq] at hspot
  exact .of_walk hinner hspot

theorem DispatchesFinally.passes (h : DispatchesFinally p wholeCounts) {path : List Text}
    (hc : c ∈ p.classes) {view final : Spot} (hfinal : FinalOverrider c key view final)
    {other : Spot} (hwalk : walk c whole path = some (u, other))
    (hother : Overrides c key view other) :
    Passes c path final := by
  induction path generalizing c view final other with
  | nil =>
    obtain ⟨_, rfl⟩ := Prod.mk.inj (Option.some.inj hwalk)
    have hdeclares : Declares key c := hother.1.declares (p.coherent hc) (walk_nil c whole)
    rw [finalOverrider_whole (p.coherent hc) hdeclares hfinal]
    exact ⟨[], [], c, rfl, rfl⟩
  | cons name path ih =>
    have hroot := p.coherent hc
    by_cases hdeclares : Declares key c
    · rw [finalOverrider_whole hroot hdeclares hfinal]
      exact ⟨[], _, c, rfl, rfl⟩
    · obtain ⟨base, hbase, hrest⟩ := walk_cons.mp hwalk
      obtain ⟨hmem, rfl⟩ := find_edge hbase
      have huDeclares := hother.1.declares hroot hwalk
      obtain ⟨inner, hbaseFinal, hinnerFinal⟩ :=
        h.base hc hdeclares hmem (walk_mem hrest) huDeclares
      have hself : walk c whole [base.2.label.name]
          = some (base.2, whole.enter base.1.isVirtual base.2.label.name) :=
        walk_cons.mpr ⟨base, hbase, rfl⟩
      have hshared := hfinal.eq_of_shared hroot hbaseFinal hother
        (.of_leads hother.1 (.of_walk hself hrest))
      obtain ⟨other', hother', _⟩ := walk_inner hrest
      obtain ⟨taken, rest, w, hcut, hw⟩ := ih (p.mem_base hc hmem) hinnerFinal hother'
        (.of_leads ⟨path, u, hother', huDeclares⟩ (.from_whole hother'))
      refine ⟨base.2.label.name :: taken, rest, w, by rw [hcut]; rfl, ?_⟩
      rw [hshared]
      exact walk_cons.mpr ⟨base, hbase, walk_from hw⟩

theorem DispatchesFinally.funnelled (h : DispatchesFinally p wholeCounts) :
    Funnelled p wholeCounts := by
  intro owner howner path view spot hview hcounts key hdeclared
  obtain ⟨u, hu, hdeclares⟩ := hdeclared
  have hroot := p.coherent howner
  by_cases hown : Declares key owner
  · exact ⟨whole, ⟨[], owner, rfl, hown⟩, fun path' _ _ _ _ => ⟨[], path', owner, rfl, rfl⟩⟩
  · cases path with
    | nil =>
      obtain ⟨rfl, rfl⟩ := Prod.mk.inj (Option.some.inj hview)
      obtain ⟨slot, hslot, rfl⟩ := exists_slot hu hdeclares
      obtain ⟨_, final, _, _, _, _, hfinal⟩ := h owner howner owner (.refl owner) _
        (self_mem_subobjects owner) hcounts slot hslot whole rfl
      exact ⟨final, hfinal.1.1, fun _ _ _ hwalk hother => h.passes howner hfinal hwalk hother⟩
    | cons name rest =>
      obtain ⟨base, hbase, hrest⟩ := walk_cons.mp hview
      obtain ⟨hmem, rfl⟩ := find_edge hbase
      have hself : walk owner whole [base.2.label.name]
          = some (base.2, whole.enter base.1.isVirtual base.2.label.name) :=
        walk_cons.mpr ⟨base, hbase, rfl⟩
      have hbelow := Tree.mem_subtrees_trans _ (walk_mem hrest) hu
      obtain ⟨inner, hfinal, _⟩ := h.base howner hown hmem hbelow hdeclares
      refine ⟨_, hfinal.1.1, ?_⟩
      intro path' v other hwalk hother
      exact h.passes howner hfinal hwalk (hother.of_view hroot (.of_walk hself hrest))

/-! ## From the paths to the tables -/

theorem prefix_cases {first second taken rest : List Text} (h : first ++ second = taken ++ rest) :
    (∃ more, first = taken ++ more) ∨ ∃ name more, taken = first ++ name :: more ∧
      second = name :: more ++ rest := by
  rcases List.append_eq_append_iff.mp h with ⟨more, htaken, hsecond⟩ | ⟨more, hfirst, _⟩
  · cases more with
    | nil => exact .inl ⟨[], by rw [htaken, List.append_nil, List.append_nil]⟩
    | cons name more => exact .inr ⟨name, more, htaken, hsecond⟩
  · exact .inl ⟨more, hfirst⟩

theorem Chosen.first (h : Chosen slot owner view impl) (hdistinct : DistinctBases owner)
    (hview : walk owner whole view.1 = some (view.2, spot)) {taken rest : List Text}
    (hcut : impl.path = taken ++ rest) (hrest : rest ≠ []) {s : Spot}
    (hu : walk owner whole taken = some (u, s)) : ¬ Implements slot u := by
  cases h with
  | onPath _ _ _ _ first => exact first taken rest u s hcut hrest hu
  | below none nested hpath hfirst =>
    rw [hpath] at hcut
    rcases prefix_cases hcut with ⟨more, hbefore⟩ | ⟨name, more, rfl, hnested⟩
    · exact none taken more u s hbefore hu
    · -- the subobject is listed before the implementation
      obtain ⟨_, before, after, hsplit, hearlier⟩ := firstImplementation_eq_some hfirst
      obtain ⟨next, tail, rfl⟩ := List.exists_cons_of_ne_nil hrest
      have hinner : DistinctBases view.2 := hdistinct.subtree (walk_mem hview)
      have hentry : (subobjects view.2)[before.length]? = some (nested, impl.owner) := by
        rw [hsplit, List.getElem?_append_right (Nat.le_refl _), Nat.sub_self]
        rfl
      obtain ⟨j, hj, w, hw⟩ := subobjects_listed hinner _ _ hentry (name :: more) next tail
        (by simpa using hnested)
      rw [hsplit, List.getElem?_append_left hj] at hw
      obtain ⟨reached, hreached, hlast⟩ := walk_append_some.mp hu
      obtain rfl := Option.some.inj (hview.symm.trans hreached)
      have hmem : (name :: more, w) ∈ subobjects view.2 := by
        rw [hsplit]
        exact List.mem_append_left _ (List.mem_of_getElem? hw)
      obtain ⟨_, hwalk⟩ := subobjects_walk hinner hmem spot
      obtain ⟨rfl, _⟩ := Prod.mk.inj (Option.some.inj (hwalk.symm.trans hlast))
      exact hearlier _ (List.mem_of_getElem? hw)

theorem Chosen.reached (h : Chosen slot owner view impl) (hdistinct : DistinctBases owner)
    (hview : walk owner whole view.1 = some (view.2, spot)) :
    ∃ called, walk owner whole impl.path = some (impl.owner, called) := by
  cases h with
  | onPath _ called _ hreached _ => exact ⟨called, hreached⟩
  | below _ nested hpath hfirst =>
    obtain ⟨_, before, after, hsplit, _⟩ := firstImplementation_eq_some hfirst
    have hinner : DistinctBases view.2 := hdistinct.subtree (walk_mem hview)
    have hmem : (nested, impl.owner) ∈ subobjects view.2 := by
      rw [hsplit]
      exact List.mem_append_right _ List.mem_cons_self
    obtain ⟨called, hnested⟩ := subobjects_walk hinner hmem spot
    rw [hpath]
    exact ⟨called, walk_append_some.mpr ⟨_, hview, hnested⟩⟩

theorem Chosen.leads {root : ClassDeclaration} (h : Chosen slot owner view impl)
    {v : ClassDeclaration} {called : Spot} (hview : walk root whole view.1 = some (u, spot))
    (hcalled : walk root whole impl.path = some (v, called)) :
    Leads root called spot ∨ Leads root spot called := by
  cases h with
  | onPath rest _ hpath _ _ =>
    rw [hpath] at hview
    obtain ⟨_, hreached, hrest⟩ := walk_append_some.mp hview
    obtain rfl := Option.some.inj (hreached.symm.trans hcalled)
    exact .inl (.of_walk hcalled hrest)
  | below _ nested hpath _ =>
    rw [hpath] at hcalled
    obtain ⟨_, hreached, hrest⟩ := walk_append_some.mp hcalled
    obtain rfl := Option.some.inj (hreached.symm.trans hview)
    exact .inr (.of_walk hview hrest)

theorem Funnelled.dispatchesFinally (h : Funnelled p wholeCounts) :
    DispatchesFinally p wholeCounts := by
  intro owner howner owner' hreorder view hview hcounts slot hslot spot hwalk
  have hroot := p.coherent howner
  have hdistinct := p.distinctBases howner
  have hdistinct' := hreorder.distinctBases hdistinct
  have hviewMem := walk_mem hwalk
  obtain ⟨u, hu, hmethod⟩ := mem_methodSlots hslot
  obtain ⟨impl, himpl⟩ := implementation_exists p (hdistinct'.subtree hviewMem)
    ((hreorder.coherent hroot).subtree hviewMem) hwalk hu ⟨slot, hmethod, rfl, rfl⟩
  have hchosen := implementation_chosen (hreorder.findsBases (p.findsBases howner)) hdistinct' hwalk
    himpl
  obtain ⟨called, hcalled⟩ := hchosen.reached hdistinct' hwalk
  obtain ⟨hown, hsame⟩ := implementing_eq_some (firstImplementation_eq_some himpl).1
  refine ⟨impl, called, himpl, hcalled, hown, hsame, ?_⟩
  -- the same in the order that the class is written in
  obtain ⟨v, hwalkView, hviewOrder⟩ := hreorder.walk_some hdistinct hwalk
  obtain ⟨w, hwalkImpl, himplOrder⟩ := hreorder.walk_some hdistinct hcalled
  have himplDeclares : Declares (slotKey slot) w := himplOrder.declares ⟨_, hown,
    sameSlot_iff.mp hsame⟩
  have hdeclaredAt : DeclaresAt owner (slotKey slot) called := ⟨_, w, hwalkImpl, himplDeclares⟩
  obtain ⟨d, hd, hdDeclares⟩ := hviewOrder.exists_declares hu ⟨slot, hmethod, rfl⟩
  have hvMem := walk_mem hwalkView
  obtain ⟨path, below, hbelow⟩ := exists_walk (hdistinct.subtree hvMem)
    (hroot.subtree hvMem) hd spot
  have hbelowAt : DeclaresAt owner (slotKey slot) below :=
    ⟨_, d, walk_append_some.mpr ⟨_, hwalkView, hbelow⟩, hdDeclares⟩
  have hoverrides : Overrides owner (slotKey slot) spot called := by
    have hdown : Leads owner spot below := .of_walk hwalkView hbelow
    rcases hchosen.leads hwalkView hwalkImpl with hup | hleads
    · exact ⟨hdeclaredAt, below, hbelowAt, hdown, hup.trans hroot hdown⟩
    · exact .of_leads hdeclaredAt hleads
  obtain ⟨final, hfinalAt, hpasses⟩ :=
    h owner howner view.1 v spot hwalkView hcounts (slotKey slot) ⟨d, hd, hdDeclares⟩
  -- the first declaration on the way to the implementation is the funnel
  obtain ⟨taken, rest, x, hcut, hx⟩ := hpasses _ w called hwalkImpl hoverrides
  have hend : rest = [] := by
    by_contra hrest
    obtain ⟨y, hy, hyOrder⟩ := hreorder.symm.walk_some hdistinct' hx
    have hyDeclares := hyOrder.declares (hfinalAt.declares hroot hx)
    exact hchosen.first hdistinct' hwalk hcut hrest hy (implements_iff.mpr hyDeclares)
  rw [hend, List.append_nil] at hcut
  rw [hcut, hx] at hwalkImpl
  obtain ⟨_, hfinal⟩ := Prod.mk.inj (Option.some.inj hwalkImpl)
  refine ⟨hoverrides, ?_⟩
  intro other hother
  obtain ⟨path', z, hz, _⟩ := hother.1
  obtain ⟨taken', rest', y, hcut', hy⟩ := hpasses path' z other hz hother
  rw [hcut'] at hz
  obtain ⟨_, hreached, hlast⟩ := walk_append_some.mp hz
  obtain rfl := Option.some.inj (hreached.symm.trans hy)
  rw [← hfinal]
  exact .of_walk hy hlast

/-- For every accepted hierarchy, whether or not the class itself counts as one
    of its views: the tables hold the final overriders, in every order of the
    bases, exactly if the paths to the overriders are funnelled. -/
theorem dispatchesFinally_iff (p : Program) (wholeCounts : Bool) :
    DispatchesFinally p wholeCounts ↔ Funnelled p wholeCounts :=
  ⟨DispatchesFinally.funnelled, Funnelled.dispatchesFinally⟩

/-! ## An override beside the view -/

/-- `int f()` -/
def countMethod : MethodDeclaration := plainMethod "f" "int"

/-- `class W { int f() }` -/
def sharedW : ClassDeclaration := .node (plainClass "W" [countMethod]) .nil

/-- `class A : virtual W { int f() }` -/
def overridingA : ClassDeclaration :=
  .node (plainClass "A" [countMethod]) (.cons ⟨.publicAccess, true⟩ sharedW .nil)

/-- `class B : virtual W` -/
def plainB : ClassDeclaration :=
  .node (plainClass "B" []) (.cons ⟨.publicAccess, true⟩ sharedW .nil)

/-- `class D : B, A` -/
def diamondD : ClassDeclaration :=
  .node (plainClass "D" [])
    (.cons ⟨.publicAccess, false⟩ plainB (.cons ⟨.publicAccess, false⟩ overridingA .nil))

def diamondClasses : List ClassDeclaration := [sharedW, overridingA, plainB, diamondD]

theorem diamondClasses_plain :
    ∀ c ∈ diamondClasses, ∀ method ∈ c.label.methods, method.parameters = [] := by decide +kernel

def diamondProgram : Program where
  classes := diamondClasses
  resolved := by decide +kernel
  distinct := by decide +kernel
  qualified := by decide +kernel
  separate := by decide +kernel
  builtinBases := by decide +kernel
  directBases := by decide +kernel
  methodNames := by decide +kernel
  destructors := by decide +kernel
  plainDestructors := fun c hc method h _ => diamondClasses_plain c hc method h
  methods := by decide +kernel
  types := normalized_of_plain diamondClasses_plain
  overrides := by decide +kernel

/-- The table of `D` for the shared `W` calls `W.f`: it is reached through `B`,
    and `A.f` is not looked at. -/
theorem diamond_passes_over : ¬ ∀ p : Program, ∀ wholeCounts, DispatchesFinally p wholeCounts := by
  intro h
  have hcalls : implementation diamondProgram diamondD ([['B'], ['W']], sharedW) countMethod
      = some ⟨sharedW, countMethod, [['B'], ['W']]⟩ := by decide +kernel
  have hshared : walk diamondD whole [['B'], ['W']] = some (sharedW, ⟨some ['W'], []⟩) := by
    decide +kernel
  have hbeside : walk diamondD whole [['A']] = some (overridingA,
    ⟨none, [['A']]⟩) := by decide +kernel
  have hdown : walk overridingA ⟨none, [['A']]⟩ [['W']] = some (sharedW, ⟨some ['W'], []⟩) := by
    decide +kernel
  obtain ⟨impl, called, himpl, hcalled, _, _, hfinal⟩ :=
    h diamondProgram false diamondD (by decide +kernel) diamondD (.refl _) ([['B'], ['W']], sharedW)
      (by decide +kernel) (.inl (by decide)) countMethod (by decide +kernel) _ hshared
  obtain rfl := Option.some.inj (hcalls.symm.trans himpl)
  obtain ⟨_, rfl⟩ := Prod.mk.inj (Option.some.inj (hshared.symm.trans hcalled))
  have hdeclaresA : DeclaresAt diamondD (slotKey countMethod) ⟨none, [['A']]⟩ :=
    ⟨_, _, hbeside, countMethod, by decide +kernel, rfl⟩
  -- `A.f` overrides what the view sees, and `W` does not have `A` as a base
  have hleads := hfinal.2 _ ⟨hdeclaresA, _, hfinal.1.1, .of_reached hshared, .of_walk hbeside hdown⟩
  obtain ⟨path, rest, u, v, hu, hv⟩ := hleads
  have hclass : u = sharedW := walk_class (diamondProgram.coherent (by decide +kernel)) hu hshared
  rw [hclass] at hv
  cases rest with
  | nil => cases hv
  | cons name rest => cases hv

end Cwhip.CodeGen
