/-
  Cwhip.CodeGen.Overriders

  Which subobjects of a class override what a view sees, which of them is the
  final one, and what changes with the order of the bases.

  Subobjects are named by their spots, so all of this is about the object, not
  about the order in which the generator lists its parts.
-/

import Cwhip.CodeGen.Slots

namespace Cwhip.CodeGen

open Cwhip.Lib
open Cwhip.Inheritance (AccessLevel BaseInfo)

/-- A name with parameter types. -/
abbrev SlotKey := Text × List Text

/-- The class has a method of this name and these parameter types. -/
def Declares (key : SlotKey) (c : ClassDeclaration) : Prop :=
  ∃ method ∈ c.label.ordinaryMethods, slotKey method = key

theorem implements_iff {slot : MethodDeclaration} {c : ClassDeclaration} :
    Implements slot c ↔ Declares (slotKey slot) c := by
  simp only [Implements, Declares, sameSlot_iff]

/-- The subobject at a spot has a class that declares the method. -/
def DeclaresAt (root : ClassDeclaration) (key : SlotKey) (spot : Spot) : Prop :=
  ∃ path u, walk root whole path = some (u, spot) ∧ Declares key u

/-- A declaration that has a declaration below the view as its base, or is it. -/
def Overrides (root : ClassDeclaration) (key : SlotKey) (view spot : Spot) : Prop :=
  DeclaresAt root key spot ∧
    ∃ below, DeclaresAt root key below ∧ Leads root view below ∧ Leads root spot below

/-- The most derived of these declarations: it has all others as bases. -/
def FinalOverrider (root : ClassDeclaration) (key : SlotKey) (view spot : Spot) : Prop :=
  Overrides root key view spot ∧ ∀ other, Overrides root key view other → Leads root spot other

def Passes (root : ClassDeclaration) (path : List Text) (spot : Spot) : Prop :=
  ∃ taken rest u, path = taken ++ rest ∧ walk root whole taken = some (u, spot)

/-! ## Spots that a class leads to -/

section

variable {root : ClassDeclaration} {key : SlotKey}

variable {path : List Text} {u : ClassDeclaration} {spot spot' view : Spot}

theorem Leads.of_walk {rest : List Text} {v : ClassDeclaration}
    (h : walk root whole path = some (u, spot)) (h' : walk u spot rest = some (v, spot')) :
    Leads root spot spot' := ⟨path, rest, u, v, h, h'⟩

theorem Leads.of_reached (h : walk root whole path = some (u, spot)) : Leads root spot spot :=
  .of_walk h (walk_nil u spot)

theorem Leads.from_whole (h : walk root whole path = some (u, spot)) : Leads root whole spot :=
  .of_walk (walk_nil root whole) h

theorem DeclaresAt.declares (hroot : Coherent root) (h : DeclaresAt root key spot)
    (hu : walk root whole path = some (u, spot)) :
    Declares key u := by
  obtain ⟨_, v, hv, hdeclares⟩ := h
  rw [walk_class hroot hu hv]
  exact hdeclares

/-- A declaration lies at a spot that is reached. -/
theorem DeclaresAt.reached (h : DeclaresAt root key spot) : Leads root spot spot := by
  obtain ⟨_, _, hwalk, _⟩ := h
  exact .of_reached hwalk

theorem Overrides.of_leads (h : DeclaresAt root key spot)
    (hleads : Leads root view spot) : Overrides root key view spot :=
  ⟨h, spot, h, hleads, h.reached⟩

/-- A more derived spot that declares the method overrides it too. -/
theorem Overrides.of_derived (hroot : Coherent root) (h : Overrides root key view spot)
    (h' : DeclaresAt root key spot')
    (hleads : Leads root spot' spot) : Overrides root key view spot' := by
  obtain ⟨_, below, hbelow, hview, hspot⟩ := h
  exact ⟨h', below, hbelow, hview, hleads.trans hroot hspot⟩

/-- What overrides for a view overrides for the more derived ones. -/
theorem Overrides.of_view (hroot : Coherent root) {view' : Spot} (h : Overrides root key view spot)
    (hleads : Leads root view' view) :
    Overrides root key view' spot := by
  obtain ⟨hspot, below, hbelow, hview, hdown⟩ := h
  exact ⟨hspot, below, hbelow, hleads.trans hroot hview, hdown⟩

/-- Views with a common overrider have one final overrider. -/
theorem FinalOverrider.eq_of_shared (hroot : Coherent root) {view' other : Spot}
    (h : FinalOverrider root key view spot) (h' : FinalOverrider root key view' spot')
    (hother : Overrides root key view other) (hother' : Overrides root key view' other) :
    spot = spot' := by
  have hdown := h.2 other hother
  have hdown' := h'.2 other hother'
  apply Leads.antisymm hroot
  · exact h.2 spot' (hother.of_derived hroot h'.1.1 hdown')
  · exact h'.2 spot (hother'.of_derived hroot h.1.1 hdown)

/-- The class itself overrides everything it declares. -/
theorem finalOverrider_whole (hroot : Coherent root) (hdeclares : Declares key root)
    (h : FinalOverrider root key view spot) : spot = whole := by
  obtain ⟨path, u, hwalk, _⟩ := h.1.1
  have hself : DeclaresAt root key whole := ⟨[], root, rfl, hdeclares⟩
  have hup := h.2 whole (h.1.of_derived hroot hself (.from_whole hwalk))
  exact Leads.antisymm hroot hup (.from_whole hwalk)

end

/-! ## The bases of a class -/

variable {u : ClassDeclaration} {spot : Spot} {path : List Text}

theorem walk_anchor {c : ClassDeclaration} {spot' : Spot} (h : walk c spot path = some (u, spot')) :
    spot'.anchor = spot.anchor ∨ ∃ w : ClassDeclaration, w.Below c ∧
    spot'.anchor = some w.label.name := by
  induction path generalizing c spot with
  | nil =>
    obtain ⟨_, rfl⟩ := Prod.mk.inj (Option.some.inj h)
    exact .inl rfl
  | cons name path ih =>
    obtain ⟨base, hbase, hrest⟩ := walk_cons.mp h
    obtain ⟨hmem, hname⟩ := find_edge hbase
    have hself : base.2.Below c := ⟨base, hmem, Tree.mem_subtrees_self _⟩
    rcases ih hrest with heq | ⟨w, ⟨inner, hinner, hw⟩, heq⟩
    · rw [heq, Spot.enter]
      split
      · exact .inr ⟨base.2, hself, congrArg some hname.symm⟩
      · exact .inl rfl
    · refine .inr ⟨w, ⟨base, hmem, ?_⟩, heq⟩
      exact Tree.mem_subtrees_trans _ (Tree.mem_subtrees_edge hinner) hw

/-- A walk from any spot is one from the whole object, placed there. -/
theorem walk_inner {c : ClassDeclaration} {start : Spot} (h : walk c start path = some (u, spot)) :
    ∃ inner, walk c whole path = some (u, inner) ∧ start.within inner = spot := by
  have hshift := walk_within c start whole path
  rw [within_whole, h, eq_comm, Option.map_eq_some_iff] at hshift
  obtain ⟨⟨v, inner⟩, hwalk, heq⟩ := hshift
  obtain ⟨rfl, hspot⟩ := Prod.mk.inj heq
  exact ⟨inner, hwalk, hspot⟩

theorem exists_walk {c : ClassDeclaration} (hdistinct : DistinctBases c) (hc : Coherent c)
    (hu : u ∈ c.subtrees) (start : Spot) :
    ∃ path spot, walk c start path = some (u, spot) := by
  obtain ⟨path, hpath⟩ := mem_subobjects hdistinct hc hu
  obtain ⟨spot, hwalk⟩ := subobjects_walk hdistinct hpath start
  exact ⟨path, spot, hwalk⟩

theorem within_enter_whole (isVirtual : Bool) (name : Text) (spot : Spot) :
    (whole.enter isVirtual name).within spot = match spot.anchor with
      | none => if isVirtual then ⟨some name, spot.names⟩ else ⟨none, name :: spot.names⟩
      | some _ => spot := by
  obtain ⟨anchor, names⟩ := spot
  cases anchor with
  | some anchor => rfl
  | none => cases isVirtual <;> rfl

/-- Placing a base keeps its spots apart. -/
theorem within_injective {base : ClassDeclaration} (hbase : Coherent base) (isVirtual : Bool)
    {path' : List Text} {v : ClassDeclaration} {spot' : Spot}
    (h : walk base whole path = some (u, spot)) (h' : walk base whole path' = some (v, spot'))
    (heq : (whole.enter isVirtual base.label.name).within spot
      = (whole.enter isVirtual base.label.name).within spot') : spot = spot' := by
  -- the class is not one of its own virtual bases
  have hother : ∀ {path u s}, walk base whole path = some (u, s) →
      s.anchor ≠ some base.label.name := by
    intro path u s hwalk hanchor
    rcases walk_anchor hwalk with hnone | ⟨w, hbelow, hname⟩
    · rw [hnone] at hanchor
      cases hanchor
    · obtain ⟨edge, hedge, hw⟩ := hbelow
      have hmem := Tree.mem_subtrees_trans base (Tree.mem_subtrees_edge hedge) hw
      have hsame := hbase w hmem base base.mem_subtrees_self
        (Option.some.inj (hname.symm.trans hanchor))
      rw [hsame] at hw
      exact base.not_below_self ⟨edge, hedge, hw⟩
  have hanchor := hother h
  have hanchor' := hother h'
  obtain ⟨anchor, names⟩ := spot
  obtain ⟨anchor', names'⟩ := spot'
  rw [within_enter_whole, within_enter_whole] at heq
  cases anchor <;> cases anchor' <;> cases isVirtual <;>
    simp_all [Spot.mk.injEq]

/-! ## Another order of the bases -/

/-- The class with its bases listed in another order. -/
def Reordered (c c' : ClassDeclaration) : Prop := c'.label = c.label ∧ c'.edges.Perm c.edges

theorem find_perm {edges edges' : List (BaseInfo × ClassDeclaration)} (h : edges'.Perm edges)
    (hdistinct : (edges.map fun base => base.2.label.name).Nodup) (name : Text) :
    edges'.find? (fun base => base.2.label.name == name)
      = edges.find? (fun base => base.2.label.name == name) := by
  have hdistinct' : (edges'.map fun base => base.2.label.name).Nodup :=
    (h.map _).nodup_iff.mpr hdistinct
  match hfound : edges.find? (fun base => base.2.label.name == name) with
  | none =>
    rw [hfound, List.find?_eq_none]
    exact fun base hbase => List.find?_eq_none.mp hfound base (h.subset hbase)
  | some base =>
    have hname : base.2.label.name = name := by simpa using List.find?_some hfound
    have hmem := h.symm.subset (List.mem_of_find?_eq_some hfound)
    rw [hfound, ← hname]
    exact find_of_mem hdistinct' hmem

theorem Coherent.subtree {c : ClassDeclaration} (h : Coherent c) (hu : u ∈ c.subtrees) :
    Coherent u := fun v hv w hw =>
  h v (Tree.mem_subtrees_trans _ hu hv) w (Tree.mem_subtrees_trans _ hu hw)

namespace Reordered

variable {c c' : ClassDeclaration}

theorem refl (c : ClassDeclaration) : Reordered c c := ⟨rfl, .refl _⟩

theorem symm (h : Reordered c c') : Reordered c' c := ⟨h.1.symm, h.2.symm⟩

theorem declares (h : Reordered c c') {key : SlotKey} (hdeclares : Declares key c') :
    Declares key c := by
  rw [Declares, ← h.1]
  exact hdeclares

/-- The order of the bases does not matter to a walk. -/
theorem walk_eq (h : Reordered c c') (hdistinct : DistinctBases c) (spot : Spot) {path : List Text}
    (hpath : path ≠ []) : walk c' spot path = walk c spot path := by
  cases path with
  | nil => exact absurd rfl hpath
  | cons name rest =>
    rw [walk, walk, find_perm h.2 (hdistinct c c.mem_subtrees_self)]

variable {u : ClassDeclaration}

theorem walk_some (h : Reordered c c') (hdistinct : DistinctBases c) {path : List Text}
    {spot : Spot} (hwalk : walk c' whole path = some (u, spot)) :
    ∃ v, walk c whole path = some (v, spot) ∧ Reordered v u := by
  by_cases hpath : path = []
  · rw [hpath] at hwalk ⊢
    obtain ⟨rfl, rfl⟩ := Prod.mk.inj (Option.some.inj hwalk)
    exact ⟨c, rfl, h⟩
  · rw [h.walk_eq hdistinct whole hpath] at hwalk
    exact ⟨u, hwalk, refl u⟩

theorem below_iff (h : Reordered c c') (u : ClassDeclaration) : u.Below c' ↔ u.Below c := by
  constructor
  · rintro ⟨base, hbase, hu⟩
    exact ⟨base, h.2.subset hbase, hu⟩
  · rintro ⟨base, hbase, hu⟩
    exact ⟨base, h.2.symm.subset hbase, hu⟩

theorem mem_subtrees (h : Reordered c c') (hu : u ∈ c'.subtrees) :
    u = c' ∨ u ∈ c.subtrees := by
  rcases Tree.mem_subtrees.mp hu with rfl | hbelow
  · exact .inl rfl
  · obtain ⟨base, hbase, hu⟩ := (h.below_iff u).mp hbelow
    exact .inr (Tree.mem_subtrees_trans _ (Tree.mem_subtrees_edge hbase) hu)

theorem exists_declares (h : Reordered c c') {key : SlotKey} (hu : u ∈ c'.subtrees)
    (hdeclares : Declares key u) : ∃ v ∈ c.subtrees, Declares key v := by
  rcases h.mem_subtrees hu with rfl | hu
  · exact ⟨c, c.mem_subtrees_self, h.declares hdeclares⟩
  · exact ⟨u, hu, hdeclares⟩

theorem distinctBases (h : Reordered c c') (hdistinct : DistinctBases c) : DistinctBases c' := by
  intro u hu
  rcases h.mem_subtrees hu with rfl | hu
  · exact (h.2.map _).nodup_iff.mpr (hdistinct c c.mem_subtrees_self)
  · exact hdistinct u hu

theorem findsBases (h : Reordered c c') {p : Program} (hfinds : FindsBases p c) : FindsBases p c' :=
  fun base hbase => hfinds base (h.2.subset hbase)

/-- Nor does it to which class a name means. -/
theorem coherent (h : Reordered c c') (hc : Coherent c) : Coherent c' := by
  -- no class below has the name of the class itself
  have hfresh : ∀ u : ClassDeclaration, u.Below c' → u.label.name ≠ c'.label.name := by
    intro u hu hname
    obtain ⟨base, hbase, hmem⟩ := (h.below_iff u).mp hu
    rw [h.1] at hname
    have hself := hc u (Tree.mem_subtrees_trans _ (Tree.mem_subtrees_edge hbase) hmem) c
      c.mem_subtrees_self hname
    rw [hself] at hmem
    exact c.not_below_self ⟨base, hbase, hmem⟩
  have hbelow : ∀ {u : ClassDeclaration}, u.Below c' → u ∈ c.subtrees := by
    intro u hu
    obtain ⟨base, hbase, hmem⟩ := (h.below_iff u).mp hu
    exact Tree.mem_subtrees_trans _ (Tree.mem_subtrees_edge hbase) hmem
  intro u hu v hv hname
  rcases Tree.mem_subtrees.mp hu with rfl | hu
  · rcases Tree.mem_subtrees.mp hv with rfl | hv
    · rfl
    · exact absurd hname.symm (hfresh v hv)
  · rcases Tree.mem_subtrees.mp hv with rfl | hv
    · exact absurd hname (hfresh u hu)
    · exact hc u (hbelow hu) v (hbelow hv) hname

end Reordered

/-- A class with one of its bases listed first. -/
def baseFirst (c : ClassDeclaration) (base : BaseInfo × ClassDeclaration) : ClassDeclaration :=
  .node c.label (.ofList (base :: c.edges.erase base))

/-- Moving a base to the front reorders the bases. -/
theorem baseFirst_reordered {c : ClassDeclaration} {base : BaseInfo × ClassDeclaration}
    (h : base ∈ c.edges) : Reordered c (baseFirst c base) := by
  refine ⟨rfl, ?_⟩
  show (Edges.ofList (base :: c.edges.erase base)).toList.Perm c.edges
  rw [Edges.toList_ofList]
  exact (List.perm_cons_erase h).symm

theorem mem_subobjects_baseFirst (c : ClassDeclaration) (base : BaseInfo × ClassDeclaration) :
    ([base.2.label.name], base.2) ∈ subobjects (baseFirst c base) := by
  obtain ⟨edge, base⟩ := base
  rw [subobjects, baseFirst, Edges.ofList, subobjectsFrom, subobjectsBases, if_neg (by simp)]
  refine List.mem_cons_of_mem _ (List.mem_append_left _ ?_)
  cases base with
  | node info bases => exact List.mem_cons_self

end Cwhip.CodeGen
