/-
  Cwhip.CodeGen.SubobjectSpots

  The paths of base names, the spots they lead to and the members that lead
  there: paths to one spot lead through the same members, paths to different
  spots through different ones, and `subobjects` lists each spot once.
-/

import Cwhip.CodeGen.Construction

namespace Cwhip.CodeGen

open Cwhip.Lib
open Cwhip.Inheritance (BaseInfo)
open List (mem_append_left mem_append_right mem_cons_of_mem mem_cons_self)

/-! ## Members by spots -/

theorem baseAt_find {c : ClassDeclaration} {name : Text} {index : Nat}
    {base : BaseInfo × ClassDeclaration} (h : baseAt c name = some (index, base)) :
    c.edges.find? (fun base => base.2.label.name == name) = some base := by
  rw [List.find?_eq_bind_findIdx?_getElem?]
  obtain ⟨index', hindex, hget⟩ := Option.bind_eq_some_iff.mp h
  obtain ⟨base', hbase, hpair⟩ := Option.map_eq_some_iff.mp hget
  obtain ⟨-, rfl⟩ := Prod.mk.inj hpair
  rw [hindex, Option.bind_some, hbase]

/-- The class and the spot that a path leads to, with the members on the way. -/
inductive Placed (owner : ClassDeclaration) : List Text → ClassDeclaration → Spot →
    List Nat → Prop where
  | root : Placed owner [] owner whole []
  | storage {path : List Text} {c : ClassDeclaration} {spot : Spot} {indices : List Nat}
      (h : Placed owner path c spot indices) {name : Text} {index storage : Nat}
      {base : BaseInfo × ClassDeclaration} (hat : baseAt c name = some (index, base))
      (hvirtual : base.1.isVirtual = true) (hstorage : virtualBaseStorageIndex owner name =
        some storage) :
      Placed owner (path ++ [name]) base.2 ⟨some name, []⟩ [storage]
  | member {path : List Text} {c : ClassDeclaration} {spot : Spot} {indices : List Nat}
      (h : Placed owner path c spot indices) {name : Text} {index : Nat}
      {base : BaseInfo × ClassDeclaration} (hat : baseAt c name = some (index, base))
      (hvirtual : base.1.isVirtual = false) :
      Placed owner (path ++ [name]) base.2 ⟨spot.anchor, spot.names ++ [name]⟩
        (indices ++ [index + 2])

variable {spot : Spot}

theorem subobjectIndices_concat {owner current u next : ClassDeclaration}
    {indices result result' : List Nat} {path : List Text} {name : Text} {spot' : Spot}
    (hwalk : walk current spot path = some (u, spot'))
    (h : subobjectIndices owner current indices path = some result)
    (henters : Enters owner u result name next result') :
    subobjectIndices owner current indices (path ++ [name]) = some result' := by
  induction path generalizing current indices spot with
  | nil =>
    obtain ⟨rfl, -⟩ := Prod.mk.inj (Option.some.inj hwalk)
    obtain rfl := Option.some.inj h
    exact henters.subobjectIndices []
  | cons first rest ih =>
    obtain ⟨base, hfind, hrest⟩ := walk_cons.mp hwalk
    obtain ⟨index, hat⟩ := baseAt_of_find hfind
    rw [subobjectIndices, hat, Option.bind_eq_bind, Option.bind_some] at h
    rw [List.cons_append, subobjectIndices, hat, Option.bind_eq_bind, Option.bind_some]
    dsimp only at h ⊢
    split at h
    · next hvirtual =>
      obtain ⟨storage, hstorage, h⟩ := Option.bind_eq_some_iff.mp h
      rw [if_pos hvirtual, hstorage, Option.bind_eq_bind, Option.bind_some]
      exact ih hrest h
    · next hvirtual =>
      rw [if_neg hvirtual]
      exact ih hrest h

section

variable {owner u v : ClassDeclaration}

variable {path : List Text} {spot : Spot} {indices : List Nat} {name : Text} {storage : Nat}

theorem Placed.walk_eq
    (h : Placed owner path u spot indices) : walk owner whole path = some (u, spot) := by
  induction h with
  | root => rfl
  | storage h hat hvirtual hstorage ih | member h hat hvirtual ih =>
    refine walk_append_some.mpr ⟨_, ih, walk_cons.mpr ⟨_, baseAt_find hat, ?_⟩⟩
    rw [walk_nil, hvirtual]
    rfl

theorem Placed.indices_eq
    (h : Placed owner path u spot indices) : subobjectIndices owner owner [] path =
    some indices := by
  induction h with
  | root => rfl
  | storage h hat hvirtual hstorage ih =>
    exact subobjectIndices_concat h.walk_eq ih (.storage hat hvirtual hstorage)
  | member h hat hvirtual ih => exact subobjectIndices_concat h.walk_eq ih (.member hat hvirtual)

/-- Every walk ends in a member of the object. -/
theorem placed_of_walk (hdistinct : DistinctBases owner) (hc : Coherent owner)
    (h : walk owner whole path = some (u, spot)) :
    ∃ indices, Placed owner path u spot indices := by
  induction path using List.reverseRecOn generalizing u spot with
  | nil =>
    obtain ⟨rfl, rfl⟩ := Prod.mk.inj (Option.some.inj h)
    exact ⟨[], .root⟩
  | append_singleton path name ih =>
    obtain ⟨⟨c, front⟩, hfront, hlast⟩ := walk_append_some.mp h
    obtain ⟨base, hfind, hend⟩ := walk_cons.mp hlast
    obtain ⟨rfl, rfl⟩ := Prod.mk.inj (Option.some.inj hend)
    obtain ⟨indices, hplaced⟩ := ih hfront
    obtain ⟨index, hat⟩ := baseAt_of_find hfind
    cases hvirtual : base.1.isVirtual with
    | true =>
      obtain ⟨hmem, hname⟩ := find_edge hfind
      obtain ⟨storage, hstorage, -⟩ :=
        storage_exists hdistinct hc ⟨c, walk_mem hfront, base, hmem, hvirtual, rfl⟩
      rw [hname] at hstorage
      exact ⟨_, hplaced.storage hat hvirtual hstorage⟩
    | false => exact ⟨_, hplaced.member hat hvirtual⟩

theorem Placed.of_whole (h : Placed owner path u whole indices) : u = owner ∧ indices = [] := by
  generalize hspot : (whole : Spot) = spot at h
  cases h with
  | root => exact ⟨rfl, rfl⟩
  | storage h hat hvirtual hstorage => cases hspot
  | member h hat hvirtual =>
    have hnames := congrArg Spot.names hspot
    exact absurd hnames.symm (by simp [whole])

variable {path' : List Text} {index : Nat} {base : BaseInfo × ClassDeclaration}

/-- One spot is stored at one place. -/
theorem Placed.indices_unique (hc : Coherent owner) {indices' : List Nat}
    (h : Placed owner path u spot indices)
    (h' : Placed owner path' v spot indices') : indices = indices' := by
  induction h generalizing path' v indices' with
  | root => exact h'.of_whole.2.symm
  | storage h hat hvirtual hstorage ih =>
    generalize hspot : (Spot.mk _ _) = spot at h'
    cases h' with
    | root => cases hspot
    | storage h' hat' hvirtual' hstorage' =>
      obtain rfl := Option.some.inj (congrArg Spot.anchor hspot)
      rw [Option.some.inj (hstorage.symm.trans hstorage')]
    | member h' hat' hvirtual' => exact absurd (congrArg Spot.names hspot) (by simp)
  | @member path c spot indices h name index base hat hvirtual ih =>
    generalize hspot : (Spot.mk _ _) = spot' at h'
    cases h' with
    | root => exact absurd (congrArg Spot.names hspot) (by simp [whole])
    | storage h' hat' hvirtual' hstorage' => exact absurd (congrArg Spot.names hspot) (by simp)
    | @member path' c' spot' indices' h' name' index' base' hat' hvirtual' =>
      obtain ⟨hanchor, hnames⟩ := Spot.mk.inj hspot
      obtain ⟨hfront, hlast⟩ := List.append_inj' hnames rfl
      obtain rfl : name = name' := by simpa using hlast
      obtain rfl : spot = spot' := congrArg₂ Spot.mk hanchor hfront
      obtain rfl := walk_class hc h.walk_eq h'.walk_eq
      obtain rfl := ih h'
      obtain ⟨rfl, -⟩ := Prod.mk.inj (Option.some.inj (hat.symm.trans hat'))
      rfl

theorem virtualBaseStorageIndex_inj {name' : Text}
    (h : virtualBaseStorageIndex owner name = some storage)
    (h' : virtualBaseStorageIndex owner name' = some storage) : name = name' := by
  rw [virtualBaseStorageIndex] at h h'
  split at h
  · next hmem =>
    split at h'
    · have hindex := Option.some.inj (h.trans h'.symm)
      exact (List.idxOf_inj hmem).mp (by omega)
    · cases h'
  · cases h

theorem storage_ne_base (h : virtualBaseStorageIndex owner name = some storage)
    (hbase : owner.edges[index]? = some base) :
    storage ≠ index + 2 := by
  have hlt : index < owner.edges.length := (List.getElem?_eq_some_iff.mp hbase).1
  rw [virtualBaseStorageIndex] at h
  split at h
  · obtain rfl := Option.some.inj h
    omega
  · cases h

theorem Placed.of_nil (h : Placed owner path u spot []) :
    u = owner ∧ spot = whole := by
  generalize hindices : ([] : List Nat) = indices at h
  cases h with
  | root => exact ⟨rfl, rfl⟩
  | storage h hat hvirtual hstorage => cases hindices
  | member h hat hvirtual => exact absurd hindices.symm (by simp)

/-- No virtual base is stored inside a direct base. -/
theorem Placed.not_storage {c : ClassDeclaration} (h : Placed owner path c spot indices)
    {other : Text} (hat : baseAt c name = some (index, base))
    (hstorage : virtualBaseStorageIndex owner other = some storage) :
    indices ++ [index + 2] ≠ [storage] := by
  intro heq
  obtain ⟨rfl, hlast⟩ := List.append_inj' (heq.trans (List.nil_append _).symm) rfl
  obtain ⟨rfl, -⟩ := h.of_nil
  exact storage_ne_base hstorage (baseAt_eq_some hat).1 (by simpa using hlast.symm)

/-- One place stores one spot. -/
theorem Placed.spot_unique (hc : Coherent owner) {spot' : Spot}
    (h : Placed owner path u spot indices) (h' : Placed owner path' v spot' indices) :
    spot = spot' := by
  induction h generalizing path' v spot' with
  | root => exact h'.of_nil.2.symm
  | @storage path c spot indices h name index storage base hat hvirtual hstorage ih =>
    generalize hindices : [storage] = indices at h'
    cases h' with
    | root => cases hindices
    | @storage path' c' spot' indices' h' name' index' storage' base' hat' hvirtual' hstorage' =>
      obtain rfl : storage = storage' := by simpa using hindices
      rw [virtualBaseStorageIndex_inj hstorage hstorage']
    | member h' hat' hvirtual' => exact absurd hindices.symm (h'.not_storage hat' hstorage)
  | @member path c spot indices h name index base hat hvirtual ih =>
    generalize hindices : indices ++ [index + 2] = indices' at h'
    cases h' with
    | root => exact absurd hindices (by simp)
    | storage h' hat' hvirtual' hstorage' => exact absurd hindices (h.not_storage hat hstorage')
    | @member path' c' spot' indices' h' name' index' base' hat' hvirtual' =>
      obtain ⟨rfl, hlast⟩ := List.append_inj' hindices rfl
      obtain rfl : index = index' := by simpa using hlast
      obtain rfl := ih h'
      obtain rfl := walk_class hc h.walk_eq h'.walk_eq
      obtain ⟨hget, rfl⟩ := baseAt_eq_some hat
      obtain ⟨hget', rfl⟩ := baseAt_eq_some hat'
      rw [Option.some.inj (hget.symm.trans hget')]

end

/-! ## Every spot is listed -/

/-- What an enumeration has done with the bases of the classes it lists: each is
    listed below its class, unless it is a virtual base that was seen, and what
    was newly seen is listed below some class. -/
structure Covers (seen : List Text) (result : List (List Text × ClassDeclaration) × List Text) :
    Prop where
  below : ∀ entry ∈ result.1, ∀ base ∈ entry.2.edges,
    (entry.1 ++ [base.2.label.name], base.2) ∈ result.1 ∨
      (base.1.isVirtual = true ∧ base.2.label.name ∈ result.2)
  entered : ∀ name ∈ result.2, name ∈ seen ∨ ∃ entry ∈ result.1, ∃ base ∈ entry.2.edges,
    base.1.isVirtual = true ∧ base.2.label.name = name ∧
      (entry.1 ++ [base.2.label.name], base.2) ∈ result.1

/-- What enumerating some bases of a class has done. -/
structure CoversBases (bases : Edges ClassInfo BaseInfo) (path seen : List Text)
    (result : List (List Text × ClassDeclaration) × List Text) : Prop where
  below : ∀ entry ∈ result.1, ∀ base ∈ entry.2.edges,
    (entry.1 ++ [base.2.label.name], base.2) ∈ result.1 ∨
      (base.1.isVirtual = true ∧ base.2.label.name ∈ result.2)
  direct : ∀ base ∈ bases.toList, (path ++ [base.2.label.name], base.2) ∈ result.1 ∨
    (base.1.isVirtual = true ∧ base.2.label.name ∈ result.2)
  entered : ∀ name ∈ result.2, name ∈ seen ∨
    (∃ base ∈ bases.toList, base.1.isVirtual = true ∧ base.2.label.name = name ∧
      (path ++ [base.2.label.name], base.2) ∈ result.1) ∨
    ∃ entry ∈ result.1, ∃ base ∈ entry.2.edges, base.1.isVirtual = true ∧
      base.2.label.name = name ∧ (entry.1 ++ [base.2.label.name], base.2) ∈ result.1

mutual

/-- Every spot below is listed, unless its virtual base was seen. -/
theorem subobjectsFrom_covers (c : ClassDeclaration) (path seen : List Text) :
    Covers seen (subobjectsFrom c path seen) := by
  match c with
  | .node info bases =>
    have hbases := subobjectsBases_covers bases path seen
    rw [subobjectsFrom]
    constructor
    · intro entry hentry base hbase
      rcases List.mem_cons.mp hentry with rfl | hentry
      · exact (hbases.direct base hbase).imp_left (mem_cons_of_mem _)
      · exact (hbases.below entry hentry base hbase).imp_left (mem_cons_of_mem _)
    · intro name hname
      rcases hbases.entered name hname with hseen | ⟨base, hbase, hvirtual, heq, hlisted⟩ |
        ⟨entry, hentry, base, hbase, hvirtual, heq, hlisted⟩
      · exact .inl hseen
      · exact .inr ⟨_, mem_cons_self, base, hbase, hvirtual, heq,
          mem_cons_of_mem _ hlisted⟩
      · exact .inr ⟨entry, mem_cons_of_mem _ hentry, base, hbase, hvirtual, heq,
          mem_cons_of_mem _ hlisted⟩

theorem subobjectsBases_covers (bases : Edges ClassInfo BaseInfo) (path seen : List Text) :
    CoversBases bases path seen (subobjectsBases bases path seen) := by
  match bases with
  | .nil =>
    rw [subobjectsBases]
    exact ⟨fun _ h => (nomatch h), fun _ h => (nomatch h), fun _ h => .inl h⟩
  | .cons edge base others =>
    rw [subobjectsBases]
    split
    · next hskip =>
      -- a virtual base seen before is covered where it was entered
      have hothers := subobjectsBases_covers others path seen
      have hgrows := (subobjectsBases_enumerated others path seen).1.grows
      refine ⟨hothers.below, ?_, ?_⟩
      · rw [Edges.toList, List.forall_mem_cons]
        exact ⟨.inr ⟨hskip.1, hgrows hskip.2⟩, hothers.direct⟩
      · intro name hname
        refine (hothers.entered name hname).imp_right (.imp_left ?_)
        exact fun ⟨other, hother, h⟩ => ⟨other, mem_cons_of_mem _ hother, h⟩
    · dsimp only
      generalize hentered : (if edge.isVirtual then base.label.name :: seen else seen) = entered
      have hbelow := subobjectsFrom_covers base (path ++ [base.label.name]) entered
      have hself : (path ++ [base.label.name], base) ∈
          (subobjectsFrom base (path ++ [base.label.name]) entered).1 := by
        cases base with
        | node info bases => exact mem_cons_self
      generalize subobjectsFrom base (path ++ [base.label.name]) entered = below at *
      have hafter := subobjectsBases_covers others path below.2
      have hgrows := (subobjectsBases_enumerated others path below.2).1.grows
      generalize subobjectsBases others path below.2 = after at *
      refine ⟨?_, ?_, ?_⟩
      · intro entry hentry other hother
        rcases List.mem_append.mp hentry with hentry | hentry
        · refine (hbelow.below entry hentry other hother).imp (mem_append_left _) ?_
          exact fun h => ⟨h.1, hgrows h.2⟩
        · exact (hafter.below entry hentry other hother).imp_left (mem_append_right _)
      · rw [Edges.toList, List.forall_mem_cons]
        refine ⟨.inl (mem_append_left _ hself), ?_⟩
        intro other hother
        exact (hafter.direct other hother).imp_left (mem_append_right _)
      · intro name hname
        rcases hafter.entered name hname with hname | ⟨other, hother, hvirtual, heq, hlisted⟩ |
          ⟨entry, hentry, other, hother, hvirtual, heq, hlisted⟩
        · rcases hbelow.entered name hname with hname | ⟨entry, hentry, other, hother, hvirtual,
            heq, hlisted⟩
          · rw [← hentered] at hname
            split at hname
            · next hvirtual =>
              rcases List.mem_cons.mp hname with rfl | hname
              · exact .inr (.inl ⟨(edge, base), mem_cons_self, hvirtual, rfl,
                  mem_append_left _ hself⟩)
              · exact .inl hname
            · exact .inl hname
          · exact .inr (.inr ⟨entry, mem_append_left _ hentry, other, hother, hvirtual, heq,
              mem_append_left _ hlisted⟩)
        · exact .inr (.inl ⟨other, mem_cons_of_mem _ hother, hvirtual, heq,
            mem_append_right _ hlisted⟩)
        · exact .inr (.inr ⟨entry, mem_append_right _ hentry, other, hother, hvirtual, heq,
            mem_append_right _ hlisted⟩)

end

/-- Every subobject is listed under some path. -/
theorem walk_listed {owner u : ClassDeclaration} (hdistinct : DistinctBases owner)
    (hc : Coherent owner) {path : List Text} (h : walk owner whole path = some (u, spot)) :
    ∃ path', (path', u) ∈ subobjects owner ∧ walk owner whole path' = some (u, spot) := by
  have hcovers := subobjectsFrom_covers owner [] []
  induction path using List.reverseRecOn generalizing u spot with
  | nil =>
    obtain ⟨rfl, rfl⟩ := Prod.mk.inj (Option.some.inj h)
    exact ⟨[], self_mem_subobjects owner, rfl⟩
  | append_singleton path name ih =>
    obtain ⟨⟨c, front⟩, hfront, hlast⟩ := walk_append_some.mp h
    obtain ⟨base, hfind, hend⟩ := walk_cons.mp hlast
    obtain ⟨rfl, rfl⟩ := Prod.mk.inj (Option.some.inj hend)
    obtain ⟨path', hlisted, hwalk⟩ := ih hfront
    obtain ⟨hmem, rfl⟩ := find_edge hfind
    -- the walk along a listed path and one more base
    have hstep : ∀ {c : ClassDeclaration} {front : List Text} {spot : Spot}
        {base : BaseInfo × ClassDeclaration}, walk owner whole front = some (c, spot) →
        base ∈ c.edges → walk owner whole (front ++ [base.2.label.name])
          = some (base.2, spot.enter base.1.isVirtual base.2.label.name) := by
      intro c front spot base hwalk hmem
      refine walk_append_some.mpr ⟨_, hwalk, walk_cons.mpr ⟨base, ?_, rfl⟩⟩
      exact find_of_mem (hdistinct c (walk_mem hwalk)) hmem
    rcases hcovers.below _ hlisted base hmem with hbase | ⟨hvirtual, hseen⟩
    · exact ⟨_, hbase, hstep hwalk hmem⟩
    · rcases hcovers.entered _ hseen with hnil | ⟨⟨path'', d⟩, hentry, other, hother, hvirtual',
        hname, hbase⟩
      · cases hnil
      · obtain ⟨spot', hwalk'⟩ := subobjects_walk hdistinct hentry whole
        have hreached := hstep hwalk' hother
        have hsame : other.2 = base.2 := hc _ (walk_mem hreached) _ (walk_mem h) hname
        rw [hsame] at hbase hreached
        refine ⟨_, hbase, ?_⟩
        rw [hreached, hvirtual, hvirtual']
        rfl

/-! ## No spot is listed twice -/

def spotOf (owner : ClassDeclaration) (path : List Text) : Option Spot :=
  (walk owner whole path).map fun reached => reached.2

/-- A spot within one of some bases of the class at a spot, other than a virtual
    one. -/
def WithinBases (start : Spot) (names : List Text) (spot : Spot) : Prop :=
  spot.anchor = start.anchor ∧ ∃ name ∈ names, start.names ++ [name] <+: spot.names

/-- A spot within a virtual base that an enumeration saw first. -/
def WithinNew (seen after : List Text) (spot : Spot) : Prop :=
  ∃ name, spot.anchor = some name ∧ name ∈ after ∧ name ∉ seen

/-- Listed subobjects have different spots. -/
def SpotsApart (owner : ClassDeclaration) (entries : List (List Text × ClassDeclaration)) : Prop :=
  entries.Pairwise fun entry other => spotOf owner entry.1 ≠ spotOf owner other.1

variable {seen after names : List Text} {start : Spot}

theorem WithinNew.mono {seen' after' : List Text} (h : WithinNew seen after spot)
    (hseen : seen' ⊆ seen) (hafter : after ⊆ after') :
    WithinNew seen' after' spot := by
  obtain ⟨name, hanchor, hnew, hold⟩ := h
  exact ⟨name, hanchor, hafter hnew, fun hmem => hold (hseen hmem)⟩

theorem WithinBases.names_eq {names' : List Text} (h : WithinBases start names spot)
    (h' : WithinBases start names' spot) :
    ∃ name, name ∈ names ∧ name ∈ names' := by
  obtain ⟨-, name, hname, hprefix⟩ := h
  obtain ⟨-, name', hname', hprefix'⟩ := h'
  have heq := List.prefix_of_prefix_length_le hprefix hprefix' (by simp)
  obtain rfl : name = name' := by simpa using (heq.eq_of_length (by simp))
  exact ⟨name, hname, hname'⟩

/-- What lies inside a direct base is in no new virtual base. -/
theorem WithinBases.not_new (hstart : ∀ name, start.anchor = some name → name ∈ seen)
    (h : WithinBases start names spot) :
    ¬ WithinNew seen after spot := by
  rintro ⟨name, hanchor, -, hold⟩
  exact hold (hstart name (h.1.symm.trans hanchor))

mutual

/-- The entries of one call lie at different spots. -/
theorem subobjectsFrom_apart {owner c : ClassDeclaration} (hdistinct : DistinctBases c)
    {path seen : List Text} {start : Spot} (hwalk : walk owner whole path = some (c, start))
    (hstart : ∀ name, start.anchor = some name → name ∈ seen) :
    (∀ entry ∈ (subobjectsFrom c path seen).1, ∃ spot, spotOf owner entry.1 = some spot ∧
      ((spot.anchor = start.anchor ∧ start.names <+: spot.names) ∨
        WithinNew seen (subobjectsFrom c path seen).2 spot)) ∧
      SpotsApart owner (subobjectsFrom c path seen).1 := by
  match c with
  | .node info bases =>
    have hself : spotOf owner path = some start := by
      rw [spotOf, hwalk]
      rfl
    have hbases : ∀ base ∈ bases.toList, DistinctBases base.2 := fun base hbase =>
      hdistinct.subtree (Tree.mem_subtrees_edge hbase)
    have hdirect := hdistinct _ (Tree.mem_subtrees_self _)
    have hsteps : ∀ base ∈ bases.toList, walk owner whole (path ++ [base.2.label.name])
        = some (base.2, start.enter base.1.isVirtual base.2.label.name) := fun base hbase =>
      walk_append_some.mpr ⟨_, hwalk, walk_cons.mpr ⟨base, find_of_mem hdirect hbase, rfl⟩⟩
    obtain ⟨hspots, hapart⟩ := subobjectsBases_apart hbases hdirect hsteps hstart
    rw [subobjectsFrom]
    refine ⟨?_, List.pairwise_cons.mpr ⟨?_, hapart⟩⟩
    · intro entry hentry
      rcases List.mem_cons.mp hentry with rfl | hentry
      · exact ⟨start, hself, .inl ⟨rfl, List.prefix_refl _⟩⟩
      · obtain ⟨spot, hspot, hwithin⟩ := hspots entry hentry
        refine ⟨spot, hspot, hwithin.imp_left ?_⟩
        rintro ⟨hanchor, name, -, hprefix⟩
        exact ⟨hanchor, (List.prefix_append _ _).trans hprefix⟩
    · -- what is listed below the class has more names, or a new anchor
      intro entry hentry heq
      obtain ⟨spot, hspot, hwithin⟩ := hspots entry hentry
      obtain rfl : start = spot := Option.some.inj (hself.symm.trans (heq.trans hspot))
      rcases hwithin with ⟨-, name, -, hprefix⟩ | ⟨name, hanchor, -, hold⟩
      · have hlength := hprefix.length_le
        rw [List.length_append, List.length_singleton] at hlength
        omega
      · exact hold (hstart name hanchor)

theorem subobjectsBases_apart {owner : ClassDeclaration} {bases : Edges ClassInfo BaseInfo}
    (hdistinct : ∀ base ∈ bases.toList, DistinctBases base.2)
    (hnodup : (bases.toList.map fun base => base.2.label.name).Nodup) {path seen : List Text}
    {start : Spot} (hsteps : ∀ base ∈ bases.toList, walk owner whole (path ++ [base.2.label.name])
      = some (base.2, start.enter base.1.isVirtual base.2.label.name))
    (hstart : ∀ name, start.anchor = some name → name ∈ seen) :
    (∀ entry ∈ (subobjectsBases bases path seen).1, ∃ spot, spotOf owner entry.1 = some spot ∧
      (WithinBases start (bases.toList.map fun base => base.2.label.name) spot ∨
        WithinNew seen (subobjectsBases bases path seen).2 spot)) ∧
      SpotsApart owner (subobjectsBases bases path seen).1 := by
  match bases with
  | .nil =>
    rw [subobjectsBases]
    exact ⟨fun _ h => (nomatch h), List.Pairwise.nil⟩
  | .cons edge base others =>
    rw [Edges.toList] at hnodup hdistinct hsteps
    rw [List.map_cons, List.nodup_cons] at hnodup
    obtain ⟨hbase, hothers⟩ := List.forall_mem_cons.mp hdistinct
    obtain ⟨hstep, hsteps⟩ := List.forall_mem_cons.mp hsteps
    rw [subobjectsBases, Edges.toList, List.map_cons]
    have hlater : ∀ {spot}, WithinBases start (others.toList.map fun base =>
        base.2.label.name) spot →
        WithinBases start (base.label.name :: others.toList.map fun base =>
            base.2.label.name) spot :=
      fun ⟨hanchor, name, hname, hprefix⟩ => ⟨hanchor, name, mem_cons_of_mem _ hname, hprefix⟩
    split
    · obtain ⟨hspots, hapart⟩ := subobjectsBases_apart hothers hnodup.2 hsteps hstart
      refine ⟨?_, hapart⟩
      intro entry hentry
      obtain ⟨spot, hspot, hwithin⟩ := hspots entry hentry
      exact ⟨spot, hspot, hwithin.imp_left hlater⟩
    · next hskip =>
      dsimp only
      generalize hentered : (if edge.isVirtual then base.label.name :: seen else seen) = entered
      have hkeep : seen ⊆ entered := by
        rw [← hentered]
        split
        · exact List.subset_cons_self _ _
        · exact List.Subset.refl _
      have henter : ∀ name, (start.enter edge.isVirtual base.label.name).anchor = some name →
          name ∈ entered := by
        intro name hanchor
        rw [Spot.enter] at hanchor
        split at hanchor
        · next hvirtual =>
          rw [← hentered, if_pos hvirtual, ← Option.some.inj hanchor]
          exact mem_cons_self
        · exact hkeep (hstart name hanchor)
      obtain ⟨hbelow, hapart⟩ := subobjectsFrom_apart hbase hstep henter
      have hgrows := (subobjectsFrom_enumerated base (path ++ [base.label.name]) entered).grows
      generalize subobjectsFrom base (path ++ [base.label.name]) entered = below at *
      obtain ⟨hafter, hapart'⟩ := subobjectsBases_apart hothers hnodup.2 hsteps
        (fun name hanchor => hgrows (hkeep (hstart name hanchor)))
      have hgrows' := (subobjectsBases_enumerated others path below.2).1.grows
      generalize subobjectsBases others path below.2 = after at *
      -- where the subobjects of this base lie
      have hlies : ∀ entry ∈ below.1, ∃ spot, spotOf owner entry.1 = some spot ∧
          (WithinBases start [base.label.name] spot ∨ WithinNew seen below.2 spot) := by
        intro entry hentry
        obtain ⟨spot, hspot, hwithin | hnew⟩ := hbelow entry hentry
        · refine ⟨spot, hspot, ?_⟩
          rw [Spot.enter] at hwithin
          split at hwithin
          · next hvirtual =>
            refine .inr ⟨base.label.name, hwithin.1, hgrows ?_, fun hmem => hskip ⟨hvirtual, hmem⟩⟩
            rw [← hentered, if_pos hvirtual]
            exact mem_cons_self
          · exact .inl ⟨hwithin.1, base.label.name, List.mem_singleton_self _, hwithin.2⟩
        · exact ⟨spot, hspot, .inr (hnew.mono hkeep (List.Subset.refl _))⟩
      refine ⟨?_, List.pairwise_append.mpr ⟨hapart, hapart', ?_⟩⟩
      · intro entry hentry
        rcases List.mem_append.mp hentry with hentry | hentry
        · obtain ⟨spot, hspot, ⟨hanchor, name, hname, hprefix⟩ | hnew⟩ := hlies entry hentry
          · refine ⟨spot, hspot, .inl ⟨hanchor, name, ?_, hprefix⟩⟩
            rw [List.mem_singleton.mp hname]
            exact mem_cons_self
          · exact ⟨spot, hspot, .inr (hnew.mono (List.Subset.refl _) hgrows')⟩
        · obtain ⟨spot, hspot, hwithin⟩ := hafter entry hentry
          refine ⟨spot, hspot, hwithin.imp hlater fun hnew => ?_⟩
          exact hnew.mono (fun _ hmem => hgrows (hkeep hmem)) (List.Subset.refl _)
      · intro entry hentry other hother heq
        obtain ⟨spot, hspot, hwithin⟩ := hlies entry hentry
        obtain ⟨spot', hspot', hwithin'⟩ := hafter other hother
        obtain rfl : spot = spot' := Option.some.inj (hspot.symm.trans (heq.trans hspot'))
        rcases hwithin with hwithin | hnew
        · rcases hwithin' with hwithin' | hnew'
          · obtain ⟨name, hname, hname'⟩ := hwithin.names_eq hwithin'
            rw [List.mem_singleton.mp hname] at hname'
            exact hnodup.1 hname'
          · exact hwithin.not_new hstart
              (hnew'.mono (fun _ hmem => hgrows (hkeep hmem)) (List.Subset.refl _))
        · rcases hwithin' with hwithin' | ⟨name', hanchor', -, hold⟩
          · exact hwithin'.not_new hstart hnew
          · obtain ⟨name, hanchor, hnew, -⟩ := hnew
            obtain rfl := Option.some.inj (hanchor.symm.trans hanchor')
            exact hold hnew

end

theorem subobjects_apart {owner : ClassDeclaration} (hdistinct : DistinctBases owner) :
    SpotsApart owner (subobjects owner) := by
  have hanchor : ∀ name, whole.anchor = some name → name ∈ ([] : List Text) := by
    intro name h
    cases h
  exact (subobjectsFrom_apart hdistinct rfl hanchor).2

/-- Two entries of one spot are the same. -/
theorem listed_unique {owner u v : ClassDeclaration} (hdistinct : DistinctBases owner)
    {view view' : List Text × ClassDeclaration} (hview : view ∈ subobjects owner)
    (hview' : view' ∈ subobjects owner) (h : walk owner whole view.1 = some (u, spot))
    (h' : walk owner whole view'.1 = some (v, spot)) : view = view' := by
  have hnodup : ((subobjects owner).map fun view => spotOf owner view.1).Nodup :=
    List.pairwise_map.mpr (subobjects_apart hdistinct)
  apply List.inj_on_of_nodup_map hnodup hview hview'
  rw [spotOf, spotOf, h, h']
  rfl

end Cwhip.CodeGen
