/-
  Cwhip.Inheritance.Lookup

  What the field searches of the analyzer and of the code generator find.

  A count of one leaves room for one place only, since a search stops at every
  place its edges lead to (`hit_unique`).  The generator finds the first
  subobject in depth-first base order that declares the field, and the address
  it computes is in that subobject (`findFieldPath_spec`).
-/

import Cwhip.Inheritance.Layout

namespace Cwhip.Inheritance

open Cwhip.Lib

/-! ## Classes of a program -/

theorem Program.find_subtree (p : Program) {c u : ClassDeclaration} (hc : c ∈ p.classes)
    (hu : u ∈ c.subtrees) : p.find u.label.name = some u :=
  p.resolved c hc u hu

theorem Program.mem_subtree (p : Program) {c u : ClassDeclaration} (hc : c ∈ p.classes)
    (hu : u ∈ c.subtrees) : u ∈ p.classes :=
  List.mem_of_find?_eq_some (p.resolved c hc u hu)

theorem Program.mem_base (p : Program) {c : ClassDeclaration} {base : BaseInfo × ClassDeclaration}
    (hc : c ∈ p.classes) (h : base ∈ c.edges) : base.2 ∈ p.classes :=
  p.mem_subtree hc (Tree.mem_subtrees_edge h)

theorem Program.find_base (p : Program) {c : ClassDeclaration} {base : BaseInfo × ClassDeclaration}
    (hc : c ∈ p.classes) (h : base ∈ c.edges) : p.find base.2.label.name = some base.2 :=
  p.find_subtree hc (Tree.mem_subtrees_edge h)

/-- Subobjects of one name are of one class. -/
theorem Program.coherent (p : Program) {c : ClassDeclaration} (hc : c ∈ p.classes)
    (follow : ClassDeclaration → BaseInfo → ClassDeclaration → Bool) (stop : ClassInfo → Bool) :
    (baseSearch follow stop).Coherent c := by
  intro u hu v hv hkey
  have hname : u.label.name = v.label.name := hkey
  have hfind := p.find_subtree hc hu
  rw [hname, p.find_subtree hc hv] at hfind
  exact (Option.some.inj hfind).symm

theorem findField_isSome (name : String) (info : ClassInfo) :
    (info.findField name).isSome = info.declaresField name := by
  unfold ClassInfo.findField ClassInfo.declaresField
  exact List.isSome_find?

theorem declaresField_of_find {name : String} {info : ClassInfo} {field : FieldDeclaration}
    (h : info.findField name = some field) : info.declaresField name = true := by
  rw [← findField_isSome, h]
  rfl

theorem findField_eq_none {name : String} {info : ClassInfo} :
    info.findField name = none ↔ info.declaresField name = false := by
  rw [← findField_isSome]
  cases info.findField name <;> simp

/-! ## Counting -/

theorem le_sum_of_mem {α : Type} {l : List α} (weight : α → Nat) {a : α} (h : a ∈ l) :
    weight a ≤ (l.map weight).sum := by
  induction l with
  | nil => simp at h
  | cons b rest ih =>
    rw [List.map_cons, List.sum_cons]
    rw [List.mem_cons] at h
    rcases h with rfl | h
    · exact Nat.le_add_right _ _
    · exact Nat.le_trans (ih h) (Nat.le_add_left _ _)

theorem eq_of_sum_le_one {α : Type} {l : List α} {weight : α → Nat}
    (hsum : (l.map weight).sum ≤ 1) {a b : α} (ha : a ∈ l) (hb : b ∈ l) (hwa : 1 ≤ weight a)
    (hwb : 1 ≤ weight b) : a = b := by
  induction l with
  | nil => simp at ha
  | cons x rest ih =>
    rw [List.map_cons, List.sum_cons] at hsum
    rw [List.mem_cons] at ha hb
    rcases ha with rfl | ha
    · rcases hb with rfl | hb
      · rfl
      · have hle := le_sum_of_mem weight hb
        omega
    · rcases hb with rfl | hb
      · have hle := le_sum_of_mem weight ha
        omega
      · exact ih (by omega) ha hb

/-- The count does not depend on the place the search starts from. -/
theorem countHits_at (S : Search ClassInfo BaseInfo String) (weight : ClassDeclaration → Nat)
    (c : ClassDeclaration) (place : Place String) :
    countHits S weight c = ((S.run c place []).1.map fun hit => weight hit.1).sum := by
  have hplace := (@Search.run_place _ _ _ S _ c whole place []).1
  have hmap : ∀ l : List (ClassDeclaration × Place String),
      (l.map fun hit => weight hit.1) = (l.map Prod.fst).map weight := by
    intro l
    rw [List.map_map]
    rfl
  rw [countHits, hmap, hmap, hplace]

section Counts

variable {p : Program} {c : ClassDeclaration} {place : Place String}
  {follow : ClassDeclaration → BaseInfo → ClassDeclaration → Bool} {stop : ClassInfo → Bool}
  {weight : ClassDeclaration → Nat}

/-- A count of one leaves no two hits. -/
theorem hit_unique (hc : c ∈ p.classes) (hcount : countHits (baseSearch follow stop) weight c ≤ 1)
    {u v : ClassDeclaration} {placeU placeV : Place String}
    (hu : (baseSearch follow stop).Reaches c place u placeU) (hstopU : stop u.label = true)
    (hv : (baseSearch follow stop).Reaches c place v placeV) (hstopV : stop v.label = true)
    (hwu : 1 ≤ weight u) (hwv : 1 ≤ weight v) : (u, placeU) = (v, placeV) := by
  rw [countHits_at _ _ _ place] at hcount
  have hcoherent := p.coherent hc follow stop
  exact eq_of_sum_le_one hcount (Search.mem_run hcoherent hu hstopU)
    (Search.mem_run hcoherent hv hstopV) hwu hwv

theorem none_of_countHits_zero (hc : c ∈ p.classes)
    (hcount : countHits (baseSearch (fun _ _ _ => true) stop) weight c = 0)
    (hweight : ∀ u : ClassDeclaration, stop u.label = true → 1 ≤ weight u) :
    ∀ u ∈ c.subtrees, stop u.label = false := by
  intro u hu
  rw [← Bool.not_eq_true]
  intro hstop
  obtain ⟨v, place', hreach, hv⟩ := @Search.exists_reaches _ _ _
    (baseSearch (fun _ _ _ => true) stop) (fun _ _ _ => rfl) c u whole hu hstop
  have hmem := Search.mem_run (p.coherent hc (fun _ _ _ => true) stop) hreach hv
  have hle := le_sum_of_mem (fun hit : ClassDeclaration × Place String => weight hit.1) hmem
  rw [countHits_at _ _ _ whole] at hcount
  exact absurd hcount (Nat.ne_of_gt (Nat.lt_of_lt_of_le (hweight v hv) hle))

end Counts

theorem filter_length_pos {α : Type} {l : List α} {f : α → Bool} (h : l.any f = true) :
    1 ≤ (l.filter f).length := by
  obtain ⟨a, ha, hfa⟩ := List.any_eq_true.mp h
  exact List.length_pos_of_mem (List.mem_filter.mpr ⟨ha, hfa⟩)

theorem not_declares_of_countFields {p : Program} {c : ClassDeclaration} (hc : c ∈ p.classes)
    {name : String} (h : countFields c name = 0) :
    ∀ u ∈ c.subtrees, u.label.declaresField name = false :=
  none_of_countHits_zero hc h fun _ hu => filter_length_pos hu

theorem not_declares_of_countEnumMembers {p : Program} {c : ClassDeclaration} (hc : c ∈ p.classes)
    {name : String} (h : countEnumMembers c name = 0) :
    ∀ u ∈ c.subtrees, u.label.declaresEnumMember name = false :=
  none_of_countHits_zero hc h fun _ hu => filter_length_pos hu

/-- No base declares the field of a class again. -/
theorem Program.fresh_below (p : Program) {c : ClassDeclaration} (hc : c ∈ p.classes)
    {name : String} (h : c.label.declaresField name = true) {base : BaseInfo × ClassDeclaration}
    (hbase : base ∈ c.edges) : ∀ u ∈ base.2.subtrees, u.label.declaresField name = false := by
  obtain ⟨field, hfield, hname⟩ := List.any_eq_true.mp h
  obtain rfl : field.name = name := by simpa using hname
  exact not_declares_of_countFields (p.mem_base hc hbase)
    (p.freshFields c hc field hfield base hbase).1

/-! ## The analyzer's search -/

namespace Context

variable (ctx : Context)

mutual

/-- What the analyzer finds is reached by its search. -/
theorem findFieldFrom_sound (name : String) (c : ClassDeclaration) (place : Place String)
    (seen : List String) {found : FoundField}
    (h : (ctx.findFieldFrom name c place seen).1 = some found) :
    (ctx.accessibleFieldSearch name).Reaches c place found.owner found.place ∧
      found.owner.label.findField name = some found.field := by
  match c with
  | .node info bases =>
    rw [findFieldFrom] at h
    cases hown : info.findField name with
    | some field =>
      rw [hown] at h
      obtain rfl := Option.some.inj h
      exact ⟨.refl _ _, hown⟩
    | none =>
      rw [hown] at h
      have hgo : (ctx.accessibleFieldSearch name).stop info = false := findField_eq_none.mp hown
      rcases findFieldBases_sound name (.node info bases) bases 0 place none seen h with
        hnone | ⟨j, edge, base, hat, hfollow, hreach, hfield⟩
      · cases hnone
      · rw [Nat.zero_add] at hreach
        exact ⟨.step hgo hat hfollow hreach, hfield⟩

theorem findFieldBases_sound (name : String) (current : ClassDeclaration)
    (bases : Edges ClassInfo BaseInfo) (index : Nat) (place : Place String)
    (result : Option FoundField) (seen : List String) {found : FoundField}
    (h : (ctx.findFieldBases name current bases index place result seen).1 = some found) :
    result = some found ∨ ∃ j edge base, bases.toList[j]? = some (edge, base) ∧
      (ctx.accessibleFieldSearch name).follow current edge base = true ∧
      (ctx.accessibleFieldSearch name).Reaches base
        ((ctx.accessibleFieldSearch name).enter place (index + j) edge base)
        found.owner found.place ∧
      found.owner.label.findField name = some found.field := by
  match bases with
  | .nil => exact Or.inl h
  | .cons edge base rest =>
    -- what the rest of the loop finds, seen from here
    have hlater : ∀ result' seen',
        (ctx.findFieldBases name current rest (index + 1) place result' seen').1 = some found →
        result' = some found ∨ ∃ j edge' base', (Edges.cons edge base rest).toList[j]?
            = some (edge', base') ∧
          (ctx.accessibleFieldSearch name).follow current edge' base' = true ∧
          (ctx.accessibleFieldSearch name).Reaches base'
            ((ctx.accessibleFieldSearch name).enter place (index + j) edge' base')
            found.owner found.place ∧
          found.owner.label.findField name = some found.field := by
      intro result' seen' hrest
      rcases findFieldBases_sound name current rest (index + 1) place result' seen' hrest with
        hresult | ⟨j, edge', base', hat, hfollow, hreach, hfield⟩
      · exact Or.inl hresult
      · refine Or.inr ⟨j + 1, edge', base', hat, hfollow, ?_, hfield⟩
        rwa [Nat.add_right_comm] at hreach
    rw [findFieldBases] at h
    by_cases hfollow : (ctx.accessibleFieldSearch name).follow current edge base = true
    · rw [if_pos hfollow] at h
      by_cases hskip : edge.isVirtual = true ∧ base.label.name ∈ seen
      · rw [if_pos hskip] at h
        exact hlater result seen h
      · rw [if_neg hskip] at h
        dsimp only at h
        generalize hfound : ctx.findFieldFrom name base
          ((ctx.accessibleFieldSearch name).enter place index edge base)
          (if edge.isVirtual = true then base.label.name :: seen else seen) = searched at h
        cases hcandidate : searched.1 with
        | none =>
          rw [hcandidate] at h
          exact hlater result searched.2 h
        | some candidate =>
          rw [hcandidate] at h
          cases result with
          | some other => cases h
          | none =>
            rcases hlater (some candidate) searched.2 h with heq | hbelow
            · obtain rfl := Option.some.inj heq
              obtain ⟨hreach, hfield⟩ := findFieldFrom_sound name base _ _
                (hfound ▸ hcandidate)
              exact Or.inr ⟨0, edge, base, rfl, hfollow, hreach, hfield⟩
            · exact Or.inr hbelow
    · rw [if_neg hfollow] at h
      exact hlater result seen h

end

variable {ctx}

theorem findField_sound {name : String} {c : ClassDeclaration} {place : Place String}
    {found : FoundField} (h : ctx.findField c name place = some found) :
    (ctx.accessibleFieldSearch name).Reaches c place found.owner found.place ∧
      found.owner.label.findField name = some found.field :=
  ctx.findFieldFrom_sound name c place [] h

theorem reaches_field {name : String} {c u : ClassDeclaration} {place place' : Place String}
    (h : (ctx.accessibleFieldSearch name).Reaches c place u place') :
    (fieldSearch name).Reaches c place u place' := by
  induction h with
  | refl c place => exact .refl c place
  | step go at_ follow rest ih => exact .step go at_ rfl ih

theorem reaches_member {name : String} {c u : ClassDeclaration} {place place' : Place String}
    (henum : ∀ d ∈ c.subtrees, d.label.declaresEnumMember name = false)
    (h : (ctx.accessibleFieldSearch name).Reaches c place u place') :
    (ctx.memberSearch name).Reaches c place u place' := by
  induction h with
  | refl c place => exact .refl c place
  | step go at_ follow rest ih =>
    rename_i t child u edge index place place'
    have hgo : t.label.declaresField name = false := go
    have hedge := Tree.mem_subtrees_edge (List.mem_of_getElem? at_)
    refine .step ?_ at_ (Bool.and_eq_true_iff.mp follow).1
      (ih fun d hd => henum d (Tree.mem_subtrees_trans _ hedge hd))
    simp [memberSearch, baseSearch, hgo, henum t t.mem_subtrees_self]

/-- A member found in a base is accessible there. -/
theorem accessible_of_reaches {name : String} {c u : ClassDeclaration} {place place' : Place String}
    (h : (ctx.accessibleFieldSearch name).Reaches c place u place') :
    (u = c ∧ place' = place) ∨ ctx.memberAccessible u name = true := by
  induction h with
  | refl c place => exact Or.inl ⟨rfl, rfl⟩
  | step go at_ follow rest ih =>
    right
    rcases ih with ⟨rfl, _⟩ | haccessible
    · exact (Bool.and_eq_true_iff.mp follow).2
    · exact haccessible

/-- At most one accessible field has the name, at one place. -/
theorem accessible_unique {name : String} {c u v : ClassDeclaration}
    {place placeU placeV : Place String} (hc : c ∈ ctx.program.classes)
    (hcount : ctx.accessibleMemberCount c name ≤ 1) (henum : countEnumMembers c name = 0)
    (hu : (ctx.accessibleFieldSearch name).Reaches c place u placeU)
    (hstopU : u.label.declaresField name = true)
    (hv : (ctx.accessibleFieldSearch name).Reaches c place v placeV)
    (hstopV : v.label.declaresField name = true) : u = v ∧ placeU = placeV := by
  have hnone := not_declares_of_countEnumMembers hc henum
  by_cases hown : c.label.declaresField name = true
  · -- the class itself declares the field: no search leaves it
    have hself : ∀ w placeW, (ctx.accessibleFieldSearch name).Reaches c place w placeW →
        w = c ∧ placeW = place := by
      intro w placeW hw
      cases hw with
      | refl => exact ⟨rfl, rfl⟩
      | step go => exact absurd (hown.symm.trans go) (by decide)
    obtain ⟨rfl, rfl⟩ := hself u placeU hu
    obtain ⟨rfl, rfl⟩ := hself v placeV hv
    exact ⟨rfl, rfl⟩
  · have hweight : ∀ w placeW, (ctx.accessibleFieldSearch name).Reaches c place w placeW →
        w.label.declaresField name = true → 1 ≤ if ctx.memberAccessible w name then 1 else 0 := by
      intro w placeW hw hstop
      rcases accessible_of_reaches hw with ⟨rfl, _⟩ | haccessible
      · exact absurd hstop hown
      · exact Nat.le_of_eq (if_pos haccessible).symm
    have heq := hit_unique hc hcount (reaches_member hnone hu) (by simp [hstopU])
      (reaches_member hnone hv) (by simp [hstopV]) (hweight u placeU hu hstopU)
      (hweight v placeV hv hstopV)
    exact Prod.mk.inj heq

end Context

/-! ## The generator's search -/

mutual

/-- The first subobject in depth-first base order whose class declares the
    field. -/
def firstDeclaring (name : String) :
    ClassDeclaration → Place String → Option (ClassDeclaration × Place String)
  | .node info bases, place =>
    if info.declaresField name then some (.node info bases, place)
    else firstDeclaringBases name bases 0 place

def firstDeclaringBases (name : String) :
    Edges ClassInfo BaseInfo → Nat → Place String → Option (ClassDeclaration × Place String)
  | .nil, _, _ => none
  | .cons edge base rest, index, place =>
    match firstDeclaring name base ((fieldSearch name).enter place index edge base) with
    | some first => some first
    | none => firstDeclaringBases name rest (index + 1) place

end

mutual

/-- The first declaration is reached on the way to it. -/
theorem firstDeclaring_some (name : String) (c : ClassDeclaration) (place : Place String)
    {first : ClassDeclaration × Place String} (h : firstDeclaring name c place = some first) :
    (fieldSearch name).Reaches c place first.1 first.2 ∧
      first.1.label.declaresField name = true := by
  match c with
  | .node info bases =>
    rw [firstDeclaring] at h
    by_cases hown : info.declaresField name = true
    · rw [if_pos hown] at h
      obtain rfl := Option.some.inj h
      exact ⟨.refl _ _, hown⟩
    · rw [if_neg hown] at h
      obtain ⟨j, edge, base, hat, hreach, hfirst⟩ := firstDeclaringBases_some name bases 0 place h
      rw [Nat.zero_add] at hreach
      have hgo : (fieldSearch name).stop info = false := (Bool.not_eq_true _).mp hown
      exact ⟨.step hgo hat rfl hreach, hfirst⟩

theorem firstDeclaringBases_some (name : String) (bases : Edges ClassInfo BaseInfo) (index : Nat)
    (place : Place String) {first : ClassDeclaration × Place String}
    (h : firstDeclaringBases name bases index place = some first) :
    ∃ j edge base, bases.toList[j]? = some (edge, base) ∧
      (fieldSearch name).Reaches base ((fieldSearch name).enter place (index + j) edge base)
        first.1 first.2 ∧
      first.1.label.declaresField name = true := by
  match bases with
  | .nil => cases h
  | .cons edge base rest =>
    rw [firstDeclaringBases] at h
    cases hbase : firstDeclaring name base ((fieldSearch name).enter place index edge base) with
    | some found =>
      rw [hbase] at h
      obtain rfl := Option.some.inj h
      obtain ⟨hreach, hfirst⟩ := firstDeclaring_some name base _ hbase
      exact ⟨0, edge, base, rfl, hreach, hfirst⟩
    | none =>
      rw [hbase] at h
      obtain ⟨j, edge', base', hat, hreach, hfirst⟩ :=
        firstDeclaringBases_some name rest (index + 1) place h
      refine ⟨j + 1, edge', base', hat, ?_, hfirst⟩
      rwa [Nat.add_right_comm] at hreach

end

mutual

/-- Where no declaration is found there is none. -/
theorem firstDeclaring_none (name : String) (c : ClassDeclaration) (place : Place String)
    (h : firstDeclaring name c place = none) :
    ∀ u ∈ c.subtrees, u.label.declaresField name = false := by
  match c with
  | .node info bases =>
    rw [firstDeclaring] at h
    by_cases hown : info.declaresField name = true
    · rw [if_pos hown] at h
      cases h
    · rw [if_neg hown] at h
      intro u hu
      rw [Tree.subtrees, List.mem_cons] at hu
      rcases hu with rfl | hu
      · exact (Bool.not_eq_true _).mp hown
      · exact firstDeclaringBases_none name bases 0 place h u hu

theorem firstDeclaringBases_none (name : String) (bases : Edges ClassInfo BaseInfo) (index : Nat)
    (place : Place String) (h : firstDeclaringBases name bases index place = none) :
    ∀ u ∈ bases.subtrees, u.label.declaresField name = false := by
  match bases with
  | .nil =>
    intro u hu
    simp [Edges.subtrees] at hu
  | .cons edge base rest =>
    rw [firstDeclaringBases] at h
    cases hbase : firstDeclaring name base ((fieldSearch name).enter place index edge base) with
    | some found =>
      rw [hbase] at h
      cases h
    | none =>
      rw [hbase] at h
      intro u hu
      rw [Edges.subtrees, List.mem_append] at hu
      rcases hu with hu | hu
      · exact firstDeclaring_none name base _ hbase u hu
      · exact firstDeclaringBases_none name rest (index + 1) place h u hu

end

theorem fieldAddress_base {p : Program} {current : ClassDeclaration} (hc : current ∈ p.classes)
    {name : String} {index : Nat} {edge : BaseInfo} {base : ClassDeclaration}
    (hat : current.edges[index]? = some (edge, base)) (path : List PathIndex)
    (place : Place String) :
    fieldAddress p (basePathIndex current index edge base :: path) current place
      = fieldAddress p path base ((fieldSearch name).enter place index edge base) := by
  have hmem := List.mem_of_getElem? hat
  have hfind := p.find_base hc hmem
  by_cases hvirtual : edge.isVirtual = true
  · have hindex : basePathIndex current index edge base
        = .virtualSlot ((virtualBaseNames current).idxOf base.label.name) := if_pos hvirtual
    have henter : (fieldSearch name).enter place index edge base
        = ⟨some base.label.name, []⟩ := if_pos hvirtual
    rw [hindex, henter, fieldAddress, virtualBaseNames_slot hmem hvirtual]
    simp [hfind]
  · have hindex : basePathIndex current index edge base = .base index := if_neg hvirtual
    have henter : (fieldSearch name).enter place index edge base
        = ⟨place.anchor, place.indices ++ [index]⟩ := if_neg hvirtual
    rw [hindex, henter, fieldAddress, hat]
    simp [hfind]

theorem findIdx?_of_find? {α : Type} {f : α → Bool} {l : List α} {a : α} (h : l.find? f = some a) :
    ∃ index, l.findIdx? f = some index ∧ l[index]? = some a := by
  induction l with
  | nil => cases h
  | cons b rest ih =>
    cases hb : f b with
    | true =>
      rw [List.find?_cons_of_pos hb] at h
      exact ⟨0, by simp [List.findIdx?_cons, hb], h⟩
    | false =>
      rw [List.find?_cons_of_neg (by simp [hb])] at h
      obtain ⟨index, hindex, hat⟩ := ih h
      exact ⟨index + 1, by simp [List.findIdx?_cons, hb, hindex], hat⟩

/-- What the generator's search returns for a class. -/
def FindsFirst (p : Program) (name : String) (c : ClassDeclaration) (place : Place String)
    (first : Option (ClassDeclaration × Place String))
    (found : Option (List PathIndex × FieldDeclaration)) : Prop :=
  match first with
  | none => found = none
  | some (owner, place') => ∃ path field, found = some (path, field) ∧
      fieldAddress p path c place = some ⟨owner, place', field⟩ ∧
      owner.label.findField name = some field

mutual

/-- The generator's path leads to the first declaration. -/
theorem findFieldPath_spec (p : Program) (name : String) (c : ClassDeclaration)
    (hc : c ∈ p.classes) (place : Place String) :
    FindsFirst p name c place (firstDeclaring name c place) (findFieldPath name c) := by
  match c with
  | .node info bases =>
    have hbases := findFieldPathBases_spec p name (.node info bases) hc bases 0 place
      (fun j => by rw [Nat.zero_add]; rfl)
    rw [findFieldPath, firstDeclaring]
    by_cases hown : info.declaresField name = true
    · -- no base declares the field again, so the search returns to the class
      have hnone : firstDeclaringBases name bases 0 place = none := by
        cases hfirst : firstDeclaringBases name bases 0 place with
        | none => rfl
        | some first =>
          obtain ⟨j, edge, base, hat, hreach, hstop⟩ :=
            firstDeclaringBases_some name bases 0 place hfirst
          have hmem : (edge, base) ∈ bases.toList := List.mem_of_getElem? hat
          have hfresh := @Program.fresh_below p _ hc name hown _ hmem _ hreach.mem_subtrees
          exact absurd (hstop.symm.trans hfresh) (by decide)
      rw [hnone] at hbases
      have hpath : findFieldPathBases name (.node info bases) bases 0 = none := hbases
      obtain ⟨field, hfield⟩ := Option.isSome_iff_exists.mp
        ((findField_isSome name info).trans hown)
      obtain ⟨index, hindex, hat⟩ := findIdx?_of_find? hfield
      rw [hpath, if_pos hown]
      refine ⟨[.field index], field, ?_, ?_, hfield⟩
      · simp only [hindex, hat, Option.map_some]
      · rw [fieldAddress]
        exact congrArg _ hat
    · rw [if_neg hown]
      have hindex : info.fields.findIdx? (fun field => field.name == name) = none := by
        rw [List.findIdx?_eq_none_iff]
        intro field hfield
        rw [← Bool.not_eq_true]
        intro hname
        exact hown (List.any_eq_true.mpr ⟨field, hfield, hname⟩)
      cases hfirst : firstDeclaringBases name bases 0 place with
      | none =>
        rw [hfirst] at hbases
        have hpath : findFieldPathBases name (.node info bases) bases 0 = none := hbases
        rw [hpath, hindex]
        rfl
      | some first =>
        rw [hfirst] at hbases
        obtain ⟨path, field, hfound, haddress, hfield⟩ := hbases
        rw [hfound]
        exact ⟨path, field, rfl, haddress, hfield⟩

theorem findFieldPathBases_spec (p : Program) (name : String) (current : ClassDeclaration)
    (hc : current ∈ p.classes) (bases : Edges ClassInfo BaseInfo) (index : Nat)
    (place : Place String)
    (hat : ∀ j, current.edges[index + j]? = bases.toList[j]?) :
    FindsFirst p name current place (firstDeclaringBases name bases index place)
      (findFieldPathBases name current bases index) := by
  match bases with
  | .nil => rfl
  | .cons edge base rest =>
    have hhere : current.edges[index]? = some (edge, base) := hat 0
    have hbase := findFieldPath_spec p name base
      (p.mem_base hc (List.mem_of_getElem? hhere))
      ((fieldSearch name).enter place index edge base)
    have hrest := findFieldPathBases_spec p name current hc rest (index + 1) place (fun j => by
      rw [Nat.add_right_comm]
      exact hat (j + 1))
    rw [firstDeclaringBases, findFieldPathBases]
    cases hfirst : firstDeclaring name base ((fieldSearch name).enter place index edge base) with
    | none =>
      rw [hfirst] at hbase
      have hnone : findFieldPath name base = none := hbase
      rw [hnone]
      exact hrest
    | some first =>
      rw [hfirst] at hbase
      obtain ⟨path, field, hfound, haddress, hfield⟩ := hbase
      rw [hfound]
      refine ⟨_, field, rfl, ?_, hfield⟩
      rw [fieldAddress_base hc hhere]
      exact haddress

end

end Cwhip.Inheritance
