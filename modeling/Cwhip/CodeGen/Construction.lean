/-
  Cwhip.CodeGen.Construction

  A constructor call leaves every pointer to a virtual base pointing to the one
  place of that base in the object, and nothing writes to those pointers while
  the object exists.
-/

import Cwhip.CodeGen.ObjectAddresses

namespace Cwhip.CodeGen

open Cwhip.Lib
open Cwhip.Inheritance (BaseInfo)

variable {owner : ClassDeclaration} {object : Nat} {memory : Memory}

/-- A listed subobject, and the members that lead to it. -/
structure View (owner : ClassDeclaration) (view : List Text × ClassDeclaration)
    (indices : List Nat) :
    Prop where
  listed : view ∈ subobjects owner
  leads : subobjectIndices owner owner [] view.1 = some indices
  holds : classWithin owner indices = some view.2

variable {view : List Text × ClassDeclaration} {indices : List Nat} {place index address : Nat}
  {type : MemoryType} {u : ClassDeclaration}

theorem view_exists (hdistinct : DistinctBases owner) (hc : Coherent owner)
    (hview : view ∈ subobjects owner) :
    ∃ indices, View owner view indices := by
  obtain ⟨spot, hwalk⟩ := subobjects_walk hdistinct hview whole
  have hself : classWithin owner [] = some owner := rfl
  obtain ⟨indices, hleads, hholds⟩ :=
    subobjectIndices_class hdistinct hc (Tree.mem_subtrees_self _) hself hwalk
  exact ⟨indices, hview, hleads, hholds⟩

theorem View.mem_subtrees (hdistinct : DistinctBases owner)
    (h : View owner view indices) : view.2 ∈ owner.subtrees := by
  obtain ⟨spot, hwalk⟩ := subobjects_walk hdistinct h.listed whole
  exact walk_mem hwalk

/-- The pointers of listed subobjects are set. -/
def AllLinked (memory : Memory) (owner : ClassDeclaration) (object : Nat)
    (views : List (List Text × ClassDeclaration)) : Prop :=
  ∀ view ∈ views, ∀ indices, View owner view indices → Linked memory owner object indices view.2

/-! ## Addresses of views -/

variable {before rest : List (List Text × ClassDeclaration)} {v : ClassDeclaration}
  {indices' : List Nat} {value : Nat}

/-- The pointers on the way to a view are stored before it is linked. -/
theorem linkedOnWay_of_before (hdistinct : DistinctBases owner) (hc : Coherent owner)
    (hviews : subobjects owner = before ++ view :: rest)
    (h : AllLinked memory owner object before) :
    LinkedOnWay memory owner owner object [] view.1 := by
  intro front name tail hpath indices v hindices hv
  have hat : (subobjects owner)[before.length]? = some view := by
    rw [hviews, List.getElem?_append_right (Nat.le_refl _), Nat.sub_self]
    rfl
  obtain ⟨j, hj, w, hw⟩ := subobjects_listed hdistinct before.length view hat front name tail hpath
  rw [List.nil_append] at hw
  have hbefore : (front, w) ∈ before := by
    rw [hviews, List.getElem?_append_left hj] at hw
    exact List.mem_of_getElem? hw
  obtain ⟨indices', hview⟩ := view_exists hdistinct hc (List.mem_of_getElem? hw)
  obtain rfl : indices = indices' := Option.some.inj (hindices.symm.trans hview.leads)
  obtain rfl : v = w := Option.some.inj (hv.symm.trans hview.holds)
  exact h _ hbefore _ hview

theorem linkedOnWay_of_all (hdistinct : DistinctBases owner) (hc : Coherent owner)
    (hview : view ∈ subobjects owner) (h : AllLinked memory owner object (subobjects owner)) :
    LinkedOnWay memory owner owner object [] view.1 := by
  obtain ⟨before, rest, hviews⟩ := List.append_of_mem hview
  apply linkedOnWay_of_before hdistinct hc hviews
  intro other hother
  exact h other (hviews ▸ List.mem_append_left _ hother)

theorem view_address (hdistinct : DistinctBases owner) (hc : Coherent owner)
    (hview : View owner view indices) (h : LinkedOnWay memory owner owner object [] view.1) :
    ∃ place, (classType owner).element indices = some (place, classType view.2) ∧
      emitSubobjectAddress memory object owner view.1 = some (object + place) := by
  obtain ⟨spot, hwalk⟩ := subobjects_walk hdistinct hview.listed whole
  obtain ⟨place, hplace⟩ := classWithin_type hview.holds
  refine ⟨place, hplace, ?_⟩
  exact emitSubobjectAddress_eq hdistinct hc (Tree.mem_subtrees_self _) rfl hwalk h
    MemoryType.element_nil hview.leads hplace

theorem view_member (object : Nat)
    (hplace : (classType owner).element indices = some (place, classType view.2)) {inner : Nat}
    (hmember : (classType view.2).member index = some (inner, type)) :
    memberAddress (object + place) view.2 index = some (object + (place + inner)) ∧
      (classType owner).element (indices ++ [index]) = some (place + inner, type) := by
  constructor
  · rw [memberAddress, hmember]
    exact congrArg some (Nat.add_assoc _ _ _)
  · exact MemoryType.element_append.mpr
      ⟨_, _, _, hplace, MemoryType.element_singleton.mpr hmember, rfl⟩

/-! ## Stores -/

theorem slot_update {address' value' : Nat} {name name' : Text}
    (hu : classWithin owner indices = some u) (hv : classWithin owner indices' = some v)
    (h : IsSlot owner object indices u name address value)
    (h' : IsSlot owner object indices' v name' address' value') (hheld : memory address' = value') :
    Function.update memory address value address' = value' := by
  by_cases heq : address' = address
  · rw [heq] at h' ⊢
    rw [Function.update_self]
    exact slot_value hu hv h h'
  · rw [Function.update_of_ne heq]
    exact hheld

/-- A member that is neither a subobject nor a slot. -/
structure IsOwn (u : ClassDeclaration) (index : Nat) : Prop where
  class_eq : memberClass u index = none
  slot_ne : ∀ name, virtualBasePointerIndex u name ≠ some index

theorem isOwn_header (h : index < 2) : IsOwn u index := by
  refine ⟨memberClass_header h, ?_⟩
  intro name hname
  rw [virtualBasePointerIndex] at hname
  split at hname
  · have hindex := Option.some.inj hname
    omega
  · cases hname

theorem isOwn_field {field : Nat} (h : field < u.label.fields.length) :
    IsOwn u (fieldIndex u field) := by
  refine ⟨memberClass_field h, ?_⟩
  intro name hname
  rw [virtualBasePointerIndex] at hname
  split at hname
  · next hmem =>
    have hlt := List.idxOf_lt_length_of_mem hmem
    have hindex := Option.some.inj hname
    rw [fieldIndex] at hindex
    omega
  · cases hname

/-- A store into a member of one view changes no pointer of another. -/
theorem own_update (hu : classWithin owner indices = some u) (hown : IsOwn u index)
    (hplace : (classType owner).element (indices ++ [index]) = some (place, type))
    (hlow : object + place ≤ address) (hhigh : address < object + place + type.size)
    (hv : classWithin owner indices' = some v) (h : Linked memory owner object indices' v) :
    Linked (Function.update memory address value) owner object indices' v := by
  intro name slotAddress slotValue hslot
  have hne : ∀ slot, virtualBasePointerIndex v name = some slot →
      indices ++ [index] ≠ indices' ++ [slot] := by
    intro slot hpointer heq
    obtain ⟨rfl, hlast⟩ := List.append_inj' heq rfl
    obtain rfl : index = slot := by simpa using hlast
    obtain rfl : u = v := Option.some.inj (hu.symm.trans hv)
    exact hown.slot_ne name hpointer
  have hapart := own_apart hu hown.class_eq hplace hv hslot hne
  have haddress : slotAddress ≠ address := by omega
  rw [Function.update_of_ne haddress]
  exact h _ _ _ hslot

/-! ## The constructor call -/

/-- All pointers of one view are stored, and nothing else. -/
theorem linkVirtualBases_spec (hdistinct : DistinctBases owner) (hc : Coherent owner)
    (hview : View owner view indices)
    (hplace : (classType owner).element indices = some (place, classType view.2))
    (names : List Text) (hnames : names ⊆ virtualBaseNames view.2) (memory : Memory) :
    ∃ memory', names.foldlM (linkVirtualBase owner object (object + place) view.2) memory =
      some memory' ∧
      (∀ indices' v name address value, classWithin owner indices' = some v →
        IsSlot owner object indices' v name address value → memory address = value →
        memory' address = value) ∧
      ∀ name ∈ names, ∀ address value, IsSlot owner object indices view.2 name address value →
        memory' address = value := by
  induction names generalizing memory with
  | nil => exact ⟨memory, rfl, fun _ _ _ _ _ _ _ h => h, fun _ h => (nomatch h)⟩
  | cons name rest ih =>
    obtain ⟨hname, hrest⟩ := List.cons_subset.mp hnames
    obtain ⟨address, value, hslot⟩ :=
      slot_exists hdistinct hc object hview.holds (hview.mem_subtrees hdistinct) hname
    -- the emitted addresses are those of the slot and of the virtual base
    have hstep : linkVirtualBase owner object (object + place) view.2 memory name
        = some (Function.update memory address value) := by
      obtain ⟨slot, slotPlace, hpointer, hslotPlace, haddress⟩ := hslot.pointer
      obtain ⟨storage, hstorage, hvalue⟩ := hslot.storage
      obtain ⟨first, type, last, hfirst, hlast, hsum⟩ := MemoryType.element_append.mp hslotPlace
      obtain ⟨rfl, rfl⟩ := Prod.mk.inj (Option.some.inj (hplace.symm.trans hfirst))
      have hmember := (view_member object hplace (MemoryType.element_singleton.mp hlast)).1
      rw [← hsum, ← haddress] at hmember
      simp only [linkVirtualBase, hstorage, hvalue, hpointer, hmember, Option.bind_eq_bind,
        Option.bind_some]
    obtain ⟨memory', hfold, hkeep, hset⟩ := ih hrest (Function.update memory address value)
    refine ⟨memory', ?_, ?_, ?_⟩
    · rw [List.foldlM_cons, hstep]
      exact hfold
    · intro indices' v name' address' value' hv hslot' hheld
      exact hkeep _ _ _ _ _ hv hslot' (slot_update hview.holds hv hslot hslot' hheld)
    · intro other hother address' value' hslot'
      rcases List.mem_cons.mp hother with rfl | hother
      · apply hkeep _ _ _ _ _ hview.holds hslot'
        obtain ⟨slot, slotPlace, hpointer, hslotPlace, haddress⟩ := hslot.pointer
        obtain ⟨slot', slotPlace', hpointer', hslotPlace', haddress'⟩ := hslot'.pointer
        obtain rfl := Option.some.inj (hpointer.symm.trans hpointer')
        obtain ⟨rfl, -⟩ := Prod.mk.inj (Option.some.inj (hslotPlace.symm.trans hslotPlace'))
        obtain rfl : address' = address := haddress'.trans haddress.symm
        rw [Function.update_self]
        exact slot_value hview.holds hview.holds hslot hslot'
      · exact hset other hother address' value' hslot'

theorem linkView_spec (hdistinct : DistinctBases owner) (hc : Coherent owner)
    (hviews : subobjects owner = before ++ view :: rest)
    (h : AllLinked memory owner object before) :
    ∃ memory', linkView owner object memory view = some memory' ∧
      AllLinked memory' owner object (before ++ [view]) := by
  have hmem : view ∈ subobjects owner := by
    rw [hviews]
    exact List.mem_append_right _ List.mem_cons_self
  obtain ⟨indices, hview⟩ := view_exists hdistinct hc hmem
  obtain ⟨place, hplace, haddress⟩ :=
    view_address hdistinct hc hview (linkedOnWay_of_before hdistinct hc hviews h)
  obtain ⟨memory', hfold, hkeep, hset⟩ := linkVirtualBases_spec hdistinct hc hview hplace
    (virtualBaseNames view.2) (List.Subset.refl _) memory
  refine ⟨memory', ?_, ?_⟩
  · rw [linkView, haddress]
    exact hfold
  · intro other hother indices' hother' name address value hslot
    rcases List.mem_append.mp hother with hother | hother
    · exact hkeep _ _ _ _ _ hother'.holds hslot (h _ hother _ hother' _ _ _ hslot)
    · obtain rfl := List.mem_singleton.mp hother
      obtain rfl := Option.some.inj (hview.leads.symm.trans hother'.leads)
      obtain ⟨slot, slotPlace, hpointer, -⟩ := hslot.pointer
      refine hset name ?_ address value hslot
      rw [virtualBasePointerIndex] at hpointer
      split at hpointer
      · next hname => exact hname
      · cases hpointer

/-- By induction on the views all of them are linked. -/
theorem linkViews_spec (hdistinct : DistinctBases owner) (hc : Coherent owner)
    (before rest : List (List Text × ClassDeclaration)) (hviews : subobjects owner = before ++ rest)
    (memory : Memory) (h : AllLinked memory owner object before) :
    ∃ memory', rest.foldlM (linkView owner object) memory = some memory' ∧
      AllLinked memory' owner object (subobjects owner) := by
  induction rest generalizing before memory with
  | nil =>
    rw [List.append_nil] at hviews
    exact ⟨memory, rfl, hviews ▸ h⟩
  | cons view rest ih =>
    obtain ⟨mid, hstep, hmid⟩ := linkView_spec hdistinct hc hviews h
    obtain ⟨memory', hfold, hall⟩ :=
      ih (before ++ [view]) (by rw [hviews, List.append_assoc]; rfl) mid hmid
    refine ⟨memory', ?_, hall⟩
    rw [List.foldlM_cons, hstep]
    exact hfold

theorem AllLinked.own_update (h : AllLinked memory owner object (subobjects owner))
    (hview : View owner view indices) (hown : IsOwn view.2 index)
    (hplace : (classType owner).element (indices ++ [index]) = some (place, type))
    (hlow : object + place ≤ address) (hhigh : address < object + place + type.size) (value : Nat) :
    AllLinked (Function.update memory address value) owner object (subobjects owner) := by
  intro other hother indices' hother'
  exact CodeGen.own_update hview.holds hown hplace hlow hhigh hother'.holds
    (h other hother _ hother')

theorem describeView_spec (hdistinct : DistinctBases owner) (hc : Coherent owner)
    (metadata : List Text → Nat) (hmem : view ∈ subobjects owner)
    (h : AllLinked memory owner object (subobjects owner)) :
    ∃ memory', describeView metadata owner object memory view = some memory' ∧
      AllLinked memory' owner object (subobjects owner) := by
  obtain ⟨indices, hview⟩ := view_exists hdistinct hc hmem
  obtain ⟨place, hplace, haddress⟩ :=
    view_address hdistinct hc hview (linkedOnWay_of_all hdistinct hc hmem h)
  obtain ⟨first, hfirst⟩ := header_member view.2 (show 0 < 2 by omega)
  obtain ⟨second, hsecond⟩ := header_member view.2 (show 1 < 2 by omega)
  obtain ⟨hfirst', hfirstPlace⟩ := view_member object hplace hfirst
  obtain ⟨hsecond', hsecondPlace⟩ := view_member object hplace hsecond
  have hsize : pointerType.size = 8 := rfl
  refine ⟨_, ?_, (h.own_update hview (isOwn_header (by omega)) hfirstPlace (Nat.le_refl _)
    (by omega) (metadata view.1)).own_update hview (isOwn_header (by omega)) hsecondPlace
    (Nat.le_refl _) (by omega) object⟩
  simp only [describeView, haddress, hfirst', hsecond', Option.bind_eq_bind, Option.bind_some]

/-- Describing stores the metadata of each view and keeps the pointers. -/
theorem describeViews_spec (hdistinct : DistinctBases owner) (hc : Coherent owner)
    (metadata : List Text → Nat) (views : List (List Text × ClassDeclaration))
    (hviews : views ⊆ subobjects owner) (memory : Memory)
    (h : AllLinked memory owner object (subobjects owner)) :
    ∃ memory', views.foldlM (describeView metadata owner object) memory = some memory' ∧
      AllLinked memory' owner object (subobjects owner) := by
  induction views generalizing memory with
  | nil => exact ⟨memory, rfl, h⟩
  | cons view rest ih =>
    obtain ⟨hmem, hrest⟩ := List.cons_subset.mp hviews
    obtain ⟨mid, hstep, hmid⟩ := describeView_spec hdistinct hc metadata hmem h
    obtain ⟨memory', hfold, hall⟩ := ih hrest mid hmid
    refine ⟨memory', ?_, hall⟩
    rw [List.foldlM_cons, hstep]
    exact hfold

/-- A constructed object is linked and described. -/
theorem constructObject_spec (hdistinct : DistinctBases owner) (hc : Coherent owner)
    (metadata : List Text → Nat) (object : Nat) (memory : Memory) :
    ∃ memory', constructObject metadata owner object memory = some memory' ∧
      AllLinked memory' owner object (subobjects owner) := by
  obtain ⟨first, hfirst⟩ := header_member owner (show 0 < 2 by omega)
  obtain ⟨second, hsecond⟩ := header_member owner (show 1 < 2 by omega)
  have hfirst' : memberAddress object owner 0 = some (object + first) := by
    rw [memberAddress, hfirst]
    rfl
  have hsecond' : memberAddress object owner 1 = some (object + second) := by
    rw [memberAddress, hsecond]
    rfl
  obtain ⟨linked, hlink, hlinked⟩ := @linkViews_spec owner object hdistinct hc []
    (subobjects owner) rfl
    (Function.update (Function.update memory (object + first) (metadata []))
      (object + second) object)
    (fun _ h => absurd h List.not_mem_nil)
  obtain ⟨memory', hdescribe, hall⟩ := describeViews_spec hdistinct hc metadata
    ((subobjects owner).filter fun view => view.1 != [])
    (fun _ h => List.mem_of_mem_filter h) linked hlinked
  refine ⟨memory', ?_, hall⟩
  simp only [constructObject, hfirst', hsecond', hlink, hdescribe, Option.bind_eq_bind,
    Option.bind_some]

theorem objectMemory_linked (hdistinct : DistinctBases owner) (hc : Coherent owner)
    {metadata : List Text → Nat} (h : ObjectMemory metadata owner object memory) :
    AllLinked memory owner object (subobjects owner) := by
  induction h with
  | @constructed before memory h =>
    obtain ⟨memory', hconstruct, hall⟩ := constructObject_spec hdistinct hc metadata object before
    obtain rfl := Option.some.inj (h.symm.trans hconstruct)
    exact hall
  | @field memory _ view hview field type hfield viewAddress fieldAddress hviewAddress
      haddress address hlow hhigh value ih =>
      obtain ⟨indices, hview'⟩ := view_exists hdistinct hc hview
      obtain ⟨place, hplace, hemit⟩ :=
        view_address hdistinct hc hview' (linkedOnWay_of_all hdistinct hc hview ih)
      obtain rfl := Option.some.inj (hviewAddress.symm.trans hemit)
      obtain ⟨inner, hinner⟩ := field_member hfield
      obtain ⟨haddress', hfieldPlace⟩ := view_member object hplace hinner
      obtain rfl := Option.some.inj (haddress.symm.trans haddress')
      have hown : IsOwn view.2 (fieldIndex view.2 field) :=
        isOwn_field (List.getElem?_eq_some_iff.mp hfield).1
      exact ih.own_update hview' hown hfieldPlace hlow hhigh value
  | @elsewhere memory _ address haddress value ih =>
    intro view hview indices hview' name slotAddress slotValue hslot
    have hne : slotAddress ≠ address := by
      obtain ⟨slot, place, -, hplace, rfl⟩ := hslot.pointer
      have hinside := MemoryType.element_inside hplace
      have hsize : pointerType.size = 8 := rfl
      omega
    rw [Function.update_of_ne hne]
    exact ih view hview indices hview' name slotAddress slotValue hslot

end Cwhip.CodeGen
