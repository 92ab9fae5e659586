/-
  Cwhip.CodeGen.UpcastsAgree

  The analyzer, the emitted conversion and the checked cast agree on whether a
  class has one subobject of another one, and on its address.
-/

import Cwhip.CodeGen.Upcasts

namespace Cwhip.CodeGen

open Cwhip.Lib
open Cwhip.Inheritance (AccessLevel BaseInfo)

/-! ## The base table -/

theorem mapM_eq_some {α β : Type} {f : α → Option β} {g : α → β} {l : List α}
    (h : ∀ x ∈ l, f x = some (g x)) : l.mapM f = some (l.map g) := by
  induction l with
  | nil => rfl
  | cons x rest ih =>
    obtain ⟨hx, hrest⟩ := List.forall_mem_cons.mp h
    rw [List.mapM_cons, hx, ih hrest]
    rfl

variable {owner : ClassDeclaration}

theorem subobject_offset (hdistinct : DistinctBases owner) (hc : Coherent owner)
    {view : List Text × ClassDeclaration} {indices : List Nat} (hview : View owner view indices) :
    ∃ place, (classType owner).element indices = some (place, classType view.2) ∧
      subobjectFieldOffset owner view.1 0 = some place := by
  obtain ⟨spot, hwalk⟩ := subobjects_walk hdistinct hview.listed whole
  obtain ⟨place, hplace⟩ := classWithin_type hview.holds
  refine ⟨place, hplace, ?_⟩
  have hfirst : (classType view.2).member 0 = some (0, pointerType) := by
    rw [classType_eq]
    exact MemoryType.member_zero
  have hfield := (view_member 0 hplace hfirst).2
  exact subobjectFieldOffset_eq hdistinct hc hwalk hview.leads hfield

theorem classMetadata_eq (hdistinct : DistinctBases owner) (hc : Coherent owner) :
    classMetadata owner = some ⟨owner.label.name,
      ((subobjects owner).filter fun subobject => subobject.1 != []).map fun subobject =>
        ⟨subobject.2.label.name, (subobjectFieldOffset owner subobject.1 0).getD 0⟩⟩ := by
  rw [classMetadata, mapM_eq_some]
  · rfl
  · intro subobject hmem
    obtain ⟨indices, hview⟩ := view_exists hdistinct hc (List.mem_of_mem_filter hmem)
    obtain ⟨place, -, hoffset⟩ := subobject_offset hdistinct hc hview
    rw [baseEntry, hoffset]
    rfl

theorem baseTable_filter (hdistinct : DistinctBases owner) {target : Text}
    (hname : owner.label.name ≠ target) :
    ((((subobjects owner).filter fun subobject => subobject.1 != []).map fun subobject =>
        (⟨subobject.2.label.name, (subobjectFieldOffset owner subobject.1 0).getD 0⟩ :
          BaseEntry)).filter fun base => base.name == target)
      = ((subobjects owner).filter fun entry => entry.2.label.name == target).map fun subobject =>
        ⟨subobject.2.label.name, (subobjectFieldOffset owner subobject.1 0).getD 0⟩ := by
  rw [List.filter_map, List.filter_filter]
  congr 1
  apply List.filter_congr
  intro entry hentry
  by_cases hroot : entry.1 = []
  · -- the whole object is the only subobject without a path
    obtain ⟨path, u⟩ := entry
    obtain rfl : path = [] := hroot
    obtain ⟨spot, hwalk⟩ := subobjects_walk hdistinct hentry whole
    have hself : u = owner := (Prod.mk.inj (Option.some.inj hwalk)).1.symm
    rw [hself]
    simpa using hname
  · simp [hroot]

/-! ## Agreement -/

/-- The path-distinct subobjects of a class that have the name of another one; a
    class is its own. -/
def subobjectCount (source target : ClassDeclaration) : Nat :=
  if source.label.name = target.label.name then 1
  else (countPaths target.label.name source []).1

structure PointsInto (heap : ObjectHeap) (memory : Memory) (pointer object : Nat)
    (owner : ClassDeclaration) : Prop where
  alive : ∃ node, requireAlive heap pointer = .ok node ∧ node.object = object
  pointer_ne : pointer ≠ 0
  object_ne : object ≠ 0
  metadata : classMetadata owner = some (heap.metadataAt object)
  memory : ∃ metadata, ObjectMemory metadata owner object memory

/-- What the three parts of the system make of one upcast. -/
structure UpcastAgrees (p : Program) (heap : ObjectHeap) (memory : Memory) (pointer object : Nat)
    (source target : ClassDeclaration) : Prop where
  finds : subobjectCount source target = 1 ↔
    source.label.name = target.label.name ∨ p.findsOneSubobject target source = true
  succeeds : subobjectCount source target = 1 ↔
    ∃ result, castClass heap objectTag pointer target.label.name = .ok result
  ambiguous : 2 ≤ subobjectCount source target ↔
    castClass heap objectTag pointer target.label.name = .error .ambiguousBase
  different : subobjectCount source target = 0 ↔
    castClass heap objectTag pointer target.label.name = .error .differentClass
  address : ∀ result, castClass heap objectTag pointer target.label.name = .ok result →
    convertObjectValue memory object source target = some result

section

variable {p : Program} {heap : ObjectHeap} {memory : Memory} {pointer object : Nat}
  {source target : ClassDeclaration}

theorem castClass_eq (h : PointsInto heap memory pointer object source) (expected : Text) :
    castClass heap objectTag pointer expected
      = if (heap.metadataAt object).name = expected then .ok object
        else scanBases object expected (heap.metadataAt object).baseClasses 0 := by
  obtain ⟨node, hnode, hobject⟩ := h.alive
  rw [castClass, if_neg (fun hne => hne rfl), if_neg h.pointer_ne, hnode]
  dsimp only
  rw [hobject]

theorem mem_subtrees_of_count (hsource : source ∈ p.classes) (htarget : target ∈ p.classes)
    (h : (countPaths target.label.name source []).1 ≠ 0) : target ∈ source.subtrees := by
  by_contra hnot
  apply h
  apply countPaths_absent
  intro v hv hname
  have hfound := p.find_subtree hsource (mem_subtrees_below hv)
  rw [hname, p.find_subtree htarget (Tree.mem_subtrees_self _)] at hfound
  exact hnot (Option.some.inj hfound ▸ mem_subtrees_below hv)

theorem baseCount_eq (hsource : source ∈ p.classes) (htarget : target ∈ p.classes)
    (hname : source.label.name ≠ target.label.name) :
    (countPaths target.label.name source []).1 = baseCount target.label.name
    (subobjects source) := by
  by_cases hmem : target ∈ source.subtrees
  · exact countPaths_subobjects (p.distinctBases hsource) (p.coherent hsource) hmem hname
  · have habsent : ∀ v ∈ source.subtrees, v.label.name ≠ target.label.name := by
      intro v hv heq
      have hfound := p.find_subtree hsource hv
      rw [heq, p.find_subtree htarget (Tree.mem_subtrees_self _)] at hfound
      exact hmem (Option.some.inj hfound ▸ hv)
    rw [countPaths_absent _ fun v hv => habsent v (mem_subtrees_below hv)]
    exact (baseCount_absent (p.distinctBases hsource) [] [] habsent).symm

theorem findsOneSubobject_iff (hsource : source ∈ p.classes) (htarget : target ∈ p.classes) :
    p.findsOneSubobject target source = true ↔ (countPaths target.label.name source []).1 = 1 := by
  rw [Program.findsOneSubobject, Bool.and_eq_true, beq_iff_eq, and_iff_right_iff_imp]
  intro hone
  have hmem := mem_subtrees_of_count hsource htarget (by omega)
  rw [Program.isSubclassOf, p.find_subtree hsource (Tree.mem_subtrees_self _), List.any_eq_true]
  exact ⟨target, hmem, beq_self_eq_true _⟩

theorem convertObjectValue_eq (hsource : source ∈ p.classes)
    (h : PointsInto heap memory pointer object source) (hmem : target ∈ source.subtrees)
    (hname : source.label.name ≠ target.label.name) :
    ∃ path offset, (path, target) ∈ subobjects source ∧
      subobjectFieldOffset source path 0 = some offset ∧
      convertObjectValue memory object source target = some (object + offset) := by
  have hdistinct := p.distinctBases hsource
  have hc := p.coherent hsource
  obtain ⟨metadata, hmemory⟩ := h.memory
  have hlinked := objectMemory_linked hdistinct hc hmemory
  cases hpath : findPath target.label.name source with
  | none =>
    rcases Tree.mem_subtrees.mp hmem with heq | hbelow
    · exact absurd (congrArg (fun c => (Tree.label c).name) heq.symm) hname
    · exact absurd rfl (findPath_none hpath target hbelow)
  | some path =>
    obtain ⟨-, hlisted⟩ := findPath_listed hc hmem (Tree.mem_subtrees_self _) hpath []
      (show Spares source target source [] from fun _ h => (nomatch h))
    have hlisted : (path, target) ∈ subobjects source := hlisted
    obtain ⟨indices, hview⟩ := view_exists hdistinct hc hlisted
    obtain ⟨place, hplace, hoffset⟩ := subobject_offset hdistinct hc hview
    obtain ⟨place', hplace', haddress⟩ :=
      view_address hdistinct hc hview (linkedOnWay_of_all hdistinct hc hlisted hlinked)
    obtain ⟨rfl, -⟩ := Prod.mk.inj (Option.some.inj (hplace.symm.trans hplace'))
    refine ⟨path, place, hlisted, hoffset, ?_⟩
    rw [convertObjectValue, if_neg hname, hpath]
    simp only [Option.bind_eq_bind, Option.bind_some, haddress, if_neg h.object_ne]

/-- The analyzer finds one subobject exactly when the checked cast succeeds, the
    cast reports ambiguity and a different class by the count of subobjects, and
    its result is the address that the emitted conversion computes. -/
theorem upcasts_agree (hsource : source ∈ p.classes) (htarget : target ∈ p.classes)
    (h : PointsInto heap memory pointer object source) :
    UpcastAgrees p heap memory pointer object source target := by
  have hdistinct := p.distinctBases hsource
  have hc := p.coherent hsource
  have hcast := castClass_eq h target.label.name
  rw [Option.some.inj (h.metadata.symm.trans (classMetadata_eq hdistinct hc))] at hcast
  dsimp only at hcast
  by_cases hname : source.label.name = target.label.name
  · -- the object is of the expected class itself
    rw [if_pos hname] at hcast
    have hcount : subobjectCount source target = 1 := if_pos hname
    refine ⟨?_, ?_, ?_, ?_, ?_⟩
    · exact ⟨fun _ => .inl hname, fun _ => hcount⟩
    · exact ⟨fun _ => ⟨object, hcast⟩, fun _ => hcount⟩
    · rw [hcast, hcount]
      simp
    · rw [hcast, hcount]
      simp
    · intro result hresult
      rw [hcast] at hresult
      rw [← Except.ok.inj hresult]
      exact if_pos hname
  · rw [if_neg hname, scanBases_eq h.object_ne, baseTable_filter hdistinct hname] at hcast
    have hcount : subobjectCount source target
        = ((subobjects source).filter fun entry => entry.2.label.name ==
            target.label.name).length := by
      rw [subobjectCount, if_neg hname, baseCount_eq hsource htarget hname, baseCount,
        List.countP_eq_length_filter]
    have hfinds : subobjectCount source target = 1 ↔
        source.label.name = target.label.name ∨ p.findsOneSubobject target source = true := by
      rw [findsOneSubobject_iff hsource htarget, or_iff_right hname, subobjectCount, if_neg hname]
    have hmem : subobjectCount source target ≠ 0 → target ∈ source.subtrees := by
      rw [subobjectCount, if_neg hname]
      exact mem_subtrees_of_count hsource htarget
    have hlisted : ∀ path, (path, target) ∈ subobjects source → (path, target) ∈
        (subobjects source).filter fun entry => entry.2.label.name == target.label.name :=
      fun path hpath => List.mem_filter.mpr ⟨hpath, beq_self_eq_true _⟩
    generalize (subobjects source).filter (fun entry => entry.2.label.name == target.label.name)
      = entries at *
    match entries with
    | [] =>
      simp only [List.map_nil] at hcast
      simp only [List.length_nil] at hcount
      refine ⟨hfinds, ?_, ?_, ?_, ?_⟩
      · rw [hcount, hcast]
        simp
      · rw [hcount, hcast]
        simp
      · exact ⟨fun _ => hcast, fun _ => hcount⟩
      · intro result hresult
        rw [hcast] at hresult
        cases hresult
    | [entry] =>
      simp only [List.map_cons, List.map_nil] at hcast
      simp only [List.length_cons, List.length_nil] at hcount
      refine ⟨hfinds, ?_, ?_, ?_, ?_⟩
      · exact ⟨fun _ => ⟨_, hcast⟩, fun _ => hcount⟩
      · rw [hcount, hcast]
        simp
      · rw [hcount, hcast]
        simp
      · intro result hresult
        -- the only entry is the subobject that the first path leads to
        obtain ⟨path, offset, hpath, hoffset, hconvert⟩ :=
          convertObjectValue_eq hsource h (hmem (by omega)) hname
        obtain rfl := List.mem_singleton.mp (hlisted path hpath)
        rw [hcast, hoffset] at hresult
        rw [hconvert]
        exact congrArg some (Except.ok.inj hresult)
    | first :: second :: rest =>
      simp only [List.map_cons] at hcast
      simp only [List.length_cons] at hcount
      refine ⟨hfinds, ?_, ?_, ?_, ?_⟩
      · rw [hcast]
        simp only [reduceCtorEq, exists_false, iff_false]
        omega
      · exact ⟨fun _ => hcast, fun _ => by omega⟩
      · rw [hcast]
        simp only [Except.error.injEq, reduceCtorEq, iff_false]
        omega
      · intro result hresult
        rw [hcast] at hresult
        cases hresult

end

/-! ### A shared base -/

def diamondHeap : ObjectHeap where
  nodes := [⟨64, 256, false, false, false, false, false⟩]
  metadataAt := fun _ => (classMetadata diamondD).getD ⟨[], []⟩

/-- The memory after `D()`, with the object at 64. -/
def diamondMemory : Memory := (constructObject (fun _ => 8) diamondD 64 fun _ => 0).getD fun _ => 0

theorem diamond_pointsInto : PointsInto diamondHeap diamondMemory 64 64 diamondD := by
  have hmem : diamondD ∈ diamondProgram.classes := by decide +kernel
  have hdistinct := diamondProgram.distinctBases hmem
  have hc := diamondProgram.coherent hmem
  refine ⟨⟨_, rfl, rfl⟩, by decide, by decide, ?_, ?_⟩
  · show classMetadata diamondD = some ((classMetadata diamondD).getD ⟨[], []⟩)
    rw [classMetadata_eq hdistinct hc]
    rfl
  · obtain ⟨memory, hmemory, -⟩ := constructObject_spec hdistinct hc (fun _ => 8) 64 fun _ => 0
    refine ⟨fun _ => 8, @ObjectMemory.constructed _ _ _ (fun _ => 0) _ ?_⟩
    rw [diamondMemory, hmemory]
    rfl

/-- `D` has one `W`, through both of its bases. -/
theorem diamond_upcast : ∃ result,
    castClass diamondHeap objectTag 64 sharedW.label.name = .ok result ∧
      convertObjectValue diamondMemory 64 diamondD sharedW = some result := by
  have hsource : diamondD ∈ diamondProgram.classes := by decide +kernel
  have htarget : sharedW ∈ diamondProgram.classes := by decide +kernel
  have hagrees := upcasts_agree hsource htarget diamond_pointsInto
  have hone : subobjectCount diamondD sharedW = 1 := by decide +kernel
  obtain ⟨result, hresult⟩ := hagrees.succeeds.mp hone
  exact ⟨result, hresult, hagrees.address result hresult⟩

end Cwhip.CodeGen
