/-
  Cwhip.CodeGen.ObjectAddresses

  The addresses of subobjects, as emitted code computes them from an object and
  as constant offsets (`CodeGeneratorLayout.cpp`), and the pointers that a
  constructor call stores (`CodeGenerator.cpp`).
-/

import Mathlib.Logic.Function.Basic
import Cwhip.CodeGen.ObjectLayout

namespace Cwhip.CodeGen

open Cwhip.Lib
open Cwhip.Inheritance (BaseInfo)
open Option (bind_eq_bind bind_some)

/-- The words of memory, by their addresses. -/
abbrev Memory := Nat → Nat

/-- The first base of a name, and its index. -/
def baseAt (current : ClassDeclaration) (name : Text) :
    Option (Nat × BaseInfo × ClassDeclaration) :=
  (current.edges.findIdx? fun base => base.2.label.name == name).bind fun index =>
    (current.edges[index]?).map fun base => (index, base)

/-- `getelementptr`, to a member. -/
def memberAddress (pointer : Nat) (c : ClassDeclaration) (index : Nat) : Option Nat :=
  ((classType c).member index).map fun member => pointer + member.1

/-- `CodeGenerator::emitSubobjectAddress` -/
def emitSubobjectAddress (memory : Memory) :
    Nat → ClassDeclaration → List Text → Option Nat
  | pointer, _, [] => some pointer
  | pointer, current, name :: rest => do
    let (index, base) ← baseAt current name
    if base.1.isVirtual then
      let slot ← virtualBasePointerIndex current name
      let slotAddress ← memberAddress pointer current slot
      emitSubobjectAddress memory (memory slotAddress) base.2 rest
    else
      let address ← memberAddress pointer current (index + 2)
      emitSubobjectAddress memory address base.2 rest

/-- The loop of `subobjectFieldOffset`, on the class reached, the last virtual
    base passed, its offset and the members entered since. -/
def fieldOffsetFrom (owner : ClassDeclaration) (field : Nat) :
    ClassDeclaration → ClassDeclaration → Nat → List Nat → List Text → Option Nat
  | _, segment, rootOffset, indices, [] =>
    ((classType segment).element (indices ++ [field])).map fun found => rootOffset + found.1
  | current, segment, rootOffset, indices, name :: rest => do
    let (index, base) ← baseAt current name
    if base.1.isVirtual then
      let storage ← virtualBaseStorageIndex owner name
      let root ← (classType owner).member storage
      fieldOffsetFrom owner field base.2 base.2 root.1 [] rest
    else fieldOffsetFrom owner field base.2 segment rootOffset (indices ++ [index + 2]) rest

/-- The same loop, for members that lie within a field. -/
def memberOffsetFrom (owner : ClassDeclaration) (inner : List Nat) :
    ClassDeclaration → ClassDeclaration → Nat → List Nat → List Text → Option Nat
  | _, segment, rootOffset, indices, [] =>
    ((classType segment).element (indices ++ inner)).map fun found => rootOffset + found.1
  | current, segment, rootOffset, indices, name :: rest => do
    let (index, base) ← baseAt current name
    if base.1.isVirtual then
      let storage ← virtualBaseStorageIndex owner name
      let root ← (classType owner).member storage
      memberOffsetFrom owner inner base.2 base.2 root.1 [] rest
    else memberOffsetFrom owner inner base.2 segment rootOffset (indices ++ [index + 2]) rest

/-- `CodeGenerator::subobjectFieldOffset`, with its `dynamicPointerSubfield`: the
    third word of a dynamic value is its pointer. -/
def subobjectFieldOffsetOf (owner : ClassDeclaration) (path : List Text) (field : Nat)
    (dynamicPointerSubfield : Bool) : Option Nat :=
  memberOffsetFrom owner (if dynamicPointerSubfield then [field, 2] else [field]) owner
    owner 0 [] path

/-- `CodeGenerator::subobjectFieldOffset` -/
def subobjectFieldOffset (owner : ClassDeclaration) (path : List Text) (field : Nat) : Option Nat :=
  fieldOffsetFrom owner field owner owner 0 [] path

/-! ## Constructor calls -/

def linkVirtualBase (owner : ClassDeclaration) (object viewAddress : Nat) (view : ClassDeclaration)
    (memory : Memory) (baseName : Text) : Option Memory := do
  let storage ← virtualBaseStorageIndex owner baseName
  let canonicalAddress ← memberAddress object owner storage
  let slot ← virtualBasePointerIndex view baseName
  let slotAddress ← memberAddress viewAddress view slot
  some (Function.update memory slotAddress canonicalAddress)

def linkView (owner : ClassDeclaration) (object : Nat) (memory : Memory)
    (view : List Text × ClassDeclaration) : Option Memory := do
  let viewAddress ← emitSubobjectAddress memory object owner view.1
  (virtualBaseNames view.2).foldlM (linkVirtualBase owner object viewAddress view.2) memory

def describeView (metadata : List Text → Nat) (owner : ClassDeclaration) (object : Nat)
    (memory : Memory) (view : List Text × ClassDeclaration) : Option Memory := do
  let viewAddress ← emitSubobjectAddress memory object owner view.1
  let metadataAddress ← memberAddress viewAddress view.2 0
  let ownerLinkAddress ← memberAddress viewAddress view.2 1
  some (Function.update (Function.update memory metadataAddress (metadata view.1))
    ownerLinkAddress object)

/-- A `ConstructorCall` up to the call of the constructor; the metadata of the
    whole object is stored by `cwhip_gc_alloc`. -/
def constructObject (metadata : List Text → Nat) (owner : ClassDeclaration) (object : Nat)
    (memory : Memory) : Option Memory := do
  let metadataAddress ← memberAddress object owner 0
  let rootLink ← memberAddress object owner 1
  let rooted := Function.update (Function.update memory metadataAddress (metadata []))
    rootLink object
  let linked ← (subobjects owner).foldlM (linkView owner object) rooted
  ((subobjects owner).filter fun view => view.1 != []).foldlM
    (describeView metadata owner object) linked

/-- The memory while an object exists: nothing writes into it but its
    constructor call and assignments to its fields. -/
inductive ObjectMemory (metadata : List Text → Nat) (owner : ClassDeclaration) (object : Nat) :
    Memory → Prop where
  | constructed {before memory : Memory} (h : constructObject metadata owner object before =
      some memory) :
      ObjectMemory metadata owner object memory
  | field {memory : Memory} (h : ObjectMemory metadata owner object memory)
      {view : List Text × ClassDeclaration} (hview : view ∈ subobjects owner) {field : Nat}
        {type : Text}
      (hfield : view.2.label.fields[field]? = some type) {viewAddress fieldAddress : Nat}
      (hviewAddress : emitSubobjectAddress memory object owner view.1 = some viewAddress)
      (haddress : memberAddress viewAddress view.2 (fieldIndex view.2 field) = some fieldAddress)
      {address : Nat} (hlow : fieldAddress ≤ address)
      (hhigh : address < fieldAddress + (llvmType type).size) (value : Nat) :
      ObjectMemory metadata owner object (Function.update memory address value)
  | elsewhere {memory : Memory} (h : ObjectMemory metadata owner object memory) {address : Nat}
      (haddress : address < object ∨ object + (classType owner).size ≤ address) (value : Nat) :
      ObjectMemory metadata owner object (Function.update memory address value)

/-! ## Members that hold subobjects -/

variable {c u owner v current : ClassDeclaration} {name : Text} {index place object : Nat}
  {base : BaseInfo × ClassDeclaration} {indices indices' : List Nat} {spot spot' : Spot}
  {path : List Text} {type : MemoryType}

theorem baseAt_eq_some (h : baseAt c name = some (index, base)) :
    c.edges[index]? = some base ∧ base.2.label.name = name := by
  obtain ⟨index', hfind, hget⟩ := Option.bind_eq_some_iff.mp h
  obtain ⟨base', hbase, hpair⟩ := Option.map_eq_some_iff.mp hget
  obtain ⟨rfl, rfl⟩ := Prod.mk.inj hpair
  refine ⟨hbase, ?_⟩
  obtain ⟨hlt, hname, -⟩ := List.findIdx?_eq_some_iff_getElem.mp hfind
  rw [List.getElem?_eq_getElem hlt] at hbase
  rw [Option.some.inj hbase] at hname
  simpa using hname

theorem baseAt_of_find (h : c.edges.find? (fun base => base.2.label.name == name) = some base) :
    ∃ index, baseAt c name = some (index, base) := by
  rw [List.find?_eq_bind_findIdx?_getElem?] at h
  obtain ⟨index, hindex, hget⟩ := Option.bind_eq_some_iff.mp h
  refine ⟨index, ?_⟩
  rw [baseAt, hindex, bind_some, hget]
  rfl

/-- The members of the whole object that a path of base names leads through. -/
def subobjectIndices (owner : ClassDeclaration) :
    ClassDeclaration → List Nat → List Text → Option (List Nat)
  | _, indices, [] => some indices
  | current, indices, name :: rest => do
    let (index, base) ← baseAt current name
    if base.1.isVirtual then
      let storage ← virtualBaseStorageIndex owner name
      subobjectIndices owner base.2 [storage] rest
    else subobjectIndices owner base.2 (indices ++ [index + 2]) rest

/-- The class that a list of member indices leads to. -/
def classWithin : ClassDeclaration → List Nat → Option ClassDeclaration
  | c, [] => some c
  | c, index :: rest => (memberClass c index).bind fun u => classWithin u rest

/-- Members are looked up along their indices. -/
theorem classWithin_append {rest : List Nat} :
    classWithin c (indices ++ rest) = (classWithin c indices).bind fun u => classWithin u rest := by
  induction indices generalizing c with
  | nil => rfl
  | cons index indices ih =>
    rw [List.cons_append, classWithin, classWithin]
    cases memberClass c index with
    | none => rfl
    | some u => exact ih

theorem classWithin_type (h : classWithin c indices = some u) :
    ∃ place, (classType c).element indices = some (place, classType u) := by
  induction indices generalizing c with
  | nil =>
    obtain rfl := Option.some.inj h
    exact ⟨0, MemoryType.element_nil⟩
  | cons index rest ih =>
    obtain ⟨v, hv, hrest⟩ := Option.bind_eq_some_iff.mp h
    obtain ⟨start, hstart⟩ := memberClass_type hv
    obtain ⟨place, hplace⟩ := ih hrest
    exact ⟨start + place, MemoryType.element_cons.mpr ⟨_, _, _, hstart, hplace, rfl⟩⟩

theorem classWithin_base (h : classWithin owner indices = some c)
    (hbase : c.edges[index]? = some base) :
    classWithin owner (indices ++ [index + 2]) = some base.2 := by
  rw [classWithin_append, h, bind_some, classWithin, memberClass_base hbase]
  rfl

/-- No index goes on below a member that is no subobject. -/
theorem own_extends {index' : Nat} (hu : classWithin owner indices = some u)
    (hindex : memberClass u index = none) (hv : classWithin owner indices' = some v)
    (h : indices ++ [index] <+: indices' ++ [index']) :
    indices ++ [index] = indices' ++ [index'] := by
  rcases List.prefix_concat_iff.mp h with heq | ⟨rest, hrest⟩
  · exact heq
  · rw [← hrest, List.append_assoc, classWithin_append, hu, bind_some, List.singleton_append,
      classWithin, hindex] at hv
    cases hv

/-- A virtual base has a member in the class of the object. -/
theorem storage_exists (hdistinct : DistinctBases owner) (hc : Coherent owner)
    (hv : IsVirtualBase owner v) :
    ∃ storage, virtualBaseStorageIndex owner v.label.name = some storage ∧
      memberClass owner storage = some v := by
  have hmem := (mem_virtualBaseNames hdistinct hc).mpr ⟨v, hv, rfl⟩
  have hstorage : virtualBaseStorageIndex owner v.label.name = some _ := if_pos hmem
  exact ⟨_, hstorage, memberClass_storage hc hv hstorage⟩

/-- What the next name of a path enters: the room of a virtual base, or a member
    of the class reached. -/
inductive Enters (owner current : ClassDeclaration) (indices : List Nat) (name : Text) :
    ClassDeclaration → List Nat → Prop where
  | storage {index storage : Nat} {base : BaseInfo × ClassDeclaration}
      (hat : baseAt current name = some (index, base)) (hvirtual : base.1.isVirtual = true)
      (hstorage : virtualBaseStorageIndex owner name = some storage) :
      Enters owner current indices name base.2 [storage]
  | member {index : Nat} {base : BaseInfo × ClassDeclaration}
      (hat : baseAt current name = some (index, base)) (hvirtual : base.1.isVirtual = false) :
      Enters owner current indices name base.2 (indices ++ [index + 2])

theorem Enters.subobjectIndices {next : ClassDeclaration}
    (h : Enters owner current indices name next indices') (rest : List Text) :
    subobjectIndices owner current indices (name :: rest)
      = subobjectIndices owner next indices' rest := by
  cases h with
  | storage hat hvirtual hstorage =>
    rw [CodeGen.subobjectIndices, hat]
    simp only [bind_eq_bind, bind_some, hvirtual, if_true, hstorage]
  | member hat hvirtual =>
    rw [CodeGen.subobjectIndices, hat]
    simp only [bind_eq_bind, bind_some, hvirtual, Bool.false_eq_true, if_false]

/-- Each name of a walk enters one member. -/
theorem walk_enters (hdistinct : DistinctBases owner) (hc : Coherent owner) {rest : List Text}
    (hcurrent : current ∈ owner.subtrees) (hindices : classWithin owner indices = some current)
    (h : walk current spot (name :: rest) = some (u, spot')) :
    ∃ next indices' mid, Enters owner current indices name next indices' ∧ next ∈ owner.subtrees ∧
      classWithin owner indices' = some next ∧ walk next mid rest = some (u, spot') := by
  obtain ⟨base, hfind, hrest⟩ := walk_cons.mp h
  obtain ⟨index, hat⟩ := baseAt_of_find hfind
  obtain ⟨hget, rfl⟩ := baseAt_eq_some hat
  have hmem := (find_edge hfind).1
  have hbase : base.2 ∈ owner.subtrees :=
    Tree.mem_subtrees_trans _ hcurrent (Tree.mem_subtrees_edge hmem)
  cases hvirtual : base.1.isVirtual with
  | true =>
    obtain ⟨storage, hstorage, hclass⟩ :=
      storage_exists hdistinct hc ⟨current, hcurrent, base, hmem, hvirtual, rfl⟩
    have hwithin : classWithin owner [storage] = some base.2 := by
      rw [classWithin, hclass]
      rfl
    exact ⟨base.2, [storage], _, .storage hat hvirtual hstorage, hbase, hwithin, hrest⟩
  | false =>
    exact ⟨base.2, _, _, .member hat hvirtual, hbase, classWithin_base hindices hget, hrest⟩

theorem subobjectIndices_class (hdistinct : DistinctBases owner) (hc : Coherent owner)
    (hcurrent : current ∈ owner.subtrees) (hindices : classWithin owner indices = some current)
    (h : walk current spot path = some (u, spot')) :
    ∃ result, subobjectIndices owner current indices path = some result ∧
      classWithin owner result = some u := by
  induction path generalizing current indices spot with
  | nil =>
    obtain ⟨rfl, -⟩ := Prod.mk.inj (Option.some.inj h)
    exact ⟨indices, rfl, hindices⟩
  | cons name rest ih =>
    obtain ⟨next, indices', mid, henters, hnext, hindices', hrest⟩ :=
      walk_enters hdistinct hc hcurrent hindices h
    rw [henters.subobjectIndices]
    exact ih hnext hindices' hrest

variable {result : List Nat} {start address value : Nat} {name' : Text}

/-- The offset sums up the members that are entered. -/
theorem memberOffsetFrom_eq {segment : ClassDeclaration} (hdistinct : DistinctBases owner)
    (hc : Coherent owner) {before inner : List Nat} (hcurrent : current ∈ owner.subtrees)
    (hindices : classWithin owner indices = some current)
    (hwalk : walk current spot path = some (u, spot')) {rootOffset offset : Nat}
    (hstart : (classType owner).element indices = some (start, classType current))
    (hbefore : (classType segment).element before = some (offset, classType current))
    (hsum : start = rootOffset + offset)
    (h : subobjectIndices owner current indices path = some result)
    (hplace : (classType owner).element (result ++ inner) = some (place, type)) :
    memberOffsetFrom owner inner current segment rootOffset before path = some place := by
  induction path generalizing current segment indices before spot start rootOffset offset with
  | nil =>
    obtain rfl := Option.some.inj h
    obtain ⟨start', mid, last, hstart', hlast, rfl⟩ := MemoryType.element_append.mp hplace
    obtain ⟨rfl, rfl⟩ := Prod.mk.inj (Option.some.inj (hstart.symm.trans hstart'))
    have hwhole := MemoryType.element_append.mpr ⟨_, _, _, hbefore, hlast, rfl⟩
    rw [memberOffsetFrom, hwhole, hsum, Nat.add_assoc]
    rfl
  | cons name rest ih =>
    obtain ⟨next, indices', mid, henters, hnext, hindices', hrest⟩ :=
      walk_enters hdistinct hc hcurrent hindices hwalk
    rw [henters.subobjectIndices] at h
    obtain ⟨start', hstart'⟩ := classWithin_type hindices'
    rw [memberOffsetFrom]
    cases henters with
    | storage hat hvirtual hstorage =>
      -- the offset starts again at the room of the virtual base
      have hmember := MemoryType.element_singleton.mp hstart'
      simp only [hat, bind_eq_bind, bind_some, hvirtual, if_true, hstorage, hmember]
      exact ih hnext hindices' hrest hstart' MemoryType.element_nil (Nat.add_zero _).symm h
    | member hat hvirtual =>
      obtain ⟨first, type', last, hfirst, hlast, rfl⟩ := MemoryType.element_append.mp hstart'
      obtain ⟨rfl, rfl⟩ := Prod.mk.inj (Option.some.inj (hstart.symm.trans hfirst))
      have hbefore' := MemoryType.element_append.mpr ⟨_, _, _, hbefore, hlast, rfl⟩
      simp only [hat, bind_eq_bind, bind_some, hvirtual, Bool.false_eq_true, if_false]
      exact ih hnext hindices' hrest hstart' hbefore' (by omega) h

theorem memberOffsetFrom_field (owner : ClassDeclaration) (field : Nat)
    (current segment : ClassDeclaration) (rootOffset : Nat) (indices : List Nat)
    (path : List Text) :
    memberOffsetFrom owner [field] current segment rootOffset indices path
      = fieldOffsetFrom owner field current segment rootOffset indices path := by
  induction path generalizing current segment rootOffset indices with
  | nil => rfl
  | cons name rest ih => simp only [memberOffsetFrom, fieldOffsetFrom, ih]

theorem subobjectFieldOffset_eq (hdistinct : DistinctBases owner) (hc : Coherent owner)
    (hwalk : walk owner whole path = some (u, spot))
    (h : subobjectIndices owner owner [] path = some indices) {field : Nat}
    (hfield : (classType owner).element (indices ++ [field]) = some (place, type)) :
    subobjectFieldOffset owner path field = some place := by
  rw [subobjectFieldOffset, ← memberOffsetFrom_field]
  exact memberOffsetFrom_eq hdistinct hc (Tree.mem_subtrees_self _) rfl hwalk MemoryType.element_nil
    MemoryType.element_nil rfl h hfield

/-! ## Virtual base pointers -/

/-- The pointer to a virtual base in the subobject that some members lead to:
    its address, and the address of the virtual base. -/
structure IsSlot (owner : ClassDeclaration) (object : Nat) (indices : List Nat)
    (u : ClassDeclaration) (name : Text) (address value : Nat) : Prop where
  pointer : ∃ slot place, virtualBasePointerIndex u name = some slot ∧
    (classType owner).element (indices ++ [slot]) = some (place, pointerType) ∧
    address = object + place
  storage : ∃ storage, virtualBaseStorageIndex owner name = some storage ∧
    memberAddress object owner storage = some value

/-- The pointers of a subobject point to the virtual bases. -/
def Linked (memory : Memory) (owner : ClassDeclaration) (object : Nat) (indices : List Nat)
    (u : ClassDeclaration) : Prop :=
  ∀ name address value, IsSlot owner object indices u name address value → memory address = value

/-- Each view has a pointer for each of its virtual bases. -/
theorem slot_exists (hdistinct : DistinctBases owner) (hc : Coherent owner) (object : Nat)
    (hindices : classWithin owner indices = some u) (hu : u ∈ owner.subtrees)
    (hname : name ∈ virtualBaseNames u) :
    ∃ address value, IsSlot owner object indices u name address value := by
  obtain ⟨place, hplace⟩ := classWithin_type hindices
  have hslot : virtualBasePointerIndex u name = some _ := if_pos hname
  obtain ⟨inner, hinner⟩ := pointer_member hslot
  obtain ⟨v, hv, rfl⟩ := (virtualBasesFrom_lists u []).1 name hname
  obtain ⟨storage, hstorage, hclass⟩ := storage_exists hdistinct hc (hv.subtree hu)
  obtain ⟨room, hroom⟩ := memberClass_type hclass
  refine ⟨_, object + room, ⟨_, place + inner, hslot, ?_, rfl⟩, storage, hstorage, ?_⟩
  · exact MemoryType.element_append.mpr ⟨_, _, _, hplace, MemoryType.element_singleton.mpr hinner,
      rfl⟩
  · rw [memberAddress, hroom]
    rfl

theorem virtualBasePointerIndex_inj {slot : Nat} (h : virtualBasePointerIndex u name = some slot)
    (h' : virtualBasePointerIndex u name' = some slot) : name = name' := by
  rw [virtualBasePointerIndex] at h h'
  split at h
  · next hmem =>
    split at h'
    · have hindex := Option.some.inj (h.trans h'.symm)
      exact (List.idxOf_inj hmem).mp (by omega)
    · cases h'
  · cases h

/-- Such a member overlaps no other virtual base pointer. -/
theorem own_apart (hu : classWithin owner indices = some u) (hindex : memberClass u index = none)
    (hplace : (classType owner).element (indices ++ [index]) = some (place, type))
    (hv : classWithin owner indices' = some v)
    (hslot : IsSlot owner object indices' v name address value)
    (hne : ∀ slot, virtualBasePointerIndex v name = some slot →
      indices ++ [index] ≠ indices' ++ [slot]) :
    object + place + type.size ≤ address ∨ address + 8 ≤ object + place := by
  obtain ⟨slot, place', hpointer, hplace', rfl⟩ := hslot.pointer
  have hapart := MemoryType.element_apart
    (fun h => hne slot hpointer (own_extends hu hindex hv h))
    (fun h => hne slot hpointer (own_extends hv (memberClass_pointer hpointer) hu h).symm)
    hplace hplace'
  have hsize : pointerType.size = 8 := rfl
  omega

theorem slot_value {value' : Nat} (hu : classWithin owner indices = some u)
    (hv : classWithin owner indices' = some v)
    (h : IsSlot owner object indices u name address value)
    (h' : IsSlot owner object indices' v name' address value') : value = value' := by
  obtain ⟨slot, place, hpointer, hplace, haddress⟩ := h.pointer
  by_cases hne : ∀ slot', virtualBasePointerIndex v name' = some slot' →
      indices ++ [slot] ≠ indices' ++ [slot']
  · have hapart := own_apart hu (memberClass_pointer hpointer) hplace hv h' hne
    have hsize : pointerType.size = 8 := rfl
    omega
  · push Not at hne
    obtain ⟨slot', hpointer', heq⟩ := hne
    obtain ⟨rfl, hlast⟩ := List.append_inj' heq rfl
    obtain rfl : slot = slot' := by simpa using hlast
    obtain rfl : u = v := Option.some.inj (hu.symm.trans hv)
    obtain rfl := virtualBasePointerIndex_inj hpointer hpointer'
    obtain ⟨storage, hstorage, hvalue⟩ := h.storage
    obtain ⟨storage', hstorage', hvalue'⟩ := h'.storage
    obtain rfl := Option.some.inj (hstorage.symm.trans hstorage')
    exact Option.some.inj (hvalue.symm.trans hvalue')

/-- The subobjects on the way to the end of a path. -/
def LinkedOnWay (memory : Memory) (owner current : ClassDeclaration) (object : Nat)
    (indices : List Nat) (path : List Text) : Prop :=
  ∀ front name tail, path = front ++ name :: tail → ∀ indices' v,
    subobjectIndices owner current indices front = some indices' →
    classWithin owner indices' = some v → Linked memory owner object indices' v

/-- Following the pointers leads to the address of the member. -/
theorem emitSubobjectAddress_eq (hdistinct : DistinctBases owner) (hc : Coherent owner)
    {memory : Memory} (hcurrent : current ∈ owner.subtrees)
    (hindices : classWithin owner indices = some current)
    (hwalk : walk current spot path = some (u, spot'))
    (hlinked : LinkedOnWay memory owner current object indices path)
    (hstart : (classType owner).element indices = some (start, classType current))
    (h : subobjectIndices owner current indices path = some result)
    (hplace : (classType owner).element result = some (place, type)) :
    emitSubobjectAddress memory (object + start) current path = some (object + place) := by
  induction path generalizing current indices spot start with
  | nil =>
    obtain rfl := Option.some.inj h
    obtain ⟨rfl, -⟩ := Prod.mk.inj (Option.some.inj (hstart.symm.trans hplace))
    rfl
  | cons name rest ih =>
    obtain ⟨next, indices', mid, henters, hnext, hindices', hrest⟩ :=
      walk_enters hdistinct hc hcurrent hindices hwalk
    have hlinked' : LinkedOnWay memory owner next object indices' rest := by
      intro front last tail hfront result' v hresult' hv
      refine hlinked (name :: front) last tail (by rw [hfront]; rfl) result' v ?_ hv
      rw [henters.subobjectIndices]
      exact hresult'
    rw [henters.subobjectIndices] at h
    obtain ⟨start', hstart'⟩ := classWithin_type hindices'
    have hafter := ih hnext hindices' hrest hlinked' hstart' h
    have hself : Linked memory owner object indices current :=
      hlinked [] name rest rfl indices current rfl hindices
    rw [emitSubobjectAddress]
    cases henters with
    | storage hat hvirtual hstorage =>
      -- the pointer in the slot leads to the room of the virtual base
      obtain ⟨hget, rfl⟩ := baseAt_eq_some hat
      have hname := (mem_virtualBaseNames (hdistinct.subtree hcurrent) (hc.subtree hcurrent)).mpr
        ⟨_, ⟨current, Tree.mem_subtrees_self _, _, List.mem_of_getElem? hget, hvirtual, rfl⟩, rfl⟩
      obtain ⟨address, value, hslot⟩ :=
        slot_exists hdistinct hc object hindices hcurrent hname
      have hread := hself _ _ _ hslot
      obtain ⟨slot, slotPlace, hpointer, hslotPlace, haddress⟩ := hslot.pointer
      obtain ⟨storage', hstorage', hvalue⟩ := hslot.storage
      obtain rfl := Option.some.inj (hstorage.symm.trans hstorage')
      rw [memberAddress, MemoryType.element_singleton.mp hstart'] at hvalue
      have hvalue : object + start' = value := Option.some.inj hvalue
      obtain ⟨first, type', last, hfirst, hlast, rfl⟩ := MemoryType.element_append.mp hslotPlace
      obtain ⟨rfl, rfl⟩ := Prod.mk.inj (Option.some.inj (hstart.symm.trans hfirst))
      have hmember : memberAddress (object + start) current slot = some address := by
        rw [memberAddress, MemoryType.element_singleton.mp hlast, haddress]
        exact congrArg some (Nat.add_assoc _ _ _)
      simp only [hat, bind_eq_bind, bind_some, hvirtual, if_true, hpointer, hmember,
        hread, ← hvalue]
      exact hafter
    | @member index base hat hvirtual =>
      obtain ⟨first, type', last, hfirst, hlast, rfl⟩ := MemoryType.element_append.mp hstart'
      obtain ⟨rfl, rfl⟩ := Prod.mk.inj (Option.some.inj (hstart.symm.trans hfirst))
      have hmember : memberAddress (object + start) current (index + 2)
          = some (object + (start + last)) := by
        rw [memberAddress, MemoryType.element_singleton.mp hlast]
        exact congrArg some (Nat.add_assoc _ _ _)
      simp only [hat, bind_eq_bind, bind_some, hvirtual, Bool.false_eq_true, if_false,
        hmember]
      exact hafter

end Cwhip.CodeGen
