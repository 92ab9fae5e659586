/-
  Cwhip.CodeGen.ReferenceOffsets

  The storage of the fields of an object, and the tables of offsets that the
  collector follows (`CodeGeneratorModule.cpp`).

  Emitted code, the constant offsets and the struct types agree on where a field
  is.  Fields do not overlap, a virtual base has one place, and the tables hold
  the offset of each reference once.
-/

import Mathlib.Data.List.Nodup
import Cwhip.CodeGen.FieldAddresses

namespace Cwhip.CodeGen

open Cwhip.Lib
open Cwhip.Inheritance (BaseInfo PathIndex)

/-! ## Offset tables -/

structure ReferenceTables where
  referenceOffsets : List Nat
  dynamicReferenceOffsets : List Nat

/-- A field of the whole object: its subobject, its type and its index there. -/
structure FieldEntry where
  subobject : List Text × ClassDeclaration
  type : Text
  localFieldIndex : Nat
  deriving DecidableEq

/-- The fields in the order of the two loops of `emitClassTypesAndMetadata`. -/
def fieldEntries (owner : ClassDeclaration) : List FieldEntry :=
  (subobjects owner).flatMap fun subobject =>
    subobject.2.label.fields.zipIdx.map fun field => ⟨subobject, field.1, field.2⟩

/-- The offset that the tables get for a field. -/
def FieldEntry.offset (owner : ClassDeclaration) (entry : FieldEntry) : Option Nat :=
  subobjectFieldOffsetOf owner entry.subobject.1
    (fieldIndex entry.subobject.2 entry.localFieldIndex) (isDynamicValueType entry.type)

def addReference (p : Program) (owner : ClassDeclaration) (tables : ReferenceTables)
    (entry : FieldEntry) : Option ReferenceTables :=
  let dynamic := isDynamicValueType entry.type
  if !isManagedReferenceType p entry.type && !dynamic then some tables
  else do
    let offset ← entry.offset owner
    if dynamic then
      some { tables with dynamicReferenceOffsets := tables.dynamicReferenceOffsets ++ [offset] }
    else some { tables with referenceOffsets := tables.referenceOffsets ++ [offset] }

@[irreducible] def voidType : Text := "void".toList

/-- The types of the fields in `makeBuiltinExceptionClass`. -/
def exceptionFields : List Text := ["String".toList, "bool".toList]

/-- `struct CwhipRuntimeException` -/
def runtimeException : MemoryType := .struct [pointerType, pointerType, pointerType, .scalar 1 1]

/-- `cwhip_exception_class_meta` -/
def exceptionTables : ReferenceTables :=
  ⟨((runtimeException.member 2).map fun message => message.1).toList, []⟩

/-- The tables in the metadata of a class.  Those of the built-in class are in
    the runtime. -/
def referenceTables (p : Program) (owner : ClassDeclaration) : Option ReferenceTables :=
  if owner.label.builtin then some exceptionTables
  else (fieldEntries owner).foldlM (addReference p owner) ⟨[], []⟩

/-- What parser and analyzer have checked of fields. -/
structure FieldsChecked (p : Program) : Prop where
  /-- "unknown type or class": `void` is no type of a field. -/
  types : ∀ c ∈ p.classes, voidType ∉ c.label.fields
  /-- The words for built-in types are no identifiers. -/
  classNames : ∀ c ∈ p.classes, c.label.name ∉ builtinTypes
  builtin : ∀ c ∈ p.classes, c.label.builtin = true → c.label.fields = exceptionFields

/-! ## Storage -/

/-- A field of a listed subobject, and where the struct type has it in the whole
    object. -/
structure FieldAt (owner : ClassDeclaration) (view : List Text × ClassDeclaration) (field : Nat)
    (type : Text) (place : Nat) : Prop where
  listed : view ∈ subobjects owner
  declared : view.2.label.fields[field]? = some type
  element : ∃ indices, subobjectIndices owner owner [] view.1 = some indices ∧
    (classType owner).element (indices ++ [fieldIndex view.2 field]) = some (place, llvmType type)

/-- A pointer to a subobject, under its class. -/
structure StaticView (memory : Memory) (owner : ClassDeclaration) (object : Nat)
    (through : List Text) (source : ClassDeclaration) (address : Nat) : Prop where
  reached : ∃ spot, walk owner whole through = some (source, spot)
  address_eq : emitSubobjectAddress memory object owner through = some address

def VirtualStep (owner : ClassDeclaration) (path : List Text) (base : ClassDeclaration) : Prop :=
  ∃ c spot edge, walk owner whole path = some (c, spot) ∧ (edge, base) ∈ c.edges ∧
    edge.isVirtual = true

def ManagedReference (p : Program) (type : Text) (start : Nat) : Prop :=
  isManagedReferenceType p type = true ∧ isDynamicValueType type = false ∧ start = 0

/-- A dynamic value with its pointer at an offset. -/
def DynamicPointer (type : Text) (start : Nat) : Prop :=
  isDynamicValueType type = true ∧ (llvmType type).member 2 = some (start, pointerType)

/-- A table holds what is wanted of all fields, each offset once, and no other. -/
structure Tabulates (owner : ClassDeclaration) (wanted : Text → Nat → Prop) (table : List Nat) :
    Prop where
  once : table.Nodup
  lists : ∀ offset, offset ∈ table ↔ ∃ view field type place start,
    FieldAt owner view field type place ∧ wanted type start ∧ offset = place + start

structure LayoutCoherent (p : Program) (fieldName : ClassInfo → Nat → Text)
    (owner : ClassDeclaration) :
    Prop where
  /-- Each field of each subobject has its storage in the struct type. -/
  stored : ∀ view ∈ subobjects owner, ∀ field type, view.2.label.fields[field]? = some type →
    ∃ place, FieldAt owner view field type place
  /-- The constant offset is that of the storage. -/
  offset : ∀ view field type place, FieldAt owner view field type place →
    subobjectFieldOffsetOf owner view.1 (fieldIndex view.2 field) false = some place
  /-- So is the address in emitted code, through every static view. -/
  address : ∀ metadata object memory, ObjectMemory metadata owner object memory →
    ∀ view field type place, FieldAt owner view field type place →
    ∀ through source address names path, StaticView memory owner object through source address →
      FieldPath view.2 field source names path → spotOf owner (through ++ names) =
        spotOf owner view.1 →
      emitFieldAddress p memory address source path = some (object + place)
  /-- What lookup finds in a static view is a field of a subobject. -/
  lookup : ∀ metadata object memory, ObjectMemory metadata owner object memory →
    ∀ through source address, StaticView memory owner object through source address →
    ∀ name path u field, findField fieldName name source = some (path, u, field) →
      ∃ view type place, view.2 = u ∧ fieldName u.label field = name ∧
        FieldAt owner view field type place ∧
        emitFieldAddress p memory address source path = some (object + place)
  /-- Different fields do not overlap. -/
  apart : ∀ view field type place view' field' type' place', FieldAt owner view field type place →
    FieldAt owner view' field' type' place' → (view, field) ≠ (view', field') →
      place + (llvmType type).size ≤ place' ∨ place' + (llvmType type').size ≤ place
  /-- A virtual base has one place, however it is reached. -/
  shared : ∀ base, IsVirtualBase owner base → ∃ room, ∀ path, VirtualStep owner path base →
    (∀ metadata object memory, ObjectMemory metadata owner object memory →
      emitSubobjectAddress memory object owner (path ++ [base.label.name]) = some (object + room)) ∧
    ∀ field type, base.label.fields[field]? = some type →
      subobjectFieldOffsetOf owner (path ++ [base.label.name]) (fieldIndex base field) false
        = ((classType base).member (fieldIndex base field)).map fun member => room + member.1
  /-- The tables list the managed references and the pointers of dynamic values. -/
  references : ∃ tables, referenceTables p owner = some tables ∧
    Tabulates owner (ManagedReference p) tables.referenceOffsets ∧
    Tabulates owner DynamicPointer tables.dynamicReferenceOffsets

section

variable {owner : ClassDeclaration} (hdistinct : DistinctBases owner) (hc : Coherent owner)
include hdistinct hc

variable {view : List Text × ClassDeclaration} {field place object address : Nat} {type : Text}
  {memory : Memory} {through : List Text} {source : ClassDeclaration}

theorem placed_of_listed (h : view ∈ subobjects owner) :
    ∃ spot indices, Placed owner view.1 view.2 spot indices ∧ classWithin owner indices =
    some view.2 := by
  obtain ⟨spot, hwalk⟩ := subobjects_walk hdistinct h whole
  obtain ⟨indices, hplaced⟩ := placed_of_walk hdistinct hc hwalk
  obtain ⟨indices', hview⟩ := view_exists hdistinct hc h
  obtain rfl := Option.some.inj (hplaced.indices_eq.symm.trans hview.leads)
  exact ⟨spot, indices, hplaced, hview.holds⟩

theorem fieldAt_exists (h : view ∈ subobjects owner)
    (hfield : view.2.label.fields[field]? = some type) :
    ∃ place, FieldAt owner view field type place := by
  obtain ⟨spot, indices, hplaced, hholds⟩ := placed_of_listed hdistinct hc h
  obtain ⟨start, hstart⟩ := classWithin_type hholds
  obtain ⟨inner, hinner⟩ := field_member hfield
  exact ⟨start + inner, h, hfield, indices, hplaced.indices_eq, (view_member 0 hstart hinner).2⟩

theorem FieldAt.offset_within (h : FieldAt owner view field type place) {rest : List Nat}
    {start : Nat} {inner : MemoryType}
    (hrest : (llvmType type).element rest = some (start, inner)) :
    memberOffsetFrom owner (fieldIndex view.2 field :: rest) owner owner 0 [] view.1
      = some (place + start) := by
  obtain ⟨indices, hindices, hplace⟩ := h.element
  obtain ⟨spot, hwalk⟩ := subobjects_walk hdistinct h.listed whole
  have hwhole := MemoryType.element_append.mpr ⟨_, _, _, hplace, hrest, rfl⟩
  rw [List.append_assoc, List.singleton_append] at hwhole
  exact memberOffsetFrom_eq hdistinct hc (Tree.mem_subtrees_self _) rfl hwalk MemoryType.element_nil
    MemoryType.element_nil rfl hindices hwhole

theorem FieldAt.offset_eq (h : FieldAt owner view field type place) :
    subobjectFieldOffsetOf owner view.1 (fieldIndex view.2 field) false = some place :=
  h.offset_within hdistinct hc MemoryType.element_nil

theorem FieldAt.apart {view' : List Text × ClassDeclaration} {field' place' : Nat} {type' : Text}
    (h : FieldAt owner view field type place) (h' : FieldAt owner view' field' type' place')
    (hne : (view, field) ≠ (view', field')) :
    place + (llvmType type).size ≤ place' ∨ place' + (llvmType type').size ≤ place := by
  obtain ⟨spot, indices, hplaced, hholds⟩ := placed_of_listed hdistinct hc h.listed
  obtain ⟨spot', indices', hplaced', hholds'⟩ := placed_of_listed hdistinct hc h'.listed
  obtain ⟨_, hindices, hplace⟩ := h.element
  obtain ⟨_, hindices', hplace'⟩ := h'.element
  obtain rfl := Option.some.inj (hplaced.indices_eq.symm.trans hindices)
  obtain rfl := Option.some.inj (hplaced'.indices_eq.symm.trans hindices')
  -- members to two fields are those to one subobject and one index
  have hmembers : indices ++ [fieldIndex view.2 field] ≠ indices' ++
      [fieldIndex view'.2 field'] := by
    intro heq
    obtain ⟨rfl, hlast⟩ := List.append_inj' heq rfl
    obtain rfl := hplaced.spot_unique hc hplaced'
    obtain rfl := listed_unique hdistinct h.listed h'.listed hplaced.walk_eq hplaced'.walk_eq
    have hfield : fieldIndex view.2 field = fieldIndex view.2 field' := by simpa using hlast
    rw [fieldIndex, fieldIndex] at hfield
    exact hne (congrArg _ (by omega))
  have hown := memberClass_field (List.getElem?_eq_some_iff.mp h.declared).1
  have hown' := memberClass_field (List.getElem?_eq_some_iff.mp h'.declared).1
  exact MemoryType.element_apart (fun hprefix => hmembers (own_extends hholds hown hholds' hprefix))
    (fun hprefix => hmembers (own_extends hholds' hown' hholds hprefix).symm) hplace hplace'

theorem StaticView.address_append {u : ClassDeclaration}
    (hlinked : AllLinked memory owner object (subobjects owner))
    (h : StaticView memory owner object through source address) {names : List Text}
    (hnames : ∀ spot, ∃ spot', walk source spot names = some (u, spot')) :
    ∃ spot indices place, Placed owner (through ++ names) u spot indices ∧
      (classType owner).element indices = some (place, classType u) ∧
      emitSubobjectAddress memory address source names = some (object + place) := by
  obtain ⟨spot, hreached⟩ := h.reached
  obtain ⟨spot', hwalk⟩ := hnames spot
  obtain ⟨indices, hplaced⟩ :=
    placed_of_walk hdistinct hc (walk_append_some.mpr ⟨_, hreached, hwalk⟩)
  obtain ⟨place, hplace, haddress⟩ := hplaced.address hdistinct hc hlinked
  rw [emitSubobjectAddress_append hreached, h.address_eq, Option.bind_some] at haddress
  exact ⟨spot', indices, place, hplaced, hplace, haddress⟩

theorem FieldAt.unique {view' : List Text × ClassDeclaration} {field' : Nat} {type' : Text}
    (h : FieldAt owner view field type place) (h' : FieldAt owner view' field' type' place)
    (hsize : 0 < (llvmType type).size)
    (hsize' : 0 < (llvmType type').size) : (view, field) = (view', field') := by
  by_contra hne
  have hapart := h.apart hdistinct hc h' hne
  omega

theorem FieldAt.address_eq {p : Program} (hp : owner ∈ p.classes)
    (hlinked : AllLinked memory owner object (subobjects owner))
    (h : FieldAt owner view field type place)
    (hview : StaticView memory owner object through source address) {names : List Text}
    {path : List PathIndex} (hpath : FieldPath view.2 field source names path)
    (hspot : spotOf owner (through ++ names) = spotOf owner view.1) :
    emitFieldAddress p memory address source path = some (object + place) := by
  have hsource : source ∈ p.classes := by
    obtain ⟨spot, hreached⟩ := hview.reached
    exact p.mem_subtree hp (walk_mem hreached)
  obtain ⟨spot, indices, start, hplaced, hstart, haddress⟩ :=
    hview.address_append hdistinct hc hlinked (fun spot => hpath.walk_eq hsource spot)
  obtain ⟨spot', indices', hplaced', -⟩ := placed_of_listed hdistinct hc h.listed
  obtain ⟨_, hindices, hplace⟩ := h.element
  obtain rfl := Option.some.inj (hplaced'.indices_eq.symm.trans hindices)
  rw [spotOf, spotOf, hplaced.walk_eq, hplaced'.walk_eq] at hspot
  obtain rfl : spot = spot' := Option.some.inj hspot
  obtain rfl := hplaced.indices_unique hc hplaced'
  obtain ⟨inner, hinner⟩ := field_member h.declared
  obtain ⟨hmember, hwhole⟩ := view_member object hstart hinner
  obtain ⟨rfl, -⟩ := Prod.mk.inj (Option.some.inj (hplace.symm.trans hwhole))
  rw [hpath.emitFieldAddress_eq hsource, haddress]
  exact hmember

theorem StaticView.lookup {p : Program} (hp : owner ∈ p.classes)
    {fieldName : ClassInfo → Nat → Text}
    (hlinked : AllLinked memory owner object (subobjects owner)) {u : ClassDeclaration}
    (hview : StaticView memory owner object through source address) {name : Text}
    {path : List PathIndex} (hfind : findField fieldName name source = some (path, u, field)) :
    ∃ view type place, view.2 = u ∧ fieldName u.label field = name ∧
      FieldAt owner view field type place ∧
      emitFieldAddress p memory address source path = some (object + place) := by
  obtain ⟨⟨hlt, hname⟩, names, hpath⟩ := findField_path hfind
  obtain ⟨spot, hreached⟩ := hview.reached
  obtain ⟨spot', hwalk⟩ := hpath.walk_eq (p.mem_subtree hp (walk_mem hreached)) spot
  have hwhole := walk_append_some.mpr ⟨_, hreached, hwalk⟩
  obtain ⟨path', hlisted, hwalk'⟩ := walk_listed hdistinct hc hwhole
  obtain ⟨place, hplace⟩ := fieldAt_exists hdistinct hc hlisted (List.getElem?_eq_getElem hlt)
  refine ⟨_, _, place, rfl, hname, hplace, ?_⟩
  apply hplace.address_eq hdistinct hc hp hlinked hview hpath
  rw [spotOf, spotOf, hwhole, hwalk']

theorem virtualBase_shared {base : ClassDeclaration} (hbase : IsVirtualBase owner base) :
    ∃ room, ∀ path, VirtualStep owner path base →
      (∀ metadata object memory, ObjectMemory metadata owner object memory →
        emitSubobjectAddress memory object owner (path ++ [base.label.name]) = some (object + room))
        ∧
      ∀ field type, base.label.fields[field]? = some type →
        subobjectFieldOffsetOf owner (path ++ [base.label.name]) (fieldIndex base field) false
          = ((classType base).member (fieldIndex base field)).map fun member =>
          room + member.1 := by
  obtain ⟨storage, hstorage, hclass⟩ := storage_exists hdistinct hc hbase
  obtain ⟨room, hroom⟩ := memberClass_type hclass
  have hplace := MemoryType.element_singleton.mpr hroom
  refine ⟨room, ?_⟩
  rintro path ⟨c, spot, edge, hwalk, hmem, hvirtual⟩
  obtain ⟨indices, hplaced⟩ := placed_of_walk hdistinct hc hwalk
  obtain ⟨index, hat⟩ := baseAt_of_find (find_of_mem (hdistinct c (walk_mem hwalk)) hmem)
  have hreached := hplaced.storage hat hvirtual hstorage
  constructor
  · intro metadata object memory hmemory
    obtain ⟨place, hplace', haddress⟩ :=
      hreached.address hdistinct hc (objectMemory_linked hdistinct hc hmemory)
    obtain ⟨rfl, -⟩ := Prod.mk.inj (Option.some.inj (hplace.symm.trans hplace'))
    exact haddress
  · intro field type hfield
    obtain ⟨inner, hinner⟩ := field_member hfield
    have hwhole := MemoryType.element_append.mpr
      ⟨_, _, _, hplace, MemoryType.element_singleton.mpr hinner, rfl⟩
    rw [hinner]
    exact memberOffsetFrom_eq hdistinct hc (Tree.mem_subtrees_self _) rfl hreached.walk_eq
      MemoryType.element_nil MemoryType.element_nil rfl hreached.indices_eq hwhole

end

/-! ## The tables -/

section

variable {p : Program} {owner : ClassDeclaration}

theorem mem_fieldEntries {entry : FieldEntry} :
    entry ∈ fieldEntries owner ↔ entry.subobject ∈ subobjects owner ∧
      entry.subobject.2.label.fields[entry.localFieldIndex]? = some entry.type := by
  rw [fieldEntries, List.mem_flatMap]
  constructor
  · rintro ⟨subobject, hsubobject, hentry⟩
    obtain ⟨field, hfield, rfl⟩ := List.mem_map.mp hentry
    exact ⟨hsubobject, List.mem_zipIdx_iff_getElem?.mp hfield⟩
  · rintro ⟨hsubobject, hfield⟩
    exact ⟨_, hsubobject, List.mem_map.mpr
      ⟨(entry.type, entry.localFieldIndex), List.mem_zipIdx_iff_getElem?.mpr hfield, rfl⟩⟩

theorem fieldEntries_nodup (hdistinct : DistinctBases owner) : (fieldEntries owner).Nodup := by
  rw [fieldEntries, List.nodup_flatMap]
  constructor
  · intro subobject _
    have hindices : (subobject.2.label.fields.zipIdx.map fun field => field.2).Nodup := by
      rw [List.zipIdx_map_snd]
      exact List.nodup_range'
    refine (List.Nodup.of_map _ hindices).map ?_
    rintro ⟨type, index⟩ ⟨type', index'⟩ heq
    obtain ⟨-, rfl, rfl⟩ := FieldEntry.mk.inj heq
    rfl
  · refine (subobjects_apart hdistinct).imp ?_
    intro subobject other hne entry hentry hentry'
    obtain ⟨_, _, rfl⟩ := List.mem_map.mp hentry
    obtain ⟨_, _, heq⟩ := List.mem_map.mp hentry'
    exact hne (congrArg _ (congrArg (fun entry => entry.subobject.1) heq).symm)

theorem addReferences_eq {offset : FieldEntry → Nat} (entries : List FieldEntry)
    (h : ∀ entry ∈ entries, isManagedReferenceType p entry.type || isDynamicValueType entry.type →
      entry.offset owner = some (offset entry)) (tables : ReferenceTables) :
    entries.foldlM (addReference p owner) tables = some
      ⟨tables.referenceOffsets ++ (entries.filter fun entry =>
          isManagedReferenceType p entry.type && !isDynamicValueType entry.type).map offset,
        tables.dynamicReferenceOffsets ++
          (entries.filter fun entry => isDynamicValueType entry.type).map offset⟩ := by
  induction entries generalizing tables with
  | nil => simp
  | cons entry rest ih =>
    obtain ⟨hentry, hrest⟩ := List.forall_mem_cons.mp h
    rw [List.foldlM_cons, addReference]
    cases hdynamic : isDynamicValueType entry.type with
    | true =>
      have hoffset := hentry (by rw [hdynamic, Bool.or_true])
      simp [hdynamic, hoffset, ih hrest]
    | false =>
      cases hmanaged : isManagedReferenceType p entry.type with
      | true =>
        have hoffset := hentry (by rw [hmanaged]; rfl)
        simp [hdynamic, hmanaged, hoffset, ih hrest]
      | false => simp [hdynamic, hmanaged, ih hrest]

variable {type : Text}

theorem llvmType_size (h : type ≠ voidType) : 0 < (llvmType type).size := by
  unfold llvmType
  unfold voidType at h
  split_ifs <;> first | exact absurd ‹_› h | decide

theorem llvmType_dynamic (h : isDynamicValueType type = true) :
    (llvmType type).member 2 = some (16, pointerType) := by
  have heq : type = dynamicType := by simpa [isDynamicValueType] using h
  have htype : llvmType type = .struct [wordType, wordType, pointerType, wordType] := by
    rw [heq, llvmType, dynamicType]
    simp
  rw [htype]
  rfl

theorem tabulates_of (hdistinct : DistinctBases owner) (hc : Coherent owner) (selects : Text → Bool)
    {wanted : Text → Nat → Prop} {offset : FieldEntry → Nat}
    (hwanted : ∀ type start start', wanted type start → wanted type start' → start = start')
    (hselects : ∀ type start, wanted type start → selects type = true)
    (h : ∀ entry ∈ fieldEntries owner, selects entry.type = true → ∃ place start,
      FieldAt owner entry.subobject entry.localFieldIndex entry.type place ∧
        wanted entry.type start ∧
        start < (llvmType entry.type).size ∧ offset entry = place + start) :
    Tabulates owner wanted (((fieldEntries owner).filter fun entry => selects entry.type).map
    offset) := by
  constructor
  · refine List.Nodup.map_on ?_ ((fieldEntries_nodup hdistinct).filter _)
    intro entry hentry other hother heq
    obtain ⟨hentry, hselected⟩ := List.mem_filter.mp hentry
    obtain ⟨hother, hselected'⟩ := List.mem_filter.mp hother
    obtain ⟨place, start, hplace, -, hinside, hoffset⟩ := h entry hentry hselected
    obtain ⟨place', start', hplace', -, hinside', hoffset'⟩ := h other hother hselected'
    have hsame : (entry.subobject, entry.localFieldIndex) = (other.subobject,
        other.localFieldIndex) := by
      by_contra hne
      have hapart := hplace.apart hdistinct hc hplace' hne
      omega
    obtain ⟨subobject, type, index⟩ := entry
    obtain ⟨subobject', type', index'⟩ := other
    obtain ⟨rfl, rfl⟩ := Prod.mk.inj hsame
    have htype : type = type' := Option.some.inj (hplace.declared.symm.trans hplace'.declared)
    rw [htype]
  · intro value
    rw [List.mem_map]
    constructor
    · rintro ⟨entry, hentry, rfl⟩
      obtain ⟨hentry, hselected⟩ := List.mem_filter.mp hentry
      obtain ⟨place, start, hplace, hstart, -, hoffset⟩ := h entry hentry hselected
      exact ⟨_, _, _, place, start, hplace, hstart, hoffset⟩
    · rintro ⟨view, field, type, place, start, hplace, hstart, rfl⟩
      have hentry : (⟨view, type, field⟩ : FieldEntry) ∈ fieldEntries owner :=
        mem_fieldEntries.mpr ⟨hplace.listed, hplace.declared⟩
      have hselected := hselects type start hstart
      obtain ⟨place', start', hplace', hstart', -, hoffset⟩ := h _ hentry hselected
      refine ⟨_, List.mem_filter.mpr ⟨hentry, hselected⟩, ?_⟩
      rw [hoffset, hwanted _ _ _ hstart' hstart]
      obtain ⟨indices, hindices, helement⟩ := hplace.element
      obtain ⟨indices', hindices', helement'⟩ := hplace'.element
      obtain rfl := Option.some.inj (hindices.symm.trans hindices')
      rw [(Prod.mk.inj (Option.some.inj (helement.symm.trans helement'))).1]

theorem FieldsChecked.find_none (hfields : FieldsChecked p) (h : type ∈ builtinTypes) :
    p.find type = none := by
  rw [Program.find, List.find?_eq_none]
  intro c hmem hname
  have heq : c.label.name = type := by simpa using hname
  exact hfields.classNames c hmem (heq ▸ h)

theorem classType_exception {info : ClassInfo} (h : info.fields = exceptionFields) :
    classType (.node info .nil) = runtimeException := by
  have hbases : (.node info .nil : ClassDeclaration).edges = [] := rfl
  have hvirtual : virtualBaseNames (.node info .nil) = [] := by
    simp [virtualBaseNames, virtualBasesFrom, virtualBasesBases]
  have hlabel : (.node info .nil : ClassDeclaration).label = info := rfl
  rw [classType_eq, classMembers, hbases, hvirtual, virtualStorage, hvirtual, hlabel, h]
  simp [exceptionFields, llvmType, runtimeException]

theorem exceptionTables_eq (hfields : FieldsChecked p) (hp : owner ∈ p.classes)
    (hbuiltin : owner.label.builtin = true) :
    (fieldEntries owner).foldlM (addReference p owner) ⟨[], []⟩ = some exceptionTables := by
  have hbases := p.builtinBases owner hp hbuiltin
  have htypes := hfields.builtin owner hp hbuiltin
  obtain ⟨info, bases⟩ := owner
  cases bases with
  | cons edge base rest => cases hbases
  | nil =>
    have htypes : info.fields = exceptionFields := htypes
    have hentries : fieldEntries (.node info .nil) = [⟨([], .node info .nil), "String".toList, 0⟩,
        ⟨([], .node info .nil), "bool".toList, 1⟩] := by
      simp [fieldEntries, subobjects, subobjectsFrom, subobjectsBases, Tree.label, htypes,
        exceptionFields]
    have hmessage : isManagedReferenceType p "String".toList = true := by
      simp [isManagedReferenceType, referenceTypes]
    have hbool : isManagedReferenceType p "bool".toList = false := by
      have hcallback : isCallbackType "bool".toList = false := by
        simp [isCallbackType, callbackOpen, List.isPrefixOf]
      rw [isManagedReferenceType, hfields.find_none (by simp [builtinTypes]), hcallback]
      simp [referenceTypes]
    have hdynamic : isDynamicValueType "String".toList = false := by
      simp [isDynamicValueType, dynamicType]
    have hdynamic' : isDynamicValueType "bool".toList = false := by
      simp [isDynamicValueType, dynamicType]
    have hoffset : FieldEntry.offset (.node info .nil) ⟨([], .node info .nil), "String".toList, 0⟩
        = some 16 := by
      have hindex : fieldIndex (.node info .nil) 0 = 2 := by
        simp [fieldIndex, virtualBaseNames, virtualBasesFrom, virtualBasesBases, Tree.edges,
          Edges.toList]
      rw [FieldEntry.offset, hdynamic, hindex, subobjectFieldOffsetOf, memberOffsetFrom,
        classType_exception htypes]
      rfl
    rw [hentries, List.foldlM_cons, addReference]
    simp only [hmessage, hdynamic, hoffset, List.foldlM_cons, addReference, hbool, hdynamic']
    rfl

theorem referenceTables_eq (hfields : FieldsChecked p) (hp : owner ∈ p.classes) :
    referenceTables p owner = (fieldEntries owner).foldlM (addReference p owner) ⟨[], []⟩ := by
  rw [referenceTables]
  split
  · next hbuiltin => rw [exceptionTables_eq hfields hp hbuiltin]
  · rfl

theorem referenceTables_spec (hfields : FieldsChecked p) (hp : owner ∈ p.classes) :
    ∃ tables, referenceTables p owner = some tables ∧
      Tabulates owner (ManagedReference p) tables.referenceOffsets ∧
      Tabulates owner DynamicPointer tables.dynamicReferenceOffsets := by
  have hdistinct := p.distinctBases hp
  have hc := p.coherent hp
  have hplace : ∀ entry ∈ fieldEntries owner, ∃ place,
      FieldAt owner entry.subobject entry.localFieldIndex entry.type place := by
    intro entry hentry
    obtain ⟨hsubobject, hfield⟩ := mem_fieldEntries.mp hentry
    exact fieldAt_exists hdistinct hc hsubobject hfield
  have hmanaged : ∀ (entry : FieldEntry) place, FieldAt owner entry.subobject entry.localFieldIndex
      entry.type place →
      isDynamicValueType entry.type = false → entry.offset owner = some place := by
    intro entry place h hdynamic
    rw [FieldEntry.offset, hdynamic]
    exact h.offset_eq hdistinct hc
  -- the pointer of a dynamic value stands 16 bytes into it
  have hdynamic : ∀ (entry : FieldEntry) place, FieldAt owner entry.subobject entry.localFieldIndex
      entry.type place →
      isDynamicValueType entry.type = true → entry.offset owner = some (place + 16) := by
    intro entry place h hdynamic
    rw [FieldEntry.offset, hdynamic]
    exact h.offset_within hdistinct hc (MemoryType.element_singleton.mpr
      (llvmType_dynamic hdynamic))
  have hoffset : ∀ entry ∈ fieldEntries owner,
      isManagedReferenceType p entry.type || isDynamicValueType entry.type →
        entry.offset owner = some ((entry.offset owner).getD 0) := by
    intro entry hentry _
    obtain ⟨place, hat⟩ := hplace entry hentry
    cases hkind : isDynamicValueType entry.type with
    | true => rw [hdynamic entry place hat hkind]; rfl
    | false => rw [hmanaged entry place hat hkind]; rfl
  rw [referenceTables_eq hfields hp, addReferences_eq _ hoffset]
  have hlists := @tabulates_of owner hdistinct hc
  refine ⟨_, rfl, ?_, ?_⟩
  · apply hlists (fun type => isManagedReferenceType p type && !isDynamicValueType type)
    · exact fun type start start' h h' => h.2.2.trans h'.2.2.symm
    · intro type start h
      rw [h.1, h.2.1]
      rfl
    · intro entry hentry hselected
      rw [Bool.and_eq_true, Bool.not_eq_true'] at hselected
      obtain ⟨place, hat⟩ := hplace entry hentry
      refine ⟨place, 0, hat, ⟨hselected.1, hselected.2, rfl⟩, ?_, ?_⟩
      · apply llvmType_size
        rintro heq
        obtain ⟨spot, hwalk⟩ := subobjects_walk hdistinct hat.listed whole
        exact hfields.types _ (p.mem_subtree hp (walk_mem hwalk))
          (heq ▸ List.mem_of_getElem? hat.declared)
      · rw [hmanaged entry place hat hselected.2]
        rfl
  · apply hlists isDynamicValueType
    · intro type start start' h h'
      exact (Prod.mk.inj (Option.some.inj (h.2.symm.trans h'.2))).1
    · exact fun type start h => h.1
    · intro entry hentry hselected
      obtain ⟨place, hat⟩ := hplace entry hentry
      have hpointer := llvmType_dynamic hselected
      have hinside := MemoryType.member_inside hpointer
      have hsize : pointerType.size = 8 := rfl
      refine ⟨place, 16, hat, ⟨hselected, hpointer⟩, by omega, ?_⟩
      rw [hdynamic entry place hat hselected]
      rfl

/-! ## The layout of a class -/

/-- The objects of every class are laid out coherently. -/
theorem layout_coherent (hfields : FieldsChecked p) (hp : owner ∈ p.classes)
    (fieldName : ClassInfo → Nat → Text) : LayoutCoherent p fieldName owner := by
  have hdistinct := p.distinctBases hp
  have hc := p.coherent hp
  constructor
  case stored => exact fun view hview field type hfield => fieldAt_exists hdistinct hc hview hfield
  case offset => exact fun view field type place h => h.offset_eq hdistinct hc
  case address =>
    intro metadata object memory hmemory view field type place h through source address names path
      hview hpath hspot
    exact h.address_eq hdistinct hc hp (objectMemory_linked hdistinct hc hmemory) hview hpath hspot
  case lookup =>
    intro metadata object memory hmemory through source address hview name path u field hfind
    exact hview.lookup hdistinct hc hp (objectMemory_linked hdistinct hc hmemory) hfind
  case apart =>
    exact fun view field type place view' field' type' place' h h' hne =>
      h.apart hdistinct hc h' hne
  case shared => exact fun base hbase => virtualBase_shared hdistinct hc hbase
  case references => exact referenceTables_spec hfields hp

end

/-! ### A shared base with a field -/

def fieldClass (name : String) (fields : List String) : ClassInfo :=
  ⟨name.toList, "main".toList, false, fields.map String.toList, []⟩

/-- The built-in class, without its constructor. -/
def exceptionClass : ClassDeclaration :=
  .node ⟨"Exception".toList, [], true, exceptionFields, []⟩ .nil

/-- `class W { String text }` -/
def textW : ClassDeclaration := .node (fieldClass "W" ["String"]) .nil

/-- `class A : virtual W { list items }` -/
def itemsA : ClassDeclaration :=
  .node (fieldClass "A" ["list"]) (.cons ⟨.publicAccess, true⟩ textW .nil)

/-- `class B : virtual W` -/
def emptyB : ClassDeclaration :=
  .node (fieldClass "B" []) (.cons ⟨.publicAccess, true⟩ textW .nil)

/-- `class D : A, B { int count }` -/
def countedD : ClassDeclaration :=
  .node (fieldClass "D" ["int"])
    (.cons ⟨.publicAccess, false⟩ itemsA (.cons ⟨.publicAccess, false⟩ emptyB .nil))

def fieldClasses : List ClassDeclaration := [exceptionClass, textW, itemsA, emptyB, countedD]

theorem fieldClasses_plain :
    ∀ c ∈ fieldClasses, ∀ method ∈ c.label.methods, method.parameters = [] := by decide +kernel

def fieldProgram : Program where
  classes := fieldClasses
  resolved := by decide +kernel
  distinct := by decide +kernel
  qualified := by decide +kernel
  separate := by decide +kernel
  builtinBases := by decide +kernel
  directBases := by decide +kernel
  methodNames := by decide +kernel
  destructors := by decide +kernel
  plainDestructors := fun c hc method h _ => fieldClasses_plain c hc method h
  methods := by decide +kernel
  types := normalized_of_plain fieldClasses_plain
  overrides := by decide +kernel

theorem fieldProgram_checked : FieldsChecked fieldProgram where
  types := by decide +kernel
  classNames := by decide +kernel
  builtin := by decide +kernel

def namedField (info : ClassInfo) (_ : Nat) : Text :=
  if info.name = ['W'] then "text".toList
  else if info.name = ['A'] then "items".toList
  else "count".toList

/-- `D` has one `W`, which holds the text. -/
theorem countedD_coherent : LayoutCoherent fieldProgram namedField countedD := by
  have hmem : countedD ∈ fieldProgram.classes := by decide +kernel
  exact layout_coherent fieldProgram_checked hmem namedField

end Cwhip.CodeGen
