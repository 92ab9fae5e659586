/-
  Cwhip.CodeGen.RaiseMessage

  What a `raise` statement hands to the runtime
  (`CodeGeneratorStatements.cpp`): the object, its `Exception` view and the
  bytes of a field named `message`.

  The field is found by its name alone, the view by the name of the class.  They
  belong together unless a base with a `message` of its own is searched first.
-/

import Cwhip.CodeGen.BaseAccess
import Cwhip.CodeGen.ReferenceOffsets

namespace Cwhip.CodeGen

open Cwhip.Lib
open Cwhip.Inheritance (BaseInfo PathIndex)

/-! ## The statement -/

@[irreducible] def messageName : Text := "message".toList

@[irreducible] def exceptionName : Text := "Exception".toList

/-- What the emitted code of a `raise` follows from the object. -/
structure RaisePath where
  messagePath : List PathIndex
  exceptionPath : List Text

/-- The arguments of `cwhip_exception_raise_object` that come from the object. -/
structure Raised where
  object : Nat
  exceptionView : Nat
  message : List UInt8

section

-- the names of the fields of a class, by their indices
variable (fieldName : ClassInfo → Nat → Text)

/-- The `Raise` case of `emitStatement`, and its diagnostics. -/
def emitRaise (owner : ClassDeclaration) : Except Text RaisePath :=
  match findField fieldName messageName owner with
  | none => .error "exception class has no inherited message field".toList
  | some (messagePath, _) =>
    match (subobjects owner).find? fun subobject => subobject.2.label.name == exceptionName with
    | none => .error "raised class is not in the Exception hierarchy".toList
    | some base => .ok ⟨messagePath, base.1⟩

/-- The bytes of a message; a null message has none.  `cwhip_string_bytes` stops
    at what is no String. -/
def messageBytes (stringBytes : Nat → Option (List UInt8)) (message : Nat) : Option (List UInt8) :=
  if message = 0 then some [] else stringBytes message

/-- The emitted code, up to the call of the runtime. -/
def RaisePath.run (raise : RaisePath) (p : Program) (stringBytes : Nat → Option (List UInt8))
    (memory : Memory) (object : Nat) (owner : ClassDeclaration) : Option Raised := do
  let messageAddress ← emitFieldAddress p memory object owner raise.messagePath
  let message ← messageBytes stringBytes (memory messageAddress)
  let exceptionView ← emitSubobjectAddress memory object owner raise.exceptionPath
  some ⟨object, exceptionView, message⟩

/-- `makeBuiltinExceptionClass` is the class of its name, and `message` its
    first field. -/
structure ExceptionBuiltin (p : Program) : Prop where
  builtin : ∀ c ∈ p.classes, c.label.name = exceptionName → c.label.builtin = true
  message : ∀ c ∈ p.classes, c.label.builtin = true → fieldName c.label 0 = messageName

def DeclaresField (name : Text) (c : ClassDeclaration) : Prop :=
  ∃ u ∈ c.subtrees, ∃ field < u.label.fields.length, fieldName u.label field = name

/-- On the way to `Exception`, no base before the one taken declares a
    `message`. -/
inductive ExceptionFirst : ClassDeclaration → Prop where
  | here {c : ClassDeclaration} (h : c.label.name = exceptionName) : ExceptionFirst c
  | through {c : ClassDeclaration} {before after : List (BaseInfo × ClassDeclaration)}
      {base : BaseInfo × ClassDeclaration} (hedges : c.edges = before ++ base :: after)
      (hbefore : ∀ other ∈ before, ¬ DeclaresField fieldName messageName other.2)
      (h : ExceptionFirst base.2) : ExceptionFirst c

/-- Raising an object of the class hands over an `Exception` view and the bytes
    of the message of that view. -/
def RaisesOwnMessage (p : Program) (owner : ClassDeclaration) : Prop :=
  ∃ raise view type place, emitRaise fieldName owner = .ok raise ∧
    view.2.label.name = exceptionName ∧ FieldAt owner view 0 type place ∧
    ∀ metadata object memory, ObjectMemory metadata owner object memory → ∀ stringBytes,
      ∃ viewAddress, emitSubobjectAddress memory object owner view.1 = some viewAddress ∧
        raise.run p stringBytes memory object owner
          = (messageBytes stringBytes (memory (object + place))).map fun message =>
              ⟨object, viewAddress, message⟩

end

/-! ## The field that is found -/

section

variable {fieldName : ClassInfo → Nat → Text} {name : Text}

/-- What the search of a class finds through one of its bases. -/
def foundThrough (fieldName : ClassInfo → Nat → Text) (name : Text) (c : ClassDeclaration)
    (base : (BaseInfo × ClassDeclaration) × Nat) :
    Option (List PathIndex × ClassDeclaration × Nat) :=
  (findField fieldName name base.1.2).map fun found =>
    (basePathIndex c base.2 base.1 :: found.1, found.2)

theorem findFieldBases_eq (c : ClassDeclaration) (bases : Edges ClassInfo BaseInfo) (start : Nat) :
    findFieldBases fieldName name c bases start
      = (bases.toList.zipIdx start).findSome? (foundThrough fieldName name c) := by
  induction h : bases.toList generalizing bases start with
  | nil =>
    cases bases with
    | nil => rw [findFieldBases]; rfl
    | cons edge base rest => cases h
  | cons first others ih =>
    cases bases with
    | nil => cases h
    | cons edge base rest =>
      rw [Edges.toList, List.cons.injEq] at h
      obtain ⟨rfl, hrest⟩ := h
      rw [findFieldBases, ih rest (start + 1) hrest, List.zipIdx_cons, List.findSome?_cons,
        foundThrough]
      cases findField fieldName name base <;> rfl

theorem findField_eq (c : ClassDeclaration) :
    findField fieldName name c
      = (c.edges.zipIdx.findSome? (foundThrough fieldName name c)).or
          ((declaredField fieldName c.label name).map fun index => ([.field index], c, index)) := by
  cases c with
  | node info bases =>
    rw [findField, findFieldBases_eq]
    show _ = ((bases.toList.zipIdx 0).findSome?
      (foundThrough fieldName name (.node info bases))).or _
    generalize (bases.toList.zipIdx 0).findSome?
      (foundThrough fieldName name (.node info bases)) = found
    cases found <;> rfl

theorem declaredField_none {info : ClassInfo} :
    declaredField fieldName info name = none ↔ ∀ field < info.fields.length, fieldName info field ≠
    name := by
  unfold declaredField
  rw [List.find?_eq_none]
  simp only [List.mem_range, beq_iff_eq, ne_eq]

variable {c : ClassDeclaration}

theorem declaresField_step :
    DeclaresField fieldName name c ↔
      (∃ field < c.label.fields.length, fieldName c.label field = name) ∨
        ∃ base ∈ c.edges, DeclaresField fieldName name base.2 := by
  constructor
  · rintro ⟨u, hu, hfield⟩
    rcases Tree.mem_subtrees.mp hu with rfl | ⟨base, hbase, hbelow⟩
    · exact .inl hfield
    · exact .inr ⟨base, hbase, u, hbelow, hfield⟩
  · rintro (hfield | ⟨base, hbase, u, hu, hfield⟩)
    · exact ⟨c, Tree.mem_subtrees_self c, hfield⟩
    · exact ⟨u, Tree.mem_subtrees.mpr (.inr ⟨base, hbase, hu⟩), hfield⟩

theorem findField_none (c : ClassDeclaration) :
    findField fieldName name c = none ↔ ¬ DeclaresField fieldName name c := by
  have hbases : ∀ base ∈ c.edges, findField fieldName name base.2 = none ↔
      ¬ DeclaresField fieldName name base.2 := by
    intro base hbase
    have hbelow : base.2.Below c := ⟨base, hbase, Tree.mem_subtrees_self _⟩
    exact findField_none base.2
  rw [findField_eq, Option.or_eq_none_iff, List.findSome?_eq_none_iff, Option.map_eq_none_iff,
    declaredField_none, declaresField_step, not_or]
  have hthrough : (∀ base ∈ c.edges.zipIdx, foundThrough fieldName name c base = none) ↔
      ¬ ∃ base ∈ c.edges, DeclaresField fieldName name base.2 := by
    simp only [foundThrough, Option.map_eq_none_iff, not_exists, not_and]
    constructor
    · intro hall base hbase
      obtain ⟨index, hindex⟩ := List.mem_iff_getElem?.mp hbase
      exact (hbases base hbase).mp (hall (base, index) (List.mem_zipIdx_iff_getElem?.mpr hindex))
    · intro hall base hbase
      have hmem := List.mem_of_getElem? (List.mem_zipIdx_iff_getElem?.mp hbase)
      exact (hbases base.1 hmem).mpr (hall base.1 hmem)
  rw [hthrough, and_comm]
  refine and_congr_left fun _ => ?_
  simp only [ne_eq, not_exists, not_and]
termination_by Tree.below_wellFounded.wrap c
decreasing_by exact hbelow

theorem findSome_foundThrough {found : List PathIndex × ClassDeclaration × Nat} :
    c.edges.zipIdx.findSome? (foundThrough fieldName name c) = some found ↔
      ∃ before base after path, c.edges = before ++ base :: after ∧
        (∀ other ∈ before, ¬ DeclaresField fieldName name other.2) ∧
        findField fieldName name base.2 = some (path, found.2) ∧
        found.1 = basePathIndex c before.length base :: path := by
  rw [List.findSome?_eq_some_iff]
  constructor
  · rintro ⟨front, ⟨base, index⟩, back, hsplit, hfound, hnone⟩
    obtain ⟨before, rest, hedges, rfl, hrest⟩ := List.zipIdx_eq_append_iff.mp hsplit
    obtain ⟨base', after, rfl, hhead, -⟩ := List.zipIdx_eq_cons_iff.mp hrest.symm
    obtain ⟨rfl, rfl⟩ := Prod.mk.inj hhead
    rw [Nat.zero_add] at hfound
    obtain ⟨⟨path, last⟩, hinner, rfl⟩ := Option.map_eq_some_iff.mp hfound
    refine ⟨before, base, after, path, hedges, fun other hother => ?_, hinner, rfl⟩
    obtain ⟨place, hplace⟩ := List.mem_iff_getElem?.mp hother
    have hother' := hnone (other, place) (List.mem_zipIdx_iff_getElem?.mpr hplace)
    exact (findField_none other.2).mp (Option.map_eq_none_iff.mp hother')
  · rintro ⟨before, base, after, path, hedges, hbefore, hfound, hpath⟩
    refine ⟨before.zipIdx, (base, before.length), after.zipIdx (before.length + 1), ?_, ?_, ?_⟩
    · rw [hedges, List.zipIdx_append, List.zipIdx_cons, Nat.zero_add]
    · rw [foundThrough, hfound, Option.map_some, ← hpath]
    · intro other hother
      have hmem := hbefore other.1 (List.fst_mem_of_mem_zipIdx hother)
      exact Option.map_eq_none_iff.mpr ((findField_none other.1.2).mpr hmem)

end

/-! ## The view that is found -/

/-- An enumeration lists this path first among those to classes of a name. -/
def FirstListed (target : Text) (c : ClassDeclaration) (names : List Text) (u : ClassDeclaration) :
    Prop :=
  ∀ path seen, (∀ base ∈ c.edges, Fruitless target seen base.2) →
    (subobjectsFrom c path seen).1.find? (fun subobject => subobject.2.label.name == target)
      = some (path ++ names, u)

section

variable {p : Program} {target : Text}

variable {c u : ClassDeclaration} {base : BaseInfo × ClassDeclaration} {names : List Text}

theorem find_subobjects_none (hc : c ∈ p.classes) (path seen : List Text)
    (hnone : leadsTo target c = false) :
    (subobjectsFrom c path seen).1.find? (fun subobject => subobject.2.label.name == target) =
    none := by
  rw [List.find?_eq_none]
  intro entry hentry hname
  obtain ⟨names, -, hwalk⟩ := subobjectsFrom_walk (p.distinctBases hc) hentry
  obtain ⟨spot, hspot⟩ := hwalk whole
  rw [leadsTo_iff.mpr ⟨entry.2, walk_mem hspot, beq_iff_eq.mp hname⟩] at hnone
  cases hnone

theorem subobjects_seen (hc : c ∈ p.classes) (path seen : List Text) :
    ∀ name ∈ (subobjectsFrom c path seen).2, name ∈ seen ∨ ∃ u ∈ c.subtrees,
    u.label.name = name := by
  intro name hname
  refine ((subobjectsFrom_enumerated c path seen).entered name hname).imp_right ?_
  rintro ⟨entry, hentry, hlabel⟩
  obtain ⟨names, -, hwalk⟩ := subobjectsFrom_walk (p.distinctBases hc) hentry
  obtain ⟨spot, hspot⟩ := hwalk whole
  exact ⟨entry.2, walk_mem hspot, hlabel⟩

/-- Among the bases of a class, the first one that leads to the name is the one
    that counts. -/
theorem firstListed_bases (hbase : base.2 ∈ p.classes) (hleads : leadsTo target base.2 = true)
    (hfirst : FirstListed target base.2 names u) (before : List (BaseInfo × ClassDeclaration))
    (after : List (BaseInfo × ClassDeclaration)) (hclasses : ∀ other ∈ before, other.2 ∈ p.classes)
    (hnone : ∀ other ∈ before, leadsTo target other.2 = false) (path : List Text) :
    ∀ (bases : Edges ClassInfo BaseInfo) (seen : List Text), bases.toList = before ++
      base :: after →
      (∀ other ∈ before ++ [base], Fruitless target seen other.2) →
      (subobjectsBases bases path seen).1.find? (fun subobject => subobject.2.label.name == target)
        = some (path ++ base.2.label.name :: names, u) := by
  induction before with
  | nil =>
    intro bases seen hbases hfruitless
    cases bases with
    | nil => cases hbases
    | cons edge first rest =>
      rw [Edges.toList, List.nil_append, List.cons.injEq] at hbases
      obtain ⟨rfl, -⟩ := hbases
      -- a class seen before would have led to the name, so the base is entered
      have hstart := hfruitless (edge, first) List.mem_cons_self
      have hunseen : ¬ (edge.isVirtual = true ∧ first.label.name ∈ seen) := by
        rintro ⟨-, hseen⟩
        have hbad := hstart _ hseen first (Tree.mem_subtrees_self first) rfl
        rw [hleads] at hbad
        cases hbad
      have hentered : ∀ inner ∈ first.edges,
          Fruitless target (if edge.isVirtual then first.label.name :: seen else seen) inner.2 := by
        intro inner hinner name hname
        refine hstart.enter hbase inner hinner name ?_
        split at hname
        · exact hname
        · exact List.mem_cons_of_mem _ hname
      have hfound := hfirst (path ++ [first.label.name]) _ hentered
      rw [List.append_assoc, List.singleton_append] at hfound
      rw [subobjectsBases, if_neg hunseen, List.find?_append, hfound]
      rfl
  | cons other before ih =>
    intro bases seen hbases hfruitless
    cases bases with
    | nil => cases hbases
    | cons edge skipped rest =>
      rw [Edges.toList, List.cons_append, List.cons.injEq] at hbases
      obtain ⟨rfl, hrest⟩ := hbases
      have hlater := ih (fun b hb => hclasses b (List.mem_cons_of_mem _ hb))
        (fun b hb => hnone b (List.mem_cons_of_mem _ hb)) rest
      have hclass := hclasses (edge, skipped) List.mem_cons_self
      have hskipped := hnone (edge, skipped) List.mem_cons_self
      rw [subobjectsBases]
      -- an earlier base is skipped, or lists nothing of the name and sees no class that leads there
      split
      · exact hlater seen hrest fun b hb => hfruitless b (List.mem_cons_of_mem _ hb)
      · dsimp only
        rw [List.find?_append, find_subobjects_none hclass _ _ hskipped, Option.none_or]
        apply hlater _ hrest
        intro b hb
        have hb' : b.2 ∈ p.classes := by
          rcases List.mem_append.mp hb with hearlier | hlast
          · exact hclasses b (List.mem_cons_of_mem _ hearlier)
          · exact List.mem_singleton.mp hlast ▸ hbase
        apply (hfruitless b (List.mem_cons_of_mem _ hb)).beside hclass hb' hskipped
        intro name hname
        rcases subobjects_seen hclass _ _ name hname with hold | hbelow
        · split at hold
          · rcases List.mem_cons.mp hold with rfl | hold
            · exact .inr ⟨skipped, Tree.mem_subtrees_self skipped, rfl⟩
            · exact .inl hold
          · exact .inl hold
        · exact .inr hbelow

theorem FirstListed.self (h : c.label.name = target) : FirstListed target c [] c := by
  intro path seen _
  cases c with
  | node info bases =>
    have his : (info.name == target) = true := beq_iff_eq.mpr h
    simp only [subobjectsFrom, List.find?_cons, Tree.label, his, List.append_nil]

theorem FirstListed.through (hc : c ∈ p.classes) (hne : c.label.name ≠ target)
    {before after : List (BaseInfo × ClassDeclaration)} (hedges : c.edges = before ++ base :: after)
    (hnone : ∀ other ∈ before, leadsTo target other.2 = false)
    (hleads : leadsTo target base.2 = true) (hfirst : FirstListed target base.2 names u) :
    FirstListed target c (base.2.label.name :: names) u := by
  intro path seen hseen
  have hmem : ∀ other ∈ before ++ [base], other ∈ c.edges := by
    intro other hother
    rw [hedges, List.append_cons]
    exact List.mem_append_left _ hother
  have hclass : ∀ other ∈ before ++ [base], other.2 ∈ p.classes := fun other hother =>
    p.mem_base hc (hmem other hother)
  cases c with
  | node info bases =>
    rw [subobjectsFrom, List.find?_cons_of_neg (by simpa using hne)]
    exact firstListed_bases (hclass base (by simp)) hleads hfirst before after
      (fun other hother => hclass other (List.mem_append_left _ hother)) hnone path
        bases seen hedges
      fun other hother => hseen other (hmem other hother)

end

/-! ## Raising -/

section

variable {p : Program} {fieldName : ClassInfo → Nat → Text} {owner : ClassDeclaration}

theorem declaredField_exception (hfields : FieldsChecked p)
    (hexception : ExceptionBuiltin fieldName p)
    (hp : owner ∈ p.classes) (hname : owner.label.name = exceptionName) :
    owner.label.fields = exceptionFields ∧ declaredField fieldName owner.label messageName =
    some 0 := by
  have hbuiltin := hexception.builtin owner hp hname
  have hlist := hfields.builtin owner hp hbuiltin
  refine ⟨hlist, ?_⟩
  have hrange : List.range owner.label.fields.length = 0 :: [1] := by rw [hlist]; rfl
  have hfirst : (fieldName owner.label 0 == messageName) = true :=
    beq_iff_eq.mpr (hexception.message owner hp hbuiltin)
  simp only [declaredField, hrange, List.find?_cons, hfirst]

theorem declares_of_leadsTo (hfields : FieldsChecked p) (hexception : ExceptionBuiltin fieldName p)
    (hp : owner ∈ p.classes) (h : leadsTo exceptionName owner = true) :
    DeclaresField fieldName messageName owner := by
  obtain ⟨u, hu, hname⟩ := leadsTo_iff.mp h
  have hdeclared := (declaredField_exception hfields hexception (p.mem_subtree hp hu) hname).2
  exact ⟨u, hu, 0, declaredField_spec hdeclared⟩

theorem ExceptionFirst.found (hfields : FieldsChecked p) (hexception : ExceptionBuiltin fieldName p)
    (h : ExceptionFirst fieldName owner) (hp : owner ∈ p.classes) :
    ∃ path names e, findField fieldName messageName owner = some (path, e, 0) ∧
      e.label.name = exceptionName ∧ e ∈ owner.subtrees ∧ FieldPath e 0 owner names path ∧
      FirstListed exceptionName owner names e := by
  induction h with
  | @here c hname =>
    have hdeclared := (declaredField_exception hfields hexception hp hname).2
    have hedges := p.builtinBases c hp (hexception.builtin c hp hname)
    refine ⟨[.field 0], [], c, ?_, hname, Tree.mem_subtrees_self c, .field, .self hname⟩
    rw [findField_eq, hedges, hdeclared]
    rfl
  | @through c before after base hedges hbefore _ ih =>
    have hmem : base ∈ c.edges := by
      rw [hedges]
      exact List.mem_append_right _ List.mem_cons_self
    obtain ⟨path, names, e, hfound, hname, he, hpath, hlisted⟩ := ih (p.mem_base hp hmem)
    have hleads : leadsTo exceptionName base.2 = true := leadsTo_iff.mpr ⟨e, he, hname⟩
    have hnone : ∀ other ∈ before, leadsTo exceptionName other.2 = false := by
      intro other hother
      rw [← Bool.not_eq_true]
      intro hother'
      have hedge : other ∈ c.edges := by
        rw [hedges]
        exact List.mem_append_left _ hother
      exact hbefore other hother
        (declares_of_leadsTo hfields hexception (p.mem_base hp hedge) hother')
    have hne : c.label.name ≠ exceptionName := by
      intro heq
      rw [p.builtinBases c hp (hexception.builtin c hp heq)] at hmem
      cases hmem
    have hat : c.edges[before.length]? = some base := by
      rw [hedges, List.getElem?_append_right (Nat.le_refl _), Nat.sub_self]
      rfl
    refine ⟨basePathIndex c before.length base :: path, base.2.label.name :: names, e, ?_, hname,
      Tree.mem_subtrees.mpr (.inr ⟨base, hmem, he⟩), .base hat hpath,
      .through hp hne hedges hnone hleads hlisted⟩
    have hthrough : c.edges.zipIdx.findSome? (foundThrough fieldName messageName c)
        = some (basePathIndex c before.length base :: path, e, 0) :=
      findSome_foundThrough.mpr ⟨before, base, after, path, hedges, hbefore, hfound, rfl⟩
    rw [findField_eq, hthrough, Option.some_or]

theorem exceptionFirst_of_found (c : ClassDeclaration) {path : List PathIndex}
    {e : ClassDeclaration}
    {field : Nat} (h : findField fieldName messageName c = some (path, e, field))
    (hname : e.label.name = exceptionName) : ExceptionFirst fieldName c := by
  rw [findField_eq, Option.or_eq_some_iff] at h
  rcases h with hthrough | ⟨-, hown⟩
  · obtain ⟨before, base, after, path', hedges, hbefore, hfound, -⟩ :=
      findSome_foundThrough.mp hthrough
    have hmem : base ∈ c.edges := by
      rw [hedges]
      exact List.mem_append_right _ List.mem_cons_self
    have hbelow : base.2.Below c := ⟨base, hmem, Tree.mem_subtrees_self _⟩
    exact .through hedges hbefore (exceptionFirst_of_found base.2 hfound hname)
  · obtain ⟨index, -, hsame⟩ := Option.map_eq_some_iff.mp hown
    cases hsame
    exact .here hname
termination_by Tree.below_wellFounded.wrap c
decreasing_by exact hbelow

variable {path : List PathIndex} {field place : Nat} {view : List Text × ClassDeclaration}
  {type : Text}

theorem findField_address (hfields : FieldsChecked p) (hp : owner ∈ p.classes) {name : Text}
    {u : ClassDeclaration} (hfound : findField fieldName name owner = some (path, u, field)) :
    ∃ view type place, view.2 = u ∧ FieldAt owner view field type place ∧
      ∀ metadata object memory, ObjectMemory metadata owner object memory →
        emitFieldAddress p memory object owner path = some (object + place) := by
  have hlayout := layout_coherent hfields hp fieldName
  obtain ⟨⟨hlt, -⟩, names, hpath⟩ := findField_path hfound
  obtain ⟨spot, hwalk⟩ := hpath.walk_eq hp whole
  obtain ⟨names', hlisted, hwalk'⟩ := walk_listed (p.distinctBases hp) (p.coherent hp) hwalk
  obtain ⟨place, hplace⟩ := hlayout.stored _ hlisted field _ (List.getElem?_eq_getElem hlt)
  refine ⟨(names', u), _, place, rfl, hplace, fun metadata object memory hmemory => ?_⟩
  apply hlayout.address metadata object memory hmemory _ _ _ _ hplace [] owner object names path
    ⟨⟨whole, rfl⟩, rfl⟩ hpath
  rw [spotOf, spotOf, List.nil_append, hwalk, hwalk']

theorem FieldAt.size_pos (hfields : FieldsChecked p) (hp : owner ∈ p.classes)
    (h : FieldAt owner view field type place) : 0 < (llvmType type).size := by
  apply llvmType_size
  rintro rfl
  obtain ⟨indices, hview⟩ := view_exists (p.distinctBases hp) (p.coherent hp) h.listed
  have hclass := p.mem_subtree hp (hview.mem_subtrees (p.distinctBases hp))
  exact hfields.types view.2 hclass (List.mem_of_getElem? h.declared)

theorem ObjectMemory.store (hfields : FieldsChecked p) (hp : owner ∈ p.classes)
    {metadata : List Text → Nat} {object : Nat} {memory : Memory}
    (h : ObjectMemory metadata owner object memory) (hat : FieldAt owner view field type place)
    (value : Nat) :
    ObjectMemory metadata owner object (Function.update memory (object + place) value) := by
  have hdistinct := p.distinctBases hp
  have hc := p.coherent hp
  obtain ⟨indices, hview⟩ := view_exists hdistinct hc hat.listed
  obtain ⟨start, hstart, haddress⟩ :=
    view_address hdistinct hc hview (linkedOnWay_of_all hdistinct hc hat.listed
      (objectMemory_linked hdistinct hc h))
  obtain ⟨inner, hinner⟩ := field_member hat.declared
  obtain ⟨hmember, hwhole⟩ := view_member object hstart hinner
  -- the struct type has the field at its place
  obtain ⟨indices', hindices', hplace⟩ := hat.element
  obtain rfl := Option.some.inj (hindices'.symm.trans hview.leads)
  obtain ⟨rfl, -⟩ := Prod.mk.inj (Option.some.inj (hplace.symm.trans hwhole))
  have hsize := hat.size_pos hfields hp
  exact .field h hat.listed hat.declared haddress hmember (Nat.le_refl _) (by omega) value

theorem emitRaise_ok {raise : RaisePath} (h : emitRaise fieldName owner = .ok raise) :
    (∃ found, findField fieldName messageName owner = some (raise.messagePath, found)) ∧
      ∃ view, view ∈ subobjects owner ∧ view.2.label.name = exceptionName ∧
      view.1 = raise.exceptionPath := by
  unfold emitRaise at h
  split at h
  · cases h
  · rename_i messagePath found hfound
    split at h
    · cases h
    · rename_i base hbase
      cases h
      exact ⟨⟨found, hfound⟩, base, List.mem_of_find?_eq_some hbase,
        by simpa using List.find?_some hbase, rfl⟩

theorem ExceptionFirst.raisesOwnMessage (hfields : FieldsChecked p)
    (hexception : ExceptionBuiltin fieldName p) (hp : owner ∈ p.classes)
    (h : ExceptionFirst fieldName owner) : RaisesOwnMessage fieldName p owner := by
  have hdistinct := p.distinctBases hp
  have hc := p.coherent hp
  have hlayout := layout_coherent hfields hp fieldName
  obtain ⟨path, names, e, hfound, hname, he, hpath, hlisted⟩ := h.found hfields hexception hp
  have hfind : (subobjects owner).find? (fun subobject => subobject.2.label.name == exceptionName)
      = some (names, e) := hlisted [] [] fun base hbase => nofun
  have hview : (names, e) ∈ subobjects owner := List.mem_of_find?_eq_some hfind
  obtain ⟨hlist, hdeclared⟩ :=
    declaredField_exception hfields hexception (p.mem_subtree hp he) hname
  obtain ⟨place, hplace⟩ := hlayout.stored (names, e) hview 0 _
    (List.getElem?_eq_getElem (declaredField_spec hdeclared).1)
  refine ⟨⟨path, names⟩, (names, e), _, place, ?_, hname, hplace, ?_⟩
  · rw [emitRaise, hfound]
    dsimp only
    rw [hfind]
  · intro metadata object memory hmemory stringBytes
    obtain ⟨indices, hindices⟩ := view_exists hdistinct hc hview
    obtain ⟨start, -, haddress⟩ := view_address hdistinct hc hindices
      (linkedOnWay_of_all hdistinct hc hview (objectMemory_linked hdistinct hc hmemory))
    refine ⟨object + start, haddress, ?_⟩
    have hmessage := hlayout.address metadata object memory hmemory _ _ _ _ hplace [] owner
      object names path ⟨⟨whole, rfl⟩, rfl⟩ hpath rfl
    simp only [RaisePath.run, hmessage, haddress, Option.bind_eq_bind, Option.bind_some]
    cases messageBytes stringBytes (memory (object + place)) <;> rfl

theorem RaisesOwnMessage.exceptionFirst (hfields : FieldsChecked p) (hp : owner ∈ p.classes)
    (h : RaisesOwnMessage fieldName p owner) : ExceptionFirst fieldName owner := by
  obtain ⟨raise, view, type, place, hraise, hname, hplace, hruns⟩ := h
  obtain ⟨⟨⟨u, field⟩, hfound⟩, -⟩ := emitRaise_ok hraise
  obtain ⟨view', type', place', rfl, hplace', haddress⟩ := findField_address hfields hp hfound
  apply exceptionFirst_of_found owner hfound
  by_contra hother
  have hapart : place ≠ place' := by
    rintro rfl
    have hsame := hplace.unique (p.distinctBases hp) (p.coherent hp) hplace'
      (hplace.size_pos hfields hp) (hplace'.size_pos hfields hp)
    obtain ⟨rfl, -⟩ := Prod.mk.inj hsame
    exact hother hname
  -- a memory with 1 in the message of the view, and 2 in the field that is found
  obtain ⟨memory, hconstructed, -⟩ := constructObject_spec (p.distinctBases hp) (p.coherent hp)
    (fun _ => 0) 0 fun _ => 0
  have hmemory : ObjectMemory (fun _ => 0) owner 0 memory := .constructed hconstructed
  have hstored := (hmemory.store hfields hp hplace 1).store hfields hp hplace' 2
  obtain ⟨viewAddress, -, hrun⟩ := hruns _ _ _ hstored fun message => some [UInt8.ofNat message]
  have hone : Function.update (Function.update memory (0 + place) 1)
      (0 + place') 2 (0 + place) = 1 := by
    rw [Function.update_of_ne (by omega), Function.update_self]
  rw [hone] at hrun
  simp only [RaisePath.run, haddress _ _ _ hstored, Option.bind_eq_bind, Option.bind_some,
    Function.update_self] at hrun
  obtain ⟨message, htwo, hrest⟩ := Option.bind_eq_some_iff.mp hrun
  obtain ⟨exceptionView, -, hraised⟩ := Option.bind_eq_some_iff.mp hrest
  obtain rfl := Option.some.inj htwo
  have hbytes := (Raised.mk.inj (Option.some.inj hraised)).2.2
  cases hbytes

/-- A raised object's own message is handed over exactly if no base that is
    searched before `Exception` declares a field of the name. -/
theorem raises_own_message_iff (hfields : FieldsChecked p)
    (hexception : ExceptionBuiltin fieldName p)
    (hp : owner ∈ p.classes) : RaisesOwnMessage fieldName p owner ↔
    ExceptionFirst fieldName owner :=
  ⟨fun h => h.exceptionFirst hfields hp, fun h => h.raisesOwnMessage hfields hexception hp⟩

end

/-! ### A base with a message -/

/-- `class Note { int message }` -/
def noteClass : ClassDeclaration := .node (fieldClass "Note" ["int"]) .nil

/-- `class Failure : Exception, Note` -/
def failureClass : ClassDeclaration :=
  .node (fieldClass "Failure" [])
    (.cons ⟨.publicAccess, false⟩ exceptionClass (.cons ⟨.publicAccess, false⟩ noteClass .nil))

/-- `class Notice : Note, Exception` -/
def noticeClass : ClassDeclaration :=
  .node (fieldClass "Notice" [])
    (.cons ⟨.publicAccess, false⟩ noteClass (.cons ⟨.publicAccess, false⟩ exceptionClass .nil))

def noteClasses : List ClassDeclaration := [exceptionClass, noteClass, failureClass, noticeClass]

theorem noteClasses_plain :
    ∀ c ∈ noteClasses, ∀ method ∈ c.label.methods, method.parameters = [] := by decide +kernel

def noteProgram : Program where
  classes := noteClasses
  resolved := by decide +kernel
  distinct := by decide +kernel
  qualified := by decide +kernel
  separate := by decide +kernel
  builtinBases := by decide +kernel
  directBases := by decide +kernel
  methodNames := by decide +kernel
  destructors := by decide +kernel
  plainDestructors := fun c hc method h _ => noteClasses_plain c hc method h
  methods := by decide +kernel
  types := normalized_of_plain noteClasses_plain
  overrides := by decide +kernel

theorem noteProgram_checked : FieldsChecked noteProgram where
  types := by decide +kernel
  classNames := by decide +kernel
  builtin := by decide +kernel

/-- Both `Exception` and `Note` have a message, and nothing else at its index. -/
def noteField (_ : ClassInfo) (field : Nat) : Text :=
  if field = 0 then messageName else "runtime_owns_message".toList

theorem noteProgram_exception : ExceptionBuiltin noteField noteProgram where
  builtin := by
    unfold exceptionName
    decide +kernel
  message := fun _ _ _ => rfl

theorem failure_raises :
    RaisesOwnMessage noteField noteProgram failureClass ↔ ExceptionFirst noteField failureClass :=
  raises_own_message_iff noteProgram_checked noteProgram_exception (by decide +kernel)

/-- A `Notice` is raised with the number of its `Note`. -/
theorem notice_message : ¬ ∀ (p : Program) (fieldName : ClassInfo → Nat → Text)
    (owner : ClassDeclaration),
    FieldsChecked p → ExceptionBuiltin fieldName p → owner ∈ p.classes →
    p.isSubclassOf owner.label.name exceptionName = true → RaisesOwnMessage fieldName p owner := by
  intro h
  have hraises := h noteProgram noteField noticeClass noteProgram_checked noteProgram_exception
    (by decide +kernel) (by unfold exceptionName; decide +kernel)
  have hfirst := hraises.exceptionFirst noteProgram_checked (by decide +kernel)
  have hnote : DeclaresField noteField messageName noteClass :=
    ⟨noteClass, Tree.mem_subtrees_self _, 0, by decide, rfl⟩
  cases hfirst with
  | here hname =>
    unfold exceptionName at hname
    cases hname
  | @through _ before _ base hedges hbefore hbase =>
    cases before with
    | cons first rest =>
      obtain ⟨rfl, -⟩ := List.cons.inj hedges
      exact hbefore _ List.mem_cons_self hnote
    | nil =>
      obtain ⟨rfl, -⟩ := List.cons.inj hedges
      cases hbase with
      | here hname =>
        unfold exceptionName at hname
        cases hname
      | @through _ before _ base hedges _ _ =>
        cases before with
        | nil | cons first rest => cases hedges

end Cwhip.CodeGen
