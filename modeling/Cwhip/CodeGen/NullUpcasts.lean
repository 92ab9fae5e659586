/-
  Cwhip.CodeGen.NullUpcasts

  What a conversion to a base does with a null reference
  (`CodeGeneratorLayout.cpp`), in each place where the generator converts
  (`CodeGenerator.cpp`, `CodeGeneratorStatements.cpp`).

  The address of the base is computed first, and the test for null chooses
  afterwards between the address and null.  On the way to a virtual base the
  address is loaded from the object, so that the loads are already done.
-/

import Mathlib.Logic.Relation
import Cwhip.CodeGen.SubobjectSpots
import Cwhip.CodeGen.UpcastsAgree

namespace Cwhip.CodeGen

open Cwhip.Lib
open Cwhip.Inheritance (BaseInfo)
open Option (bind_eq_bind bind_some)

/-- What `subobjectAddressSequence` emits, with the offsets of the members; each
    instruction takes the address that the one before it has left. -/
inductive Instruction where
  | getelementptr (offset : Nat)
  | load
  deriving DecidableEq

/-- `CodeGenerator::subobjectAddressSequence` -/
def subobjectAddressSequence : ClassDeclaration → List Text → Option (List Instruction)
  | _, [] => some []
  | current, name :: rest => do
    let (index, base) ← baseAt current name
    if base.1.isVirtual then
      let slot ← virtualBasePointerIndex current name
      let member ← (classType current).member slot
      let code ← subobjectAddressSequence base.2 rest
      some (.getelementptr member.1 :: .load :: code)
    else
      let member ← (classType current).member (index + 2)
      let code ← subobjectAddressSequence base.2 rest
      some (.getelementptr member.1 :: code)

/-- A run: the last address, and the addresses that were loaded from. -/
def execute (memory : Memory) : Nat → List Instruction → Nat × List Nat
  | address, [] => (address, [])
  | address, .getelementptr offset :: rest => execute memory (address + offset) rest
  | address, .load :: rest =>
    let after := execute memory (memory address) rest
    (after.1, address :: after.2)

/-- A value of a class type, by its static type; `null` is the literal. -/
inductive ObjectReference where
  | null
  | object (type : ClassDeclaration) (pointer : Nat)

/-- What a conversion computes, and where it loads. -/
structure Converted where
  pointer : Nat
  loads : List Nat
  deriving DecidableEq

/-- `CodeGenerator::convertObjectValue`, of references, with what it loads. -/
def convertReference (memory : Memory) (target : ClassDeclaration) : ObjectReference →
    Option Converted
  | .null => some ⟨0, []⟩
  | .object source pointer =>
    if source.label.name = target.label.name then some ⟨pointer, []⟩
    else do
      let path ← findPath target.label.name source
      let code ← subobjectAddressSequence source path
      let address := execute memory pointer code
      some ⟨if pointer = 0 then 0 else address.1, address.2⟩

/-- `derivesFrom` of a comparison: its worklist visits the bases at every depth. -/
def derivesFrom (derived : ClassDeclaration) (baseName : Text) : Bool :=
  derived.edges.any fun base => base.2.subtrees.any fun u => u.label.name == baseName

/-- The type that both sides of an identity comparison are converted to. -/
def comparisonType (left right : ClassDeclaration) : Option ClassDeclaration :=
  if left.label.name = right.label.name then some left
  else if derivesFrom left right.label.name then some right
  else if derivesFrom right left.label.name then some left
  else none

/-- Where a value is converted to the type of another place: the variable
    declared, the variable or field assigned, the parameter, the result, or the
    other side of the comparison. -/
inductive Position where
  | initializer
  | assignment
  | argument
  | result
  | comparedLeft
  | comparedRight
  deriving DecidableEq

def Position.expectedType (type place : ClassDeclaration) : Position → Option ClassDeclaration
  | .initializer | .assignment | .argument | .result => some place
  | .comparedLeft => comparisonType type place
  | .comparedRight => comparisonType place type

def emitConversion (memory : Memory) (position : Position) (type place : ClassDeclaration)
    (value : ObjectReference) : Option Converted :=
  (position.expectedType type place).bind fun target => convertReference memory target value

/-- A base that is not virtual. -/
def NonVirtualBase (derived base : ClassDeclaration) : Prop :=
  ∃ info, (info, base) ∈ derived.edges ∧ info.isVirtual = false

/-! ## The emitted sequence -/

variable {path : List Text} {current u : ClassDeclaration} {spot spot' : Spot}

theorem sequence_of_address {memory : Memory} {pointer : Nat} {owner : ClassDeclaration}
    (h : (emitSubobjectAddress memory pointer owner path).isSome) :
    (subobjectAddressSequence owner path).isSome := by
  induction path generalizing pointer owner with
  | nil => rfl
  | cons name rest ih =>
    obtain ⟨address, haddress⟩ := Option.isSome_iff_exists.mp h
    rw [emitSubobjectAddress] at haddress
    obtain ⟨⟨index, base⟩, hat, haddress⟩ := Option.bind_eq_some_iff.mp haddress
    rw [subobjectAddressSequence, hat]
    dsimp only [bind_eq_bind, bind_some] at haddress ⊢
    split at haddress
    · next hvirtual =>
      obtain ⟨slot, hslot, haddress⟩ := Option.bind_eq_some_iff.mp haddress
      obtain ⟨place, hplace, haddress⟩ := Option.bind_eq_some_iff.mp haddress
      obtain ⟨member, hmember, -⟩ := Option.map_eq_some_iff.mp hplace
      obtain ⟨below, hbelow⟩ := Option.isSome_iff_exists.mp (ih (Option.isSome_of_eq_some haddress))
      rw [if_pos hvirtual, hslot, bind_some, hmember, bind_some, hbelow]
      rfl
    · next hvirtual =>
      obtain ⟨place, hplace, haddress⟩ := Option.bind_eq_some_iff.mp haddress
      obtain ⟨member, hmember, -⟩ := Option.map_eq_some_iff.mp hplace
      obtain ⟨below, hbelow⟩ := Option.isSome_iff_exists.mp (ih (Option.isSome_of_eq_some haddress))
      rw [if_neg hvirtual, hmember, bind_some, hbelow]
      rfl

theorem execute_loads (memory : Memory) (hwalk : walk current spot path = some (u, spot'))
    (pointer : Nat) :
    ∀ code, subobjectAddressSequence current path = some code → spot.anchor = none →
      ((execute memory pointer code).2 = [] ↔ spot'.anchor = none) := by
  induction path generalizing current spot pointer with
  | nil =>
    intro code hcode hspot
    cases hcode
    obtain ⟨-, rfl⟩ := Prod.mk.inj (Option.some.inj hwalk)
    exact ⟨fun _ => hspot, fun _ => rfl⟩
  | cons name rest ih =>
    intro code hcode hspot
    obtain ⟨base, hfind, hrest⟩ := walk_cons.mp hwalk
    obtain ⟨index, hat⟩ := baseAt_of_find hfind
    rw [subobjectAddressSequence, hat] at hcode
    dsimp only [bind_eq_bind, bind_some] at hcode
    split at hcode
    · next hvirtual =>
      obtain ⟨slot, -, hcode⟩ := Option.bind_eq_some_iff.mp hcode
      obtain ⟨member, -, hcode⟩ := Option.bind_eq_some_iff.mp hcode
      obtain ⟨below, -, hcode⟩ := Option.bind_eq_some_iff.mp hcode
      cases hcode
      rw [hvirtual] at hrest
      constructor
      · intro hnone
        cases hnone
      · intro hnone
        -- the walk is below the virtual base from here on
        rcases walk_anchor hrest with hsame | ⟨w, -, hname⟩
        · cases hsame.symm.trans hnone
        · cases hname.symm.trans hnone
    · next hvirtual =>
      obtain ⟨member, -, hcode⟩ := Option.bind_eq_some_iff.mp hcode
      obtain ⟨below, hbelow, hcode⟩ := Option.bind_eq_some_iff.mp hcode
      cases hcode
      refine ih hrest _ below hbelow ?_
      rw [Spot.enter, if_neg hvirtual]
      exact hspot

/-! ## Bases that are not virtual -/

theorem nonVirtual_of_walk (h : walk current spot path = some (u, spot'))
    (hclear : spot'.anchor = none) :
    Relation.ReflTransGen NonVirtualBase current u := by
  induction path generalizing current spot with
  | nil =>
    obtain ⟨rfl, -⟩ := Prod.mk.inj (Option.some.inj h)
    exact .refl
  | cons name rest ih =>
    obtain ⟨base, hfind, hrest⟩ := walk_cons.mp h
    refine .head ⟨base.1, (find_edge hfind).1, ?_⟩ (ih hrest)
    by_contra hvirtual
    rw [Bool.not_eq_false] at hvirtual
    rw [hvirtual] at hrest
    rcases walk_anchor hrest with hsame | ⟨w, -, hname⟩
    · cases hsame.symm.trans hclear
    · cases hname.symm.trans hclear

theorem walk_of_nonVirtual (hdistinct : DistinctBases current)
    (h : Relation.ReflTransGen NonVirtualBase current u) :
    ∀ spot : Spot, spot.anchor = none →
      ∃ path spot', walk current spot path = some (u, spot') ∧ spot'.anchor = none := by
  induction h using Relation.ReflTransGen.head_induction_on with
  | refl => exact fun spot hspot => ⟨[], spot, rfl, hspot⟩
  | @head derived base hbase _ ih =>
    intro spot hspot
    obtain ⟨info, hmem, hvirtual⟩ := hbase
    have hbelow := Tree.mem_subtrees_edge hmem
    have hfind := find_of_mem (hdistinct derived (Tree.mem_subtrees_self _)) hmem
    obtain ⟨path, spot', hwalk, hclear⟩ :=
      ih (hdistinct.subtree hbelow) (spot.enter info.isVirtual base.label.name) (by
        rw [Spot.enter, hvirtual]
        exact hspot)
    exact ⟨base.label.name :: path, spot', walk_cons.mpr ⟨_, hfind, hwalk⟩, hclear⟩

/-! ## The conversion -/

section

variable {p : Program} {source target : ClassDeclaration}

theorem findPath_leads (hsource : source ∈ p.classes) (htarget : target ∈ source.subtrees)
    (hname : source.label.name ≠ target.label.name) :
    ∃ path spot code, findPath target.label.name source = some path ∧
      (path, target) ∈ subobjects source ∧ walk source whole path = some (target, spot) ∧
      subobjectAddressSequence source path = some code := by
  have hdistinct := p.distinctBases hsource
  have hc := p.coherent hsource
  cases hpath : findPath target.label.name source with
  | none =>
    rcases Tree.mem_subtrees.mp htarget with heq | hbelow
    · exact absurd (congrArg (fun c => (Tree.label c).name) heq.symm) hname
    · exact absurd rfl (findPath_none hpath target hbelow)
  | some path =>
    obtain ⟨-, hlisted⟩ := findPath_listed hc htarget (Tree.mem_subtrees_self _) hpath []
      (show Spares source target source [] from fun _ h => (nomatch h))
    have hlisted : (path, target) ∈ subobjects source := hlisted
    obtain ⟨spot, hwalk⟩ := subobjects_walk hdistinct hlisted whole
    obtain ⟨indices, hview⟩ := view_exists hdistinct hc hlisted
    -- in an object that has been constructed the address is found
    obtain ⟨memory, -, hlinked⟩ := constructObject_spec hdistinct hc (fun _ => 0) 0 fun _ => 0
    obtain ⟨place, -, haddress⟩ :=
      view_address hdistinct hc hview (linkedOnWay_of_all hdistinct hc hlisted hlinked)
    obtain ⟨code, hcode⟩ :=
      Option.isSome_iff_exists.mp (sequence_of_address (Option.isSome_of_eq_some haddress))
    exact ⟨path, spot, code, rfl, hlisted, hwalk, hcode⟩

theorem spot_unique (hsource : source ∈ p.classes) (htarget : target ∈ p.classes)
    (hone : p.findsOneSubobject target source = true)
    (hname : source.label.name ≠ target.label.name)
    {path path' : List Text} {spot spot' : Spot} (hlisted : (path, target) ∈ subobjects source)
    (h : walk source whole path = some (target, spot))
    (h' : walk source whole path' = some (target, spot')) : spot = spot' := by
  have hdistinct := p.distinctBases hsource
  obtain ⟨listed, hmem, hwalk⟩ := walk_listed hdistinct (p.coherent hsource) h'
  have hcount := (findsOneSubobject_iff hsource htarget).mp hone
  rw [baseCount_eq hsource htarget hname, baseCount, List.countP_eq_length_filter] at hcount
  obtain ⟨only, honly⟩ := List.length_eq_one_iff.mp hcount
  have hfirst : (path, target) ∈ [only] := honly ▸ List.mem_filter.mpr ⟨hlisted, beq_self_eq_true _⟩
  have hsecond : (listed, target) ∈ [only] := honly ▸ List.mem_filter.mpr ⟨hmem, beq_self_eq_true _⟩
  have hsame : (path, target) = (listed, target) :=
    (List.mem_singleton.mp hfirst).trans (List.mem_singleton.mp hsecond).symm
  rw [(Prod.mk.inj hsame).1] at h
  exact (Prod.mk.inj (Option.some.inj (h.symm.trans hwalk))).2

theorem derivesFrom_iff {derived : ClassDeclaration} {baseName : Text} :
    derivesFrom derived baseName = true ↔
      ∃ v : ClassDeclaration, v.Below derived ∧ v.label.name = baseName := by
  rw [derivesFrom, List.any_eq_true]
  constructor
  · rintro ⟨base, hbase, hany⟩
    obtain ⟨v, hv, heq⟩ := List.any_eq_true.mp hany
    exact ⟨v, ⟨base, hbase, hv⟩, by simpa using heq⟩
  · rintro ⟨v, ⟨base, hbase, hv⟩, heq⟩
    exact ⟨base, hbase, List.any_eq_true.mpr ⟨v, hv, by simpa using heq⟩⟩

theorem expectedType_base (hsource : source ∈ p.classes) (htarget : target.Below source)
    (hname : source.label.name ≠ target.label.name) (position : Position) :
    position.expectedType source target = some target := by
  have hderives : derivesFrom source target.label.name = true :=
    derivesFrom_iff.mpr ⟨target, htarget, rfl⟩
  cases position with
  | initializer | assignment | argument | result => rfl
  | comparedLeft =>
    show comparisonType source target = some target
    rw [comparisonType, if_neg hname, if_pos hderives]
  | comparedRight =>
    -- the base does not derive from the class in turn
    have hnot : ¬ derivesFrom target source.label.name = true := by
      intro hderives'
      obtain ⟨v, hv, heq⟩ := derivesFrom_iff.mp hderives'
      have hmem := mem_subtrees_below hv
      have hsame := p.coherent hsource v
        (Tree.mem_subtrees_trans _ (mem_subtrees_below htarget) hmem) source
        (Tree.mem_subtrees_self _) heq
      subst hsame
      obtain ⟨base, hbase, htarget⟩ := htarget
      exact Tree.not_below_self v ⟨base, hbase, Tree.mem_subtrees_trans _ htarget hmem⟩
    show comparisonType target source = some target
    rw [comparisonType, if_neg (Ne.symm hname), if_neg hnot, if_pos hderives]

/-- In every position, the literal converts to null without a load; and a null
    reference of a class does, to a base that the analyzer converts to, exactly
    when non-virtual bases alone lead to it. -/
theorem null_upcast_iff (hsource : source ∈ p.classes) (htarget : target ∈ p.classes)
    (hone : p.findsOneSubobject target source = true) (memory : Memory) (position : Position) :
    emitConversion memory position source target .null = some ⟨0, []⟩ ∧
      (emitConversion memory position source target (.object source 0) = some ⟨0, []⟩ ↔
        Relation.ReflTransGen NonVirtualBase source target) := by
  have hcount := (findsOneSubobject_iff hsource htarget).mp hone
  have hmem := mem_subtrees_of_count hsource htarget (by omega)
  have hbelow : target.Below source := by
    rcases Tree.mem_subtrees.mp hmem with rfl | hbelow
    · rw [countPaths_absent _ fun v hv heq => ?_] at hcount
      · cases hcount
      · have hself := p.coherent hsource v (mem_subtrees_below hv) target
          (Tree.mem_subtrees_self _) heq
        exact Tree.not_below_self target (hself ▸ hv)
    · exact hbelow
  have hname : source.label.name ≠ target.label.name := by
    intro heq
    have hself := p.coherent hsource source (Tree.mem_subtrees_self _) target hmem heq
    exact Tree.not_below_self target (hself ▸ hbelow)
  have hexpected := expectedType_base hsource hbelow hname position
  rw [emitConversion, emitConversion, hexpected, bind_some, bind_some]
  refine ⟨rfl, ?_⟩
  obtain ⟨path, spot, code, hpath, hlisted, hwalk, hcode⟩ := findPath_leads hsource hmem hname
  have hloads := execute_loads memory hwalk 0 code hcode rfl
  have hconvert : convertReference memory target (.object source 0)
      = some ⟨0, (execute memory 0 code).2⟩ := by
    rw [convertReference, if_neg hname, hpath]
    simp only [bind_eq_bind, bind_some, hcode, if_pos]
  rw [hconvert, Option.some.injEq, Converted.mk.injEq, eq_self, true_and, hloads]
  constructor
  · exact nonVirtual_of_walk hwalk
  · intro hclear
    obtain ⟨path', spot', hwalk', hanchor⟩ :=
      walk_of_nonVirtual (p.distinctBases hsource) hclear whole rfl
    rw [spot_unique hsource htarget hone hname hlisted hwalk hwalk']
    exact hanchor

end

/-- `D` has one `B`, which is not virtual. -/
theorem null_upcast_plain :
    emitConversion (fun _ => 0) .assignment diamondD plainB (.object diamondD 0) = some ⟨0, []⟩ :=
  (null_upcast_iff (p := diamondProgram) (by decide +kernel) (by decide +kernel) (by decide +kernel)
    (fun _ => 0) .assignment).2.mpr (.single ⟨⟨.publicAccess, false⟩, List.mem_cons_self, rfl⟩)

theorem plainB_sequence :
    subobjectAddressSequence plainB [['W']] = some [.getelementptr 32, .load] := by
  have hshared : classType sharedW = .struct [pointerType, pointerType] := by
    rw [classType_eq]
    rfl
  have hmembers : classMembers plainB
      = [pointerType, pointerType, classType sharedW, pointerType, classType sharedW] := rfl
  have hslot : virtualBasePointerIndex plainB ['W'] = some 3 := by decide +kernel
  have hmember : (classType plainB).member 3 = some (32, pointerType) := by
    rw [classType_eq, hmembers, hshared]
    rfl
  rw [subobjectAddressSequence]
  simp only [show baseAt plainB ['W'] = some (0, ⟨.publicAccess, true⟩, sharedW) from rfl,
    bind_eq_bind, bind_some, if_true, hslot, hmember]
  rfl

/-- `W w = b` with a null `b` loads from the address 32. -/
theorem null_upcast_loads : ¬ ∀ (p : Program) (source target : ClassDeclaration),
    source ∈ p.classes → target ∈ p.classes → p.findsOneSubobject target source = true →
      ∀ memory position,
        emitConversion memory position source target (.object source 0) = some ⟨0, []⟩ := by
  intro h
  have hsafe := h diamondProgram plainB sharedW (by decide +kernel) (by decide +kernel)
    (by decide +kernel) (fun _ => 0) .initializer
  have hloads : emitConversion (fun _ => 0) .initializer plainB sharedW (.object plainB 0)
      = some ⟨0, [32]⟩ := by
    show convertReference (fun _ => 0) sharedW (.object plainB 0) = _
    have hpath : findPath sharedW.label.name plainB = some [['W']] := by decide +kernel
    rw [convertReference, if_neg (by decide +kernel), hpath]
    simp only [bind_eq_bind, bind_some, plainB_sequence]
    rfl
  cases hloads.symm.trans hsafe

end Cwhip.CodeGen
