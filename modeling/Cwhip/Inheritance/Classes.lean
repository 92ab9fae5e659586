/-
  Cwhip.Inheritance.Classes

  Class declarations and the member lookup of the semantic analyzer
  (`SemanticInheritance.cpp`).

  In an accepted program every base is declared and inheritance is acyclic, so
  a declaration is the finite tree of its bases, in which a virtual base is
  shared.  The searches over base classes that remember the virtual bases they
  have entered are instances of one search.
-/

import Mathlib.Algebra.GroupWithZero.Nat
import Cwhip.Lib.SharedTree

namespace Cwhip.Inheritance

open Cwhip.Lib

inductive AccessLevel where
  | publicAccess
  | protectedAccess
  | privateAccess
  deriving DecidableEq, Repr

structure FieldDeclaration where
  type : String
  name : String
  access : AccessLevel
  deriving DecidableEq, Repr

structure EnumMemberDeclaration where
  name : String
  access : AccessLevel
  deriving DecidableEq, Repr

/-- The part of a class declaration that is not its bases. -/
structure ClassInfo where
  name : String
  fields : List FieldDeclaration
  enumMembers : List EnumMemberDeclaration
  deriving DecidableEq, Repr

/-- How a class inherits from one of its bases. -/
structure BaseInfo where
  access : AccessLevel
  isVirtual : Bool
  deriving DecidableEq, Repr

/-- A class with its bases, in the order they are written. -/
abbrev ClassDeclaration := Tree ClassInfo BaseInfo

def ClassInfo.declaresField (name : String) (info : ClassInfo) : Bool :=
  info.fields.any (fun field => field.name == name)

def ClassInfo.declaresEnumMember (name : String) (info : ClassInfo) : Bool :=
  info.enumMembers.any (fun member => member.name == name)

def ClassInfo.findField (name : String) (info : ClassInfo) : Option FieldDeclaration :=
  info.fields.find? (fun field => field.name == name)

/-- A search over the bases that enters a virtual base once. -/
def baseSearch (follow : ClassDeclaration → BaseInfo → ClassDeclaration → Bool)
    (stop : ClassInfo → Bool) : Search ClassInfo BaseInfo String :=
  ⟨ClassInfo.name, BaseInfo.isVirtual, follow, stop⟩

/-- The start of a search. -/
def whole : Place String := ⟨none, []⟩

/-- The sum a counting search returns. -/
def countHits (S : Search ClassInfo BaseInfo String) (weight : ClassDeclaration → Nat)
    (c : ClassDeclaration) : Nat :=
  ((S.run c whole []).1.map fun hit => weight hit.1).sum

/-- The nearest declarations of a field, whatever their access. -/
def fieldSearch (name : String) : Search ClassInfo BaseInfo String :=
  baseSearch (fun _ _ _ => true) (ClassInfo.declaresField name)

/-- `SemanticAnalyzer::countFields`. -/
def countFields (c : ClassDeclaration) (name : String) : Nat :=
  countHits (fieldSearch name)
    (fun hit => (hit.label.fields.filter fun field => field.name == name).length) c

def enumSearch (name : String) : Search ClassInfo BaseInfo String :=
  baseSearch (fun _ _ _ => true) (ClassInfo.declaresEnumMember name)

/-- `SemanticAnalyzer::countEnumMembers`. -/
def countEnumMembers (c : ClassDeclaration) (name : String) : Nat :=
  countHits (enumSearch name)
    (fun hit => (hit.label.enumMembers.filter fun member => member.name == name).length) c

/-! ## Programs -/

/-- The classes of a program that passed the analyzer's checks on class
    declarations. -/
structure Program where
  classes : List ClassDeclaration
  /-- `classes_` finds every class and every base by its name. -/
  resolved : ∀ c ∈ classes, ∀ u ∈ c.subtrees,
    classes.find? (fun d => d.label.name == u.label.name) = some u
  directBases : ∀ c ∈ classes, (c.edges.map fun base => base.2.label.name).Nodup
  /-- "duplicate field" -/
  uniqueFields : ∀ c ∈ classes, (c.label.fields.map FieldDeclaration.name).Nodup
  /-- "duplicates an inherited field", "collides with an inherited enum member" -/
  freshFields : ∀ c ∈ classes, ∀ field ∈ c.label.fields, ∀ base ∈ c.edges,
    countFields base.2 field.name = 0 ∧ countEnumMembers base.2 field.name = 0

/-- `classes_.find`. -/
def Program.find (p : Program) (name : String) : Option ClassDeclaration :=
  p.classes.find? (fun d => d.label.name == name)

/-- `SemanticAnalyzer::isSubclassOf`: its worklist visits the ancestors, and
    each of them stands in the unfolded class. -/
def Program.isSubclassOf (p : Program) (type base : String) : Bool :=
  match p.find type with
  | none => false
  | some c => c.subtrees.any (fun u => u.label.name == base)

/-- A field, the class that declares it and the place of the subobject it is
    in. -/
structure FoundField where
  owner : ClassDeclaration
  place : Place String
  field : FieldDeclaration
  deriving DecidableEq

/-- What the analyzer knows where an expression stands: the program, and the class
    whose method it is in. -/
structure Standing {P C : Type} (classes : P → List C) where
  program : P
  currentClass : Option C
  current_mem : ∀ c, currentClass = some c → c ∈ classes program

abbrev Context := Standing Program.classes

/-! ## Access -/

/-- The access a path leaves, and the class it is restricted at. -/
structure Restriction (Name : Type) where
  effective : AccessLevel
  restrictedAt : Name

/-- Pass an inheritance edge out of the class `name`. -/
def Restriction.pass {Name : Type} (r : Restriction Name) (access : AccessLevel) (name : Name) :
    Restriction Name :=
  match access with
  | .privateAccess => ⟨.privateAccess, name⟩
  | .protectedAccess => if r.effective = .publicAccess then ⟨.protectedAccess, name⟩ else r
  | .publicAccess => r

/-- Whether the current class gets past a restriction. -/
def Restriction.admits {Name : Type} [BEq Name] (r : Restriction Name)
    (isSubclassOf : Name → Name → Bool)
    (currentClass : Option Name) : Bool :=
  match r.effective, currentClass with
  | .publicAccess, _ => true
  | _, none => false
  | .privateAccess, some current => current == r.restrictedAt
  | .protectedAccess, some current =>
    current == r.restrictedAt || isSubclassOf current r.restrictedAt

/-- Follow a path of base names, collecting its restriction. -/
def Restriction.along {Name ν : Type} [BEq Name] (nameOf : ν → Name) :
    Tree ν BaseInfo → List Name → Restriction Name → Option (Restriction Name)
  | _, [], r => some r
  | current, name :: rest, r =>
    match current.edges.find? (fun base => nameOf base.2.label == name) with
    | none => none
    | some (edge, base) => along nameOf base rest (r.pass edge.access (nameOf current.label))

namespace Context

variable (ctx : Context)

def admits (r : Restriction String) : Bool :=
  r.admits ctx.program.isSubclassOf (ctx.currentClass.map (·.label.name))

/-- `SemanticAnalyzer::basePathAccessible`. -/
def basePathAccessible (owner : ClassDeclaration) (path : List String) : Bool :=
  match Restriction.along ClassInfo.name owner path ⟨.publicAccess, ""⟩ with
  | none => false
  | some r => ctx.admits r

/-- The access of the member as its class declares it: fields first. -/
def declaredAccess (name : String) (info : ClassInfo) : Option AccessLevel :=
  match info.findField name with
  | some field => some field.access
  | none =>
    (info.enumMembers.find? fun member => member.name == name).map EnumMemberDeclaration.access

/-- The access check of a declaration found at the end of a path, whose edges
    stand innermost first. -/
def declarationAccessible (info : ClassInfo) (access : AccessLevel)
    (path : List (AccessLevel × String)) : Bool :=
  let declared := ctx.admits ⟨access, info.name⟩
  let r := path.foldl (fun r edge => r.pass edge.1 edge.2) ⟨access, info.name⟩
  declared && ctx.admits r

mutual

/-- The search of `SemanticAnalyzer::memberAccessible`, for fields and enum
    members. -/
def memberAccessibleFrom (name : String) : ClassDeclaration → List (AccessLevel × String) → Bool
  | .node info bases, path =>
    match declaredAccess name info with
    | some access => ctx.declarationAccessible info access path
    | none => memberAccessibleBases name info bases path

def memberAccessibleBases (name : String) (info : ClassInfo) :
    Edges ClassInfo BaseInfo → List (AccessLevel × String) → Bool
  | .nil, _ => false
  | .cons edge base rest, path =>
    memberAccessibleFrom name base ((edge.access, info.name) :: path) ||
      memberAccessibleBases name info rest path

end

/-- `SemanticAnalyzer::memberAccessible`. -/
def memberAccessible (owner : ClassDeclaration) (name : String) : Bool :=
  ctx.memberAccessibleFrom name owner []

/-! ## Lookup -/

/-- The nearest declarations of a member that accessible base edges lead to. -/
def memberSearch (name : String) : Search ClassInfo BaseInfo String :=
  baseSearch (fun current _ base => ctx.basePathAccessible current [base.label.name])
    (fun info => info.declaresField name || info.declaresEnumMember name)

/-- `SemanticAnalyzer::accessibleMemberCount`, for fields and enum members. -/
def accessibleMemberCount (c : ClassDeclaration) (name : String) : Nat :=
  countHits (ctx.memberSearch name)
    (fun hit => if ctx.memberAccessible hit name then 1 else 0) c

/-- The base edges `findField` takes, and where it stops. -/
def accessibleFieldSearch (name : String) : Search ClassInfo BaseInfo String :=
  baseSearch
    (fun current _ base =>
      ctx.basePathAccessible current [base.label.name] && ctx.memberAccessible base name)
    (ClassInfo.declaresField name)

mutual

/-- The search of `SemanticAnalyzer::findField`. -/
def findFieldFrom (name : String) :
    ClassDeclaration → Place String → List String → Option FoundField × List String
  | .node info bases, place, seen =>
    match info.findField name with
    | some field => (some ⟨.node info bases, place, field⟩, seen)
    | none => findFieldBases name (.node info bases) bases 0 place none seen

/-- Its loop over the bases; a second candidate makes the result ambiguous. -/
def findFieldBases (name : String) (current : ClassDeclaration) :
    Edges ClassInfo BaseInfo → Nat → Place String → Option FoundField → List String →
      Option FoundField × List String
  | .nil, _, _, result, seen => (result, seen)
  | .cons edge base rest, index, place, result, seen =>
    if (ctx.accessibleFieldSearch name).follow current edge base then
      if edge.isVirtual = true ∧ base.label.name ∈ seen then
        findFieldBases name current rest (index + 1) place result seen
      else
        let entered := if edge.isVirtual then base.label.name :: seen else seen
        let found := findFieldFrom name base
          ((ctx.accessibleFieldSearch name).enter place index edge base) entered
        match found.1, result with
        | none, _ => findFieldBases name current rest (index + 1) place result found.2
        | some _, some _ => (none, found.2)
        | some candidate, none =>
          findFieldBases name current rest (index + 1) place (some candidate) found.2
    else findFieldBases name current rest (index + 1) place result seen

end

/-- `SemanticAnalyzer::findField`, in the subobject at `place`. -/
def findField (c : ClassDeclaration) (name : String) (place : Place String) : Option FoundField :=
  (ctx.findFieldFrom name c place []).1

end Context

end Cwhip.Inheritance
