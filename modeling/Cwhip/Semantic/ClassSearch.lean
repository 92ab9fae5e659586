/-
  Cwhip.Semantic.ClassSearch

  Class declarations by name, and the searches over their bases
  (`SemanticInheritance.cpp`).

  Before its checks on classes the analyzer has entered all of them in `classes_`
  and resolved the names of their bases.  Nothing is known of cycles then, so the
  searches are recursions that take fuel.
-/

import Cwhip.Inheritance.Classes
import Cwhip.CodeGen.IntegerLiterals
import Cwhip.Lib.Fueled

namespace Cwhip.Semantic.Hierarchy

open Cwhip.Lib
open Cwhip.Inheritance (AccessLevel Restriction FieldDeclaration)

/-! ## Declarations -/

structure Base where
  name : String
  access : AccessLevel
  isVirtual : Bool
  deriving DecidableEq

structure MethodDeclaration where
  name : String
  returnType : String
  parameterTypes : List String
  isConstructor : Bool
  isDestructor : Bool
  /-- Without a body in the class. -/
  declarationOnly : Bool
  deriving DecidableEq

/-- The initializer of an enum member. -/
inductive EnumExpression where
  | integer (value : String)
  | identifier (name : String)
  /-- A member of what a path of names stands for, if it is one. -/
  | member (path : Option String) (name : String)
  | unary (operation : Char) (left : EnumExpression)
  | binary (operation : String) (left right : EnumExpression)
  | other
  deriving DecidableEq

structure EnumMember where
  name : String
  access : AccessLevel
  blockIndex : Nat
  initializer : Option EnumExpression
  deriving DecidableEq

structure ClassDeclaration where
  name : String
  bases : List Base
  fields : List FieldDeclaration
  enumMembers : List EnumMember
  methods : List MethodDeclaration
  deriving DecidableEq

/-- The classes as they come to the checks: two of one name and bases that name
    no class have been refused. -/
structure Program where
  classes : List ClassDeclaration
  /-- `methodDefinitions_`: the class, the name and the parameter types. -/
  methodDefinitions : List (String × String × List String)
  uniqueNames : (classes.map ClassDeclaration.name).Nodup
  resolved : ∀ c ∈ classes, ∀ base ∈ c.bases, ∃ d ∈ classes, d.name = base.name

/-- `classes_.find` -/
def Program.find (p : Program) (name : String) : Option ClassDeclaration :=
  p.classes.find? fun c => c.name == name

/-- The bases with their declarations. -/
def Program.baseClasses (p : Program) (c : ClassDeclaration) : List (Base × ClassDeclaration) :=
  c.bases.filterMap fun base => (p.find base.name).map fun d => (base, d)

/-- `sameParameterTypes` -/
def MethodDeclaration.sameParameterTypes (left right : MethodDeclaration) : Bool :=
  left.parameterTypes == right.parameterTypes

/-! ## Counting -/

section Searches

variable (p : Program)

section Counting

-- the edges that are followed, and what a class counts for by itself: then its
-- bases are not searched
variable (follow : ClassDeclaration → Base × ClassDeclaration → Option Bool)
  (own : ClassDeclaration → Option (Option Nat))

/-- The loop over the bases; a virtual base is entered once. -/
def countBases (visit : ClassDeclaration → List String → Option (Nat × List String))
    (follow : Base × ClassDeclaration → Option Bool) :
    List (Base × ClassDeclaration) → List String → Option (Nat × List String)
  | [], seenVirtual => some (0, seenVirtual)
  | base :: rest, seenVirtual => do
    let followed ← follow base
    if followed = false ∨ (base.1.isVirtual = true ∧ base.1.name ∈ seenVirtual) then
      countBases visit follow rest seenVirtual
    else
      let (count, seenVirtual) ←
        visit base.2 (if base.1.isVirtual then base.1.name :: seenVirtual else seenVirtual)
      let (others, seenVirtual) ← countBases visit follow rest seenVirtual
      some (count + others, seenVirtual)

def countBody (visit : ClassDeclaration → List String → Option (Nat × List String))
    (current : ClassDeclaration) (seenVirtual : List String) : Option (Nat × List String) := do
  match ← own current with
  | some count => some (count, seenVirtual)
  | none => countBases visit (follow current) (p.baseClasses current) seenVirtual

def countVisit (fuel : Nat) (c : ClassDeclaration) : Option Nat :=
  (fueled (countBody p follow own) fuel c []).map Prod.fst

end Counting

/-- All bases. -/
def everyBase : ClassDeclaration → Base × ClassDeclaration → Option Bool := fun _ _ => some true

/-- A count of zero is none. -/
def nonzero (count : Nat) : Option (Option Nat) := some (if count ≠ 0 then some count else none)

/-- `SemanticAnalyzer::countFields` -/
def countFields (fuel : Nat) (c : ClassDeclaration) (name : String) : Option Nat :=
  countVisit p everyBase
    (fun current => nonzero (current.fields.filter fun field => field.name == name).length) fuel c

/-- `SemanticAnalyzer::countEnumMembers` -/
def countEnumMembers (fuel : Nat) (c : ClassDeclaration) (name : String) : Option Nat :=
  countVisit p everyBase
    (fun current => nonzero (current.enumMembers.filter fun member => member.name == name).length)
      fuel c

/-- `SemanticAnalyzer::countMethods`: methods of one name count once. -/
def countMethods (fuel : Nat) (c : ClassDeclaration) (name : String) : Option Nat :=
  countVisit p everyBase
    (fun current =>
      nonzero (if current.methods.any (fun method => method.name == name &&
        !method.isConstructor) then 1 else 0))
    fuel c

/-! ## Overloads -/

/-- A method is added unless one with its parameter types is there. -/
def addOverload (found : List MethodDeclaration) (candidate : MethodDeclaration) :
    List MethodDeclaration :=
  if found.any fun existing => existing.sameParameterTypes candidate then found
    else found ++ [candidate]

def overloadBases (visit : ClassDeclaration → List MethodDeclaration →
    Option (List MethodDeclaration)) :
    List (Base × ClassDeclaration) → List MethodDeclaration → Option (List MethodDeclaration)
  | [], found => some found
  | base :: rest, found => do
    let found ← visit base.2 found
    overloadBases visit rest found

def overloadBody (name : String)
    (visit : ClassDeclaration → List MethodDeclaration → Option (List MethodDeclaration))
    (current : ClassDeclaration) (found : List MethodDeclaration) :
    Option (List MethodDeclaration) :=
  let own := current.methods.filter fun method =>
    method.name == name && !method.isConstructor && !method.isDestructor
  overloadBases visit (p.baseClasses current) (own.foldl addOverload found)

/-- `SemanticAnalyzer::findOverloads` -/
def findOverloads (fuel : Nat) (c : ClassDeclaration) (name : String) :
    Option (List MethodDeclaration) :=
  fueled (overloadBody p name) fuel c []

/-! ## Access -/

/-- The loop of `isSubclassOf`. -/
def subclassLoop (base : String) : Nat → List String → List ClassDeclaration → Option Bool
  | 0, _, _ => none
  | _ + 1, _, [] => some false
  | fuel + 1, visited, current :: pending =>
    if current.name ∈ visited then subclassLoop base fuel visited pending
    else if current.bases.any fun edge => edge.name == base then some true
    else
      subclassLoop base fuel (current.name :: visited)
        (((p.baseClasses current).map Prod.snd).reverse ++ pending)

/-- `SemanticAnalyzer::isSubclassOf` -/
def isSubclassOf (fuel : Nat) (type base : String) : Option Bool :=
  match p.find type with
  | none => some false
  | some c => if type = base then some true else subclassLoop p base fuel [] [c]

/-- Whether the class that is being analyzed gets past a restriction. -/
def admits (fuel : Nat) (currentClass : ClassDeclaration) (r : Restriction String) : Option Bool :=
  match r.effective with
  | .publicAccess => some true
  | .privateAccess => some (currentClass.name == r.restrictedAt)
  | .protectedAccess =>
    if currentClass.name = r.restrictedAt then some true
    else isSubclassOf p fuel currentClass.name r.restrictedAt

/-- `SemanticAnalyzer::basePathAccessible`, for one edge. -/
def edgeAccessible (fuel : Nat) (currentClass owner : ClassDeclaration) (base : Base) :
    Option Bool :=
  admits p fuel currentClass ((⟨.publicAccess, ""⟩ : Restriction String).pass
    base.access owner.name)

/-- The access of a field or an enum member, as the class declares it. -/
def declaredAccess (current : ClassDeclaration) (name : String) : Option AccessLevel :=
  match current.fields.find? fun field => field.name == name with
  | some field => some field.access
  | none => (current.enumMembers.find? fun member => member.name == name).map EnumMember.access

/-- The edges that led to a class, innermost first. -/
abbrev Edges := List (AccessLevel × String)

def declarationAccessible (fuel : Nat) (currentClass current : ClassDeclaration)
    (access : AccessLevel) (path : Edges) : Option Bool := do
  let declared ← admits p fuel currentClass ⟨access, current.name⟩
  if declared = false then some false
  else admits p fuel currentClass (path.foldl (fun r edge => r.pass edge.1 edge.2) ⟨access,
    current.name⟩)

def accessibleBases (visit : ClassDeclaration → Edges → Option Bool) (owner : String)
    (path : Edges) :
    List (Base × ClassDeclaration) → Option Bool
  | [] => some false
  | base :: rest => do
    let found ← visit base.2 ((base.1.access, owner) :: path)
    if found then some true else accessibleBases visit owner path rest

def accessibleBody (fuel : Nat) (currentClass : ClassDeclaration) (name : String)
    (visit : ClassDeclaration → Edges → Option Bool) (current : ClassDeclaration) (path : Edges) :
    Option Bool :=
  match declaredAccess current name with
  | some access => declarationAccessible p fuel currentClass current access path
  | none => accessibleBases visit current.name path (p.baseClasses current)

/-- `SemanticAnalyzer::memberAccessible`, for fields and enum members. -/
def memberAccessible (fuel : Nat) (currentClass owner : ClassDeclaration) (name : String) :
    Option Bool :=
  fueled (accessibleBody p fuel currentClass name) fuel owner []

/-- A class that declares the member counts for one, if it is accessible. -/
def accessibleOwn (fuel : Nat) (currentClass : ClassDeclaration) (name : String)
    (current : ClassDeclaration) :
    Option (Option Nat) :=
  if (declaredAccess current name).isSome then
    (memberAccessible p fuel currentClass current name).map fun accessible =>
      some (if accessible then 1 else 0)
  else some none

/-- `SemanticAnalyzer::accessibleMemberCount`, for fields and enum members. -/
def accessibleMemberCount (fuel : Nat) (currentClass c : ClassDeclaration) (name : String) :
    Option Nat :=
  countVisit p (fun current base => edgeAccessible p fuel currentClass current base.1)
    (accessibleOwn p fuel currentClass name) fuel c

/-! ## Enum members -/

/-- The loop over the bases; a second candidate makes the result ambiguous. -/
def enumBases (visit : ClassDeclaration → List String →
    Option (Option (ClassDeclaration × Nat) × List String))
    (follow : Base × ClassDeclaration → Option Bool) :
    List (Base × ClassDeclaration) → Option (ClassDeclaration × Nat) → List String →
      Option (Option (ClassDeclaration × Nat) × List String)
  | [], result, seenVirtual => some (result, seenVirtual)
  | base :: rest, result, seenVirtual => do
    let followed ← follow base
    if followed = false ∨ (base.1.isVirtual = true ∧ base.1.name ∈ seenVirtual) then
      enumBases visit follow rest result seenVirtual
    else
      let (candidate, seenVirtual) ←
        visit base.2 (if base.1.isVirtual then base.1.name :: seenVirtual else seenVirtual)
      match candidate, result with
      | none, _ => enumBases visit follow rest result seenVirtual
      | some _, some _ => some (none, seenVirtual)
      | some candidate, none => enumBases visit follow rest (some candidate) seenVirtual

/-- The edges that `findEnumMember` follows. -/
def enumEdge (fuel : Nat) (currentClass : ClassDeclaration) (name : String)
    (current : ClassDeclaration) (base : Base × ClassDeclaration) : Option Bool := do
  let accessible ← edgeAccessible p fuel currentClass current base.1
  if accessible = false then some false else memberAccessible p fuel currentClass base.2 name

def enumBody (fuel : Nat) (currentClass : ClassDeclaration) (name : String)
    (visit : ClassDeclaration → List String →
    Option (Option (ClassDeclaration × Nat) × List String))
    (current : ClassDeclaration) (seenVirtual : List String) :
    Option (Option (ClassDeclaration × Nat) × List String) :=
  match current.enumMembers.findIdx? fun member => member.name == name with
  | some index => some (some (current, index), seenVirtual)
  | none =>
    enumBases visit (enumEdge p fuel currentClass name current)
      (p.baseClasses current) none seenVirtual

/-- `SemanticAnalyzer::findEnumMember`: the class and the place of the member. -/
def findEnumMember (fuel : Nat) (currentClass c : ClassDeclaration) (name : String) :
    Option (Option (ClassDeclaration × Nat)) :=
  (fueled (enumBody p fuel currentClass name) fuel c []).map Prod.fst

end Searches

end Cwhip.Semantic.Hierarchy
