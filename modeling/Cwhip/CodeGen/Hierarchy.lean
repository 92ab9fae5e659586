/-
  Cwhip.CodeGen.Hierarchy

  Class declarations as the code generator reads them, and what the analyzer has
  checked of them.

  As in `Cwhip.Inheritance.Classes`, a declaration is the tree of its bases, and
  an edge of the tree says how the base is inherited.
-/

import Mathlib.Data.List.Nodup
import Cwhip.Inheritance.Classes
import Cwhip.CodeGen.Mangling

namespace Cwhip.CodeGen

open Cwhip.Lib
open Cwhip.Inheritance (AccessLevel BaseInfo)

structure MethodDeclaration where
  name : Text
  returnType : Text
  /-- The types of the parameters. -/
  parameters : List Text
  access : AccessLevel
  isConstructor : Bool
  isDestructor : Bool
  deriving DecidableEq

/-- What the parser names a destructor. -/
@[irreducible] def destroyName : Text := "destroy".toList

/-- The part of a class declaration that is not its bases. -/
structure ClassInfo where
  name : Text
  moduleName : Text
  builtin : Bool
  /-- The types of the fields. -/
  fields : List Text
  methods : List MethodDeclaration
  deriving DecidableEq

/-- A class with its bases, in the order they are written. -/
abbrev ClassDeclaration := Tree ClassInfo BaseInfo

/-- Neither a constructor nor a destructor. -/
def MethodDeclaration.ordinary (method : MethodDeclaration) : Bool :=
  !method.isConstructor && !method.isDestructor

def sameParameterTypes (left right : MethodDeclaration) : Bool :=
  left.parameters == right.parameters

/-- Methods that override each other and share a slot. -/
def SameSlot (left right : MethodDeclaration) : Prop :=
  left.name = right.name ∧ left.parameters = right.parameters

instance (left right : MethodDeclaration) : Decidable (SameSlot left right) :=
  inferInstanceAs (Decidable (_ ∧ _))

theorem SameSlot.symm {left right : MethodDeclaration} (h : SameSlot left right) :
    SameSlot right left := ⟨h.1.symm, h.2.symm⟩

theorem SameSlot.trans {first second third : MethodDeclaration} (h : SameSlot first second)
    (h' : SameSlot second third) : SameSlot first third := ⟨h.1.trans h'.1, h.2.trans h'.2⟩

/-- The methods of a class that dispatch selects from. -/
def ClassInfo.ordinaryMethods (info : ClassInfo) : List MethodDeclaration :=
  info.methods.filter MethodDeclaration.ordinary

/-- The key under which a method is overloaded. -/
def methodSignatureKey (method : MethodDeclaration) : Text :=
  method.name ++ mangleParameters method.parameters

/-! ## The analyzer's override check -/

/-- A method and the name of the class that declares it. -/
structure Declared where
  owner : Text
  method : MethodDeclaration
  deriving DecidableEq

/-- Candidates with equal parameters are merged into the first. -/
def addOverload (found : List Declared) (candidate : Declared) : List Declared :=
  if found.any (fun existing => sameParameterTypes existing.method candidate.method) then found
  else found ++ [candidate]

def ClassInfo.overloads (name : Text) (info : ClassInfo) : List Declared :=
  (info.ordinaryMethods.filter fun method => method.name == name).map (Declared.mk info.name)

mutual

/-- The recursion of `findOverloads`, on the candidates found so far. -/
def overloadsFrom (name : Text) : ClassDeclaration → List Declared → List Declared
  | .node info bases, found =>
    overloadsBases name bases ((info.overloads name).foldl addOverload found)

def overloadsBases (name : Text) : Edges ClassInfo BaseInfo → List Declared → List Declared
  | .nil, found => found
  | .cons _ base rest, found => overloadsBases name rest (overloadsFrom name base found)

end

/-- `SemanticAnalyzer::findOverloads`. -/
def findOverloads (declaration : ClassDeclaration) (name : Text) : List Declared :=
  overloadsFrom name declaration []

/-! ## Programs -/

/-- The classes of a program that the analyzer accepts. -/
structure Program where
  classes : List ClassDeclaration
  /-- `classes_` finds every class and every base by its name. -/
  resolved : ∀ c ∈ classes, ∀ u ∈ c.subtrees,
    classes.find? (fun d => d.label.name == u.label.name) = some u
  /-- "duplicate class" -/
  distinct : (classes.map fun c => c.label.name).Nodup
  /-- Names are identifiers behind namespaces. -/
  qualified : ∀ c ∈ classes, isQualified c.label.name = true
  /-- "conflicts with a namespace of the same name" -/
  separate : ∀ c ∈ classes, ∀ d ∈ classes, ¬ (c.label.name ++ ['.']) <+: d.label.name
  /-- `makeBuiltinExceptionClass` -/
  builtinBases : ∀ c ∈ classes, c.label.builtin = true → c.edges = []
  directBases : ∀ c ∈ classes, (c.edges.map fun base => base.2.label.name).Nodup
  methodNames : ∀ c ∈ classes, ∀ method ∈ c.label.methods, isIdentifier method.name = true
  /-- "destructors use 'destroy' syntax" -/
  destructors : ∀ c ∈ classes, ∀ method ∈ c.label.methods,
    method.isDestructor = true ↔ method.name = destroyName
  /-- "destructor must return void and take no parameters" -/
  plainDestructors : ∀ c ∈ classes, ∀ method ∈ c.label.methods,
    method.isDestructor = true → method.parameters = []
  /-- "duplicate method", "duplicate constructor signature" -/
  methods : ∀ c ∈ classes,
    (c.label.methods.map fun method => (method.name, method.parameters)).Nodup
  types : ∀ c ∈ classes, ∀ method ∈ c.label.methods, ∀ type ∈ method.parameters,
    Normalized (fun name => name ∈ classes.map fun d => d.label.name) type
  /-- "override must preserve the inherited method signature" -/
  overrides : ∀ c ∈ classes, ∀ method ∈ c.label.methods, method.isConstructor = false →
    ∀ base ∈ c.edges, ∀ inherited ∈ (findOverloads base.2 method.name).find?
      (fun candidate => sameParameterTypes candidate.method method),
      inherited.method.returnType = method.returnType

/-- `classes_.find`. -/
def Program.find (p : Program) (name : Text) : Option ClassDeclaration :=
  p.classes.find? (fun d => d.label.name == name)

namespace Program

variable (p : Program) {c : ClassDeclaration}

variable {u : ClassDeclaration} {method other : MethodDeclaration}

theorem find_subtree (hc : c ∈ p.classes) (hu : u ∈ c.subtrees) :
    p.find u.label.name = some u := p.resolved c hc u hu

theorem mem_subtree (hc : c ∈ p.classes) (hu : u ∈ c.subtrees) :
    u ∈ p.classes := List.mem_of_find?_eq_some (p.resolved c hc u hu)

theorem mem_base (hc : c ∈ p.classes) {base : BaseInfo × ClassDeclaration} (h : base ∈ c.edges) :
    base.2 ∈ p.classes := p.mem_subtree hc (Tree.mem_subtrees_edge h)

theorem readable (hc : c ∈ p.classes) (h : method ∈ c.label.methods) {type : Text}
    (htype : type ∈ method.parameters) : Readable type := by
  refine (p.types c hc method h type htype).readable ?_
  intro name hname
  obtain ⟨d, hd, rfl⟩ := List.mem_map.mp hname
  exact p.qualified d hd

theorem method_unique (hc : c ∈ p.classes) (h : method ∈ c.label.methods)
    (h' : other ∈ c.label.methods) (hsame : SameSlot method other) :
    method = other :=
  List.inj_on_of_nodup_map (p.methods c hc) h h' (Prod.ext hsame.1 hsame.2)

end Program

/-! ### Classes whose methods take no parameters -/

def plainMethod (name returnType : String) : MethodDeclaration :=
  ⟨name.toList, returnType.toList, [], .publicAccess, false, false⟩

def plainClass (name : String) (methods : List MethodDeclaration) : ClassInfo :=
  ⟨name.toList, "main".toList, false, [], methods⟩

theorem normalized_of_plain {classes : List ClassDeclaration} {known : Text → Prop}
    (h : ∀ c ∈ classes, ∀ method ∈ c.label.methods, method.parameters = []) :
    ∀ c ∈ classes, ∀ method ∈ c.label.methods, ∀ type ∈ method.parameters,
    Normalized known type := by
  intro c hc method hmethod type htype
  rw [h c hc method hmethod] at htype
  cases htype

end Cwhip.CodeGen
