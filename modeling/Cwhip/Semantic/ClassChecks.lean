/-
  Cwhip.Semantic.ClassChecks

  The checks of the analyzer on classes (`SemanticAnalyzer::analyze`) and the
  values of enum members (`SemanticExpressions.cpp`).

  The classes are checked one after the other in the order of their declarations;
  a class is looked at for cycles through itself and then compared with its bases.
  A run records the classes at which a search over bases was started.
-/

import Cwhip.Semantic.ClassSearch

namespace Cwhip.Semantic.Hierarchy

open Cwhip.Lib
open Cwhip.CodeGen

/-! ## Runs -/

/-- The classes searched, and how the run ended: with a result, with a
    diagnostic, or not for want of fuel. -/
structure Run (α : Type) where
  searched : List ClassDeclaration
  outcome : Option (Except String α)

namespace Run

variable {α β : Type}

def done (a : α) : Run α := ⟨[], some (.ok a)⟩

def refuse (message : String) : Run α := ⟨[], some (.error message)⟩

def search (c : ClassDeclaration) (result : Option α) : Run α := ⟨[c], result.map .ok⟩

def andThen (run : Run α) (next : α → Run β) : Run β :=
  match run.outcome with
  | some (.ok a) => ⟨run.searched ++ (next a).searched, (next a).outcome⟩
  | some (.error message) => ⟨run.searched, some (.error message)⟩
  | none => ⟨run.searched, none⟩

instance : Monad Run where
  pure := done
  bind := andThen

end Run

/-! ## The steps of the checks -/

/-- What a member is looked up for in a base. -/
inductive Search where
  | fields (name : String)
  | enumMembers (name : String)
  | methods (name : String)
  /-- A method that it overrides with another result. -/
  | overridden (method : MethodDeclaration)
  deriving DecidableEq

inductive Step where
  | check (passes : Bool) (message : String)
  /-- "inheritance cycle" -/
  | cycle (c : ClassDeclaration)
  | compare (base : ClassDeclaration) (search : Search) (message : String)

section

variable (p : Program)

/-- The bases of an ancestor in the search for a cycle; none if there is one. -/
def expand (root : String) :
    List (Base × ClassDeclaration) → List String → List ClassDeclaration →
      Option (List String × List ClassDeclaration)
  | [], path, pending => some (path, pending)
  | base :: rest, path, pending =>
    if base.1.name ∈ path then
      if base.1.name = root then none else expand root rest path pending
    else expand root rest (base.1.name :: path) (base.2 :: pending)

def cycleLoop (root : String) : Nat → List String → List ClassDeclaration → Option Bool
  | 0, _, _ => none
  | _ + 1, _, [] => some false
  | fuel + 1, path, ancestor :: pending =>
    match expand root (p.baseClasses ancestor) path pending with
    | none => some true
    | some (path, pending) => cycleLoop root fuel path pending

/-- The search of a class for a cycle through itself. -/
def hasCycle (fuel : Nat) (c : ClassDeclaration) : Option Bool := cycleLoop p c.name fuel [c.name]
    [c]

def Search.clashes (fuel : Nat) (base : ClassDeclaration) : Search → Option Bool
  | .fields name => (countFields p fuel base name).map fun count => count != 0
  | .enumMembers name => (countEnumMembers p fuel base name).map fun count => count != 0
  | .methods name => (countMethods p fuel base name).map fun count => count != 0
  | .overridden method =>
    (findOverloads p fuel base method.name).map fun found =>
      match found.find? fun candidate => candidate.sameParameterTypes method with
      | none => false
      | some inherited => inherited.returnType != method.returnType

def Step.run (fuel : Nat) : Step → Run Unit
  | .check passes message => if passes then .done () else .refuse message
  | .cycle c => do
    let cyclic ← (⟨[], (hasCycle p fuel c).map .ok⟩ : Run Bool)
    if cyclic then .refuse ("inheritance cycle involving class '" ++ c.name ++ "'") else .done ()
  | .compare base search message => do
    let clashes ← Run.search base (search.clashes p fuel base)
    if clashes then .refuse message else .done ()

/-! ## The checks of a class -/

/-- No member after another one clashes with it. -/
def pairSteps {α : Type} (clash : α → α → Bool) (message : α → String) : List α → List Step
  | [] => []
  | first :: rest =>
    (rest.map fun other => .check (!clash first other) (message other)) ++
      pairSteps clash message rest

def definitionSteps (c : ClassDeclaration) : List Step :=
  c.methods.map fun method =>
    .check (!method.declarationOnly || p.methodDefinitions.contains (c.name, method.name,
      method.parameterTypes))
      ("method '" ++ c.name ++ "." ++ method.name ++
        "' is declared but has no out-of-line definition")

def baseSteps : List String → List Base → List Step
  | _, [] => []
  | directBases, base :: rest =>
    .check (!directBases.contains base.name) ("duplicate base class '" ++ base.name ++ "'") ::
      baseSteps (base.name :: directBases) rest

-- `validateType`, with what it says about a type; `void` may be allowed
variable (validateType : String → Bool → Option String)

def typeStep (type : String) (allowVoid : Bool) : Step :=
  .check (validateType type allowVoid).isNone ((validateType type allowVoid).getD "")

def typeSteps (c : ClassDeclaration) : List Step :=
  (c.fields.map fun field => typeStep validateType field.type false) ++
    c.methods.flatMap fun method =>
      .check (!method.isDestructor || (method.returnType == "void" &&
          method.parameterTypes.isEmpty))
          "destructor must return void and take no parameters" ::
        typeStep validateType method.returnType true ::
          method.parameterTypes.map fun type => typeStep validateType type false

def fieldSteps (c : ClassDeclaration) : List Step :=
  pairSteps (fun field other => field.name == other.name)
    (fun other => "duplicate field '" ++ other.name ++ "' in class '" ++ c.name ++ "'") c.fields

/-- A member against the others and against the bases. -/
def enumSteps (c : ClassDeclaration) : List EnumMember → List Step
  | [] => []
  | member :: rest =>
    (rest.map fun other =>
      .check (member.name != other.name)
        ("duplicate enum member '" ++ other.name ++ "' in class '" ++ c.name ++ "'")) ++
    .check (!(c.fields.any (fun field => field.name == member.name) ||
        c.methods.any fun method => method.name == member.name))
      ("enum member '" ++ member.name ++ "' collides with another class member") ::
    ((p.baseClasses c).flatMap fun base =>
      [.fields member.name, .enumMembers member.name, .methods member.name].map fun search =>
        .compare base.2 search ("enum member '" ++ member.name ++
          "' collides with an inherited class member")) ++
    enumSteps c rest

def ClassDeclaration.hasConstructor (c : ClassDeclaration) : Bool :=
    c.methods.any MethodDeclaration.isConstructor

def constructorSteps (c : ClassDeclaration) : List Step :=
  if c.hasConstructor then []
  else ((p.baseClasses c).filter fun base => !base.1.isVirtual).map fun base =>
    .check (!base.2.hasConstructor)
      ("class '" ++ c.name ++ "' needs an explicit constructor because base '" ++ base.2.name ++
        "' has one")

def inheritedFieldSteps (c : ClassDeclaration) : List Step :=
  c.fields.flatMap fun field => (p.baseClasses c).flatMap fun base =>
    [.compare base.2 (.fields field.name)
      ("field '" ++ field.name ++ "' duplicates an inherited field"),
      .compare base.2 (.enumMembers field.name)
        ("field '" ++ field.name ++ "' collides with an inherited enum member")]

def inheritedMethodSteps (c : ClassDeclaration) : List Step :=
  (c.methods.filter fun method => !method.isConstructor).flatMap fun method =>
    (p.baseClasses c).flatMap fun base =>
      [.compare base.2 (.enumMembers method.name)
          ("method '" ++ method.name ++ "' collides with an inherited enum member"),
        .compare base.2 (.overridden method)
          ("override of '" ++ method.name ++ "' must preserve the inherited method signature")]

def methodSteps (c : ClassDeclaration) : List Step :=
  pairSteps (fun method other => method.name == other.name && method.sameParameterTypes other)
    (fun duplicate =>
      if duplicate.isConstructor then "duplicate constructor signature in class '" ++ c.name ++ "'"
      else "duplicate method '" ++ duplicate.name ++ "' in class '" ++ c.name ++ "'")
    c.methods

/-- The checks of a class, in their order. -/
def classSteps (c : ClassDeclaration) : List Step :=
  definitionSteps p c ++ baseSteps [] c.bases ++ [.cycle c] ++
    typeSteps validateType c ++ fieldSteps c ++
    enumSteps p c c.enumMembers ++ constructorSteps p c ++ inheritedFieldSteps p c ++
      inheritedMethodSteps p c ++ methodSteps c

/-- The class loop of `SemanticAnalyzer::analyze`. -/
def validateClasses (fuel : Nat) : Run Unit :=
  (p.classes.flatMap (classSteps p validateType)).forM (Step.run p fuel)

/-! ## Enum values -/

/-- The values found, and the members being resolved; a member is the name of
    its class and its place there. -/
structure EnumState where
  values : List ((String × Nat) × Int)
  resolving : List (String × Nat)

def EnumState.value (st : EnumState) (member : String × Nat) : Option Int :=
  (st.values.find? fun entry => entry.1 == member).map Prod.snd

section

variable (fuel : Nat) (resolve : ClassDeclaration → Nat → EnumState → Run (Int × EnumState))
  (declaration : ClassDeclaration) (memberIndex : Nat)

/-- A name in an initializer. -/
def evaluateReference (target : ClassDeclaration) (name : String) (st : EnumState) :
    Run (Int × EnumState) := do
  let count ← Run.search target (countEnumMembers p fuel target name)
  if count = 0 then .refuse "enum initializer is not a compile-time integer expression"
  else
    let accessible ← Run.search target (accessibleMemberCount p fuel declaration target name)
    let reached ← (if accessible = 0 then Run.done false
      else Run.search target (memberAccessible p fuel declaration target name))
    if reached = false then
      .refuse ("enum member '" ++ name ++ "' is not accessible here")
    else if 1 < count ∨ 1 < accessible then
      .refuse ("ambiguous enum member '" ++ name ++ "'; qualify it through a base class")
    else
      let found ← Run.search target (findEnumMember p fuel declaration target name)
      match found with
      | none => .refuse "enum initializer is not a compile-time integer expression"
      | some (owner, index) =>
        if owner.name = declaration.name ∧ memberIndex ≤ index then
          .refuse ("enum initializer cannot reference a later or cyclic member '" ++ name ++ "'")
        else if st.value (owner.name, index) = none ∧ (owner.name, index) ∈ st.resolving then
          .refuse ("cyclic enum constant reference involving '" ++ name ++ "'")
        else resolve owner index st

def EnumExpression.isMinimum : EnumExpression → Bool
  | .integer value => Literals.isMinimumIntegerMagnitude (.integer value.toList)
  | _ => false

/-- `SemanticAnalyzer::evaluateEnumExpression` -/
def evaluateEnumExpression : EnumExpression → EnumState → Run (Int × EnumState)
  | .integer value, st =>
    match Literals.constantInteger (.integer value.toList) with
    | some value => .done (value, st)
    | none => .refuse "enum integer literal is outside the signed 64-bit range"
  | .identifier name, st =>
    evaluateReference p fuel resolve declaration memberIndex declaration name st
  | .member path name, st =>
    match path.bind p.find with
    | some target => evaluateReference p fuel resolve declaration memberIndex target name st
    | none => .refuse "enum values may reference only enum members, not instance expressions"
  | .unary operation left, st =>
    if operation = '-' ∧ left.isMinimum = true then .done (Literals.int64Min, st)
    else do
      let (value, st) ← evaluateEnumExpression left st
      if operation = '+' then .done (value, st)
      else if operation = '-' then
        if value = Literals.int64Min then
          .refuse "enum constant expression overflows signed 64-bit range"
        else .done (-value, st)
      else .refuse "unsupported unary operator in enum constant expression"
  | .binary operation left right, st => do
    let (left, st) ← evaluateEnumExpression left st
    let (right, st) ← evaluateEnumExpression right st
    if (operation = "/" ∨ operation = "%") ∧ right = 0 then
      .refuse "division by zero in enum constant expression"
    else if operation ∈ ["+", "-", "*", "/", "%"] then
      match Literals.constantOperation operation.toList left right with
      | some value => .done (value, st)
      | none => .refuse "enum constant expression overflows signed 64-bit range"
    else .refuse "enum value must be a compile-time integer expression"
  | .other, _ => .refuse "enum value must be a compile-time integer expression"

end

def previousMember (c : ClassDeclaration) (index blockIndex : Nat) : Option Nat :=
  (List.range index).reverse.find? fun previous =>
    (c.enumMembers[previous]?).any fun member => member.blockIndex == blockIndex

/-- A member without an initializer follows the one before it. -/
def implicitValue (resolve : ClassDeclaration → Nat → EnumState → Run (Int × EnumState))
    (c : ClassDeclaration) (index blockIndex : Nat) (st : EnumState) : Run (Int × EnumState) :=
  match previousMember c index blockIndex with
  | none => .done (0, st)
  | some previousIndex => do
    let (previous, st) ← resolve c previousIndex st
    if previous = int64Max then .refuse "implicit enum value overflows signed 64-bit range"
    else .done (previous + 1, st)

/-- `SemanticAnalyzer::resolveEnumValue` -/
def resolveEnumValue (fuel : Nat) : Nat → ClassDeclaration → Nat → EnumState → Run (Int × EnumState)
  | 0, _, _, _ => ⟨[], none⟩
  | depth + 1, c, index, st =>
    match st.value (c.name, index), c.enumMembers[index]? with
    | some value, _ => .done (value, st)
    | none, none => .done (0, st)
    | none, some member =>
      if (c.name, index) ∈ st.resolving then
        .refuse ("cyclic enum constant reference involving '" ++ member.name ++ "'")
      else do
        let entered : EnumState := { st with resolving := (c.name, index) :: st.resolving }
        let (value, left) ←
          (match member.initializer with
          | some initializer =>
            evaluateEnumExpression p fuel (resolveEnumValue fuel depth) c index initializer entered
          | none => implicitValue (resolveEnumValue fuel depth) c index member.blockIndex entered)
        -- the members resolved meanwhile are not being resolved any more
        .done (value, ⟨((c.name, index), value) :: left.values, st.resolving⟩)

/-- The members of a class in their order. -/
def resolveEnumMembers (fuel : Nat) (c : ClassDeclaration) : List Nat → EnumState → Run EnumState
  | [], st => .done st
  | index :: rest, st => do
    let (_, st) ← resolveEnumValue p fuel fuel c index st
    resolveEnumMembers fuel c rest st

/-- `SemanticAnalyzer::resolveEnumConstants` -/
def resolveEnumConstants (fuel : Nat) : List ClassDeclaration → EnumState → Run EnumState
  | [], st => .done st
  | c :: rest, st => do
    let st ← resolveEnumMembers p fuel c (List.range c.enumMembers.length) st
    resolveEnumConstants fuel rest st

/-- The checks on classes. -/
def analyzeClasses (fuel : Nat) : Run EnumState := do
  validateClasses p validateType fuel
  resolveEnumConstants p fuel p.classes ⟨[], []⟩

end

end Cwhip.Semantic.Hierarchy
