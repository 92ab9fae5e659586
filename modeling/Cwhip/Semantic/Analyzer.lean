/-
  Cwhip.Semantic.Analyzer

  The statement pass of the semantic analyzer (`SemanticStatements.cpp`,
  `SemanticAnalyzer.cpp`): scopes, definite initialization, and where
  `break`, `continue`, `return` and `raise()` may stand.

  Types are not checked here, so the pass accepts at least the bodies the
  source accepts; what it decides is what the source decides.  It returns the
  tree with every name resolved and every declaration numbered.
-/

import Cwhip.Lang.Syntax
import Cwhip.Lib.Except

namespace Cwhip.Semantic

open Cwhip.Lang Cwhip.Lib

/-- What a name stands for.  `φ` identifies fields. -/
inductive Resolution (φ : Type) where
  /-- A local or parameter: its entry in `symbols_`. -/
  | symbol (index : Nat)
  | field (field : φ)
  /-- An enum constant: the analyzer replaces the name by its value. -/
  | constant
  deriving DecidableEq, Repr

def Resolution.isConstant {φ : Type} : Resolution φ → Bool
  | .constant => true
  | _ => false

/-- A name and what the analyzer resolved it to. -/
structure Reference (φ : Type) where
  name : String
  resolution : Resolution φ
  deriving DecidableEq, Repr

/-- A declaration and its entry in `symbols_`. -/
structure Local where
  name : String
  index : Nat
  deriving DecidableEq, Repr

/-- The parsed tree. -/
abbrev Source := Statement String String

/-- The analyzed tree. -/
abbrev Analyzed (φ : Type) := Statement (Reference φ) Local

/-- The members of the current class that an unqualified name may stand for
    (`findField`, `findEnumMember` and the access checks before them). -/
structure Members (φ : Type) where
  field : String → Option φ
  isConstant : String → Bool

/-- An entry of `symbols_`. -/
structure SymbolInfo where
  name : String
  initialized : Bool
  readOnly : Bool
  deriving DecidableEq, Repr

/-- A scope: names and their entries in `symbols_`, the latest first. -/
abbrev Scope := List (String × Nat)

/-- `scopes_` (the innermost first) and `symbols_`. -/
structure State where
  scopes : List Scope
  symbols : List SymbolInfo
  deriving DecidableEq, Repr

/-- Where the pass stands: the depth counters, the current method (does it
    return a value?) and class. -/
structure Position (φ : Type) where
  loopDepth : Nat
  finallyDepth : Nat
  exceptionHandlerDepth : Nat
  currentMethod : Option Bool
  currentClass : Members φ
  isSubclassOf : String → String → Bool

variable {φ : Type}

/-! ## Scopes and symbols -/

/-- The entry a name has in the innermost scope that declares it. -/
def findSymbolIndex : List Scope → String → Option Nat
  | [], _ => none
  | scope :: scopes, name => (scope.lookup name).or (findSymbolIndex scopes name)

/-- `scopes_.emplace_back()`. -/
def State.push (st : State) : State := { st with scopes := [] :: st.scopes }

/-- `scopes_.pop_back()`. -/
def State.pop (st : State) : State := { st with scopes := st.scopes.tail }

/-- A new symbol, declared in the innermost scope. -/
def State.declare (st : State) (symbol : SymbolInfo) : State where
  scopes :=
    match st.scopes with
    | [] => [[(symbol.name, st.symbols.length)]]
    | scope :: scopes => ((symbol.name, st.symbols.length) :: scope) :: scopes
  symbols := st.symbols ++ [symbol]

def setInitialized : Nat → List SymbolInfo → List SymbolInfo
  | _, [] => []
  | 0, symbol :: symbols => { symbol with initialized := true } :: symbols
  | index + 1, symbol :: symbols => symbol :: setInitialized index symbols

/-- `symbols_[index].initialized = true`. -/
def State.markInitialized (st : State) (index : Nat) : State :=
  { st with symbols := setInitialized index st.symbols }

def initializationState (symbols : List SymbolInfo) : List Bool := symbols.map (·.initialized)

/-- The flags of the first symbols; later symbols keep theirs. -/
def restoreInitializationState : List Bool → List SymbolInfo → List SymbolInfo
  | _, [] => []
  | [], symbols => symbols
  | flag :: flags, symbol :: symbols =>
    { symbol with initialized := flag } :: restoreInitializationState flags symbols

def State.flags (st : State) : List Bool := initializationState st.symbols

def State.restore (st : State) (flags : List Bool) : State :=
  { st with symbols := restoreInitializationState flags st.symbols }

/-! ## Expressions -/

/-- What a name stands for; the lookup of `Identifier` expressions. -/
def resolve (members : Members φ) (scopes : List Scope) (name : String) :
    Except String (Reference φ) :=
  match findSymbolIndex scopes name with
  | some index => .ok ⟨name, .symbol index⟩
  | none =>
    match members.field name with
    | some field => .ok ⟨name, .field field⟩
    | none =>
      if members.isConstant name then .ok ⟨name, .constant⟩
      else .error s!"undefined variable '{name}' or field"

/-- The symbol a name stands for is initialized; fields and constants always
    are. -/
def Initialized (symbols : List SymbolInfo) : Resolution φ → Prop
  | .symbol index => ∃ symbol ∈ symbols[index]?, symbol.initialized = true
  | _ => True

instance (symbols : List SymbolInfo) (r : Resolution φ) : Decidable (Initialized symbols r) := by
  cases r with
  | symbol index => exact inferInstanceAs (Decidable (∃ symbol ∈ symbols[index]?, _))
  | field f => exact inferInstanceAs (Decidable True)
  | constant => exact inferInstanceAs (Decidable True)

/-- `SemanticAnalyzer::analyzeExpression`, up to types. -/
def analyzeExpression (members : Members φ) (st : State) :
    Expression String → Except String (Expression (Reference φ))
  | .literal => .ok .literal
  | .identifier name => do
    let reference ← resolve members st.scopes name
    ensure (Initialized st.symbols reference.resolution)
      s!"variable '{name}' may be uninitialized"
    return .identifier reference
  | .operation left right => do
    let left ← analyzeExpression members st left
    let right ← analyzeExpression members st right
    return .operation left right

/-- An expression that may be absent. -/
def analyzeOptional (members : Members φ) (st : State) :
    Option (Expression String) → Except String (Option (Expression (Reference φ)))
  | none => .ok none
  | some expression => do
    let expression ← analyzeExpression members st expression
    return some expression

/-- The symbol behind a resolved name becomes initialized. -/
def State.assign (st : State) (reference : Reference φ) : State :=
  match reference.resolution with
  | .symbol index => st.markInitialized index
  | _ => st

/-- The symbol behind a resolved name is read-only: an exception binding. -/
def ReadOnly (symbols : List SymbolInfo) : Resolution φ → Bool
  | .symbol index => symbols[index]?.any (·.readOnly)
  | _ => false

/-- Inline C captures: each one counts as initialized from here on. -/
def analyzeCaptures (members : Members φ) :
    List String → State → Except String (List (Reference φ) × State)
  | [], st => .ok ([], st)
  | name :: names, st => do
    let reference ← resolve members st.scopes name
    ensure (reference.resolution.isConstant = false) "enum constants are immutable"
    let rest ← analyzeCaptures members names (st.assign reference)
    return (reference :: rest.1, rest.2)

/-- The statements without statements inside. -/
def analyzeSimple (members : Members φ) (st : State) :
    Simple String String → Except String (Simple (Reference φ) Local × State)
  | .declaration name initializer => do
    ensure (st.scopes.head?.all (fun scope => (scope.lookup name).isNone))
      s!"variable '{name}' is already declared in this scope"
    let declared := st.declare ⟨name, false, false⟩
    let initializer ← analyzeOptional members declared initializer
    return (.declaration ⟨name, st.symbols.length⟩ initializer,
      if initializer.isSome then declared.markInitialized st.symbols.length else declared)
  | .assignment (.variable name) compound value => do
    let reference ← resolve members st.scopes name
    ensure (reference.resolution.isConstant = false)
      "enum constants are immutable; copy the value into a local before modifying it"
    ensure (compound = true → Initialized st.symbols reference.resolution)
      s!"variable '{name}' may be uninitialized"
    ensure (ReadOnly st.symbols reference.resolution = false)
      s!"exception binding '{name}' is read-only"
    let value ← analyzeExpression members st value
    return (.assignment (.variable reference) compound value, st.assign reference)
  | .assignment (.place evaluated) compound value => do
    let evaluated ← analyzeExpression members st evaluated
    let value ← analyzeExpression members st value
    return (.assignment (.place evaluated) compound value, st)
  | .evaluate expression => do
    let expression ← analyzeExpression members st expression
    return (.evaluate expression, st)
  | .inlineC captures => do
    ensure captures.Nodup "duplicate inline capture"
    let captures ← analyzeCaptures members captures st
    return (.inlineC captures.1, captures.2)

/-! ## Statements -/

/-- The order of the clauses of a `try`. -/
def checkHandlers (isSubclassOf : String → String → Bool) (handledTypes : List String) :
    Handlers String String → Except String Unit
  | .none => .ok ()
  | .except exceptionType _ _ rest => do
    ensure (exceptionType = "" → "Exception" ∉ handledTypes)
      "catch-all except clause is unreachable after 'Exception'"
    ensure (exceptionType = "" → rest.clauses = [])
      "catch-all except clause must be last"
    ensure (exceptionType ≠ "" → isSubclassOf exceptionType "Exception" = true)
      s!"except type '{exceptionType}' is not in the Exception hierarchy"
    ensure (exceptionType ≠ "" → ∀ earlier ∈ handledTypes,
        isSubclassOf exceptionType earlier = false)
      s!"except clause for '{exceptionType}' is unreachable"
    checkHandlers isSubclassOf (handledTypes ++ [exceptionType]) rest

/-- A loop variable or exception binding: initialized where it is declared. -/
def State.bind (st : State) (readOnly : Bool) : Option String → Option Local × State
  | none => (none, st)
  | some name => (some ⟨name, st.symbols.length⟩, st.declare ⟨name, true, readOnly⟩)

mutual

/-- `SemanticAnalyzer::analyzeStatement` and `analyzeStatements`. -/
def analyze (pos : Position φ) (st : State) :
    Source → Except String (Analyzed φ × State)
  | .skip => .ok (.skip, st)
  | .next first rest => do
    let first ← analyze pos st first
    let rest ← analyze pos first.2 rest
    return (.next first.1 rest.1, rest.2)
  | .simple s => do
    let s ← analyzeSimple pos.currentClass st s
    return (.simple s.1, s.2)
  | .block body => do
    let body ← analyze pos st.push body
    return (.block body.1, body.2.pop)
  | .ifElse condition body false _ => do
    let condition ← analyzeExpression pos.currentClass st condition
    let body ← analyze pos st.push body
    return (.ifElse condition body.1 false .skip, body.2.pop.restore st.flags)
  | .ifElse condition body true alternate => do
    let condition ← analyzeExpression pos.currentClass st condition
    let body ← analyze pos st.push body
    let thenState := body.2.flags
    let alternate ← analyze pos (body.2.pop.restore st.flags).push alternate
    let elseState := alternate.2.flags
    return (.ifElse condition body.1 true alternate.1,
      alternate.2.pop.restore ((thenState.zipWith (· && ·) elseState).take st.flags.length))
  | .whileLoop condition body => do
    let condition ← analyzeExpression pos.currentClass st condition
    let body ← analyze { pos with loopDepth := pos.loopDepth + 1 } st.push body
    return (.whileLoop condition body.1, body.2.pop.restore st.flags)
  | .doWhile body condition => do
    let condition ← analyzeExpression pos.currentClass st condition
    let body ← analyze { pos with loopDepth := pos.loopDepth + 1 } st.push body
    return (.doWhile body.1 condition, body.2.pop.restore st.flags)
  | .forEach collection key value body => do
    let collection ← analyzeExpression pos.currentClass st collection
    ensure (key ≠ some value) "dict key and value iteration variables must be distinct"
    let key := st.push.bind false key
    let index := key.2.symbols.length
    let body ← analyze { pos with loopDepth := pos.loopDepth + 1 }
      (key.2.declare ⟨value, true, false⟩) body
    return (.forEach collection key.1 ⟨value, index⟩ body.1, body.2.pop.restore st.flags)
  | .breakLoop => do
    ensure (pos.loopDepth ≠ 0) "'break' outside of a loop"
    return (.breakLoop, st)
  | .continueLoop => do
    ensure (pos.loopDepth ≠ 0) "'continue' outside of a loop"
    return (.continueLoop, st)
  | .returnValue value => do
    ensure (pos.finallyDepth = 0) "return is not allowed inside finally"
    let returnsValue ← require pos.currentMethod "return is only valid inside a class method"
    ensure (value.isSome = returnsValue)
      (if returnsValue then "non-void method must return a value"
      else "void method cannot return a value")
    let value ← analyzeOptional pos.currentClass st value
    return (.returnValue value, st)
  | .raise exception => do
    ensure (exception = none → pos.exceptionHandlerDepth ≠ 0)
      "raise() is only valid inside an except handler"
    let exception ← analyzeOptional pos.currentClass st exception
    return (.raise exception, st)
  | .tryCatch location body handlers hasCleanup cleanup => do
    checkHandlers pos.isSubclassOf [] handlers
    let body ← analyze pos st.push body
    let handlers ← analyzeHandlers pos st.flags body.2.pop body.2.flags handlers
    -- The state after the body, where every handler has it too.
    let merged := handlers.2.1.restore handlers.2.2
    match hasCleanup with
    | false => return (.tryCatch location body.1 handlers.1 false .skip, merged)
    | true =>
      let cleanup ← analyze { pos with finallyDepth := pos.finallyDepth + 1 } merged.push cleanup
      return (.tryCatch location body.1 handlers.1 true cleanup.1, cleanup.2.pop)

/-- The handlers of a `try`, each from the state before the body; returns the
    merged flags last. -/
def analyzeHandlers (pos : Position φ) (before : List Bool) (st : State) (merged : List Bool) :
    Handlers String String → Except String (Handlers (Reference φ) Local × State × List Bool)
  | .none => .ok (.none, st, merged)
  | .except exceptionType binding body rest => do
    let bound := (st.restore before).push.bind true binding
    let body ← analyze { pos with exceptionHandlerDepth := pos.exceptionHandlerDepth + 1 }
      bound.2 body
    let rest ← analyzeHandlers pos before body.2.pop (merged.zipWith (· && ·) body.2.flags) rest
    return (.except exceptionType bound.1 body.1 rest.1, rest.2)

end

/-! ## Bodies -/

/-- A method body or the start block: its parameters, whether it may return and
    with a value, and its statements. -/
structure Body where
  parameters : List String
  currentMethod : Option Bool
  statements : Source

/-- The scopes a body starts in, with its parameters: `analyzeMethod`. -/
def declareParameters : List String → State → Except String State
  | [], st => .ok st
  | name :: names, st => do
    ensure (st.scopes.head?.all (fun scope => (scope.lookup name).isNone))
      s!"duplicate parameter '{name}'"
    declareParameters names (st.declare ⟨name, true, false⟩)

/-- Where every body starts. -/
def Position.start (members : Members φ) (isSubclassOf : String → String → Bool)
    (currentMethod : Option Bool) : Position φ :=
  ⟨0, 0, 0, currentMethod, members, isSubclassOf⟩

/-- The state in which the statements of a body are analyzed, after the bodies
    that declared `symbols`. -/
def Body.entry (b : Body) (symbols : List SymbolInfo) : Except String State :=
  declareParameters b.parameters ⟨[[]], symbols⟩

/-- `SemanticAnalyzer::analyzeMethod`, and `analyzeStatements` on the start
    block, after the bodies that declared `symbols`. -/
def Body.analyze (b : Body) (members : Members φ) (isSubclassOf : String → String → Bool)
    (symbols : List SymbolInfo) : Except String (Analyzed φ × State) := do
  let st ← b.entry symbols
  Semantic.analyze (.start members isSubclassOf b.currentMethod) st b.statements

end Cwhip.Semantic
