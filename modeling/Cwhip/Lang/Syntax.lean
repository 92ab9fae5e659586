/-
  Cwhip.Lang.Syntax

  Statements of the syntax tree (`include/cwhip/Ast.hpp`), as far as control
  flow, scopes and initialization look into them.

  A tree is generic in how it names a variable (`ρ`) and how it declares one
  (`δ`): the parser builds it with plain names, the analyzer (`Semantic.Analyzer`)
  adds what each name resolves to.  A vector of statements is a chain of `next`
  ended by `skip`.
-/

import Mathlib.Init

namespace Cwhip.Lang

/-- An expression: the variables it names and the order it evaluates them in. -/
inductive Expression (ρ : Type) where
  /-- Literals, type names, the implicit receiver. -/
  | literal
  | identifier (name : ρ)
  /-- An operator, member access or call: the operands, receiver or arguments
      from left to right, two at a time. -/
  | operation (left right : Expression ρ)
  deriving DecidableEq, Repr

/-- The target of an assignment. -/
inductive Target (ρ : Type) where
  | variable (name : ρ)
  /-- An element of a collection or a field of an object, which this expression
      evaluates. -/
  | place (evaluated : Expression ρ)
  deriving DecidableEq, Repr

/-- The statements without statements inside. -/
inductive Simple (ρ δ : Type) where
  | declaration (name : δ) (initializer : Option (Expression ρ))
  | assignment (target : Target ρ) (compound : Bool) (value : Expression ρ)
  /-- `print`, an expression statement, a base constructor call. -/
  | evaluate (expression : Expression ρ)
  | inlineC (captures : List ρ)
  deriving DecidableEq, Repr

mutual

inductive Statement (ρ δ : Type) where
  | skip
  | next (first rest : Statement ρ δ)
  | simple (s : Simple ρ δ)
  | block (body : Statement ρ δ)
  | ifElse (condition : Expression ρ) (body : Statement ρ δ) (hasAlternate : Bool)
      (alternate : Statement ρ δ)
  | whileLoop (condition : Expression ρ) (body : Statement ρ δ)
  | doWhile (body : Statement ρ δ) (condition : Expression ρ)
  | forEach (collection : Expression ρ) (key : Option δ) (value : δ) (body : Statement ρ δ)
  | breakLoop
  | continueLoop
  | returnValue (value : Option (Expression ρ))
  /-- `raise e`, or `raise()` of the handled exception. -/
  | raise (exception : Option (Expression ρ))
  | tryCatch (location : Nat) (body : Statement ρ δ) (handlers : Handlers ρ δ)
      (hasCleanup : Bool) (cleanup : Statement ρ δ)
  deriving DecidableEq, Repr

/-- The `except` clauses of a `try`; the catch-all has the empty type. -/
inductive Handlers (ρ δ : Type) where
  | none
  | except (exceptionType : String) (binding : Option δ) (body : Statement ρ δ)
      (rest : Handlers ρ δ)
  deriving DecidableEq, Repr

end

variable {ρ σ δ : Type}

/-! ## Names -/

/-- The names an expression reads, in the order it evaluates them. -/
def Expression.reads : Expression ρ → List ρ
  | .literal => []
  | .identifier name => [name]
  | .operation left right => left.reads ++ right.reads

/-- The names of an expression that may be absent. -/
def optionalReads : Option (Expression ρ) → List ρ
  | none => []
  | some e => e.reads

/-- An `else` or `finally` block: nothing where there is none. -/
def whenPresent (present : Bool) (s : Statement ρ δ) : Statement ρ δ :=
  if present then s else .skip

/-- The last clause is a catch-all. -/
def Handlers.hasCatchAll : Handlers ρ δ → Bool
  | .none => false
  | .except exceptionType _ _ rest => exceptionType == "" || rest.hasCatchAll

/-- The bindings and bodies of the clauses. -/
def Handlers.clauses : Handlers ρ δ → List (Option δ × Statement ρ δ)
  | .none => []
  | .except _ binding body rest => (binding, body) :: rest.clauses

end Cwhip.Lang
