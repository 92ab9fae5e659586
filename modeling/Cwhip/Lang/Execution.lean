/-
  Cwhip.Lang.Execution

  What statements do when they run, as far as control flow and the use of
  variables go: a big-step semantics.

  Conditions, the length of a collection, the steps that raise and the handler
  that matches are left open, so a statement has every run its source may have.
  A run may stop anywhere: what holds of every run holds of every prefix of an
  execution, also of one that never ends.
-/

import Cwhip.Lang.Syntax

namespace Cwhip.Lang

variable {ρ σ δ : Type}

/-! ## Events -/

/-- What a run does to the variables, and which `finally` blocks it enters. -/
inductive Event (ρ δ : Type) where
  | read (name : ρ)
  /-- A variable comes into being, without a value. -/
  | declare (name : δ)
  /-- An initializer, or the value of a loop variable or exception binding. -/
  | define (name : δ)
  | assign (name : ρ)
  | cleanup (location : Nat)
  deriving DecidableEq, Repr

abbrev Trace (ρ δ : Type) := List (Event ρ δ)

def Event.isRead : Event ρ δ → Bool
  | .read _ => true
  | _ => false

/-- How a run ends. -/
inductive Outcome where
  | normal
  | broke
  | continued
  | returned
  | thrown
  /-- The run is watched no further. -/
  | stopped
  deriving DecidableEq, Repr

/-- What ends first decides, unless it completes normally. -/
def Outcome.orElse : Outcome → Outcome → Outcome
  | .normal, other => other
  | outcome, _ => outcome

/-- How a loop ends when its body ended so; `none` if it goes on. -/
def Outcome.endsLoop : Outcome → Option Outcome
  | .normal | .continued => none
  | .broke => some .normal
  | outcome => some outcome

/-! ## Steps -/

/-- A run of steps taken one after the other.  `&&` and `||` may skip reads, a
    step may raise, and the run may stop before any step. -/
inductive Performs : Trace ρ δ → Trace ρ δ → Outcome → Prop
  | done : Performs [] [] .normal
  | step {e : Event ρ δ} {steps t : Trace ρ δ} {o : Outcome} :
      Performs steps t o → Performs (e :: steps) (e :: t) o
  | skip {e : Event ρ δ} {steps t : Trace ρ δ} {o : Outcome} :
      e.isRead = true → Performs steps t o → Performs (e :: steps) t o
  | throws {steps : Trace ρ δ} : Performs steps [] .thrown
  | stops {steps : Trace ρ δ} : Performs steps [] .stopped

def readSteps (names : List ρ) : Trace ρ δ := names.map .read

/-- The binding of a handler, or the variables of a `for` loop, get their
    values. -/
def bindSteps (bindings : List δ) : Trace ρ δ := bindings.map .define

/-- The steps of a simple statement.  Inline C gets the addresses of its
    captures, which count as assigned. -/
def Simple.steps : Simple ρ δ → Trace ρ δ
  | .declaration name none => [.declare name]
  | .declaration name (some initializer) =>
    .declare name :: (readSteps initializer.reads ++ [.define name])
  | .assignment (.variable name) compound value =>
    (if compound then [.read name] else []) ++ readSteps value.reads ++ [.assign name]
  | .assignment (.place evaluated) _ value => readSteps evaluated.reads ++ readSteps value.reads
  | .evaluate expression => readSteps expression.reads
  | .inlineC captures => captures.map .assign

/-! ## Statements -/

/-- `finally` blocks show in the trace where they are entered. -/
def cleanupEvent (hasCleanup : Bool) (location : Nat) : Trace ρ δ :=
  if hasCleanup then [.cleanup location] else []

inductive Runs : Statement ρ δ → Trace ρ δ → Outcome → Prop
  | stops {s : Statement ρ δ} : Runs s [] .stopped
  | skip : Runs .skip [] .normal
  | next {first rest : Statement ρ δ} {t t' : Trace ρ δ} {o : Outcome} :
      Runs first t .normal → Runs rest t' o → Runs (.next first rest) (t ++ t') o
  | nextLeaves {first rest : Statement ρ δ} {t : Trace ρ δ} {o : Outcome} :
      Runs first t o → o ≠ .normal → Runs (.next first rest) t o
  | simple {s : Simple ρ δ} {t : Trace ρ δ} {o : Outcome} :
      Performs s.steps t o → Runs (.simple s) t o
  | block {body : Statement ρ δ} {t : Trace ρ δ} {o : Outcome} :
      Runs body t o → Runs (.block body) t o
  | ifFails {condition : Expression ρ} {body alternate : Statement ρ δ} {hasAlternate : Bool}
      {t : Trace ρ δ} {o : Outcome} :
      Performs (readSteps condition.reads) t o → o ≠ .normal →
      Runs (.ifElse condition body hasAlternate alternate) t o
  | ifThen {condition : Expression ρ} {body alternate : Statement ρ δ} {hasAlternate : Bool}
      {t t' : Trace ρ δ} {o : Outcome} :
      Performs (readSteps condition.reads) t .normal → Runs body t' o →
      Runs (.ifElse condition body hasAlternate alternate) (t ++ t') o
  | ifElse {condition : Expression ρ} {body alternate : Statement ρ δ} {hasAlternate : Bool}
      {t t' : Trace ρ δ} {o : Outcome} :
      Performs (readSteps condition.reads) t .normal →
        Runs (whenPresent hasAlternate alternate) t' o →
      Runs (.ifElse condition body hasAlternate alternate) (t ++ t') o
  | whileEnds {condition : Expression ρ} {body : Statement ρ δ} {t : Trace ρ δ} {o : Outcome} :
      Performs (readSteps condition.reads) t o → Runs (.whileLoop condition body) t o
  | whileLeaves {condition : Expression ρ} {body : Statement ρ δ} {t t' : Trace ρ δ}
      {o o' : Outcome} :
      Performs (readSteps condition.reads) t .normal → Runs body t' o → o.endsLoop = some o' →
      Runs (.whileLoop condition body) (t ++ t') o'
  | whileNext {condition : Expression ρ} {body : Statement ρ δ} {t t' t'' : Trace ρ δ}
      {o o' : Outcome} :
      Performs (readSteps condition.reads) t .normal → Runs body t' o → o.endsLoop = none →
      Runs (.whileLoop condition body) t'' o' →
      Runs (.whileLoop condition body) (t ++ (t' ++ t'')) o'
  | doLeaves {condition : Expression ρ} {body : Statement ρ δ} {t : Trace ρ δ} {o o' : Outcome} :
      Runs body t o → o.endsLoop = some o' → Runs (.doWhile body condition) t o'
  | doEnds {condition : Expression ρ} {body : Statement ρ δ} {t t' : Trace ρ δ} {o o' : Outcome} :
      Runs body t o → o.endsLoop = none → Performs (readSteps condition.reads) t' o' →
      Runs (.doWhile body condition) (t ++ t') o'
  | doNext {condition : Expression ρ} {body : Statement ρ δ} {t t' t'' : Trace ρ δ}
      {o o' : Outcome} :
      Runs body t o → o.endsLoop = none → Performs (readSteps condition.reads) t' .normal →
      Runs (.doWhile body condition) t'' o' →
      Runs (.doWhile body condition) (t ++ (t' ++ t'')) o'
  | eachEnds {collection : Expression ρ} {key : Option δ} {value : δ} {body : Statement ρ δ}
      {t : Trace ρ δ} {o : Outcome} :
      Performs (readSteps collection.reads) t o → Runs (.forEach collection key value body) t o
  /-- An element cannot be fetched. -/
  | eachFails {collection : Expression ρ} {key : Option δ} {value : δ} {body : Statement ρ δ}
      {t t' : Trace ρ δ} {o : Outcome} :
      Performs (readSteps collection.reads) t .normal →
      Performs (bindSteps (key.toList ++ [value])) t' o → o ≠ .normal →
      Runs (.forEach collection key value body) (t ++ t') o
  | eachLeaves {collection : Expression ρ} {key : Option δ} {value : δ} {body : Statement ρ δ}
      {t t' t'' : Trace ρ δ} {o o' : Outcome} :
      Performs (readSteps collection.reads) t .normal →
      Performs (bindSteps (key.toList ++ [value])) t' .normal → Runs body t'' o →
      o.endsLoop = some o' →
      Runs (.forEach collection key value body) (t ++ (t' ++ t'')) o'
  /-- The loop runs over a snapshot: what remains of it evaluates no collection. -/
  | eachNext {collection : Expression ρ} {key : Option δ} {value : δ} {body : Statement ρ δ}
      {t t' t'' t₃ : Trace ρ δ} {o o' : Outcome} :
      Performs (readSteps collection.reads) t .normal →
      Performs (bindSteps (key.toList ++ [value])) t' .normal → Runs body t'' o →
      o.endsLoop = none → Runs (.forEach .literal key value body) t₃ o' →
      Runs (.forEach collection key value body) (t ++ (t' ++ (t'' ++ t₃))) o'
  | breakLoop : Runs .breakLoop [] .broke
  | continueLoop : Runs .continueLoop [] .continued
  | returnValue {value : Option (Expression ρ)} {t : Trace ρ δ} {o : Outcome} :
      Performs (readSteps (optionalReads value)) t o →
      Runs (.returnValue value) t (o.orElse .returned)
  | raise {exception : Option (Expression ρ)} {t : Trace ρ δ} {o : Outcome} :
      Performs (readSteps (optionalReads exception)) t o →
      Runs (.raise exception) t (o.orElse .thrown)
  | tryStops {location : Nat} {body cleanup : Statement ρ δ} {handlers : Handlers ρ δ}
      {hasCleanup : Bool} {t : Trace ρ δ} :
      Runs body t .stopped →
      Runs (.tryCatch location body handlers hasCleanup cleanup) t .stopped
  | tryBody {location : Nat} {body cleanup : Statement ρ δ} {handlers : Handlers ρ δ}
      {hasCleanup : Bool} {t t' : Trace ρ δ} {o o' : Outcome} :
      Runs body t o → o ≠ .thrown → o ≠ .stopped → Runs (whenPresent hasCleanup cleanup) t' o' →
      Runs (.tryCatch location body handlers hasCleanup cleanup)
        (t ++ (cleanupEvent hasCleanup location ++ t')) (o'.orElse o)
  | tryUnmatched {location : Nat} {body cleanup : Statement ρ δ} {handlers : Handlers ρ δ}
      {hasCleanup : Bool} {t t' : Trace ρ δ} {o' : Outcome} :
      Runs body t .thrown → handlers.hasCatchAll = false →
      Runs (whenPresent hasCleanup cleanup) t' o' →
      Runs (.tryCatch location body handlers hasCleanup cleanup)
        (t ++ (cleanupEvent hasCleanup location ++ t')) (o'.orElse .thrown)
  /-- The handler cannot get its binding. -/
  | tryUnbound {location : Nat} {body cleanup handler : Statement ρ δ} {handlers : Handlers ρ δ}
      {binding : Option δ} {hasCleanup : Bool} {t t' t'' : Trace ρ δ} {o' : Outcome} :
      Runs body t .thrown → (binding, handler) ∈ handlers.clauses →
      Performs (bindSteps binding.toList) t' .thrown →
        Runs (whenPresent hasCleanup cleanup) t'' o' →
      Runs (.tryCatch location body handlers hasCleanup cleanup)
        (t ++ (t' ++ (cleanupEvent hasCleanup location ++ t''))) (o'.orElse .thrown)
  | tryUnboundStops {location : Nat} {body cleanup handler : Statement ρ δ}
      {handlers : Handlers ρ δ} {binding : Option δ} {hasCleanup : Bool} {t t' : Trace ρ δ} :
      Runs body t .thrown → (binding, handler) ∈ handlers.clauses →
      Performs (bindSteps binding.toList) t' .stopped →
      Runs (.tryCatch location body handlers hasCleanup cleanup) (t ++ t') .stopped
  | tryHandlerStops {location : Nat} {body cleanup handler : Statement ρ δ}
      {handlers : Handlers ρ δ} {binding : Option δ} {hasCleanup : Bool}
      {t t' t'' : Trace ρ δ} :
      Runs body t .thrown → (binding, handler) ∈ handlers.clauses →
      Performs (bindSteps binding.toList) t' .normal → Runs handler t'' .stopped →
      Runs (.tryCatch location body handlers hasCleanup cleanup) (t ++ (t' ++ t'')) .stopped
  | tryHandled {location : Nat} {body cleanup handler : Statement ρ δ} {handlers : Handlers ρ δ}
      {binding : Option δ} {hasCleanup : Bool} {t t' t'' t₃ : Trace ρ δ} {o o' : Outcome} :
      Runs body t .thrown → (binding, handler) ∈ handlers.clauses →
      Performs (bindSteps binding.toList) t' .normal → Runs handler t'' o → o ≠ .stopped →
      Runs (whenPresent hasCleanup cleanup) t₃ o' →
      Runs (.tryCatch location body handlers hasCleanup cleanup)
        (t ++ (t' ++ (t'' ++ (cleanupEvent hasCleanup location ++ t₃)))) (o'.orElse o)

theorem Outcome.orElse_ne_normal {o o' : Outcome} (h : o ≠ .normal ∨ o' ≠ .normal) :
    o.orElse o' ≠ .normal := by
  cases o with
  | normal => exact h.elim (fun h => absurd rfl h) id
  | broke | continued | returned | thrown | stopped => exact Outcome.noConfusion

end Cwhip.Lang
