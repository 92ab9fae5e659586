/-
  Cwhip.CodeGen.Emission

  The control flow the generator emits for a method body
  (`CodeGeneratorStatements.cpp`, `CodeGeneratorExceptions.cpp`, and what
  `CodeGenerator.cpp` and `CodeGeneratorPrint.cpp` branch for inside an
  expression).

  The output is a list of lines, as in `instructions_`: labels, terminators, and
  other instructions, which are not told apart but for those on exception frames.
  Expressions and statements are taken as far as they decide where a block ends.
-/

import Cwhip.Lib.Except

namespace Cwhip.CodeGen.Emission

open Cwhip.Lib

/-! ## Lines -/

/-- What `freshLabel` makes. -/
structure Label where
  name : String
  number : Nat
  deriving DecidableEq, Repr

/-- An instruction that goes on to the next line. -/
inductive Instruction where
  | exceptionPush (frame : Nat)
  | exceptionPop (frame : Nat)
  | exceptionClear (frame : Nat)
  | exceptionRethrow (frame : Nat)
  | other
  deriving DecidableEq, Repr

/-- An instruction that ends its block. -/
inductive Terminator where
  | br (targets : List Label)
  | ret (hasValue : Bool)
  | unreachable
  deriving DecidableEq, Repr

/-- A line of `instructions_`. -/
inductive Line where
  | label (label : Label)
  | instruction (instruction : Instruction)
  | terminator (terminator : Terminator)
  deriving DecidableEq, Repr

/-- A branch to one label. -/
def br (target : Label) : Line := .terminator (.br [target])

/-- A conditional branch. -/
def brIf (first second : Label) : Line := .terminator (.br [first, second])

/-- Straight-line code of any length. -/
def other : Line := .instruction .other

/-- `nextLabel_` and `nextExceptionFrame_`. -/
structure Counters where
  nextLabel : Nat
  nextExceptionFrame : Nat
  deriving DecidableEq, Repr

/-- The label that one more `freshLabel` gives, after some others. -/
def Counters.label (c : Counters) (name : String) (others : Nat) : Label :=
    ⟨name, c.nextLabel + others⟩

/-- After some calls of `freshLabel`. -/
def Counters.labels (c : Counters) (count : Nat) : Counters :=
  { c with nextLabel := c.nextLabel + count }

/-! ## Expressions -/

/-- The operand type of an arithmetic operator. -/
inductive Numeric where
  | int
  | unsigned
  | float
  deriving DecidableEq, Repr

/-- An arithmetic operator. -/
inductive Arithmetic where
  | add
  | subtract
  | multiply
  | divide
  | remainder
  deriving DecidableEq, Repr

/-- An expression, as far as its code branches. -/
inductive Expression where
  /-- No operand: literals, names. -/
  | leaf
  /-- Operands in order, then straight-line code: calls, member access,
      comparisons, everything not below. -/
  | operation (left right : Expression)
  | arithmetic (operator : Arithmetic) (type : Numeric) (left right : Expression)
  /-- `&&` (a conjunction) or `||`. -/
  | logical (conjunction : Bool) (left right : Expression)
  /-- A numeric cast; `checked` where the range of the target is. -/
  | cast (checked : Bool) (operand : Expression)
  /-- `typeof` of a value that may be null without being an object. -/
  | typeOf (nullable : Bool) (operand : Expression)
  deriving DecidableEq, Repr

/-- `emitArithmeticOperation`, on operands already emitted. -/
def emitArithmeticOperation (operator : Arithmetic) (type : Numeric) (c : Counters) :
    List Line × Counters :=
  if type ≠ .float ∧ (operator = .divide ∨ operator = .remainder) then
    let failureLabel := c.label "division.zero" 0
    let successLabel := c.label "division.ok" 1
    let zeroCheck := [other, brIf failureLabel successLabel, .label failureLabel, other,
      .terminator .unreachable, .label successLabel]
    if type = .int then
      let overflowLabel := c.label "division.overflow" 2
      let divisionLabel := c.label "division.valid" 3
      (zeroCheck ++ [other, brIf overflowLabel divisionLabel, .label overflowLabel, other,
        .terminator .unreachable, .label divisionLabel, other], c.labels 4)
    else
      (zeroCheck ++ [other], c.labels 2)
  else
    ([other], c)

/-- `emitExpression`. -/
def emitExpression (c : Counters) : Expression → List Line × Counters
  | .leaf => ([other], c)
  | .operation left right =>
    let (leftLines, c) := emitExpression c left
    let (rightLines, c) := emitExpression c right
    (leftLines ++ rightLines ++ [other], c)
  | .arithmetic operator type left right =>
    let (leftLines, c) := emitExpression c left
    let (rightLines, c) := emitExpression c right
    let (lines, c) := emitArithmeticOperation operator type c
    (leftLines ++ rightLines ++ lines, c)
  | .logical conjunction left right =>
    let (leftLines, c) := emitExpression c left
    let rightLabel := c.label (if conjunction then "and.right" else "or.right") 0
    let shortLabel := c.label (if conjunction then "and.false" else "or.true") 1
    let endLabel := c.label (if conjunction then "and.end" else "or.end") 2
    let branch := if conjunction then brIf rightLabel shortLabel else brIf shortLabel rightLabel
    let (rightLines, c) := emitExpression (c.labels 3) right
    (leftLines ++ [branch, .label shortLabel, other, br endLabel, .label rightLabel] ++ rightLines
      ++ [other, br endLabel, .label endLabel, other], c)
  | .cast checked operand =>
    let (lines, c) := emitExpression c operand
    if checked then
      let validLabel := c.label "cast.valid" 0
      let invalidLabel := c.label "cast.invalid" 1
      (lines ++ [other, brIf validLabel invalidLabel, .label invalidLabel, other,
        .terminator .unreachable, .label validLabel, other], c.labels 2)
    else
      (lines ++ [other], c)
  | .typeOf nullable operand =>
    let (lines, c) := emitExpression c operand
    if nullable then
      let nullLabel := c.label "type.null" 0
      let valueLabel := c.label "type.value" 1
      let endLabel := c.label "type.end" 2
      (lines ++ [other, brIf nullLabel valueLabel, .label nullLabel, other, br endLabel,
        .label valueLabel, other, br endLabel, .label endLabel, other], c.labels 3)
    else
      (lines ++ [other], c)

/-- Expressions one after the other. -/
def emitExpressions (c : Counters) : List Expression → List Line × Counters
  | [] => ([], c)
  | first :: rest =>
    let (lines, c) := emitExpression c first
    let (restLines, c) := emitExpressions c rest
    (lines ++ restLines, c)

/-- The expression of a statement that may have none. -/
def emitOptional (c : Counters) : Option Expression → List Line × Counters
  | none => ([], c)
  | some e => emitExpression c e

/-! ## Printing -/

/-- The static type of a printed value. -/
inductive Printed where
  /-- `int`, `unsigned`, `float`. -/
  | number
  | bool
  | string
  | type
  | any
  deriving DecidableEq, Repr

/-- `emitPrintValue` of a value that is not a dynamic one and has no null flag. -/
def emitPrintStatic (c : Counters) : Printed → List Line × Counters
  | .bool =>
    let trueLabel := c.label "print.bool.true" 0
    let falseLabel := c.label "print.bool.false" 1
    let endLabel := c.label "print.bool.end" 2
    ([brIf trueLabel falseLabel, .label trueLabel, other, br endLabel, .label falseLabel, other,
      br endLabel, .label endLabel], c.labels 3)
  | .string | .type =>
    let nullLabel := c.label "print.string.null" 0
    let dataLabel := c.label "print.string.data" 1
    let endLabel := c.label "print.string.end" 2
    ([other, brIf nullLabel dataLabel, .label nullLabel, other, br endLabel,
      .label dataLabel, other, br endLabel, .label endLabel], c.labels 3)
  | .number | .any => ([other], c)

/-- `emitPrintDynamicValue`. -/
def emitPrintDynamicValue (c : Counters) : List Line × Counters :=
  let intLabel := c.label "print.any.int" 0
  let stringLabel := c.label "print.any.string" 1
  let boolLabel := c.label "print.any.bool" 2
  let floatLabel := c.label "print.any.float" 3
  let unsignedLabel := c.label "print.any.unsigned" 4
  let objectLabel := c.label "print.any.object" 5
  let nullLabel := c.label "print.any.null" 6
  let instanceLabel := c.label "print.any.instance" 7
  let invalidLabel := c.label "print.any.invalid" 8
  let endLabel := c.label "print.any.end" 9
  let (boolLines, c) := emitPrintStatic (c.labels 10) .bool
  let (floatLines, c) := emitPrintStatic c .number
  let (unsignedLines, c) := emitPrintStatic c .number
  let stringObjectLabel := c.label "print.any.string.object" 0
  let otherObjectLabel := c.label "print.any.other.object" 1
  let (objectLines, c) := emitPrintStatic (c.labels 2) .string
  ([other, .terminator (.br [objectLabel, intLabel, stringLabel, stringLabel, boolLabel, floatLabel,
      unsignedLabel, invalidLabel, invalidLabel]), .label intLabel, other, br endLabel,
        .label boolLabel,
      other] ++ boolLines ++ [br endLabel, .label floatLabel, other] ++ floatLines
    ++ [br endLabel, .label unsignedLabel, other] ++ unsignedLines
    ++ [br endLabel, .label stringLabel, other, br endLabel, .label invalidLabel, other,
      .terminator .unreachable, .label objectLabel, other, brIf nullLabel instanceLabel,
        .label nullLabel,
      other, br endLabel, .label instanceLabel, other, brIf stringObjectLabel otherObjectLabel,
      .label stringObjectLabel] ++ objectLines
    ++ [br endLabel, .label otherObjectLabel, other, br endLabel, .label endLabel], c)

/-- `emitPrintValue`; `nullFlag` for a scalar local that tracks null. -/
def emitPrintValue (c : Counters) (nullFlag : Bool) (printed : Printed) : List Line × Counters :=
  if nullFlag then
    let nullLabel := c.label "print.scalar.null" 0
    let valueLabel := c.label "print.scalar.value" 1
    let endLabel := c.label "print.scalar.end" 2
    let (lines, c) :=
      if printed = .any then emitPrintDynamicValue (c.labels 3)
        else emitPrintStatic (c.labels 3) printed
    ([brIf nullLabel valueLabel, .label nullLabel, other, br endLabel, .label valueLabel] ++ lines
      ++ [br endLabel, .label endLabel], c)
  else if printed = .any then emitPrintDynamicValue c
  else emitPrintStatic c printed

/-! ## Statements -/

/-- A statement without statements inside that does not end its block. -/
inductive Simple where
  | declaration (initializer : Option Expression)
  /-- The expressions of the target, then the value; a compound assignment
      combines the old value with it. -/
  | assignment (target : List Expression) (compound : Option (Arithmetic × Numeric))
      (value : Expression)
  /-- `print()` and the print of a string literal have no value. -/
  | print (value : Option (Expression × Bool × Printed))
  | expression (expression : Expression)
  /-- `none` where no call is made here: a virtual base, or one without constructors. -/
  | superConstructorCall (arguments : Option (List Expression))
  | inlineC
  deriving DecidableEq, Repr

/-- The code of a simple statement. -/
def emitSimple (c : Counters) : Simple → List Line × Counters
  | .declaration initializer =>
    let (lines, c) := emitOptional c initializer
    ([other] ++ lines ++ [other], c)
  | .assignment target compound value =>
    let (targetLines, c) := emitExpressions c target
    let (valueLines, c) := emitExpression c value
    let (lines, c) := match compound with
      | some (operator, type) => emitArithmeticOperation operator type c
      | none => ([], c)
    (targetLines ++ [other] ++ valueLines ++ lines ++ [other], c)
  | .print none => ([other], c)
  | .print (some (value, nullFlag, printed)) =>
    let (lines, c) := emitExpression c value
    let (printLines, c) := emitPrintValue c nullFlag printed
    (lines ++ printLines, c)
  | .expression e => emitExpression c e
  | .superConstructorCall none => ([], c)
  | .superConstructorCall (some arguments) =>
    let (lines, c) := emitExpressions c arguments
    ([other] ++ lines ++ [other], c)
  | .inlineC => ([other], c)

/-- The virtual bases of a class, each with the arguments of its constructor, or
    `none` where it has none. -/
abbrev VirtualBases := List (Option (List Expression))

/-- The loop of `emitVirtualBaseInitializers`. -/
def emitVirtualBases (c : Counters) : VirtualBases → List Line × Counters
  | [] => ([], c)
  | none :: rest => emitVirtualBases c rest
  | some arguments :: rest =>
    let (lines, c) := emitExpressions c arguments
    let (restLines, c) := emitVirtualBases c rest
    ([other] ++ lines ++ [other] ++ restLines, c)

/-- `emitVirtualBaseInitializers`. -/
def emitVirtualBaseInitializers (c : Counters) (bases : VirtualBases) : List Line × Counters :=
  if bases = [] then ([], c)
  else
    let initializeLabel := c.label "virtual.initialize" 0
    let endLabel := c.label "virtual.initialize.end" 1
    let (lines, c) := emitVirtualBases (c.labels 2) bases
    ([brIf initializeLabel endLabel, .label initializeLabel] ++ lines ++ [br endLabel,
      .label endLabel], c)

def emitInitialization (c : Counters) : Option VirtualBases → List Line × Counters
  | none => ([], c)
  | some bases => emitVirtualBaseInitializers c bases

mutual

/-- A statement, or a vector of statements: a chain of `next` ended by `skip`. -/
inductive Statement where
  | skip
  | next (first rest : Statement)
  | simple (s : Simple)
  | block (body : Statement)
  | ifElse (condition : Expression) (body : Statement) (hasAlternate : Bool) (alternate : Statement)
  | whileLoop (condition : Expression) (body : Statement)
  | doWhile (body : Statement) (condition : Expression)
  | forEach (collection : Expression) (body : Statement)
  | breakLoop
  | continueLoop
  | returnValue (value : Option Expression)
  /-- `raise e`, or `raise()` of the handled exception. -/
  | raise (exception : Option Expression)
  /-- `initialization` where the statement is the constructor's protected
      initialization, with the virtual bases of the class.  Without `finally` the
      cleanup is `skip`. -/
  | tryCatch (initialization : Option VirtualBases) (body : Statement) (handlers : Handlers)
      (hasCleanup : Bool) (cleanup : Statement)

/-- The `except` clauses. -/
inductive Handlers where
  | none
  | except (catchAll hasBinding : Bool) (body : Statement) (rest : Handlers)

end

mutual

/-- `canFallThrough` (`SemanticAnalyzer.cpp`). -/
def Statement.canFallThrough : Statement → Bool
  | .skip => true
  | .next first rest => first.canFallThrough && rest.canFallThrough
  | .simple _ => true
  | .block body => body.canFallThrough
  | .ifElse _ body hasAlternate alternate =>
    body.canFallThrough || !hasAlternate || alternate.canFallThrough
  | .whileLoop _ _ | .doWhile _ _ | .forEach _ _ => true
  | .breakLoop | .continueLoop | .returnValue _ | .raise _ => false
  | .tryCatch _ body handlers hasCleanup cleanup =>
    if hasCleanup && !cleanup.canFallThrough then false
    else if body.canFallThrough then true
    else handlers.canFallThrough

def Handlers.canFallThrough : Handlers → Bool
  | .none => false
  | .except _ _ body rest => body.canFallThrough || rest.canFallThrough

end

mutual

/-- Every `break` and `continue` is inside a loop (`loopDepth_`). -/
def Statement.transfersInLoops (inLoop : Bool) : Statement → Bool
  | .skip | .simple _ | .returnValue _ | .raise _ => true
  | .next first rest => first.transfersInLoops inLoop && rest.transfersInLoops inLoop
  | .block body => body.transfersInLoops inLoop
  | .ifElse _ body _ alternate => body.transfersInLoops inLoop && alternate.transfersInLoops inLoop
  | .whileLoop _ body | .doWhile body _ | .forEach _ body => body.transfersInLoops true
  | .breakLoop | .continueLoop => inLoop
  | .tryCatch _ body handlers _ cleanup =>
    body.transfersInLoops inLoop && handlers.transfersInLoops inLoop &&
      cleanup.transfersInLoops inLoop

def Handlers.transfersInLoops (inLoop : Bool) : Handlers → Bool
  | .none => true
  | .except _ _ body rest => body.transfersInLoops inLoop && rest.transfersInLoops inLoop

end

/-! ## Emission -/

/-- Why emission fails. -/
inductive Fault where
  | breakOutsideLoop
  | continueOutsideLoop
  deriving DecidableEq, Repr

/-- An entry of `loopTargets_`. -/
structure LoopTarget where
  breakLabel : Label
  continueLabel : Label
  tryDepth : Nat
  deriving DecidableEq, Repr

/-- What a statement adds to the output, and `blockTerminated_` after it. -/
structure Output where
  lines : List Line
  counters : Counters
  blockTerminated : Bool
  deriving DecidableEq, Repr

/-- An entry of `activeTryTransfers_`.  Under it the stack is always as it was at
    its `try` statement, so the entry keeps the emitter of the cleanup there; only
    the loops around the transfer differ. -/
structure TryTransfer where
  exceptionFrame : Nat
  handledExceptionFrame : Option Nat
  cleanup : Option (List LoopTarget → Counters → Except Fault Output)

/-- `activeTryTransfers_` and `loopTargets_`, innermost first. -/
structure Context where
  activeTryTransfers : List TryTransfer
  loopTargets : List LoopTarget

/-- Pop the frame of a transfer and clear the one it handles. -/
def TryTransfer.frameLines (active : TryTransfer) : List Line :=
  .instruction (.exceptionPop active.exceptionFrame) ::
    match active.handledExceptionFrame with
    | some handled => [.instruction (.exceptionClear handled), other]
    | none => []

/-- Leave some `try` statements, the innermost first: its frames, then its cleanup. -/
def emitTransfers (loopTargets : List LoopTarget) (c : Counters) :
    List TryTransfer → Except Fault Output
  | [] => .ok ⟨[], c, false⟩
  | active :: outer =>
    match active.cleanup with
    | some cleanup => do
      let out ← cleanup loopTargets c
      if out.blockTerminated then
        return { out with lines := active.frameLines ++ out.lines }
      let rest ← emitTransfers loopTargets out.counters outer
      return { rest with lines := active.frameLines ++ out.lines ++ rest.lines }
    | none => do
      let rest ← emitTransfers loopTargets c outer
      return { rest with lines := active.frameLines ++ rest.lines }

/-- `emitLoopTransfer`. -/
def emitLoopTransfer (isBreak : Bool) (context : Context) (c : Counters) : Except Fault Output :=
  match context.loopTargets with
  | [] => .error (if isBreak then .breakOutsideLoop else .continueOutsideLoop)
  | target :: _ => do
    let leaving := context.activeTryTransfers.take (context.activeTryTransfers.length -
      target.tryDepth)
    let out ← emitTransfers context.loopTargets c leaving
    if out.blockTerminated then
      return out
    let targetLabel := if isBreak then target.breakLabel else target.continueLabel
    return { out with lines := out.lines ++ [br targetLabel], blockTerminated := true }

/-- The rest of a `Return` after its value. -/
def emitReturnTransfer (hasValue : Bool) (context : Context) (c : Counters) : Except Fault Output :=
    do
  let out ← emitTransfers context.loopTargets c context.activeTryTransfers
  if out.blockTerminated then
    return out
  return { out with lines := out.lines ++ [other, .terminator (.ret hasValue)], blockTerminated :=
    true }

/-- The code of a raise after its exception. -/
def raiseLines (c : Counters) : List Line × Counters :=
  let messageNullLabel := c.label "raise.message.null" 0
  let messageBytesLabel := c.label "raise.message.bytes" 1
  let messageEndLabel := c.label "raise.message.end" 2
  ([other, brIf messageNullLabel messageBytesLabel, .label messageBytesLabel, other,
    br messageEndLabel,
    .label messageNullLabel, br messageEndLabel, .label messageEndLabel, other,
      .terminator .unreachable],
    c.labels 3)

/-- `except.match`, one for each handler. -/
def Handlers.labels (c : Counters) : Handlers → List Label
  | .none => []
  | .except _ _ _ rest => c.label "except.match" 0 :: rest.labels (c.labels 1)

/-- The dispatch on the type of the exception: the branches, and whether a
    catch-all ends it. -/
def Handlers.dispatch (c : Counters) (labels : List Label) : Handlers → List Line × Counters × Bool
  | .none => ([], c, false)
  | .except catchAll _ _ rest =>
    let label := labels.headD ⟨"", 0⟩
    if catchAll then ([br label], c, true)
    else
      let nextLabel := c.label "except.next" 0
      let (lines, c, hasCatchAll) := rest.dispatch (c.labels 1) labels.tail
      ([other, brIf label nextLabel, .label nextLabel] ++ lines, c, hasCatchAll)

/-- The end of the exceptional paths: the cleanup, then the rethrow. -/
def emitRethrow (frame : Nat) (cleanup : Counters → Except Fault Output) (c : Counters) :
    Except Fault (List Line × Counters) := do
  let out ← cleanup c
  if out.blockTerminated then
    return (out.lines, out.counters)
  return (out.lines ++ [.instruction (.exceptionRethrow frame), .terminator .unreachable],
    out.counters)

/-- The branch where no handler matches. -/
def emitUnmatched (hasCatchAll : Bool) (frame : Nat) (cleanup : Counters → Except Fault Output)
    (c : Counters) : Except Fault (List Line × Counters) :=
  if hasCatchAll then .ok ([], c) else emitRethrow frame cleanup c

/-- What follows the body of a handler: its code, and whether it reaches the end. -/
def emitHandled (frame catchFrame : Nat) (endLabel : Label)
    (cleanup : Counters → Except Fault Output)
    (handled : Output) : Except Fault (List Line × Counters × Bool) := do
  if handled.blockTerminated then
    return ([], handled.counters, false)
  let out ← cleanup handled.counters
  let ending := if out.blockTerminated then [] else [br endLabel]
  return ([.instruction (.exceptionPop catchFrame), .instruction (.exceptionClear frame), other]
    ++ out.lines ++ ending, out.counters, !out.blockTerminated)

/-- What follows the handlers: the cleanup after the body, then the end label. -/
def emitDone (bodyDoneLabel endLabel : Label) (cleanup : Counters → Except Fault Output)
    (bodyTerminated reached : Bool) (c : Counters) : Except Fault Output := do
  if bodyTerminated then
    return ⟨if reached then [.label endLabel] else [], c, !reached⟩
  let out ← cleanup c
  let ending := if out.blockTerminated then [] else [br endLabel]
  let endReachable := reached || !out.blockTerminated
  return ⟨[.label bodyDoneLabel] ++ out.lines ++ ending
    ++ (if endReachable then [.label endLabel] else []), out.counters, !endReachable⟩

mutual

/-- `emitStatement`, and `emitStatements` on a chain. -/
def emitStatement (context : Context) (c : Counters) : Statement → Except Fault Output
  | .skip => .ok ⟨[], c, false⟩
  | .next first rest => do
    let out ← emitStatement context c first
    if out.blockTerminated then
      return out
    let restOut ← emitStatement context out.counters rest
    return { restOut with lines := out.lines ++ restOut.lines }
  | .simple s =>
    let (lines, c) := emitSimple c s
    .ok ⟨lines, c, false⟩
  | .block body => emitStatement context c body
  | .ifElse condition body hasAlternate alternate => do
    let (conditionLines, c) := emitExpression c condition
    let thenLabel := c.label "if.then" 0
    let elseLabel := c.label "if.else" 1
    let endLabel := c.label "if.end" 2
    let thenOut ← emitStatement context (c.labels 3) body
    let thenEnd := if thenOut.blockTerminated then [] else [br endLabel]
    let start := conditionLines ++ [brIf thenLabel (if hasAlternate then elseLabel else endLabel),
      .label thenLabel] ++ thenOut.lines ++ thenEnd
    if hasAlternate then
      let elseOut ← emitStatement context thenOut.counters alternate
      let elseEnd := if elseOut.blockTerminated then [] else [br endLabel]
      let both := thenOut.blockTerminated && elseOut.blockTerminated
      return ⟨start ++ [.label elseLabel] ++ elseOut.lines ++ elseEnd ++ [.label endLabel]
        ++ (if both then [.terminator .unreachable] else []), elseOut.counters, both⟩
    else
      return ⟨start ++ [.label endLabel], thenOut.counters, false⟩
  | .whileLoop condition body => do
    let conditionLabel := c.label "while.cond" 0
    let bodyLabel := c.label "while.body" 1
    let endLabel := c.label "while.end" 2
    let (conditionLines, c) := emitExpression (c.labels 3) condition
    let target : LoopTarget := ⟨endLabel, conditionLabel, context.activeTryTransfers.length⟩
    let out ← emitStatement { context with loopTargets := target :: context.loopTargets } c body
    let bodyEnd := if out.blockTerminated then [] else [br conditionLabel]
    return ⟨[br conditionLabel, .label conditionLabel] ++ conditionLines ++
      [brIf bodyLabel endLabel,
      .label bodyLabel] ++ out.lines ++ bodyEnd ++ [.label endLabel], out.counters, false⟩
  | .doWhile body condition => do
    let bodyLabel := c.label "do.body" 0
    let conditionLabel := c.label "do.cond" 1
    let endLabel := c.label "do.end" 2
    let target : LoopTarget := ⟨endLabel, conditionLabel, context.activeTryTransfers.length⟩
    let out ← emitStatement { context with loopTargets := target :: context.loopTargets }
      (c.labels 3) body
    let bodyEnd := if out.blockTerminated then [] else [br conditionLabel]
    let (conditionLines, c) := emitExpression out.counters condition
    return ⟨[br bodyLabel, .label bodyLabel] ++ out.lines ++ bodyEnd ++ [.label conditionLabel]
      ++ conditionLines ++ [brIf bodyLabel endLabel, .label endLabel], c, false⟩
  | .forEach collection body => do
    let (collectionLines, c) := emitExpression c collection
    let conditionLabel := c.label "foreach.cond" 0
    let bodyLabel := c.label "foreach.body" 1
    let stepLabel := c.label "foreach.step" 2
    let endLabel := c.label "foreach.end" 3
    let target : LoopTarget := ⟨endLabel, stepLabel, context.activeTryTransfers.length⟩
    let out ← emitStatement { context with loopTargets := target :: context.loopTargets }
      (c.labels 4) body
    let bodyEnd := if out.blockTerminated then [] else [br stepLabel]
    return ⟨collectionLines ++ [other, br conditionLabel, .label conditionLabel, other,
      brIf bodyLabel endLabel, .label bodyLabel, other] ++ out.lines ++ bodyEnd ++
        [.label stepLabel, other,
      br conditionLabel, .label endLabel], out.counters, false⟩
  | .breakLoop => emitLoopTransfer true context c
  | .continueLoop => emitLoopTransfer false context c
  | .returnValue value => do
    let (lines, c) := emitOptional c value
    let out ← emitReturnTransfer value.isSome context c
    return { out with lines := lines ++ out.lines }
  | .raise none => .ok ⟨[.instruction .other, .terminator .unreachable], c, true⟩
  | .raise (some exception) =>
    let (lines, c) := emitExpression c exception
    let (messageLines, c) := raiseLines c
    .ok ⟨lines ++ messageLines, c, true⟩
  | .tryCatch initialization body handlers hasCleanup cleanup => do
    let emitCleanup (loopTargets : List LoopTarget) (c : Counters) :=
      emitStatement { context with loopTargets } c cleanup
    let frame := c.nextExceptionFrame
    let bodyLabel := c.label "try.body" 0
    let exceptionLabel := c.label "try.exception" 1
    let endLabel := c.label "try.end" 2
    let bodyDoneLabel := c.label "try.body.done" 3
    let c := { c.labels 4 with nextExceptionFrame := frame + 1 }
    let transfer : TryTransfer := ⟨frame, none, if hasCleanup then some emitCleanup else none⟩
    let (initializationLines, c) := emitInitialization c initialization
    let bodyOut ← emitStatement
      { context with activeTryTransfers := transfer :: context.activeTryTransfers } c body
    let bodyEnd : List Line := if bodyOut.blockTerminated then []
      else [.instruction (.exceptionPop frame), br bodyDoneLabel]
    let start := [other, brIf bodyLabel exceptionLabel, .label bodyLabel,
        .instruction (.exceptionPush frame)] ++ initializationLines ++ bodyOut.lines ++ bodyEnd
      ++ [.label exceptionLabel, other]
    let handlerLabels := handlers.labels bodyOut.counters
    let (dispatchLines, c, hasCatchAll) :=
      handlers.dispatch (bodyOut.counters.labels handlerLabels.length) handlerLabels
    let cleanupHere (c : Counters) : Except Fault Output :=
      if hasCleanup then emitCleanup context.loopTargets c else .ok ⟨[], c, false⟩
    let (unmatchedLines, c) ← emitUnmatched hasCatchAll frame cleanupHere c
    let (handlerLines, c, reached) ←
      emitHandlers context frame endLabel transfer.cleanup cleanupHere handlerLabels c handlers
    let done ← emitDone bodyDoneLabel endLabel cleanupHere bodyOut.blockTerminated reached c
    return { done with lines := start ++ dispatchLines ++ unmatchedLines ++ handlerLines ++
      done.lines }

/-- The handlers of a `try`: their code, and whether one reaches the end. -/
def emitHandlers (context : Context) (frame : Nat) (endLabel : Label)
    (cleanup : Option (List LoopTarget → Counters → Except Fault Output))
    (cleanupHere : Counters → Except Fault Output) (labels : List Label) (c : Counters) :
    Handlers → Except Fault (List Line × Counters × Bool)
  | .none => .ok ([], c, false)
  | .except _ _ body rest => do
    let label := labels.headD ⟨"", 0⟩
    let catchFrame := c.nextExceptionFrame
    let catchBodyLabel := c.label "except.body" 0
    let catchErrorLabel := c.label "except.exception" 1
    let c := { c.labels 2 with nextExceptionFrame := catchFrame + 1 }
    let transfer : TryTransfer := ⟨catchFrame, some frame, cleanup⟩
    let out ← emitStatement
      { context with activeTryTransfers := transfer :: context.activeTryTransfers } c body
    let start := [.label label, other, brIf catchBodyLabel catchErrorLabel, .label catchBodyLabel,
      .instruction (.exceptionPush catchFrame), other] ++ out.lines
    let (normalLines, c, reached) ← emitHandled frame catchFrame endLabel cleanupHere out
    let (errorLines, c) ← emitRethrow catchFrame cleanupHere c
    let (restLines, c, restReached) ←
      emitHandlers context frame endLabel cleanup cleanupHere labels.tail c rest
    return (start ++ normalLines ++ [.label catchErrorLabel, other,
      .instruction (.exceptionClear frame),
      other] ++ errorLines ++ restLines, c, reached || restReached)

end

/-! ## Methods -/

/-- A method, as far as its code branches. -/
structure Method where
  constructor : Bool
  externalBinding : Bool
  returnsVoid : Bool
  virtualBases : VirtualBases
  body : Statement

/-- `method.body.front().protectedConstructorInitialization`. -/
def Statement.startsProtected : Statement → Bool
  | .next (.tryCatch (some _) _ _ _ _) _ => true
  | _ => false

/-- What the analyzer checks of the control flow of a body (`analyzeMethod`). -/
def Method.flowAccepted (m : Method) : Bool :=
  m.externalBinding || (m.body.transfersInLoops false && (m.returnsVoid || !m.body.canFallThrough))

/-- The virtual bases that a constructor initializes before its body. -/
def Method.initializerLines (m : Method) : List Line × Counters :=
  if m.constructor && !m.body.startsProtected then emitVirtualBaseInitializers ⟨0, 0⟩ m.virtualBases
  else ([], ⟨0, 0⟩)

/-- The code of a method before the final `ret void`; a bound method calls its C function. -/
def emitBody (m : Method) : Except Fault Output :=
  if m.externalBinding then
    .ok ⟨other :: m.initializerLines.1 ++ [other, .terminator (.ret (!m.returnsVoid))],
      m.initializerLines.2, true⟩
  else do
    let out ← emitStatement ⟨[], []⟩ m.initializerLines.2 m.body
    return { out with lines := other :: m.initializerLines.1 ++ out.lines }

/-- `emitMethod`, from the end of the entry label on. -/
def emitMethod (m : Method) : Except Fault (List Line) := do
  let out ← emitBody m
  if out.blockTerminated then
    return out.lines
  return out.lines ++ [other, .terminator (.ret false)]

end Cwhip.CodeGen.Emission
