/-
  Cwhip.CodeGen.FallThrough

  The generator's `blockTerminated_` after a statement is the negation of the
  analyzer's `canFallThrough`, and the code of a method is a sequence of blocks
  that each end in one terminator.

  `flow` reads lines with one bit of state: whether a block is open.  Code that
  is read to the end and leaves the bit as the generator thinks `Flows`.
-/

import Cwhip.CodeGen.Emission

namespace Cwhip.CodeGen.Emission

open Cwhip.Lib

/-! ## Open and closed blocks -/

/-- Read lines in an open or closed block; `none` where one cannot stand. -/
def flow : Bool → List Line → Option Bool
  | isOpen, [] => some isOpen
  | true, .instruction _ :: rest => flow true rest
  | true, .terminator _ :: rest => flow false rest
  | false, .label _ :: rest => flow true rest
  | _, _ => none

/-- Lines follow one another where the first leave the block. -/
theorem flow_append (isOpen : Bool) (lines lines' : List Line) :
    flow isOpen (lines ++ lines') = (flow isOpen lines).bind fun isOpen => flow isOpen lines' := by
  induction lines generalizing isOpen with
  | nil => rfl
  | cons line rest ih =>
    cases isOpen <;> cases line <;> simp [flow, ih]

/-- Code after which the block is open exactly if it is not marked terminated. -/
def Flows (out : Output) : Prop := flow true out.lines = some (!out.blockTerminated)

@[simp] theorem flow_nil (isOpen : Bool) : flow isOpen [] = some isOpen := by
  cases isOpen <;> rfl

@[simp] theorem flow_instruction (instruction : Instruction) (rest : List Line) :
    flow true (.instruction instruction :: rest) = flow true rest := rfl

@[simp] theorem flow_other (rest : List Line) : flow true (other :: rest) = flow true rest := rfl

@[simp] theorem flow_terminator (terminator : Terminator) (rest : List Line) :
    flow true (.terminator terminator :: rest) = flow false rest := rfl

@[simp] theorem flow_br (target : Label) (rest : List Line) :
    flow true (br target :: rest) = flow false rest := rfl

@[simp] theorem flow_brIf (first second : Label) (rest : List Line) :
    flow true (brIf first second :: rest) = flow false rest := rfl

@[simp] theorem flow_label (label : Label) (rest : List Line) :
    flow false (.label label :: rest) = flow true rest := rfl

/-! ## Expressions and simple statements -/

theorem emitArithmeticOperation_flow (operator : Arithmetic) (type : Numeric) (c : Counters) :
    flow true (emitArithmeticOperation operator type c).1 = some true := by
  unfold emitArithmeticOperation
  split
  · split <;> simp
  · simp

/-- An expression leaves the block open that it began in. -/
theorem emitExpression_flow (c : Counters) (e : Expression) :
    flow true (emitExpression c e).1 = some true := by
  induction e generalizing c with
  | leaf => rfl
  | operation left right hleft hright => simp [emitExpression, flow_append, hleft, hright]
  | arithmetic operator type left right hleft hright =>
    simp [emitExpression, flow_append, hleft, hright, emitArithmeticOperation_flow]
  | logical conjunction left right hleft hright =>
    cases conjunction <;> simp [emitExpression, flow_append, hleft, hright]
  | cast checked operand ih => cases checked <;> simp [emitExpression, flow_append, ih]
  | typeOf nullable operand ih => cases nullable <;> simp [emitExpression, flow_append, ih]

theorem emitExpressions_flow (c : Counters) (expressions : List Expression) :
    flow true (emitExpressions c expressions).1 = some true := by
  induction expressions generalizing c with
  | nil => rfl
  | cons first rest ih => simp [emitExpressions, flow_append, emitExpression_flow, ih]

theorem emitOptional_flow (c : Counters) (e : Option Expression) :
    flow true (emitOptional c e).1 = some true := by
  cases e with
  | none => rfl
  | some e => exact emitExpression_flow c e

theorem emitPrintStatic_flow (c : Counters) (printed : Printed) :
    flow true (emitPrintStatic c printed).1 = some true := by
  cases printed <;> rfl

theorem emitPrintDynamicValue_flow (c : Counters) : flow true (emitPrintDynamicValue c).1 =
    some true := by
  simp [emitPrintDynamicValue, flow_append, emitPrintStatic_flow]

theorem emitPrintValue_flow (c : Counters) (nullFlag : Bool) (printed : Printed) :
    flow true (emitPrintValue c nullFlag printed).1 = some true := by
  by_cases hany : printed = .any
  · cases nullFlag <;> simp [emitPrintValue, hany, flow_append, emitPrintDynamicValue_flow]
  · cases nullFlag <;> simp [emitPrintValue, hany, flow_append, emitPrintStatic_flow]

/-- So does a simple statement. -/
theorem emitSimple_flow (c : Counters) (s : Simple) : flow true (emitSimple c s).1 = some true := by
  cases s with
  | declaration initializer => simp [emitSimple, flow_append, emitOptional_flow]
  | assignment target compound value =>
    cases compound with
    | none => simp [emitSimple, flow_append, emitExpressions_flow, emitExpression_flow]
    | some compound =>
      simp [emitSimple, flow_append, emitExpressions_flow, emitExpression_flow,
        emitArithmeticOperation_flow]
  | print value =>
    cases value with
    | none => rfl
    | some value => simp [emitSimple, flow_append, emitExpression_flow, emitPrintValue_flow]
  | expression e => exact emitExpression_flow c e
  | superConstructorCall arguments =>
    cases arguments with
    | none => rfl
    | some arguments => simp [emitSimple, flow_append, emitExpressions_flow]
  | inlineC => rfl

theorem emitVirtualBases_flow (c : Counters) (bases : VirtualBases) :
    flow true (emitVirtualBases c bases).1 = some true := by
  induction bases generalizing c with
  | nil => rfl
  | cons base rest ih =>
    cases base with
    | none => exact ih c
    | some arguments => simp [emitVirtualBases, flow_append, emitExpressions_flow, ih]

theorem emitVirtualBaseInitializers_flow (c : Counters) (bases : VirtualBases) :
    flow true (emitVirtualBaseInitializers c bases).1 = some true := by
  unfold emitVirtualBaseInitializers
  split
  · rfl
  · simp [flow_append, emitVirtualBases_flow]

theorem emitInitialization_flow (c : Counters) (initialization : Option VirtualBases) :
    flow true (emitInitialization c initialization).1 = some true := by
  cases initialization with
  | none => rfl
  | some bases => exact emitVirtualBaseInitializers_flow c bases

/-! ## Transfers -/

/-- The cleanup of a transfer is emitted well, wherever it is emitted. -/
def CleanupFlows (cleanup : Option (List LoopTarget → Counters → Except Fault Output)) : Prop :=
  ∀ emit, cleanup = some emit → ∀ loopTargets c out, emit loopTargets c = .ok out → Flows out

/-- So are those of all active transfers. -/
def ContextFlows (context : Context) : Prop :=
  ∀ transfer ∈ context.activeTryTransfers, CleanupFlows transfer.cleanup

@[simp] theorem TryTransfer.flow_frameLines (active : TryTransfer) (rest : List Line) :
    flow true (active.frameLines ++ rest) = flow true rest := by
  unfold TryTransfer.frameLines
  split <;> simp

variable {c : Counters} {out : Output} {context : Context} {frame : Nat}
  {cleanup : Counters → Except Fault Output} {terminates : Bool}

/-- The cleanups of a transfer follow one another until one ends the block. -/
theorem emitTransfers_flows {loopTargets : List LoopTarget} {transfers : List TryTransfer}
    (h : ∀ transfer ∈ transfers, CleanupFlows transfer.cleanup)
    (hemit : emitTransfers loopTargets c transfers = .ok out) : Flows out := by
  induction transfers generalizing c out with
  | nil =>
    obtain rfl := Except.ok.inj hemit
    rfl
  | cons active outer ih =>
    have houter : ∀ transfer ∈ outer, CleanupFlows transfer.cleanup :=
      fun transfer htransfer => h transfer (List.mem_cons_of_mem _ htransfer)
    simp only [emitTransfers] at hemit
    cases hcleanup : active.cleanup with
    | none =>
      simp only [hcleanup, bind_eq_ok, pure_eq_ok] at hemit
      obtain ⟨rest, hrest, rfl⟩ := hemit
      show flow true (active.frameLines ++ rest.lines) = _
      rw [active.flow_frameLines]
      exact ih houter hrest
    | some cleanup =>
      simp only [hcleanup, bind_eq_ok] at hemit
      obtain ⟨cleaned, hcleaned, hemit⟩ := hemit
      have hflows := h active List.mem_cons_self cleanup hcleanup _ _ _ hcleaned
      split at hemit
      · rw [pure_eq_ok] at hemit
        subst hemit
        show flow true (active.frameLines ++ cleaned.lines) = _
        rw [active.flow_frameLines]
        exact hflows
      · next hopen =>
        simp only [bind_eq_ok, pure_eq_ok] at hemit
        obtain ⟨rest, hrest, rfl⟩ := hemit
        rw [Bool.not_eq_true] at hopen
        show flow true (active.frameLines ++ cleaned.lines ++ rest.lines) = _
        rw [List.append_assoc, active.flow_frameLines, flow_append, hflows, hopen]
        exact ih houter hrest

/-- `break` and `continue` end the block. -/
theorem emitLoopTransfer_flows {isBreak : Bool} (h : ContextFlows context)
    (hemit : emitLoopTransfer isBreak context c = .ok out) :
    Flows out ∧ out.blockTerminated = true := by
  unfold emitLoopTransfer at hemit
  split at hemit
  · cases hemit
  · simp only [bind_eq_ok] at hemit
    obtain ⟨left, hleft, hemit⟩ := hemit
    have hflows := emitTransfers_flows (fun transfer htransfer =>
      h transfer (List.mem_of_mem_take htransfer))
      hleft
    split at hemit
    · next hterminated =>
      rw [pure_eq_ok] at hemit
      exact hemit ▸ ⟨hflows, hterminated⟩
    · next hopen =>
      rw [pure_eq_ok] at hemit
      subst hemit
      refine ⟨?_, rfl⟩
      rw [Bool.not_eq_true] at hopen
      rw [Flows, hopen] at hflows
      simp [Flows, flow_append, hflows]

/-- So does `return`. -/
theorem emitReturnTransfer_flows {hasValue : Bool} (h : ContextFlows context)
    (hemit : emitReturnTransfer hasValue context c = .ok out) :
    Flows out ∧ out.blockTerminated = true := by
  simp only [emitReturnTransfer, bind_eq_ok] at hemit
  obtain ⟨left, hleft, hemit⟩ := hemit
  have hflows := emitTransfers_flows h hleft
  split at hemit
  · next hterminated =>
    rw [pure_eq_ok] at hemit
    exact hemit ▸ ⟨hflows, hterminated⟩
  · next hopen =>
    rw [pure_eq_ok] at hemit
    subst hemit
    refine ⟨?_, rfl⟩
    rw [Bool.not_eq_true] at hopen
    rw [Flows, hopen] at hflows
    simp [Flows, flow_append, hflows]

/-! ## The parts of a `try` -/

/-- A cleanup emitter whose code flows, and ends its block as stated. -/
def Cleans (emit : Counters → Except Fault Output) (terminates : Bool) : Prop :=
  ∀ c out, emit c = .ok out → Flows out ∧ out.blockTerminated = terminates

/-- The tests of the handlers leave the block open exactly without a catch-all. -/
theorem Handlers.dispatch_flow (handlers : Handlers) (c : Counters) (labels : List Label) :
    flow true (handlers.dispatch c labels).1 = some (!(handlers.dispatch c labels).2.2) := by
  match handlers with
  | .none => rfl
  | .except catchAll _ _ rest =>
    have ih := rest.dispatch_flow (c.labels 1) labels.tail
    cases catchAll with
    | true => rfl
    | false => simpa [Handlers.dispatch] using ih

theorem emitRethrow_flow {result : List Line × Counters} (hcleans : Cleans cleanup terminates)
    (hemit : emitRethrow frame cleanup c = .ok result) : flow true result.1 = some false := by
  simp only [emitRethrow, bind_eq_ok] at hemit
  obtain ⟨out, hout, hemit⟩ := hemit
  have hflows := (hcleans c out hout).1
  split at hemit
  · next hterminated =>
    rw [pure_eq_ok] at hemit
    subst hemit
    rw [Flows, hterminated] at hflows
    exact hflows
  · next hopen =>
    rw [pure_eq_ok] at hemit
    subst hemit
    rw [Bool.not_eq_true] at hopen
    rw [Flows, hopen] at hflows
    simp [flow_append, hflows]

/-- A branch closes the block where the statement left it open. -/
theorem Flows.closed (h : Flows out) (target : Label) (rest : List Line) :
    flow true (out.lines ++ ((if out.blockTerminated then [] else [br target]) ++ rest)) =
    flow false rest := by
  rw [flow_append, h]
  cases out.blockTerminated <;> simp

theorem emitUnmatched_flow {hasCatchAll : Bool} {result : List Line × Counters}
    (hcleans : Cleans cleanup terminates)
    (hemit : emitUnmatched hasCatchAll frame cleanup c = .ok result) :
    flow (!hasCatchAll) result.1 = some false := by
  unfold emitUnmatched at hemit
  cases hasCatchAll with
  | true =>
    obtain rfl := Except.ok.inj hemit
    rfl
  | false => exact emitRethrow_flow hcleans hemit

/-- Behind its body a handler ends in a closed block. -/
theorem emitHandled_flow {catchFrame : Nat} {endLabel : Label} {handled : Output}
    {result : List Line × Counters × Bool} (hcleans : Cleans cleanup terminates)
    (hemit : emitHandled frame catchFrame endLabel cleanup handled = .ok result) :
    flow (!handled.blockTerminated) result.1 = some false ∧
      result.2.2 = (!handled.blockTerminated && !terminates) := by
  unfold emitHandled at hemit
  cases hhandled : handled.blockTerminated with
  | true =>
    simp only [hhandled, if_true, pure_eq_ok] at hemit
    subst hemit
    exact ⟨rfl, rfl⟩
  | false =>
    simp only [hhandled, Bool.false_eq_true, if_false, bind_eq_ok, pure_eq_ok] at hemit
    obtain ⟨out, hout, rfl⟩ := hemit
    obtain ⟨hflows, hterminates⟩ := hcleans _ _ hout
    refine ⟨?_, by simp [hterminates]⟩
    have hclosed := hflows.closed endLabel []
    rw [List.append_nil] at hclosed
    simpa using hclosed

/-- The end of a `try` is a closed block, whichever part reached it. -/
theorem emitDone_flow {bodyDoneLabel endLabel : Label} {bodyTerminated reached : Bool}
    (hcleans : Cleans cleanup terminates)
    (hemit : emitDone bodyDoneLabel endLabel cleanup bodyTerminated reached c = .ok out) :
    flow false out.lines = some (!out.blockTerminated) ∧
      out.blockTerminated = !(reached || (!bodyTerminated && !terminates)) := by
  unfold emitDone at hemit
  cases bodyTerminated with
  | true =>
    simp only [if_true, pure_eq_ok] at hemit
    subst hemit
    cases reached <;> exact ⟨rfl, rfl⟩
  | false =>
    simp only [Bool.false_eq_true, if_false, bind_eq_ok, pure_eq_ok] at hemit
    obtain ⟨cleaned, hcleaned, rfl⟩ := hemit
    obtain ⟨hflows, hterminates⟩ := hcleans _ _ hcleaned
    refine ⟨?_, by simp [hterminates]⟩
    show flow true (cleaned.lines ++ _ ++ _) = _
    rw [List.append_assoc, hflows.closed]
    cases reached || !cleaned.blockTerminated <;> rfl

/-! ## Statements -/

/-- The output of a statement: its code flows, and the generator and the analyzer
    agree on whether it falls through. -/
def Agrees (s : Statement) (out : Output) : Prop :=
  Flows out ∧ out.blockTerminated = !s.canFallThrough

theorem ContextFlows.inLoop (h : ContextFlows context) (loopTargets : List LoopTarget) :
    ContextFlows { context with loopTargets } := h

theorem ContextFlows.inTry {transfer : TryTransfer} (h : ContextFlows context)
    (htransfer : CleanupFlows transfer.cleanup) :
    ContextFlows { context with activeTryTransfers := transfer :: context.activeTryTransfers } := by
  intro active hactive
  rcases List.mem_cons.mp hactive with rfl | hactive
  · exact htransfer
  · exact h active hactive

mutual

/-- A statement ends its block exactly where the generator says so. -/
theorem emitStatement_agrees {context : Context} {c : Counters} {s : Statement} {out : Output}
    (h : ContextFlows context) (hemit : emitStatement context c s = .ok out) : Agrees s out := by
  match s with
  | .skip =>
    obtain rfl := Except.ok.inj hemit
    exact ⟨rfl, rfl⟩
  | .next first rest =>
    simp only [emitStatement, bind_eq_ok] at hemit
    obtain ⟨firstOut, hfirst, hemit⟩ := hemit
    obtain ⟨hflows, hterminated⟩ := emitStatement_agrees h hfirst
    split at hemit
    · next hclosed =>
      rw [pure_eq_ok] at hemit
      subst hemit
      refine ⟨hflows, ?_⟩
      rw [hterminated, Bool.not_eq_true'] at hclosed
      simp [hterminated, Statement.canFallThrough, hclosed]
    · next hopen =>
      simp only [bind_eq_ok, pure_eq_ok] at hemit
      obtain ⟨restOut, hrest, rfl⟩ := hemit
      obtain ⟨hrestFlows, hrestTerminated⟩ := emitStatement_agrees h hrest
      rw [Bool.not_eq_true] at hopen
      constructor
      · show flow true (firstOut.lines ++ restOut.lines) = _
        rw [flow_append, hflows, hopen]
        exact hrestFlows
      · rw [hopen] at hterminated
        simp [hrestTerminated, Statement.canFallThrough, ← hterminated]
  | .simple s =>
    obtain rfl := Except.ok.inj hemit
    exact ⟨emitSimple_flow c s, rfl⟩
  | .block body => exact emitStatement_agrees h (s := body) hemit
  | .ifElse condition body hasAlternate alternate =>
    simp only [emitStatement, bind_eq_ok] at hemit
    obtain ⟨thenOut, hthen, hemit⟩ := hemit
    obtain ⟨hthenFlows, hthenTerminated⟩ := emitStatement_agrees h hthen
    cases hasAlternate with
    | false =>
      simp only [Bool.false_eq_true, if_false, pure_eq_ok] at hemit
      subst hemit
      refine ⟨?_, by simp [Statement.canFallThrough]⟩
      simp [Flows, flow_append, emitExpression_flow, hthenFlows.closed]
    | true =>
      simp only [if_true, bind_eq_ok, pure_eq_ok] at hemit
      obtain ⟨elseOut, helse, rfl⟩ := hemit
      obtain ⟨helseFlows, helseTerminated⟩ := emitStatement_agrees h helse
      refine ⟨?_, by simp [Statement.canFallThrough, hthenTerminated, helseTerminated]⟩
      simp only [Flows, List.append_assoc]
      rw [flow_append, emitExpression_flow]
      simp only [Option.bind_some, List.cons_append, List.nil_append, flow_brIf, flow_label,
        hthenFlows.closed, helseFlows.closed]
      cases thenOut.blockTerminated && elseOut.blockTerminated <;> rfl
  | .whileLoop condition body =>
    simp only [emitStatement, bind_eq_ok, pure_eq_ok] at hemit
    obtain ⟨bodyOut, hbody, rfl⟩ := hemit
    have hflows := (emitStatement_agrees (h.inLoop _) hbody).1
    refine ⟨?_, rfl⟩
    simp [Flows, flow_append, emitExpression_flow, hflows.closed]
  | .doWhile body condition =>
    simp only [emitStatement, bind_eq_ok, pure_eq_ok] at hemit
    obtain ⟨bodyOut, hbody, rfl⟩ := hemit
    have hflows := (emitStatement_agrees (h.inLoop _) hbody).1
    refine ⟨?_, rfl⟩
    simp only [Flows, List.cons_append, List.nil_append, List.append_assoc, flow_br, flow_label,
      hflows.closed]
    simp [flow_append, emitExpression_flow]
  | .forEach collection body =>
    simp only [emitStatement, bind_eq_ok, pure_eq_ok] at hemit
    obtain ⟨bodyOut, hbody, rfl⟩ := hemit
    have hflows := (emitStatement_agrees (h.inLoop _) hbody).1
    refine ⟨?_, rfl⟩
    simp [Flows, flow_append, emitExpression_flow, hflows.closed]
  | .breakLoop | .continueLoop => exact emitLoopTransfer_flows h hemit
  | .returnValue value =>
    simp only [emitStatement, bind_eq_ok, pure_eq_ok] at hemit
    obtain ⟨transferOut, htransfer, rfl⟩ := hemit
    obtain ⟨hflows, hterminated⟩ := emitReturnTransfer_flows h htransfer
    refine ⟨?_, hterminated⟩
    rw [Flows, flow_append, emitOptional_flow]
    exact hflows
  | .raise none =>
    obtain rfl := Except.ok.inj hemit
    exact ⟨rfl, rfl⟩
  | .raise (some exception) =>
    obtain rfl := Except.ok.inj hemit
    refine ⟨?_, rfl⟩
    simp [Flows, flow_append, emitExpression_flow]
  | .tryCatch initialization body handlers hasCleanup cleanup =>
    simp only [emitStatement, bind_eq_ok, pure_eq_ok] at hemit
    obtain ⟨bodyOut, hbody, unmatched, hunmatched, handled, hhandled, done, hdone, rfl⟩ := hemit
    -- The cleanup is emitted at up to four places, with one outcome at all of them.
    have hcleanup : CleanupFlows (if hasCleanup then
        some fun loopTargets c => emitStatement { context with loopTargets } c cleanup
            else none) := by
      intro emit hsome loopTargets c out hout
      cases hasCleanup with
      | false => cases hsome
      | true =>
        cases hsome
        exact (emitStatement_agrees (h.inLoop loopTargets) hout).1
    have hcleans : Cleans (fun c => if hasCleanup then
        emitStatement { context with loopTargets := context.loopTargets } c cleanup
        else .ok ⟨[], c, false⟩) (hasCleanup && !cleanup.canFallThrough) := by
      intro c out hout
      cases hasCleanup with
      | false =>
        obtain rfl := Except.ok.inj hout
        exact ⟨rfl, rfl⟩
      | true => exact emitStatement_agrees (h.inLoop _) hout
    obtain ⟨hflows, hterminated⟩ := emitStatement_agrees (h.inTry hcleanup) hbody
    have hunmatchedFlow := emitUnmatched_flow hcleans hunmatched
    obtain ⟨hhandlersFlow, hreached⟩ := emitHandlers_flow h hcleanup hcleans hhandled
    obtain ⟨hdoneFlow, hdoneTerminated⟩ := emitDone_flow hcleans hdone
    constructor
    · rw [Flows] at hflows ⊢
      simp only [List.append_assoc, List.cons_append, List.nil_append]
      simp only [flow_other, flow_brIf, flow_label, flow_instruction]
      rw [flow_append, emitInitialization_flow, Option.bind_some, flow_append, hflows,
        Option.bind_some]
      have hbodyEnd : flow (!bodyOut.blockTerminated) (if bodyOut.blockTerminated then [] else
          [Line.instruction (.exceptionPop c.nextExceptionFrame), br (c.label "try.body.done" 3)]) =
          some false := by
        cases bodyOut.blockTerminated <;> rfl
      rw [flow_append, hbodyEnd, Option.bind_some, flow_label, flow_other, flow_append,
        Handlers.dispatch_flow, Option.bind_some, flow_append, hunmatchedFlow, Option.bind_some,
        flow_append, hhandlersFlow]
      exact hdoneFlow
    · show done.blockTerminated = _
      rw [hdoneTerminated, hreached, hterminated, Statement.canFallThrough]
      cases hasCleanup <;> cases cleanup.canFallThrough <;> cases body.canFallThrough <;> simp

/-- The handlers close every block they open. -/
theorem emitHandlers_flow {context : Context} {frame : Nat} {endLabel : Label}
    {cleanup : Option (List LoopTarget → Counters → Except Fault Output)}
    {cleanupHere : Counters → Except Fault Output} {terminates : Bool} {labels : List Label}
    {c : Counters}
    {handlers : Handlers} {result : List Line × Counters × Bool} (h : ContextFlows context)
    (hcleanup : CleanupFlows cleanup) (hcleans : Cleans cleanupHere terminates)
    (hemit : emitHandlers context frame endLabel cleanup cleanupHere labels c handlers =
    .ok result) :
    flow false result.1 = some false ∧ result.2.2 = (handlers.canFallThrough && !terminates) := by
  match handlers with
  | .none =>
    obtain rfl := Except.ok.inj hemit
    exact ⟨rfl, rfl⟩
  | .except catchAll hasBinding body rest =>
    simp only [emitHandlers, bind_eq_ok, pure_eq_ok] at hemit
    obtain ⟨bodyOut, hbody, normal, hnormal, errors, herrors, others, hothers, rfl⟩ := hemit
    obtain ⟨hflows, hterminated⟩ := emitStatement_agrees (h.inTry hcleanup) hbody
    obtain ⟨hnormalFlow, hreached⟩ := emitHandled_flow hcleans hnormal
    have herrorFlow := emitRethrow_flow hcleans herrors
    obtain ⟨hrestFlow, hrestReached⟩ := emitHandlers_flow h hcleanup hcleans hothers
    constructor
    · rw [Flows] at hflows
      simp [flow_append, hflows, hnormalFlow, herrorFlow, hrestFlow]
    · simp only [hreached, hrestReached, hterminated, Handlers.canFallThrough, Bool.not_not,
        Bool.and_or_distrib_right]

end

end Cwhip.CodeGen.Emission
