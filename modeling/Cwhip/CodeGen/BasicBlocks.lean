/-
  Cwhip.CodeGen.BasicBlocks

  The code of a method that the analyzer accepts: it is emitted, its body ends in
  an open block only where `canFallThrough` holds, and each of its blocks ends in
  one terminator.
-/

import Cwhip.CodeGen.FallThrough

namespace Cwhip.CodeGen.Emission

open Cwhip.Lib

/-! ## Blocks -/

/-- A line starts a block. -/
def Line.isLabel : Line → Bool
  | .label _ => true
  | _ => false

/-- The blocks of a function, the first one at its start. -/
def basicBlocks (lines : List Line) : List (List Line) := lines.splitOnP Line.isLabel

/-- Instructions and one terminator after them. -/
def EndsInTerminator (block : List Line) : Prop :=
  ∃ (instructions : List Instruction) (terminator : Terminator),
    block = instructions.map .instruction ++ [.terminator terminator]

theorem EndsInTerminator.cons {block : List Line} (h : EndsInTerminator block)
    (instruction : Instruction) :
    EndsInTerminator (.instruction instruction :: block) := by
  obtain ⟨instructions, terminator, rfl⟩ := h
  exact ⟨instruction :: instructions, terminator, rfl⟩

theorem basicBlocks_label (label : Label) (rest : List Line) :
    basicBlocks (.label label :: rest) = [] :: basicBlocks rest := by
  simp [basicBlocks, List.splitOnP_cons_eq_if_modifyHead, Line.isLabel]

theorem basicBlocks_cons {line : Line} (h : line.isLabel = false) (rest : List Line) :
    basicBlocks (line :: rest) = (basicBlocks rest).modifyHead (List.cons line) := by
  simp [basicBlocks, List.splitOnP_cons_eq_if_modifyHead, h]

theorem basicBlocks_of_flow {isOpen : Bool} {lines : List Line}
    (h : flow isOpen lines = some false) :
    ∃ first rest, basicBlocks lines = first :: rest ∧
      (if isOpen then EndsInTerminator first else first = []) ∧ ∀ block ∈ rest,
      EndsInTerminator block := by
  induction lines generalizing isOpen with
  | nil =>
    cases isOpen with
    | true => simp at h
    | false => exact ⟨[], [], rfl, rfl, by simp⟩
  | cons line rest ih =>
    cases isOpen with
    | true =>
      cases line with
      | label label => simp [flow] at h
      | instruction instruction =>
        obtain ⟨first, others, hblocks, hfirst, hothers⟩ := @ih true h
        refine ⟨.instruction instruction :: first, others, ?_, EndsInTerminator.cons hfirst _,
          hothers⟩
        rw [basicBlocks_cons rfl, hblocks, List.modifyHead_cons]
      | terminator terminator =>
        obtain ⟨first, others, hblocks, hfirst, hothers⟩ := @ih false h
        refine ⟨[.terminator terminator], others, ?_, ⟨[], terminator, rfl⟩, hothers⟩
        rw [basicBlocks_cons rfl, hblocks, List.modifyHead_cons, show first = [] from hfirst]
    | false =>
      cases line with
      | label label =>
        obtain ⟨first, others, hblocks, hfirst, hothers⟩ := @ih true h
        refine ⟨[], first :: others, by rw [basicBlocks_label, hblocks], rfl, ?_⟩
        intro block hblock
        rcases List.mem_cons.mp hblock with rfl | hblock
        · exact hfirst
        · exact hothers block hblock
      | instruction instruction => simp [flow] at h
      | terminator terminator => simp [flow] at h

/-! ## Emission succeeds -/

/-- A cleanup emitter that succeeds under any loops, or only under some where the
    `try` statement is inside a loop. -/
def CleanupEmits (inLoop : Bool)
    (cleanup : Option (List LoopTarget → Counters → Except Fault Output)) :
    Prop :=
  ∀ emit, cleanup = some emit → ∀ loopTargets : List LoopTarget, (inLoop → loopTargets ≠ []) →
    ∀ c, Succeeds (emit loopTargets c)

/-- The loops are there for the statements in the context, and the active cleanups
    can be emitted. -/
structure ContextEmits (inLoop : Bool) (context : Context) : Prop where
  loops : inLoop → context.loopTargets ≠ []
  cleanups : ∀ transfer ∈ context.activeTryTransfers, CleanupEmits inLoop transfer.cleanup

theorem CleanupEmits.ofLoop {inLoop : Bool}
    {cleanup : Option (List LoopTarget → Counters → Except Fault Output)}
    (h : CleanupEmits inLoop cleanup) :
    CleanupEmits true cleanup :=
  fun emit hemit loopTargets hloops => h emit hemit loopTargets fun _ => hloops rfl

theorem ContextEmits.inLoop {inLoop : Bool} {context : Context} (h : ContextEmits inLoop context)
    (target : LoopTarget) :
    ContextEmits true { context with loopTargets := target :: context.loopTargets } :=
  ⟨fun _ => List.cons_ne_nil _ _, fun transfer htransfer => (h.cleanups transfer htransfer).ofLoop⟩

theorem ContextEmits.elsewhere {inLoop : Bool} {context : Context} (h : ContextEmits inLoop context)
    {loopTargets : List LoopTarget} (hloops : inLoop → loopTargets ≠ []) :
    ContextEmits inLoop { context with loopTargets } := ⟨hloops, h.cleanups⟩

theorem ContextEmits.inTry {inLoop : Bool} {context : Context} {transfer : TryTransfer}
    (h : ContextEmits inLoop context) (htransfer : CleanupEmits inLoop transfer.cleanup) :
    ContextEmits inLoop { context with activeTryTransfers := transfer ::
    context.activeTryTransfers } := by
  refine ⟨h.loops, fun active hactive => ?_⟩
  rcases List.mem_cons.mp hactive with rfl | hactive
  · exact htransfer
  · exact h.cleanups active hactive

theorem emitTransfers_succeeds {inLoop : Bool} {loopTargets : List LoopTarget}
    {transfers : List TryTransfer}
    (hloops : inLoop → loopTargets ≠ [])
    (h : ∀ transfer ∈ transfers, CleanupEmits inLoop transfer.cleanup) (c : Counters) :
    Succeeds (emitTransfers loopTargets c transfers) := by
  induction transfers generalizing c with
  | nil => exact Succeeds.ok _
  | cons active outer ih =>
    have ih := ih fun transfer htransfer => h transfer (List.mem_cons_of_mem _ htransfer)
    unfold emitTransfers
    split
    · next cleanup hcleanup =>
      apply (h active List.mem_cons_self cleanup hcleanup loopTargets hloops c).bind
      intro out hout
      apply Succeeds.ite (Succeeds.pure _)
      exact (ih out.counters).bind fun rest _ => Succeeds.pure _
    · exact (ih c).bind fun rest _ => Succeeds.pure _

theorem emitLoopTransfer_succeeds {inLoop : Bool} {context : Context}
    (h : ContextEmits inLoop context)
    (hinLoop : inLoop = true) (isBreak : Bool) (c : Counters) :
    Succeeds (emitLoopTransfer isBreak context c) := by
  unfold emitLoopTransfer
  split
  · next hnone => exact absurd hnone (h.loops hinLoop)
  · apply (emitTransfers_succeeds h.loops
      (fun transfer htransfer => h.cleanups transfer (List.mem_of_mem_take htransfer)) c).bind
    intro out hout
    exact Succeeds.ite (Succeeds.pure _) (Succeeds.pure _)

theorem emitReturnTransfer_succeeds {inLoop : Bool} {context : Context}
    (h : ContextEmits inLoop context)
    (hasValue : Bool) (c : Counters) : Succeeds (emitReturnTransfer hasValue context c) := by
  apply (emitTransfers_succeeds h.loops h.cleanups c).bind
  intro out hout
  exact Succeeds.ite (Succeeds.pure _) (Succeeds.pure _)

theorem emitRethrow_succeeds {cleanup : Counters → Except Fault Output}
    (h : ∀ c, Succeeds (cleanup c))
    (frame : Nat) (c : Counters) : Succeeds (emitRethrow frame cleanup c) := by
  apply (h c).bind
  intro out hout
  exact Succeeds.ite (Succeeds.pure _) (Succeeds.pure _)

theorem emitUnmatched_succeeds {cleanup : Counters → Except Fault Output}
    (h : ∀ c, Succeeds (cleanup c))
    (hasCatchAll : Bool) (frame : Nat) (c : Counters) :
    Succeeds (emitUnmatched hasCatchAll frame cleanup c) :=
  Succeeds.ite (Succeeds.ok _) (emitRethrow_succeeds h frame c)

theorem emitHandled_succeeds {cleanup : Counters → Except Fault Output}
    (h : ∀ c, Succeeds (cleanup c))
    (frame catchFrame : Nat) (endLabel : Label) (handled : Output) :
    Succeeds (emitHandled frame catchFrame endLabel cleanup handled) :=
  Succeeds.ite (Succeeds.pure _) ((h handled.counters).bind fun _ _ => Succeeds.pure _)

theorem emitDone_succeeds {cleanup : Counters → Except Fault Output} (h : ∀ c, Succeeds (cleanup c))
    (bodyDoneLabel endLabel : Label) (bodyTerminated reached : Bool) (c : Counters) :
    Succeeds (emitDone bodyDoneLabel endLabel cleanup bodyTerminated reached c) :=
  Succeeds.ite (Succeeds.pure _) ((h c).bind fun _ _ => Succeeds.pure _)

mutual

theorem emitStatement_succeeds {inLoop : Bool} {context : Context} {s : Statement}
    (h : ContextEmits inLoop context) (hs : s.transfersInLoops inLoop) (c : Counters) :
    Succeeds (emitStatement context c s) := by
  match s with
  | .skip => exact Succeeds.ok _
  | .next first rest =>
    simp only [Statement.transfersInLoops, Bool.and_eq_true] at hs
    apply (emitStatement_succeeds h hs.1 c).bind
    intro out hout
    apply Succeeds.ite (Succeeds.pure _)
    exact (emitStatement_succeeds h hs.2 out.counters).bind fun _ _ => Succeeds.pure _
  | .simple s => exact Succeeds.ok _
  | .block body => exact emitStatement_succeeds (s := body) h hs c
  | .ifElse condition body hasAlternate alternate =>
    simp only [Statement.transfersInLoops, Bool.and_eq_true] at hs
    apply (emitStatement_succeeds h hs.1 _).bind
    intro thenOut hthen
    apply Succeeds.ite _ (Succeeds.pure _)
    exact (emitStatement_succeeds h hs.2 thenOut.counters).bind fun _ _ => Succeeds.pure _
  | .whileLoop condition body =>
    exact (emitStatement_succeeds (h.inLoop _) (s := body) hs _).bind fun _ _ => Succeeds.pure _
  | .doWhile body condition =>
    exact (emitStatement_succeeds (h.inLoop _) (s := body) hs _).bind fun _ _ => Succeeds.pure _
  | .forEach collection body =>
    exact (emitStatement_succeeds (h.inLoop _) (s := body) hs _).bind fun _ _ => Succeeds.pure _
  | .breakLoop => exact emitLoopTransfer_succeeds h hs true c
  | .continueLoop => exact emitLoopTransfer_succeeds h hs false c
  | .returnValue value => exact (emitReturnTransfer_succeeds h _ _).bind fun _ _ => Succeeds.pure _
  | .raise none => exact Succeeds.ok _
  | .raise (some exception) => exact Succeeds.ok _
  | .tryCatch initialization body handlers hasCleanup cleanup =>
    simp only [Statement.transfersInLoops, Bool.and_eq_true] at hs
    obtain ⟨⟨hbody, hhandlers⟩, hcleanup⟩ := hs
    have hcleanups : CleanupEmits inLoop (if hasCleanup then
        some fun loopTargets c => emitStatement { context with loopTargets } c cleanup
            else none) := by
      intro emit hsome loopTargets hloops c
      cases hasCleanup with
      | false => cases hsome
      | true =>
        cases hsome
        exact emitStatement_succeeds (h.elsewhere hloops) hcleanup c
    have hhere : ∀ c, Succeeds (if hasCleanup then
        emitStatement { context with loopTargets := context.loopTargets } c cleanup
        else .ok ⟨[], c, false⟩) := fun c =>
      Succeeds.ite (emitStatement_succeeds (h.elsewhere h.loops) hcleanup c) (Succeeds.ok _)
    simp only [emitStatement]
    apply (emitStatement_succeeds (h.inTry hcleanups) hbody _).bind
    intro bodyOut hbodyOut
    apply (emitUnmatched_succeeds hhere _ _ _).bind
    intro unmatched hunmatched
    apply (emitHandlers_succeeds h hcleanups hhere hhandlers _ _ _ _).bind
    intro handled hhandled
    exact (emitDone_succeeds hhere _ _ _ _ _).bind fun _ _ => Succeeds.pure _

theorem emitHandlers_succeeds {inLoop : Bool} {context : Context} {handlers : Handlers}
    {cleanup : Option (List LoopTarget → Counters → Except Fault Output)}
    {cleanupHere : Counters → Except Fault Output} (h : ContextEmits inLoop context)
    (hcleanup : CleanupEmits inLoop cleanup) (hhere : ∀ c, Succeeds (cleanupHere c))
    (hhandlers : handlers.transfersInLoops inLoop) (frame : Nat) (endLabel : Label)
    (labels : List Label)
    (c : Counters) :
    Succeeds (emitHandlers context frame endLabel cleanup cleanupHere labels c handlers) := by
  match handlers with
  | .none => exact Succeeds.ok _
  | .except catchAll hasBinding body rest =>
    simp only [Handlers.transfersInLoops, Bool.and_eq_true] at hhandlers
    simp only [emitHandlers]
    apply (emitStatement_succeeds (h.inTry hcleanup) hhandlers.1 _).bind
    intro out hout
    apply (emitHandled_succeeds hhere _ _ _ _).bind
    intro normal hnormal
    apply (emitRethrow_succeeds hhere _ _).bind
    intro errors herrors
    exact (emitHandlers_succeeds h hcleanup hhere hhandlers.2 _ _ _ _).bind fun _ _ =>
      Succeeds.pure _

end

/-! ## Methods -/

theorem Method.initializerLines_flow (m : Method) : flow true m.initializerLines.1 = some true := by
  unfold Method.initializerLines
  split
  · exact emitVirtualBaseInitializers_flow _ _
  · rfl

theorem emitBody_succeeds {m : Method} (h : m.flowAccepted) : Succeeds (emitBody m) := by
  unfold emitBody
  split
  · exact Succeeds.ok _
  · next hinternal =>
    simp only [Method.flowAccepted, hinternal, Bool.false_or, Bool.and_eq_true] at h
    have hcontext : ContextEmits false ⟨[], []⟩ := ⟨(nomatch ·), fun _ h => nomatch h⟩
    exact (emitStatement_succeeds hcontext h.1 _).bind fun _ _ => Succeeds.pure _

theorem emitBody_flows {m : Method} {out : Output} (hemit : emitBody m = .ok out) :
    Flows out ∧ out.blockTerminated = (m.externalBinding || !m.body.canFallThrough) := by
  unfold emitBody at hemit
  split at hemit
  · next hexternal =>
    obtain rfl := Except.ok.inj hemit
    rw [hexternal]
    exact ⟨by simp [Flows, flow_append, m.initializerLines_flow], rfl⟩
  · next hinternal =>
    simp only [bind_eq_ok, pure_eq_ok] at hemit
    obtain ⟨bodyOut, hbody, rfl⟩ := hemit
    have hcontext : ContextFlows ⟨[], []⟩ := fun _ h => absurd h List.not_mem_nil
    obtain ⟨hflows, hterminated⟩ := emitStatement_agrees hcontext hbody
    rw [Bool.not_eq_true] at hinternal
    rw [Flows] at hflows
    exact ⟨by simp [Flows, flow_append, m.initializerLines_flow, hflows],
      by simp [hinternal, hterminated]⟩

theorem emitMethod_of_body {m : Method} {out : Output} (hemit : emitBody m = .ok out) :
    emitMethod m = .ok (if out.blockTerminated then out.lines
      else out.lines ++ [other, .terminator (.ret false)]) := by
  unfold emitMethod
  rw [bind_eq_ok]
  refine ⟨out, hemit, ?_⟩
  split <;> rfl

/-- A body the analyzer accepts is emitted with its last block open exactly if it
    can fall through; then a method with a value gets no final `ret void`, and all
    blocks of the function end in one terminator. -/
theorem emitMethod_blocks {m : Method} (h : m.flowAccepted) :
    ∃ out lines, emitBody m = .ok out ∧ emitMethod m = .ok lines ∧
      (out.blockTerminated = false ↔ m.externalBinding = false ∧ m.body.canFallThrough = true) ∧
      (m.returnsVoid = false → lines = out.lines) ∧
      ∀ block ∈ basicBlocks lines, EndsInTerminator block := by
  obtain ⟨out, hbody⟩ := emitBody_succeeds h
  obtain ⟨hflows, hterminated⟩ := emitBody_flows hbody
  refine ⟨out, _, hbody, emitMethod_of_body hbody, by simp [hterminated], ?_, ?_⟩
  · intro hvalue
    have hclosed : out.blockTerminated = true := by
      simp only [Method.flowAccepted, hvalue, Bool.false_or, Bool.or_eq_true, Bool.and_eq_true] at h
      rw [hterminated, Bool.or_eq_true]
      exact h.imp_right fun h => h.2
    rw [if_pos hclosed]
  · have hflow : flow true (if out.blockTerminated then out.lines
        else out.lines ++ [other, .terminator (.ret false)]) = some false := by
      rw [Flows] at hflows
      cases hout : out.blockTerminated with
      | true => simpa [hout] using hflows
      | false => simp [flow_append, hflows, hout]
    obtain ⟨first, rest, hblocks, hfirst, hrest⟩ := basicBlocks_of_flow hflow
    intro block hblock
    rw [hblocks] at hblock
    rcases List.mem_cons.mp hblock with rfl | hblock
    · exact hfirst
    · exact hrest block hblock

/-- A `return` in a loop whose `finally` leaves the loop. -/
def leavingFinally : Method where
  constructor := false
  externalBinding := false
  returnsVoid := false
  virtualBases := []
  body := .next (.whileLoop .leaf
    (.next (.tryCatch none (.next (.returnValue (some .leaf)) .skip) .none true
      (.next .breakLoop .skip)) .skip))
    (.next (.returnValue (some .leaf)) .skip)

theorem leavingFinally_blocks : ∃ out lines, emitBody leavingFinally = .ok out ∧
    emitMethod leavingFinally = .ok lines ∧
    (out.blockTerminated = false ↔
      leavingFinally.externalBinding = false ∧ leavingFinally.body.canFallThrough = true) ∧
    (leavingFinally.returnsVoid = false → lines = out.lines) ∧
    ∀ block ∈ basicBlocks lines, EndsInTerminator block :=
  emitMethod_blocks (by decide)

end Cwhip.CodeGen.Emission
