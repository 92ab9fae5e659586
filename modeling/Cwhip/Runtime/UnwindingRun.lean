/-
  Cwhip.Runtime.UnwindingRun

  From the push of an exception frame to a raise that jumps to it.

  `raise_unwinds` compares the state after the raise with the state before the
  push, whatever calls came in between.  Three things depend on these calls.  Their
  collections must not free an object that is being destroyed or constructed, or the
  loops write to it.  An object under construction at the push must not be
  constructed a second time meanwhile, or the loop takes it for the one it saved.
  And a rethrow takes a trace that is empty again.
-/

import Cwhip.Runtime.UnwindingSound

namespace Cwhip.Runtime.Unwinding

open Cwhip.Lib

/-! ## Runs -/

variable {s s' : State} {calls : List Call} {address : Nat}

variable {before : List Call} {destroys constructions : List Nat} {call : Call}

theorem run_append {rest : List Call} :
    s.run (before ++ rest) = .ok s' ↔ ∃ mid, s.run before = .ok mid ∧ mid.run rest = .ok s' := by
  induction before generalizing s with
  | nil => simp [State.run]
  | cons call before ih =>
    simp only [List.cons_append, State.run, bind_eq_ok, Prod.exists, ih]
    constructor
    · rintro ⟨next, jumped, hcall, mid, hbefore, hrest⟩
      exact ⟨mid, ⟨next, jumped, hcall, hbefore⟩, hrest⟩
    · rintro ⟨mid, ⟨next, jumped, hcall, hbefore⟩, hrest⟩
      exact ⟨next, jumped, hcall, mid, hbefore, hrest⟩

/-- The nodes that the calls begin to destroy, or to construct. -/
def State.begunBy (begun : State → Call → Option Nat) (s : State) : List Call → List Nat
  | [] => []
  | call :: rest => (begun s call).toList ++
    match s.call call with
    | .ok (s', _) => s'.begunBy begun rest
    | .error _ => []

def State.jumps (s : State) : List Call → List Nat
  | [] => []
  | call :: rest =>
    match s.call call with
    | .ok (s', jumped) => jumped.toList ++ s'.jumps rest
    | .error _ => []

/-- No collection of the calls frees an object under destruction or construction. -/
def State.SparesAll (s : State) : List Call → Prop
  | [] => True
  | call :: rest => s.Spares call ∧ ∀ s' jumped, s.call call = .ok (s', jumped) → s'.SparesAll rest

theorem sparesAll_append {rest : List Call} (hspares : s.SparesAll (before ++ rest)) :
    s.SparesAll before ∧ ∀ mid, s.run before = .ok mid → mid.SparesAll rest := by
  induction before generalizing s with
  | nil =>
    refine ⟨trivial, fun mid hrun => ?_⟩
    obtain rfl := Except.ok.inj hrun
    exact hspares
  | cons call before ih =>
    obtain ⟨hcall, hlater⟩ := hspares
    refine ⟨⟨hcall, fun s' jumped h => (ih (hlater s' jumped h)).1⟩, fun mid hrun => ?_⟩
    simp only [State.run, bind_eq_ok, Prod.exists] at hrun
    obtain ⟨next, jumped, hnext, hbefore⟩ := hrun
    exact (ih (hlater next jumped hnext)).2 mid hbefore

/-- The run lemma of both stacks, over what they held at a push. -/
theorem stacks_run {destroys constructions oldDestroys
    oldConstructions pushedDestroys pushedConstructions : List Nat}
    (h : Stacks s destroys constructions) (hdestroys : Over oldDestroys pushedDestroys destroys)
    (hconstructions : Over oldConstructions pushedConstructions constructions)
    (hspares : s.SparesAll calls) (hrun : s.run calls = .ok s') :
    ∃ destroys' constructions', Stacks s' destroys' constructions' ∧
      Over oldDestroys (pushedDestroys ++ s.begunBy State.destroyBegun calls) destroys' ∧
      Over oldConstructions (pushedConstructions ++ s.begunBy State.constructionBegun calls)
        constructions' := by
  induction calls generalizing s destroys constructions pushedDestroys pushedConstructions with
  | nil =>
    obtain rfl := Except.ok.inj hrun
    rw [State.begunBy, List.append_nil, State.begunBy, List.append_nil]
    exact ⟨destroys, constructions, h, hdestroys, hconstructions⟩
  | cons call rest ih =>
    simp only [State.run, bind_eq_ok, Prod.exists] at hrun
    obtain ⟨next, jumped, hcall, hrest⟩ := hrun
    obtain ⟨hspare, hlater⟩ := hspares
    obtain ⟨destroys', constructions', hnext, hmoves, hmoves'⟩ :=
      stacks_call h hspare (call_effect hcall)
    have hafter := ih hnext (hdestroys.step hmoves) (hconstructions.step hmoves')
      (hlater next jumped hcall) hrest
    rw [State.begunBy, State.begunBy, hcall, ← List.append_assoc, ← List.append_assoc]
    exact hafter

theorem not_destroyBegun (h : Stacks s destroys constructions) (hspares : s.SparesAll calls)
    (hrun : s.run calls = .ok s')
    {index : Nat} {node : Node} (hnode : s.nodes[index]? = some node)
    (hdestroyed : node.destroyed = true) :
    index ∉ s.begunBy State.destroyBegun calls := by
  induction calls generalizing s destroys constructions node with
  | nil => exact List.not_mem_nil
  | cons call rest ih =>
    simp only [State.run, bind_eq_ok, Prod.exists] at hrun
    obtain ⟨next, jumped, hcall, hrest⟩ := hrun
    obtain ⟨hspare, hlater⟩ := hspares
    have heffect := call_effect hcall
    obtain ⟨_, _, hnext, _, _⟩ := stacks_call h hspare heffect
    obtain ⟨node', hnode', hdestroyed'⟩ := destroyed_call h hspare heffect hnode hdestroyed
    rw [State.begunBy, hcall, List.mem_append, Option.mem_toList]
    rintro (hbegun | hrestBegun)
    · -- `cwhip_gc_begin_destroy` raises for a destroyed node
      cases call with
      | gcBeginDestroy object file line column allocated =>
        rw [State.destroyBegun] at hbegun
        have htest := (Option.mem_filter_iff.mp hbegun).2
        rw [hnode] at htest
        simp [hdestroyed] at htest
      | _ => cases hbegun
    · exact ih hnext (hlater next jumped hcall) hrest hnode' hdestroyed' hrestBegun

/-- The saved pointers of a frame change only when it is pushed. -/
theorem frame_saved_run (hrun : s.run calls = .ok s')
    (hpush : Call.exceptionPush (some address) ∉ calls) :
    (links (s'.frames address)).2 = (links (s.frames address)).2 := by
  induction calls generalizing s with
  | nil =>
    obtain rfl := Except.ok.inj hrun
    rfl
  | cons call rest ih =>
    simp only [State.run, bind_eq_ok, Prod.exists] at hrun
    obtain ⟨next, jumped, hcall, hrest⟩ := hrun
    rw [List.mem_cons, not_or] at hpush
    rw [ih hrest hpush.2]
    exact frame_saved (call_effect hcall) fun heq => hpush.1 heq.symm

/-- Its link changes only when it is pushed, popped or raised to. -/
theorem frame_previous_run (hrun : s.run calls = .ok s')
    (hpush : Call.exceptionPush (some address) ∉ calls)
    (hpop : Call.exceptionPop (some address) ∉ calls) (hjumps : address ∉ s.jumps calls) :
    (s'.frames address).previous = (s.frames address).previous := by
  induction calls generalizing s with
  | nil =>
    obtain rfl := Except.ok.inj hrun
    rfl
  | cons call rest ih =>
    simp only [State.run, bind_eq_ok, Prod.exists] at hrun
    obtain ⟨next, jumped, hcall, hrest⟩ := hrun
    rw [List.mem_cons, not_or] at hpush hpop
    rw [State.jumps, hcall, List.mem_append, not_or, Option.mem_toList] at hjumps
    rw [ih hrest hpush.2 hpop.2 hjumps.2]
    exact frame_previous (call_effect hcall) (fun heq => hpush.1 heq.symm)
      (fun heq => hpop.1 heq.symm) hjumps.1

theorem known_run (h : Known before s)
    (hrun : s.run calls = .ok s') : Known (before ++ calls) s' := by
  induction calls generalizing s before with
  | nil =>
    obtain rfl := Except.ok.inj hrun
    rwa [List.append_nil]
  | cons call rest ih =>
    simp only [State.run, bind_eq_ok, Prod.exists] at hrun
    obtain ⟨next, jumped, hcall, hrest⟩ := hrun
    have hlast := ih (known_call h (call_effect hcall)) hrest
    rwa [List.append_assoc] at hlast

theorem known_initial : Known [] .initial := by
  rintro address (hactive | ⟨frame, hprevious⟩)
  · cases hactive
  · cases hprevious

theorem exists_last {α : Type} {a : α} {l : List α} (h : a ∈ l) :
    ∃ before after, l = before ++ a :: after ∧ a ∉ after := by
  obtain ⟨after, before, hreverse, hnot⟩ := List.eq_append_cons_of_mem (List.mem_reverse.mpr h)
  refine ⟨before.reverse, after.reverse, ?_, by rwa [List.mem_reverse]⟩
  have hl := congrArg List.reverse hreverse
  rwa [List.reverse_reverse, List.reverse_append, List.reverse_cons, List.append_assoc] at hl

/-! ## Raises -/

/-- The state after a raise to a frame, against the state before and after the
    push of the frame and the calls since; the raising call has run these collections,
    to allocate what it raises. -/
structure Unwound (pushing pushed : State) (since : List Call) (s : State) (address : Nat)
    (collections : List Collection) (s' : State) : Prop where
  rootFrame : s'.rootFrame = pushing.rootFrame
  activeTrace : s'.activeTrace = pushing.activeTrace
  destroyStack : s'.destroyStack = pushing.destroyStack
  constructionStack : s'.constructionStack = pushing.constructionStack
  predecessor : s'.activeException = (s.frames address).previous
  outer : Call.exceptionPop (some address) ∉ since → address ∉ pushed.jumps since →
    s'.activeException = pushing.activeException
  destroys : ∀ (index : Nat) (node : Node), s.nodes[index]? = some node →
    ∃ node', s'.nodes[index]? = some node' ∧
      (node'.destroying = true ↔
        node.destroying = true ∧ index ∉ pushed.begunBy State.destroyBegun since)
  constructions :
    (∀ index, pushing.constructionStack = some index →
      index ∉ pushed.begunBy State.constructionBegun since) →
    ∀ (index : Nat) (node : Node), s.nodes[index]? = some node →
      ∃ node', s'.nodes[index]? = some node' ∧
        (node'.constructing = true ↔
          node.constructing = true ∧ index ∉ pushed.begunBy State.constructionBegun since) ∧
        (node'.destroyed = true ↔ node.destroyed = true ∨
          (∃ collection ∈ collections, collection.destroyed index = true) ∨
          node.constructing = true ∧ index ∈ pushed.begunBy State.constructionBegun since)

/-- A rethrow hands on what the inner frame held; a trace that is null is taken
    again, and is null again exactly where there is nothing to take. -/
structure Rethrown (s : State) (inner address : Nat) (s' : State) : Prop where
  holds : (s'.frames address).hasException = true
  exception : State.exceptionOf (s'.frames address) = State.exceptionOf (s.frames inner)
  trace_iff : (s'.frames address).trace = (s.frames inner).trace ↔
    (s.frames inner).trace ≠ none ∨ s.activeTrace = none

theorem captureTrace_eq_none {captured : Option (List TraceEntry)}
    (h : s.captureTrace = .ok captured) : captured = none ↔ s.activeTrace = none := by
  simp only [State.captureTrace, bind_eq_ok, pure_eq_ok] at h
  obtain ⟨entries, hentries, rfl⟩ := h
  have hempty : entries = [] ↔ s.activeTrace = none := by
    cases hactive : s.activeTrace with
    | none =>
      rw [hactive] at hentries
      cases hentries
      simp
    | some frame =>
      rw [hactive, show addressSpace - 1 = (addressSpace - 2) + 1 by decide] at hentries
      simp only [State.captureFrom, bind_eq_ok, pure_eq_ok] at hentries
      obtain ⟨rest, _, rfl⟩ := hentries
      simp
  rw [← hempty]
  split
  · next heq => simp [heq]
  · next hne => simp [hne]

theorem raise_holds {exception : State.Exception} {trace : Option (List TraceEntry)}
    (h : s.raiseException exception trace = .ok (s', address)) :
    s.activeException = some address ∧ (s'.frames address).hasException = true ∧
      State.exceptionOf (s'.frames address) = exception ∧
      s.traceOrCapture trace = .ok (s'.frames address).trace := by
  obtain ⟨captured, nodes, nodes', hcaptured, hactive, _, _, rfl⟩ := raiseException_spec h
  have hframe : ∀ frame other : ExceptionFrame, (if address = address then frame else other) =
      frame :=
    fun _ _ => if_pos rfl
  refine ⟨hactive, ?_, ?_, ?_⟩
  · exact congrArg ExceptionFrame.hasException (hframe _ _)
  · exact congrArg State.exceptionOf (hframe _ _)
  · refine hcaptured.trans (congrArg Except.ok ?_)
    symm
    exact congrArg ExceptionFrame.trace (hframe _ _)

theorem rethrow_hands_on {inner : Nat}
    (h : s.call (.exceptionRethrow (some inner)) = .ok (s', some address)) :
    Rethrown s inner address s' := by
  obtain ⟨_, hbody, hsame⟩ := raising_eq_ok.mp h
  obtain rfl := Option.some.inj hsame
  simp only [State.exceptionRethrow, bind_eq_ok, require_eq_ok, Option.some.injEq] at hbody
  obtain ⟨_, rfl, _, _, _, _, hraise⟩ := hbody
  obtain ⟨_, hholds, hexception, htrace⟩ := raise_holds hraise
  refine ⟨hholds, hexception, ?_⟩
  rw [State.traceOrCapture] at htrace
  split at htrace
  · next hnull =>
    have hcaptured := captureTrace_eq_none htrace
    rw [hnull]
    exact ⟨fun hnone => .inr (hcaptured.mp hnone), fun hactive =>
      hcaptured.mpr (hactive.resolve_left fun hne => hne rfl)⟩
  · next hne => exact ⟨fun _ => .inl hne, fun _ => (Except.ok.inj htrace).symm⟩

theorem call_raises (h : s.call call = .ok (s', some address)) :
    ∃ s₀ exception trace, Same (s.collections call) s s₀ ∧ s₀.raiseException exception trace =
    .ok (s', address) := by
  cases call_effect h with
  | raise hsame _ _ _ hraise => exact ⟨_, _, _, hsame, hraise⟩

theorem raise_unwound {pushing pushed : State} {since : List Call}
    (hstacks : Stacks pushing destroys constructions)
    (hpush : pushing.call (.exceptionPush (some address)) = .ok (pushed, none))
    (hsince : Call.exceptionPush (some address) ∉ since) (hspares : pushed.SparesAll since)
    (hrun : pushed.run since = .ok s) (hspare : s.Spares call)
    (hcall : s.call call = .ok (s', some address)) :
    Unwound pushing pushed since s address (s.collections call) s' := by
  have hpushed : links (pushed.frames address) = (pushing.activeException, pushing.rootFrame,
      pushing.activeTrace, pushing.destroyStack, pushing.constructionStack) ∧
        Stacks pushed destroys constructions := by
    obtain ⟨hbody, _⟩ := returning_eq_ok.mp hpush
    simp only [State.exceptionPush, bind_eq_ok, pure_eq_ok, ensure_eq_ok, require_eq_ok,
      Option.some.injEq] at hbody
    obtain ⟨_, rfl, _, _, rfl⟩ := hbody
    exact ⟨congrArg links (if_pos rfl), hstacks.destroys, hstacks.constructions, hstacks.sound⟩
  obtain ⟨hlinks, hafter⟩ := hpushed
  obtain ⟨s₀, exception, trace, hsame, hraise⟩ := call_raises hcall
  have hsaved : (links (s₀.frames address)).2 = (pushing.rootFrame, pushing.activeTrace,
      pushing.destroyStack, pushing.constructionStack) := by
    rw [hsame.frames, frame_saved_run hrun hsince, hlinks]
  obtain ⟨hroots, htrace, hsavedDestroys, hsavedConstructions⟩ :
      (s₀.frames address).savedRoots = pushing.rootFrame ∧
        (s₀.frames address).savedTrace = pushing.activeTrace ∧
        (s₀.frames address).savedDestroys = pushing.destroyStack ∧
        (s₀.frames address).savedConstructions = pushing.constructionStack := by
    simpa [links] using hsaved
  have hrestored : s'.rootFrame = pushing.rootFrame ∧ s'.activeTrace = pushing.activeTrace ∧
      s'.destroyStack = pushing.destroyStack ∧ s'.constructionStack = pushing.constructionStack ∧
      s'.activeException = (s.frames address).previous := by
    have hprevious : (s₀.frames address).previous = (s.frames address).previous :=
      congrArg Prod.fst (hsame.frames address)
    obtain ⟨_, _, _, _, _, _, _, rfl⟩ := raiseException_spec hraise
    exact ⟨hroots, htrace, hsavedDestroys, hsavedConstructions, hprevious⟩
  obtain ⟨hroot, hactiveTrace, hdestroyTop, hconstructionTop, hpredecessor⟩ := hrestored
  -- the stacks at the raise are what was pushed since over what is left of the old ones
  obtain ⟨destroys', constructions', hnow, hdestroys, hconstructions⟩ :=
    stacks_run hafter (over_refl destroys) (over_refl constructions) hspares hrun
  rw [List.nil_append] at hdestroys hconstructions
  have hprepared := hnow.same hsame hspare
  obtain ⟨destroyed, left, built, under, rfl, rfl, hfinal, hnodes⟩ := raise_stacks hprepared hraise
  have hnode : ∀ {index : Nat} {node : Node}, s.nodes[index]? = some node →
      s'.nodes[index]? = some ((node.aged (s.collections call) index).unwound
        (decide (index ∈ destroyed)) (decide (index ∈ built))) := by
    intro index node hget
    rw [hnodes, hsame.old index node hget]
    rfl
  refine ⟨hroot, hactiveTrace, hdestroyTop, hconstructionTop, hpredecessor, ?_, ?_, ?_⟩
  · intro hpop hjumps
    rw [hpredecessor, frame_previous_run hrun hsince hpop hjumps]
    exact congrArg Prod.fst hlinks
  · have hhead : left.head? = destroys.head? := by
      rw [← hfinal.destroys.linked.top_eq, ← hstacks.destroys.linked.top_eq, hdestroyTop]
    have hkept : ∀ index, destroys.head? = some index →
        index ∉ pushed.begunBy State.destroyBegun since := by
      intro index hindex
      obtain ⟨node, hget, hdestroying⟩ := (hafter.destroys.mem_iff index).mp
        (List.mem_of_mem_head? hindex)
      exact not_destroyBegun hafter hspares hrun hget
        ((hafter.sound index node hget).doomed hdestroying)
    obtain ⟨_, htaken⟩ := hdestroys.unwound hstacks.destroys.distinct hnow.destroys.distinct hhead
      hkept
    intro index node hget
    refine ⟨_, hnode hget, ?_⟩
    have hbusy : node.destroying = true ↔ index ∈ destroyed ++ left := by
      rw [hnow.destroys.mem_iff index, hget]
      simp
    show (node.destroying && !decide (index ∈ destroyed)) = true ↔ _
    rw [Bool.and_eq_true, Bool.not_eq_true', decide_eq_false_iff_not, htaken index, hbusy]
    tauto
  · intro hagain
    have hhead : under.head? = constructions.head? := by
      rw [← hfinal.constructions.linked.top_eq, ← hstacks.constructions.linked.top_eq,
        hconstructionTop]
    have hkept : ∀ index, constructions.head? = some index →
        index ∉ pushed.begunBy State.constructionBegun since := by
      intro index hindex
      apply hagain index
      rw [hstacks.constructions.linked.top_eq, hindex]
    obtain ⟨_, htaken⟩ :=
      hconstructions.unwound hstacks.constructions.distinct hnow.constructions.distinct hhead hkept
    intro index node hget
    refine ⟨_, hnode hget, ?_⟩
    have hbusy : node.constructing = true ↔ index ∈ built ++ under := by
      rw [hnow.constructions.mem_iff index, hget]
      simp
    constructor
    · show (node.constructing && !decide (index ∈ built)) = true ↔ _
      rw [Bool.and_eq_true, Bool.not_eq_true', decide_eq_false_iff_not, htaken index, hbusy]
      tauto
    · show (node.destroyed || (s.collections call).any (·.destroyed index) ||
        decide (index ∈ built)) = true ↔ _
      rw [Bool.or_eq_true, Bool.or_eq_true, decide_eq_true_eq, htaken index, hbusy,
        List.any_eq_true, or_assoc]

/-- A collection that finds nothing dead. -/
def Collection.idle : Collection := ⟨fun _ => false, fun _ => false⟩

/-- The exception that is allocated at this address, without a message of its own. -/
def exceptionAt (object : Nat) : Allocated := ⟨⟨.idle, object, 0⟩, []⟩

theorem spares_idle {object : Nat} {message file : Bytes} {line column : Nat} :
    s.Spares (.exceptionRaise message file line column (exceptionAt object)) := by
  intro collection hmem index node _ _
  obtain rfl := List.mem_singleton.mp hmem
  rfl

/-- A rethrow from an inner frame to an outer one. -/
def nestedRethrow : List Call :=
  [.exceptionPush (some 1), .exceptionPush (some 2), .exceptionRaise [104, 105]
    [] 3 4 (exceptionAt 1000),
    .tracePush (some 7) (some [102]) none 5 6]

/-- What becomes of the nodes of a run that ends in a raise: whether each is
    under construction, and whether it is destroyed; or the fault it ends in. -/
def raisedNodes (calls : List Call) : Except Fault (List (Bool × Bool)) := do
  let s ← State.initial.run calls
  let (s', _) ← s.call (.exceptionRaise [] [] 0 0 (exceptionAt 8000))
  return s'.nodes.map fun node => (node.constructing, node.destroyed)

end Cwhip.Runtime.Unwinding
