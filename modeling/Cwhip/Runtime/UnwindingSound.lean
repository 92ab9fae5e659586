/-
  Cwhip.Runtime.UnwindingSound

  What a raise leaves behind, in any sequence of calls.

  `call_effect` says once what a call can do to frames and stacks, the collections
  of its allocations included.  From it come
  the invariants of the frames (`frame_saved`) and of the two object stacks
  (`destroys_call`, `constructions_call`), and from these what happens between
  the push of a frame and a raise to it.
-/

import Cwhip.Runtime.Unwinding

namespace Cwhip.Runtime.Unwinding

open Cwhip.Lib

/-! ## Effects -/

/-- What `raise_exception` reads of a frame besides the exception. -/
def links (frame : ExceptionFrame) :
    Option Nat × Option Nat × Option Nat × Option Nat × Option Nat :=
  (frame.previous, frame.savedRoots, frame.savedTrace, frame.savedDestroys,
    frame.savedConstructions)

/-- A node on no stack, just allocated. -/
def Node.Fresh (node : Node) : Prop :=
  node.destroying = false ∧ node.constructing = false

/-- A node after some collections. -/
def Node.aged (node : Node) (collections : List Collection) (index : Nat) : Node :=
  { node with
    destroyed := node.destroyed || collections.any (·.destroyed index)
    freed := node.freed || collections.any (·.freed index) }

theorem Node.aged_append (node : Node) (collections collections' : List Collection) (index : Nat) :
    (node.aged collections index).aged collections' index = node.aged
    (collections ++ collections') index := by
  rw [Node.aged, Node.aged, Node.aged, List.any_append, List.any_append, Bool.or_assoc,
    Bool.or_assoc]

theorem Node.aged_nil (node : Node) (index : Nat) : node.aged [] index = node := by
  rw [Node.aged, List.any_nil, List.any_nil, Bool.or_false, Bool.or_false]

/-- Only the exceptions held by frames, the root and trace frames, new nodes and what
    these collections do differ. -/
structure Same (collections : List Collection) (s s' : State) : Prop where
  old : ∀ (index : Nat) (node : Node), s.nodes[index]? = some node →
    s'.nodes[index]? = some (node.aged collections index)
  new : ∀ (index : Nat) (node : Node), s'.nodes[index]? = some node → s.nodes[index]? = none →
    node.Fresh
  frames : ∀ address, links (s'.frames address) = links (s.frames address)
  destroyStack : s'.destroyStack = s.destroyStack
  constructionStack : s'.constructionStack = s.constructionStack
  activeException : s'.activeException = s.activeException

variable {s s' : State} {index address : Nat} {node : Node} {jumped : Option Nat} {call : Call}
  {exception : State.Exception} {trace : Option (List TraceEntry)}
  {destroys constructions : List Nat} {collected collected' : List Collection}

theorem Same.of_nodes (nodes : s'.nodes = s.nodes)
    (frames : ∀ address, links (s'.frames address) = links (s.frames address))
    (destroyStack : s'.destroyStack = s.destroyStack)
    (constructionStack : s'.constructionStack = s.constructionStack)
    (activeException : s'.activeException = s.activeException) : Same [] s s' := by
  refine ⟨fun index node hnode => ?_, fun index node hnode hnone => ?_, frames, destroyStack,
    constructionStack,
    activeException⟩
  · rw [nodes, hnode, Node.aged_nil]
  · rw [nodes, hnone] at hnode
    cases hnode

theorem Same.trans {s₁ s₂ s₃ : State} (h : Same collected s₁ s₂) (h' : Same collected' s₂ s₃) :
    Same (collected ++ collected') s₁ s₃ := by
  refine ⟨fun index node hnode => ?_, fun index node hnode hnone => ?_, ?_, ?_, ?_, ?_⟩
  · rw [h'.old index _ (h.old index node hnode), Node.aged_append]
  · cases hmid : s₂.nodes[index]? with
    | none => exact h'.new index node hnode hmid
    | some fresh =>
      obtain rfl := Option.some.inj (hnode.symm.trans (h'.old index fresh hmid))
      exact h.new index fresh hmid hnone
  · exact fun address => (h'.frames address).trans (h.frames address)
  · exact h'.destroyStack.trans h.destroyStack
  · exact h'.constructionStack.trans h.constructionStack
  · exact h'.activeException.trans h.activeException

theorem same_allocate {allocation : Allocation} (h : s.allocate allocation = .ok s') :
    Same [allocation.collection] s s' := by
  simp only [State.allocate, bind_eq_ok, pure_eq_ok] at h
  obtain ⟨_, _, rfl⟩ := h
  have hcollected (index : Nat) : (s.collect allocation.collection).nodes[index]? =
      (s.nodes[index]?).map fun node => node.aged [allocation.collection] index := by
    rw [State.collect, List.getElem?_mapIdx]
    simp [Node.aged]
  refine ⟨fun index node hnode => ?_, fun index node hnode hnone => ?_, fun _ => rfl, rfl, rfl, rfl⟩
  · have hold := hcollected index
    rw [hnode] at hold
    rw [List.getElem?_append_left (List.getElem?_eq_some_iff.mp hold).1, hold]
    rfl
  · have hpast := hcollected index
    rw [hnone, Option.map_none, List.getElem?_eq_none_iff] at hpast
    rw [List.getElem?_append_right hpast] at hnode
    obtain rfl := List.mem_singleton.mp (List.mem_of_getElem? hnode)
    exact ⟨rfl, rfl⟩

theorem same_setFrame (s : State) {frame : ExceptionFrame}
    (h : links frame = links (s.frames address)) : Same [] s (s.setFrame address frame) := by
  refine .of_nodes rfl ?_ rfl rfl rfl
  intro other
  show links (if other = address then frame else s.frames other) = _
  split
  · next heq => rw [heq, h]
  · rfl

/-- The node whose destroy a call begins. -/
def State.destroyBegun (s : State) : Call → Option Nat
  | .gcBeginDestroy object .. =>
    (s.findContainingObject object).filter fun index => !(s.nodes[index]?).any Node.destroyed
  | _ => none

/-- The node whose construction a call begins. -/
def State.constructionBegun (s : State) : Call → Option Nat
  | .gcBeginConstruction object => s.findObject object
  | _ => none

/-- The collections of `make_runtime_exception`. -/
def Allocated.collections (allocated : Allocated) : List Collection :=
  allocated.exception.collection :: allocated.message.map Allocation.collection

/-- The collections of a call: of its allocation, or for the exception it raises. -/
def State.collections (s : State) (call : Call) : List Collection :=
  match call with
  | .allocate allocation => [allocation.collection]
  | .exceptionRaise _ _ _ _ allocated => allocated.collections
  | .gcBeginDestroy _ _ _ _ allocated =>
    if (s.destroyBegun call).isSome then [] else allocated.collections
  | _ => []

/-- The collections of a call free no object under destruction or construction. -/
def State.Spares (s : State) (call : Call) : Prop :=
  ∀ collection ∈ s.collections call, ∀ (index : Nat) (node : Node), s.nodes[index]? = some node →
    node.destroying = true ∨ node.constructing = true → collection.freed index = false

/-- What a call that does not abort can do. -/
inductive Effect (s : State) (call : Call) : State → Option Nat → Prop where
  | same {s' : State} (same : Same (s.collections call) s s') (destroy : s.destroyBegun call = none)
      (construction : s.constructionBegun call = none)
      (push : ∀ address, call ≠ .exceptionPush (some address)) : Effect s call s' none
  | push {s' : State} {address : Nat} (push : call = .exceptionPush (some address))
      (push_eq : s.exceptionPush (some address) = .ok s') : Effect s call s' none
  | pop {s' : State} {address : Nat} (pop : call = .exceptionPop (some address))
      (pop_eq : s.exceptionPop (some address) = .ok s') : Effect s call s' none
  | beginDestroy {index : Nat} {node : Node} (destroy : s.destroyBegun call = some index)
      (construction : s.constructionBegun call = none)
      (push : ∀ address, call ≠ .exceptionPush (some address))
      (node_eq : s.nodes[index]? = some node) (live : node.freed = false)
      (alive : node.destroyed = false) :
      Effect s call
        { s with
          nodes := s.nodes.modify index fun node =>
            { node with destroyed := true, destroying := true, destroyPrevious := s.destroyStack }
          destroyStack := some index } none
  | endDestroy {index : Nat} {node : Node} (destroy : s.destroyBegun call = none)
      (construction : s.constructionBegun call = none)
      (push : ∀ address, call ≠ .exceptionPush (some address))
      (node_eq : s.nodes[index]? = some node) (top : s.destroyStack = some index) :
      Effect s call
        { s with
          nodes := s.nodes.modify index fun node =>
            { node with destroying := false, destroyPrevious := none }
          destroyStack := node.destroyPrevious } none
  | beginConstruction {index : Nat} {node : Node} (destroy : s.destroyBegun call = none)
      (construction : s.constructionBegun call = some index)
      (push : ∀ address, call ≠ .exceptionPush (some address))
      (node_eq : s.nodes[index]? = some node) (live : node.freed = false)
      (idle : node.constructing = false) :
      Effect s call
        { s with
          nodes := s.nodes.modify index fun node =>
            { node with constructing := true, constructPrevious := s.constructionStack }
          constructionStack := some index } none
  | endConstruction {index : Nat} {node : Node} (destroy : s.destroyBegun call = none)
      (construction : s.constructionBegun call = none)
      (push : ∀ address, call ≠ .exceptionPush (some address))
      (node_eq : s.nodes[index]? = some node) (top : s.constructionStack = some index) :
      Effect s call
        { s with
          nodes := s.nodes.modify index fun node =>
            { node with constructing := false, constructPrevious := none }
          constructionStack := node.constructPrevious } none
  | raise {s₀ s' : State} {address : Nat} {exception : State.Exception}
      {trace : Option (List TraceEntry)} (same : Same (s.collections call) s s₀)
        (destroy : s.destroyBegun call = none)
      (construction : s.constructionBegun call = none)
      (push : ∀ address, call ≠ .exceptionPush (some address))
      (raise_eq : s₀.raiseException exception trace = .ok (s', address)) :
      Effect s call s' (some address)

theorem returning_eq_ok {x : Except Fault State} :
    returning x = .ok (s, jumped) ↔ x = .ok s ∧ jumped = none := by
  simp only [returning, bind_eq_ok, pure_eq_ok, Prod.mk.injEq]
  constructor
  · rintro ⟨_, h, rfl, rfl⟩
    exact ⟨h, rfl⟩
  · rintro ⟨h, rfl⟩
    exact ⟨s, h, rfl, rfl⟩

theorem raising_eq_ok {x : Except Fault (State × Nat)} :
    raising x = .ok (s, jumped) ↔ ∃ address, x = .ok (s, address) ∧ jumped = some address := by
  simp only [raising, bind_eq_ok, pure_eq_ok, Prod.mk.injEq, Prod.exists]
  constructor
  · rintro ⟨_, address, h, rfl, rfl⟩
    exact ⟨address, h, rfl⟩
  · rintro ⟨address, h, rfl⟩
    exact ⟨s, address, h, rfl, rfl⟩

theorem same_allocations {allocations : List Allocation}
    (h : allocations.foldlM State.allocate s = .ok s') :
    Same (allocations.map Allocation.collection) s s' := by
  induction allocations generalizing s with
  | nil =>
    obtain rfl := Except.ok.inj h
    exact .of_nodes rfl (fun _ => rfl) rfl rfl rfl
  | cons allocation allocations ih =>
    rw [List.foldlM_cons, bind_eq_ok] at h
    obtain ⟨next, hfirst, hrest⟩ := h
    exact (same_allocate hfirst).trans (ih hrest)

theorem exceptionRaise_spec {message file : Bytes} {line column : Nat} {allocated : Allocated}
    (h : s.exceptionRaise message file line column allocated = .ok (s', address)) :
    ∃ s₀ exception trace, Same allocated.collections s s₀ ∧
      s₀.raiseException exception trace = .ok (s', address) := by
  unfold State.exceptionRaise at h
  split at h
  · -- a raise during a collection ends the program
    next hcollecting =>
    simp only [State.raiseException, bind_eq_ok, ensure_eq_ok] at h
    obtain ⟨_, ⟨hidle, hquiet⟩, _⟩ := h
    rw [hidle, hquiet] at hcollecting
    simp at hcollecting
  · simp only [State.makeRuntimeException, bind_eq_ok] at h
    obtain ⟨s₀, ⟨next, hexception, hmessage⟩, hraise⟩ := h
    exact ⟨s₀, _, _, (same_allocate hexception).trans (same_allocations hmessage), hraise⟩

theorem findNode_some {test : Node → Bool} (h : s.findNode test = some index) :
    ∃ node, s.nodes[index]? = some node ∧ node.freed = false ∧ test node = true := by
  have hany := List.find?_some h
  rw [Option.any_eq_true] at hany
  obtain ⟨node, hnode, htest⟩ := hany
  rw [Bool.and_eq_true, Bool.not_eq_true'] at htest
  exact ⟨node, hnode, htest⟩

theorem call_effect (h : s.call call = .ok (s', jumped)) : Effect s call s' jumped := by
  cases call with
  | allocate allocation =>
    obtain ⟨hbody, rfl⟩ := returning_eq_ok.mp h
    exact .same (same_allocate hbody) rfl rfl (by rintro _ ⟨⟩)
  | gcPush storage =>
    obtain ⟨hbody, rfl⟩ := returning_eq_ok.mp h
    simp only [State.gcPush, bind_eq_ok, pure_eq_ok, ensure_eq_ok, require_eq_ok] at hbody
    obtain ⟨_, _, _, _, _, _, rfl⟩ := hbody
    exact .same (.of_nodes rfl (fun _ => rfl) rfl rfl rfl) rfl rfl (by rintro _ ⟨⟩)
  | gcPop storage =>
    obtain ⟨hbody, rfl⟩ := returning_eq_ok.mp h
    simp only [State.gcPop, bind_eq_ok, pure_eq_ok, ensure_eq_ok, require_eq_ok] at hbody
    obtain ⟨_, _, _, _, rfl⟩ := hbody
    exact .same (.of_nodes rfl (fun _ => rfl) rfl rfl rfl) rfl rfl (by rintro _ ⟨⟩)
  | tracePush storage name file line column =>
    obtain ⟨hbody, rfl⟩ := returning_eq_ok.mp h
    simp only [State.tracePush, bind_eq_ok, pure_eq_ok, ensure_eq_ok, require_eq_ok] at hbody
    obtain ⟨_, _, _, _, _, _, rfl⟩ := hbody
    exact .same (.of_nodes rfl (fun _ => rfl) rfl rfl rfl) rfl rfl (by rintro _ ⟨⟩)
  | tracePop storage =>
    obtain ⟨hbody, rfl⟩ := returning_eq_ok.mp h
    simp only [State.tracePop, bind_eq_ok, pure_eq_ok, ensure_eq_ok, require_eq_ok] at hbody
    obtain ⟨_, _, _, _, rfl⟩ := hbody
    exact .same (.of_nodes rfl (fun _ => rfl) rfl rfl rfl) rfl rfl (by rintro _ ⟨⟩)
  | exceptionPush storage =>
    obtain ⟨hbody, rfl⟩ := returning_eq_ok.mp h
    cases storage with
    | none => cases hbody
    | some address => exact .push rfl hbody
  | exceptionPop storage =>
    obtain ⟨hbody, rfl⟩ := returning_eq_ok.mp h
    cases storage with
    | none => cases hbody
    | some address => exact .pop rfl hbody
  | exceptionClear storage =>
    obtain ⟨hbody, rfl⟩ := returning_eq_ok.mp h
    simp only [State.exceptionClear, bind_eq_ok, pure_eq_ok, require_eq_ok] at hbody
    obtain ⟨address, _, rfl⟩ := hbody
    exact .same (same_setFrame s rfl) rfl rfl (by rintro _ ⟨⟩)
  | exceptionRaise message file line column allocated =>
    obtain ⟨address, hbody, rfl⟩ := raising_eq_ok.mp h
    obtain ⟨s₀, exception, trace, hsame, hraise⟩ := exceptionRaise_spec hbody
    exact .raise hsame rfl rfl (by rintro _ ⟨⟩) hraise
  | exceptionRaiseObject object exceptionBase message file line column =>
    obtain ⟨address, hbody, rfl⟩ := raising_eq_ok.mp h
    simp only [State.exceptionRaiseObject, bind_eq_ok] at hbody
    obtain ⟨_, _, hraise⟩ := hbody
    exact .raise (.of_nodes rfl (fun _ => rfl) rfl rfl rfl) rfl rfl (by rintro _ ⟨⟩) hraise
  | exceptionRethrow storage =>
    obtain ⟨address, hbody, rfl⟩ := raising_eq_ok.mp h
    simp only [State.exceptionRethrow, bind_eq_ok] at hbody
    obtain ⟨inner, _, _, _, _, _, hraise⟩ := hbody
    have hsame : Same [] s (s.setFrame inner (State.cleared (s.frames inner))) :=
      same_setFrame s rfl
    exact .raise hsame rfl rfl (by rintro _ ⟨⟩) hraise
  | gcBeginDestroy object file line column allocated =>
    -- both refusals raise, and a call that raises has begun no destroy
    have hraises : ∀ message : String,
        raising (s.exceptionRaise (ascii message) file line column allocated) = .ok (s', jumped) →
        s.destroyBegun (.gcBeginDestroy object file line column allocated) = none →
        Effect s (.gcBeginDestroy object file line column allocated) s' jumped := by
      intro message hraise hbegun
      obtain ⟨address, hbody, rfl⟩ := raising_eq_ok.mp hraise
      obtain ⟨s₀, exception, trace, hsame, hraise⟩ := exceptionRaise_spec hbody
      have hcollections : s.collections (.gcBeginDestroy object file line column allocated) =
          allocated.collections := by
        rw [State.collections, hbegun]
        rfl
      exact .raise (hcollections ▸ hsame) hbegun rfl (by rintro _ ⟨⟩) hraise
    simp only [State.call, State.gcBeginDestroy] at h
    cases hfind : s.findContainingObject object with
    | none =>
      rw [hfind] at h
      exact hraises _ h (by rw [State.destroyBegun, hfind]; rfl)
    | some index =>
      rw [hfind] at h
      obtain ⟨node, hnode, hlive, _⟩ := findNode_some hfind
      dsimp only at h
      split at h
      · next hdestroyed =>
        refine hraises _ h ?_
        rw [State.destroyBegun, hfind, Option.filter_some, hdestroyed]
        rfl
      · next halive =>
        obtain ⟨rfl, rfl⟩ := Prod.mk.inj (Except.ok.inj h)
        rw [Bool.not_eq_true] at halive
        refine .beginDestroy ?_ rfl (by rintro _ ⟨⟩) hnode hlive ?_
        · rw [State.destroyBegun, hfind, Option.filter_some, halive]
          rfl
        · rwa [hnode] at halive
  | gcEndDestroy object =>
    obtain ⟨hbody, rfl⟩ := returning_eq_ok.mp h
    simp only [State.gcEndDestroy, bind_eq_ok, pure_eq_ok, ensure_eq_ok, require_eq_ok] at hbody
    obtain ⟨index, _, node, hnode, _, ⟨_, htop⟩, rfl⟩ := hbody
    exact .endDestroy rfl rfl (by rintro _ ⟨⟩) hnode htop
  | gcBeginConstruction object =>
    obtain ⟨hbody, rfl⟩ := returning_eq_ok.mp h
    simp only [State.gcBeginConstruction, bind_eq_ok, pure_eq_ok, ensure_eq_ok, require_eq_ok]
      at hbody
    obtain ⟨index, hfind, node, hnode, _, ⟨_, hidle⟩, rfl⟩ := hbody
    obtain ⟨found, hfound, hlive, _⟩ := findNode_some hfind
    obtain rfl := Option.some.inj (hnode.symm.trans hfound)
    exact .beginConstruction rfl hfind (by rintro _ ⟨⟩) hnode hlive hidle
  | gcEndConstruction object =>
    obtain ⟨hbody, rfl⟩ := returning_eq_ok.mp h
    simp only [State.gcEndConstruction, bind_eq_ok, pure_eq_ok, ensure_eq_ok, require_eq_ok]
      at hbody
    obtain ⟨index, _, node, hnode, _, ⟨_, htop⟩, rfl⟩ := hbody
    exact .endConstruction rfl rfl (by rintro _ ⟨⟩) hnode htop

theorem raiseException_spec (h : s.raiseException exception trace = .ok (s', address)) :
    ∃ captured nodes nodes',
      s.traceOrCapture trace = .ok captured ∧
      s.activeException = some address ∧
      unwind Node.destroyPrevious (!·.freed) (fun node => { node with destroying := false })
        (s.frames address).savedDestroys (s.nodes.length + 1) s.nodes s.destroyStack = .ok nodes ∧
      unwind Node.constructPrevious (!·.freed)
        (fun node => { node with constructing := false, destroyed := true })
        (s.frames address).savedConstructions (nodes.length + 1) nodes s.constructionStack =
          .ok nodes' ∧
      s' = { s.setFrame address
          { s.frames address with
            message := exception.message
            file := exception.file
            line := exception.line
            column := exception.column
            exceptionObject := exception.exceptionObject
            exceptionBase := exception.exceptionBase
            hasException := true
            trace := captured
            previous := none } with
        nodes := nodes'
        activeException := (s.frames address).previous
        rootFrame := (s.frames address).savedRoots
        activeTrace := (s.frames address).savedTrace
        destroyStack := (s.frames address).savedDestroys
        constructionStack := (s.frames address).savedConstructions } := by
  simp only [State.raiseException, State.unwindDestroys, State.unwindConstructions, bind_eq_ok,
    pure_eq_ok, ensure_eq_ok, require_eq_ok, mapError_eq_ok, Prod.mk.injEq] at h
  obtain ⟨_, _, captured, hcaptured, _, hactive, _, ⟨nodes, hdestroys, rfl⟩, _,
    ⟨nodes', hconstructions, rfl⟩, rfl, rfl⟩ := h
  exact ⟨captured, nodes, nodes', hcaptured, hactive, hdestroys, hconstructions, rfl⟩

/-! ## The object stacks -/

/-- An object being destroyed counts as destroyed, and neither it nor one being
    constructed has been freed. -/
structure Node.Sound (node : Node) : Prop where
  doomed : node.destroying = true → node.destroyed = true
  live : node.destroying = true ∨ node.constructing = true → node.freed = false

/-- The objects being destroyed and those being constructed, innermost first. -/
structure Stacks (s : State) (destroys constructions : List Nat) : Prop where
  destroys : Stacked Node.destroyPrevious Node.destroying s.nodes s.destroyStack destroys
  constructions : Stacked Node.constructPrevious Node.constructing s.nodes s.constructionStack
    constructions
  sound : ∀ (index : Nat) (node : Node), s.nodes[index]? = some node → node.Sound

theorem stacks_initial : Stacks .initial [] [] := ⟨stacked_nil, stacked_nil, nofun⟩

theorem Stacks.same (h : Stacks s destroys constructions) (hsame : Same collected s s')
    (hspares : ∀ collection ∈ collected, ∀ (index : Nat) (node : Node),
      s.nodes[index]? = some node →
      node.destroying = true ∨ node.constructing = true → collection.freed index = false) :
    Stacks s' destroys constructions := by
  refine ⟨?_, ?_, fun index node' hnode' => ?_⟩
  · rw [hsame.destroyStack]
    exact h.destroys.grow (fun index node hnode => ⟨_, hsame.old index node hnode, rfl, rfl⟩)
      fun index node hnode hnone => (hsame.new index node hnode hnone).1
  · rw [hsame.constructionStack]
    exact h.constructions.grow (fun index node hnode => ⟨_, hsame.old index node hnode, rfl, rfl⟩)
      fun index node hnode hnone => (hsame.new index node hnode hnone).2
  · cases hnode : s.nodes[index]? with
    | none =>
      obtain ⟨hdestroying, hconstructing⟩ := hsame.new index node' hnode' hnode
      exact ⟨by simp [hdestroying], by simp [hdestroying, hconstructing]⟩
    | some node =>
      obtain rfl := Option.some.inj (hnode'.symm.trans (hsame.old index node hnode))
      have hsound := h.sound index node hnode
      refine ⟨fun hdestroying => ?_, fun hbusy => ?_⟩
      · show (node.destroyed || _) = true
        rw [hsound.doomed hdestroying, Bool.true_or]
      · show (node.freed || _) = false
        rw [hsound.live hbusy, Bool.false_or, List.any_eq_false]
        intro collection hmem
        rw [hspares collection hmem index node hnode hbusy]
        exact Bool.false_ne_true

theorem Stacks.live_of_mem (h : Stacks s destroys constructions)
    (hmem : index ∈ destroys ∨ index ∈ constructions) (hnode : s.nodes[index]? = some node) :
    (!node.freed) = true := by
  have hbusy : node.destroying = true ∨ node.constructing = true := by
    rw [h.destroys.mem_iff index, h.constructions.mem_iff index, hnode] at hmem
    simpa using hmem
  rw [(h.sound index node hnode).live hbusy]
  rfl

def Node.unwound (node : Node) (destroy construction : Bool) : Node :=
  { node with
    destroying := node.destroying && !destroy
    constructing := node.constructing && !construction
    destroyed := node.destroyed || construction }

theorem unwind_ok {next : Node → Option Nat} {busy : Node → Bool} {release : Node → Node}
    (hidle : ∀ node, busy (release node) = false) {nodes nodes' : List Node}
    {top saved : Option Nat}
    {stack : List Nat} (h : Stacked next busy nodes top stack)
    (hlive : ∀ index ∈ stack, ∀ node, nodes[index]? = some node → (!node.freed) = true)
    (hunwind : unwind next (!·.freed) release saved (nodes.length + 1) nodes top = .ok nodes') :
    ∃ above below, stack = above ++ below ∧ Stacked next busy nodes' saved below ∧
      Released release above nodes nodes' := by
  have hlength := h.length_le
  obtain hbottom | ⟨after, above, below, hok, hstack, hbelow, hreleased⟩ :=
    unwind_spec hidle h hlive saved (show stack.length < nodes.length + 1 by omega)
  · rw [hbottom] at hunwind
    cases hunwind
  · rw [hok] at hunwind
    obtain rfl := Except.ok.inj hunwind
    exact ⟨above, below, hstack, hbelow, hreleased⟩

theorem sound_modify {nodes : List Node} {f : Node → Node}
    (h : ∀ (other : Nat) (node : Node), nodes[other]? = some node → node.Sound)
    (hf : ∀ node, nodes[index]? = some node → node.Sound → (f node).Sound) (other : Nat)
    (node : Node)
    (hnode : (nodes.modify index f)[other]? = some node) : node.Sound := by
  rw [List.getElem?_modify] at hnode
  obtain ⟨before, hbefore, rfl⟩ := Option.map_eq_some_iff.mp hnode
  split
  · next heq => exact hf before (heq ▸ hbefore) (h other before hbefore)
  · exact h other before hbefore

/-- The nodes after the loop over the destroys, with the constructions still to end. -/
theorem released_constructions (h : Stacks s destroys constructions) {destroyed : List Nat}
    {nodes : List Node}
    (hreleased : Released (fun node => { node with destroying := false }) destroyed s.nodes nodes) :
    Stacked Node.constructPrevious Node.constructing nodes s.constructionStack constructions ∧
      ∀ index ∈ constructions, ∀ node, nodes[index]? = some node → (!node.freed) = true := by
  refine ⟨h.constructions.congr (hreleased.map_eq fun _ => rfl) (hreleased.map_eq fun _ => rfl), ?_⟩
  intro index hmem node hnode
  have hfreed := hreleased.map_eq (f := Node.freed) (fun _ => rfl) index
  rw [hnode] at hfreed
  obtain ⟨before, hbefore, hsame⟩ := Option.map_eq_some_iff.mp hfreed.symm
  rw [← hsame]
  exact h.live_of_mem (.inr hmem) hbefore

theorem raise_stacks (h : Stacks s destroys constructions)
    (hraise : s.raiseException exception trace = .ok (s', address)) :
    ∃ destroyed left built under, destroys = destroyed ++ left ∧ constructions = built ++ under ∧
      Stacks s' left under ∧ ∀ index : Nat, s'.nodes[index]?
        = (s.nodes[index]?).map fun node =>
            node.unwound (decide (index ∈ destroyed)) (decide (index ∈ built)) := by
  obtain ⟨captured, nodes, nodes', _, _, hdestroys, hconstructions, rfl⟩ :=
    raiseException_spec hraise
  obtain ⟨destroyed, left, rfl, hleft, hreleased⟩ :=
    unwind_ok (fun _ => rfl) h.destroys (fun _ hmem _ => h.live_of_mem (.inl hmem)) hdestroys
  obtain ⟨hbuilding, hlive⟩ := released_constructions h hreleased
  obtain ⟨built, under, rfl, hunder, hended⟩ :=
    unwind_ok (fun _ => rfl) hbuilding hlive hconstructions
  have hnodes : ∀ index : Nat, nodes'[index]? = (s.nodes[index]?).map fun node =>
      node.unwound (decide (index ∈ destroyed)) (decide (index ∈ built)) := by
    intro index
    rw [hended index, hreleased index]
    cases s.nodes[index]? with
    | none => simp
    | some node =>
      by_cases hdestroyed : index ∈ destroyed <;> by_cases hbuilt : index ∈ built <;>
        simp [hdestroyed, hbuilt, Node.unwound]
  refine ⟨destroyed, left, built, under, rfl, rfl, ⟨?_, hunder, ?_⟩, hnodes⟩
  · exact hleft.congr (hended.map_eq fun _ => rfl) (hended.map_eq fun _ => rfl)
  · intro index node hnode
    have hold := hnodes index
    rw [show nodes'[index]? = some node from hnode] at hold
    obtain ⟨before, hbefore, rfl⟩ := Option.map_eq_some_iff.mp hold.symm
    have hsound := h.sound index before hbefore
    refine ⟨fun hdestroying => ?_, fun hbusy => hsound.live ?_⟩
    · simp only [Node.unwound, Bool.and_eq_true, Bool.or_eq_true] at hdestroying ⊢
      exact .inl (hsound.doomed hdestroying.1)
    · simp only [Node.unwound, Bool.and_eq_true] at hbusy
      exact hbusy.imp And.left And.left

theorem stacks_call (h : Stacks s destroys constructions) (hspares : s.Spares call)
    (he : Effect s call s' jumped) :
    ∃ destroys' constructions', Stacks s' destroys' constructions' ∧
      Moves (s.destroyBegun call) destroys destroys' ∧
      Moves (s.constructionBegun call) constructions constructions' := by
  cases he with
  | same hsame hdestroy hconstruction hpush =>
    rw [hdestroy, hconstruction]
    exact ⟨destroys, constructions, h.same hsame hspares, moves_refl _, moves_refl _⟩
  | push hpush heq =>
    subst hpush
    simp only [State.exceptionPush, bind_eq_ok, pure_eq_ok, ensure_eq_ok, require_eq_ok] at heq
    obtain ⟨_, _, _, _, rfl⟩ := heq
    exact ⟨destroys, constructions, ⟨h.destroys, h.constructions, h.sound⟩, moves_refl _,
      moves_refl _⟩
  | pop hpop heq =>
    subst hpop
    simp only [State.exceptionPop, bind_eq_ok, pure_eq_ok, ensure_eq_ok, require_eq_ok] at heq
    obtain ⟨_, _, _, _, _, _, rfl⟩ := heq
    exact ⟨destroys, constructions, ⟨h.destroys, h.constructions, h.sound⟩, moves_refl _,
      moves_refl _⟩
  | @beginDestroy index node hdestroy hconstruction hpush hnode hlive halive =>
    rw [hdestroy, hconstruction]
    -- a node being destroyed is doomed already
    have hidle : node.destroying = false := by
      have hdoomed := (h.sound index node hnode).doomed
      cases hdestroying : node.destroying with
      | false => rfl
      | true =>
        rw [hdoomed hdestroying] at halive
        cases halive
    obtain ⟨hnew, hpushed⟩ := h.destroys.push hnode hidle (f := fun node =>
      { node with destroyed := true, destroying := true, destroyPrevious := s.destroyStack }) rfl
        rfl
    refine ⟨index :: destroys, constructions, ⟨hpushed, ?_, sound_modify h.sound ?_⟩, ⟨hnew, rfl⟩,
      moves_refl _⟩
    · exact h.constructions.modify index _ (fun _ => rfl) (fun _ => rfl)
    · intro found hfound _
      obtain rfl := Option.some.inj (hnode.symm.trans hfound)
      exact ⟨fun _ => rfl, fun _ => hlive⟩
  | @endDestroy index node hdestroy hconstruction hpush hnode htop =>
    rw [hdestroy, hconstruction]
    -- the node that is taken off is the top of the stack
    obtain ⟨rest, rfl⟩ : ∃ rest, destroys = index :: rest := by
      have hhead := h.destroys.linked.top_eq
      rw [htop] at hhead
      exact List.head?_eq_some_iff.mp hhead.symm
    have hpopped := h.destroys.pop hnode (f := fun node =>
      { node with destroying := false, destroyPrevious := none }) rfl
    refine ⟨rest, constructions, ⟨hpopped, ?_, sound_modify h.sound ?_⟩, ⟨[index], rfl⟩,
      moves_refl _⟩
    · exact h.constructions.modify index _ (fun _ => rfl) (fun _ => rfl)
    · exact fun found _ hsound => ⟨fun h => absurd h Bool.false_ne_true, fun hbusy =>
        hsound.live (hbusy.imp (fun h => absurd h Bool.false_ne_true) id)⟩
  | @beginConstruction index node hdestroy hconstruction hpush hnode hlive hidle =>
    rw [hdestroy, hconstruction]
    obtain ⟨hnew, hpushed⟩ := h.constructions.push hnode hidle (f := fun node =>
      { node with constructing := true, constructPrevious := s.constructionStack }) rfl rfl
    refine ⟨destroys, index :: constructions, ⟨?_, hpushed, sound_modify h.sound ?_⟩, moves_refl _,
      ⟨hnew, rfl⟩⟩
    · exact h.destroys.modify index _ (fun _ => rfl) (fun _ => rfl)
    · intro found hfound hsound
      obtain rfl := Option.some.inj (hnode.symm.trans hfound)
      exact ⟨hsound.doomed, fun _ => hlive⟩
  | @endConstruction index node hdestroy hconstruction hpush hnode htop =>
    rw [hdestroy, hconstruction]
    obtain ⟨rest, rfl⟩ : ∃ rest, constructions = index :: rest := by
      have hhead := h.constructions.linked.top_eq
      rw [htop] at hhead
      exact List.head?_eq_some_iff.mp hhead.symm
    have hpopped := h.constructions.pop hnode (f := fun node =>
      { node with constructing := false, constructPrevious := none }) rfl
    refine ⟨destroys, rest, ⟨?_, hpopped, sound_modify h.sound ?_⟩, moves_refl _, ⟨[index], rfl⟩⟩
    · exact h.destroys.modify index _ (fun _ => rfl) (fun _ => rfl)
    · exact fun found _ hsound => ⟨hsound.doomed, fun hbusy =>
        hsound.live (hbusy.imp id fun h => absurd h Bool.false_ne_true)⟩
  | raise hsame hdestroy hconstruction hpush hraise =>
    rw [hdestroy, hconstruction]
    obtain ⟨destroyed, left, built, under, rfl, rfl, hafter, _⟩ :=
      raise_stacks (h.same hsame hspares) hraise
    exact ⟨left, under, hafter, ⟨destroyed, rfl⟩, ⟨built, rfl⟩⟩

theorem destroyed_call (h : Stacks s destroys constructions) (hspares : s.Spares call)
    (he : Effect s call s' jumped)
    (hnode : s.nodes[index]? = some node) (hdestroyed : node.destroyed = true) :
    ∃ node', s'.nodes[index]? = some node' ∧ node'.destroyed = true := by
  have hmodify : ∀ (other : Nat) (f : Node → Node),
      (∀ node : Node, node.destroyed = true → (f node).destroyed = true) →
      ∃ node', (s.nodes.modify other f)[index]? = some node' ∧ node'.destroyed = true := by
    intro other f hf
    by_cases hindex : index = other
    · subst hindex
      exact ⟨f node, getElem?_modify_self hnode f, hf node hdestroyed⟩
    · exact ⟨node, by rw [getElem?_modify_other hindex, hnode], hdestroyed⟩
  cases he with
  | same hsame => exact ⟨_, hsame.old index node hnode, by rw [Node.aged, hdestroyed, Bool.true_or]⟩
  | push hpush heq =>
    simp only [State.exceptionPush, bind_eq_ok, pure_eq_ok, ensure_eq_ok, require_eq_ok] at heq
    obtain ⟨_, _, _, _, rfl⟩ := heq
    exact ⟨node, hnode, hdestroyed⟩
  | pop hpop heq =>
    simp only [State.exceptionPop, bind_eq_ok, pure_eq_ok, ensure_eq_ok, require_eq_ok] at heq
    obtain ⟨_, _, _, _, _, _, rfl⟩ := heq
    exact ⟨node, hnode, hdestroyed⟩
  | beginDestroy => exact hmodify _ _ fun _ _ => rfl
  | endDestroy | beginConstruction | endConstruction => exact hmodify _ _ fun _ hold => hold
  | raise hsame _ _ _ hraise =>
    obtain ⟨destroyed, _, built, _, _, _, _, hnodes⟩ := raise_stacks (h.same hsame hspares) hraise
    refine ⟨(node.aged (s.collections call) index).unwound (decide (index ∈ destroyed))
      (decide (index ∈ built)), ?_, ?_⟩
    · rw [hnodes, hsame.old index node hnode]
      rfl
    · show (node.destroyed || _ || _) = true
      rw [hdestroyed]
      rfl

/-! ## Freed nodes -/

theorem ensure_avoids (c : Prop) [Decidable c] : Avoids Fault.dangling (ensure c .aborts) :=
  Avoids.ensure (by rintro ⟨⟩) c

theorem require_avoids {α : Type} (x : Option α) : Avoids Fault.dangling (require x .aborts) :=
  Avoids.require (by rintro ⟨⟩) x

theorem unwind_avoids {next : Node → Option Nat} {busy : Node → Bool} {release : Node → Node}
    (hidle : ∀ node, busy (release node) = false) {nodes : List Node} {top saved : Option Nat}
    {stack : List Nat} (h : Stacked next busy nodes top stack)
    (hlive : ∀ index ∈ stack, ∀ node, nodes[index]? = some node → (!node.freed) = true) :
    Avoids .dangling ((unwind next (!·.freed) release saved (nodes.length + 1) nodes top).mapError
      State.unwindFault) := by
  have hlength := h.length_le
  obtain hbottom | ⟨_, _, _, hok, _⟩ :=
    unwind_spec hidle h hlive saved (show stack.length < nodes.length + 1 by omega)
  · rw [hbottom]
    exact nofun
  · rw [hok]
    exact nofun

theorem traceOrCapture_avoids (s : State) (trace : Option (List TraceEntry)) :
    Avoids .dangling (s.traceOrCapture trace) := by
  have hfrom (fuel : Nat) (frame : Option Nat) : Avoids .dangling (s.captureFrom fuel frame) := by
    induction fuel generalizing frame with
    | zero =>
      cases frame with
      | none | some frame => exact nofun
    | succ fuel ih =>
      cases frame with
      | none => exact nofun
      | some frame => exact (ih _).bind fun _ _ => Avoids.ok _
  rw [State.traceOrCapture]
  split
  · exact (hfrom _ _).bind fun _ _ => Avoids.ok _
  · exact Avoids.ok _

/-- The loops of a raise follow links to nodes that are still there. -/
theorem raiseException_avoids (h : Stacks s destroys constructions) (exception : State.Exception)
    (trace : Option (List TraceEntry)) : Avoids .dangling (s.raiseException exception trace) := by
  refine (Avoids.ensure (by rintro ⟨⟩) _).bind fun _ _ =>
      (traceOrCapture_avoids s trace).bind fun captured _ =>
    (Avoids.require (by rintro ⟨⟩) _).bind fun active _ => ?_
  refine Avoids.bind ?_ fun s₁ hs₁ => Avoids.bind ?_ fun _ _ => Avoids.ok _
  · refine Avoids.bind ?_ fun _ _ => Avoids.ok _
    exact unwind_avoids (fun _ => rfl) h.destroys fun _ hmem _ => h.live_of_mem (.inl hmem)
  · simp only [State.unwindDestroys, bind_eq_ok, pure_eq_ok, mapError_eq_ok] at hs₁
    obtain ⟨nodes, hdestroys, rfl⟩ := hs₁
    obtain ⟨_, _, _, _, hreleased⟩ :=
      unwind_ok (fun _ => rfl) h.destroys (fun _ hmem _ => h.live_of_mem (.inl hmem)) hdestroys
    obtain ⟨hbuilding, hlive⟩ := released_constructions h hreleased
    exact Avoids.bind (unwind_avoids (fun _ => rfl) hbuilding hlive) fun _ _ => Avoids.ok _

theorem exceptionRaise_avoids (h : Stacks s destroys constructions) {allocated : Allocated}
    (hspares : ∀ collection ∈ allocated.collections, ∀ (index : Nat) (node : Node),
      s.nodes[index]? = some node →
      node.destroying = true ∨ node.constructing = true → collection.freed index = false)
    (message file : Bytes) (line column : Nat) :
    Avoids .dangling (s.exceptionRaise message file line column allocated) := by
  have hallocate (s : State) (allocation : Allocation) : Avoids .dangling (s.allocate allocation) :=
    (ensure_avoids _).bind fun _ _ => Avoids.ok _
  rw [State.exceptionRaise]
  split
  · exact raiseException_avoids h _ _
  · refine Avoids.bind ?_ fun s₀ hs₀ => ?_
    · exact (hallocate _ _).bind fun next _ =>
        foldlM_avoids (I := fun _ => True) (fun allocation _ s _ => hallocate s allocation)
          (fun _ _ _ _ _ _ => trivial) trivial
    · simp only [State.makeRuntimeException, bind_eq_ok] at hs₀
      obtain ⟨next, hexception, hmessage⟩ := hs₀
      exact raiseException_avoids
        (h.same ((same_allocate hexception).trans (same_allocations hmessage)) hspares) _ _

/-- No call touches a freed node, if its own collections free none that is in use. -/
theorem call_avoids (h : Stacks s destroys constructions) (hspares : s.Spares call) :
    Avoids .dangling (s.call call) := by
  have hreturns {x : Except Fault State} (hx : Avoids .dangling x) :
      Avoids .dangling (returning x) :=
    hx.bind fun _ _ => Avoids.ok _
  have hraises {x : Except Fault (State × Nat)} (hx : Avoids .dangling x) :
      Avoids .dangling (raising x) :=
    hx.bind fun _ _ => Avoids.ok _
  -- an index that was found leads to a node
  have hnode {test : Node → Bool} {index : Nat} (hfind : s.findNode test = some index) :
      Avoids .dangling (require s.nodes[index]? Fault.dangling) := by
    obtain ⟨node, hget, _⟩ := findNode_some hfind
    rw [hget]
    exact Avoids.ok node
  cases call with
  | allocate allocation => exact hreturns ((ensure_avoids _).bind fun _ _ => Avoids.ok _)
  | gcPush storage =>
    have hactive (frame fuel : Nat) (active : Option Nat) :
        Avoids .dangling (s.rootActive frame fuel active) := by
      induction fuel generalizing active with
      | zero => exact nofun
      | succ fuel ih =>
        cases active with
        | none => exact nofun
        | some active =>
          rw [State.rootActive]
          split
          · exact Avoids.ok _
          · exact ih _
    exact hreturns ((require_avoids _).bind fun _ _ => (hactive _ _ _).bind fun _ _ =>
      (ensure_avoids _).bind fun _ _ => Avoids.ok _)
  | gcPop storage | exceptionPush storage =>
    exact hreturns ((require_avoids _).bind fun _ _ => (ensure_avoids _).bind fun _ _ =>
      Avoids.ok _)
  | tracePush storage name file line column =>
    exact hreturns ((require_avoids _).bind fun _ _ => (ensure_avoids _).bind fun _ _ =>
      (require_avoids _).bind fun _ _ => Avoids.ok _)
  | tracePop storage =>
    exact hreturns ((require_avoids _).bind fun _ _ => (ensure_avoids _).bind fun _ _ =>
      Avoids.ok _)
  | exceptionPop storage =>
    exact hreturns ((require_avoids _).bind fun _ _ => (ensure_avoids _).bind fun _ _ =>
      (ensure_avoids _).bind fun _ _ => Avoids.ok _)
  | exceptionClear storage => exact hreturns ((require_avoids _).bind fun _ _ => Avoids.ok _)
  | exceptionRaise message file line column allocated =>
    exact hraises (exceptionRaise_avoids h hspares _ _ _ _)
  | exceptionRaiseObject object exceptionBase message file line column =>
    exact hraises ((ensure_avoids _).bind fun _ _ => raiseException_avoids h _ _)
  | exceptionRethrow storage =>
    refine hraises ((require_avoids _).bind fun inner _ => (ensure_avoids _).bind fun _ _ =>
      (ensure_avoids _).bind fun _ _ => ?_)
    have hcleared : Stacks (s.setFrame inner (State.cleared (s.frames inner))) destroys
        constructions :=
      h.same (same_setFrame s rfl) nofun
    exact raiseException_avoids hcleared _ _
  | gcBeginDestroy object file line column allocated =>
    have hraise (message : String)
        (hbegun : s.destroyBegun (.gcBeginDestroy object file line column allocated) = none) :
        Avoids .dangling (raising (s.exceptionRaise (ascii message) file line column
            allocated)) := by
      refine hraises (exceptionRaise_avoids h ?_ _ _ _ _)
      rw [State.Spares, State.collections, hbegun] at hspares
      exact hspares
    rw [State.call, State.gcBeginDestroy]
    cases hfind : s.findContainingObject object with
    | none => exact hraise _ (by rw [State.destroyBegun, hfind]; rfl)
    | some index =>
      dsimp only
      split
      · next hdestroyed =>
          exact hraise _ (by rw [State.destroyBegun, hfind, Option.filter_some, hdestroyed]; rfl)
      · exact Avoids.ok _
  | gcEndDestroy object | gcBeginConstruction object | gcEndConstruction object =>
    exact hreturns ((require_avoids _).bind fun index hindex =>
      (hnode (require_eq_ok.mp hindex)).bind
      fun _ _ => (ensure_avoids _).bind fun _ _ => Avoids.ok _)

/-! ## Exception frames -/

theorem raise_frames (h : s.raiseException exception trace = .ok (s', address)) (other : Nat) :
    (links (s'.frames other)).2 = (links (s.frames other)).2 ∧
      (other ≠ address → (s'.frames other).previous = (s.frames other).previous) := by
  obtain ⟨captured, nodes, nodes', _, _, _, _, rfl⟩ := raiseException_spec h
  show (links (if other = address then _ else s.frames other)).2 = _ ∧
    (_ → (if other = address then _ else s.frames other).previous = _)
  split
  · next heq =>
    subst heq
    exact ⟨rfl, fun hne => absurd rfl hne⟩
  · exact ⟨rfl, fun _ => rfl⟩

theorem frame_saved (he : Effect s call s' jumped) (hpush : call ≠ .exceptionPush (some address)) :
    (links (s'.frames address)).2 = (links (s.frames address)).2 := by
  cases he with
  | same hsame => rw [hsame.frames]
  | @push _ other hcall heq =>
    simp only [State.exceptionPush, bind_eq_ok, pure_eq_ok, ensure_eq_ok, require_eq_ok,
      Option.some.injEq] at heq
    obtain ⟨_, rfl, _, _, rfl⟩ := heq
    show (links (if address = other then _ else s.frames address)).2 = _
    rw [if_neg]
    rintro rfl
    exact hpush hcall
  | @pop _ other hcall heq =>
    simp only [State.exceptionPop, bind_eq_ok, pure_eq_ok, ensure_eq_ok, require_eq_ok,
      Option.some.injEq] at heq
    obtain ⟨_, rfl, _, _, _, _, rfl⟩ := heq
    show (links (if address = other then _ else s.frames address)).2 = _
    split
    · next hother => rw [hother]; rfl
    · rfl
  | beginDestroy => rfl
  | endDestroy => rfl
  | beginConstruction => rfl
  | endConstruction => rfl
  | raise hsame _ _ _ hraise => rw [(raise_frames hraise address).1, hsame.frames]

theorem frame_previous (he : Effect s call s' jumped) (hpush : call ≠ .exceptionPush (some address))
    (hpop : call ≠ .exceptionPop (some address)) (hjumped : jumped ≠ some address) :
    (s'.frames address).previous = (s.frames address).previous := by
  cases he with
  | same hsame => exact congrArg Prod.fst (hsame.frames address)
  | @push _ other hcall heq =>
    simp only [State.exceptionPush, bind_eq_ok, pure_eq_ok, ensure_eq_ok, require_eq_ok,
      Option.some.injEq] at heq
    obtain ⟨_, rfl, _, _, rfl⟩ := heq
    show (if address = other then _ else s.frames address).previous = _
    rw [if_neg]
    rintro rfl
    exact hpush hcall
  | @pop _ other hcall heq =>
    simp only [State.exceptionPop, bind_eq_ok, pure_eq_ok, ensure_eq_ok, require_eq_ok,
      Option.some.injEq] at heq
    obtain ⟨_, rfl, _, _, _, _, rfl⟩ := heq
    show (if address = other then _ else s.frames address).previous = _
    rw [if_neg]
    rintro rfl
    exact hpop hcall
  | beginDestroy => rfl
  | endDestroy => rfl
  | beginConstruction => rfl
  | endConstruction => rfl
  | raise hsame _ _ _ hraise =>
    have hother := (raise_frames hraise address).2 fun heq => hjumped (congrArg some heq.symm)
    rw [hother]
    exact congrArg Prod.fst (hsame.frames address)

/-- Every frame on the stack, and every frame below one, has been pushed. -/
def Known (calls : List Call) (s : State) : Prop :=
  ∀ address, s.activeException = some address ∨
    (∃ frame, (s.frames frame).previous = some address) →
    Call.exceptionPush (some address) ∈ calls

theorem known_call {calls : List Call} (h : Known calls s)
    (he : Effect s call s' jumped) : Known (calls ++ [call]) s' := by
  have hkept : ∀ {s₀ : State}, s₀.activeException = s.activeException →
      (∀ frame, (s₀.frames frame).previous = (s.frames frame).previous) →
          Known (calls ++ [call]) s₀ := by
    intro s₀ hactive hprevious address hlinked
    rw [hactive] at hlinked
    simp only [hprevious] at hlinked
    exact List.mem_append_left _ (h address hlinked)
  cases he with
  | same hsame =>
    exact hkept hsame.activeException fun frame => congrArg Prod.fst (hsame.frames frame)
  | @push _ other hcall heq =>
    simp only [State.exceptionPush, bind_eq_ok, pure_eq_ok, ensure_eq_ok, require_eq_ok,
      Option.some.injEq] at heq
    obtain ⟨_, rfl, _, _, rfl⟩ := heq
    rintro address (hactive | ⟨frame, hprevious⟩)
    · obtain rfl := Option.some.inj hactive
      rw [hcall]
      exact List.mem_append_right _ (List.mem_singleton.mpr rfl)
    · apply List.mem_append_left
      replace hprevious : (if frame = other then _ else s.frames frame).previous = some address :=
        hprevious
      split at hprevious
      · exact h address (.inl hprevious)
      · exact h address (.inr ⟨frame, hprevious⟩)
  | @pop _ other hcall heq =>
    simp only [State.exceptionPop, bind_eq_ok, pure_eq_ok, ensure_eq_ok, require_eq_ok,
      Option.some.injEq] at heq
    obtain ⟨_, rfl, _, _, _, _, rfl⟩ := heq
    rintro address (hactive | ⟨frame, hprevious⟩)
    · exact List.mem_append_left _ (h address (.inr ⟨other, hactive⟩))
    · apply List.mem_append_left
      replace hprevious : (if frame = other then _ else s.frames frame).previous = some address :=
        hprevious
      split at hprevious
      · cases hprevious
      · exact h address (.inr ⟨frame, hprevious⟩)
  | beginDestroy | endDestroy | beginConstruction | endConstruction => exact hkept rfl fun _ => rfl
  | @raise s₀ _ other _ _ hsame _ _ _ hraise =>
    obtain ⟨captured, nodes, nodes', _, _, _, _, rfl⟩ := raiseException_spec hraise
    have hprevious : ∀ frame, (s₀.frames frame).previous = (s.frames frame).previous :=
      fun frame => congrArg Prod.fst (hsame.frames frame)
    rintro address (hactive | ⟨frame, hbelow⟩)
    · apply List.mem_append_left
      exact h address (.inr ⟨other, (hprevious other).symm.trans hactive⟩)
    · apply List.mem_append_left
      replace hbelow : (if frame = other then _ else s₀.frames frame).previous = some address :=
        hbelow
      split at hbelow
      · cases hbelow
      · exact h address (.inr ⟨frame, (hprevious frame).symm.trans hbelow⟩)

end Cwhip.Runtime.Unwinding
