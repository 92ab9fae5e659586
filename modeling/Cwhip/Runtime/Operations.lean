/-
  Cwhip.Runtime.Operations

  The runtime operations that neither allocate nor collect (`RuntimeGc.c`):
  root frames, stores into objects, explicit destruction, construction,
  exception frames and callback registrations.  They are what the program does
  between two collections, and also what a finalizer does inside one.

`mutate_spec` says once what any of them can do to the heap nodes and the
  ghost history; every invariant is derived from it.
-/

import Cwhip.Lib.Except
import Cwhip.Runtime.Heap
import Mathlib.Logic.Relation

namespace Cwhip.Runtime

open Cwhip.Lib

namespace State

def requireThread (s : State) (t : Nat) : Except Fault Thread :=
  require (s.thread t) .abort

/-! ## Root frames -/

/-- `cwhip_gc_push_or_abort`, `cwhip_gc_push_tagged_or_abort`. -/
def gcPush (s : State) (t : Nat) (frame : RootFrame) : Except Fault State := do
  let thread ← s.requireThread t
  ensure (frame.address ≠ 0 ∧ ∀ active ∈ thread.rootFrames, active.address ≠ frame.address) .abort
  return s.setThread { thread with rootFrames := frame :: thread.rootFrames }

/-- `cwhip_gc_pop_or_abort`. -/
def gcPop (s : State) (t : Nat) (frame : Nat) : Except Fault State := do
  let thread ← s.requireThread t
  ensure (thread.rootFrames.head?.map RootFrame.address = some frame) .abort
  return s.setThread { thread with rootFrames := thread.rootFrames.tail }

/-- The program stores a pointer (and a tag) into a variable that a root frame
    of the thread lists. -/
def storeRoot (s : State) (t : Nat) (frame : Nat) (index : Nat) (slot : RootSlot) :
    Except Fault State := do
  let thread ← s.requireThread t
  let target ← require (thread.rootFrames.find? (fun active => active.address == frame)) .undefined
  ensure (index < target.slots.length) .undefined
  return s.setThread
    { thread with
      rootFrames := thread.rootFrames.map (fun active =>
        if active.address = frame then { active with slots := active.slots.set index slot }
        else active) }

/-! ## Stores into objects -/

/-- Replace the contents of a block that is still allocated. -/
def storePayload (s : State) (serial : Nat) (store : Payload → Option Payload) :
    Except Fault State := do
  let node ← require (s.node serial) .undefined
  let _ ← require (store node.payload) .undefined
  return s.updateNode serial
    (fun node => { node with payload := (store node.payload).getD node.payload })

/-- Field stores of the program: any new words behind the metadata pointer. -/
def storeObject (s : State) (serial : Nat) (words : Nat → Nat) : Except Fault State :=
  s.storePayload serial fun
    | .object metadata _ => some (.object metadata words)
    | _ => none

/-- The list operations: any new elements. -/
def storeArray (s : State) (serial : Nat) (values : List ArrayValue) : Except Fault State :=
  s.storePayload serial fun
    | .array _ => some (.array values)
    | _ => none

/-- The dict operations: any new entries. -/
def storeMap (s : State) (serial : Nat) (entries : List MapEntry) : Except Fault State :=
  s.storePayload serial fun
    | .map _ => some (.map entries)
    | _ => none

/-- The buffer and String operations: any new bytes. -/
def storeBuffer (s : State) (serial : Nat) (data : List UInt8) : Except Fault State :=
  s.storePayload serial fun
    | .buffer _ => some (.buffer data)
    | _ => none

/-! ## Explicit destruction and construction -/

/-- `cwhip_gc_begin_destroy`. -/
def gcBeginDestroy (s : State) (t : Nat) (object : Nat) : Except Fault State := do
  let thread ← s.requireThread t
  let node ← require (s.findContainingObject object) (.raises "invalid object reference")
  ensure (node.destroyed = false) (.raises "object has already been destroyed")
  let s := s.updateNode node.serial (fun node =>
    { node with destroyed := true, destroying := true })
  let s := s.setThread { thread with destroyStack := node.serial :: thread.destroyStack }
  return s.record (.explicitDestroy node.serial)

/-- `cwhip_gc_end_destroy`. -/
def gcEndDestroy (s : State) (t : Nat) (object : Nat) : Except Fault State := do
  let thread ← s.requireThread t
  let node ← require (s.findContainingObject object) .abort
  ensure (node.destroying = true ∧ thread.destroyStack.head? = some node.serial) .abort
  let s := s.updateNode node.serial (fun node => { node with destroying := false })
  return s.setThread { thread with destroyStack := thread.destroyStack.tail }

/-- `cwhip_gc_begin_construction`. -/
def gcBeginConstruction (s : State) (t : Nat) (object : Nat) : Except Fault State := do
  let thread ← s.requireThread t
  let node ← require (s.findObject object) .abort
  ensure (node.destroyed = false ∧ node.constructing = false) .abort
  let s := s.updateNode node.serial (fun node => { node with constructing := true })
  return s.setThread { thread with constructionStack := node.serial :: thread.constructionStack }

/-- `cwhip_gc_end_construction`. -/
def gcEndConstruction (s : State) (t : Nat) (object : Nat) : Except Fault State := do
  let thread ← s.requireThread t
  let node ← require (s.findObject object) .abort
  ensure (node.constructing = true ∧ thread.constructionStack.head? = some node.serial) .abort
  let s := s.updateNode node.serial (fun node => { node with constructing := false })
  return s.setThread { thread with constructionStack := thread.constructionStack.tail }

/-! ## Exception frames -/

/-- `cwhip_exception_frame_init`. -/
def exceptionFrameInit (s : State) (frame : Nat) : Except Fault State := do
  ensure (frame ≠ 0 ∧ frame % 16 = 0) .abort
  return s.setFrame frame .zero

/-- `cwhip_exception_push`.  Pushing a frame that is deeper in the chain would
    close the chain into a cycle, which generated code never does: a frame
    belongs to one activation of one `try`. -/
def exceptionPush (s : State) (t : Nat) (frame : Nat) : Except Fault State := do
  let thread ← s.requireThread t
  ensure (frame ≠ 0 ∧ thread.activeException.head? ≠ some frame) .abort
  ensure (frame ∉ thread.activeException) .undefined
  let s := s.setFrame frame
    { savedRoots := thread.rootFrames.head?.map RootFrame.address
      savedDestroys := thread.destroyStack.head?
      savedConstructions := thread.constructionStack.head?
      exceptionObject := 0
      hasException := false }
  return s.setThread { thread with activeException := frame :: thread.activeException }

/-- `cwhip_exception_pop`. -/
def exceptionPop (s : State) (t : Nat) (frame : Nat) : Except Fault State := do
  let thread ← s.requireThread t
  ensure (frame ≠ 0 ∧ thread.activeException.head? = some frame) .abort
  ensure ((s.exceptionFrames frame).hasException = false) .abort
  let s := s.setFrame frame { s.exceptionFrames frame with exceptionObject := 0 }
  return s.setThread { thread with activeException := thread.activeException.tail }

/-- `cwhip_exception_clear`. -/
def exceptionClear (s : State) (frame : Nat) : Except Fault State := do
  ensure (frame ≠ 0) .abort
  return s.setFrame frame
    { s.exceptionFrames frame with exceptionObject := 0, hasException := false }

/-! ## Callback registrations and transfers -/

/-- `callback_validate`: the value is the start of a callback object.  (The
    comparison of signatures, which can only abort, is left out.) -/
def callbackValidate (s : State) (value : Nat) : Except Fault Unit := do
  let node ← require (s.findObject value) .abort
  ensure (node.payload.isCallback = true) .abort

/-- The context behind a `CwhipCallbackContext *`. -/
def context (s : State) (id : Nat) : Except Fault CallbackContext :=
  require (s.callbackContexts.find? (fun context => context.id == id)) .undefined

def setContext (s : State) (context : CallbackContext) : State :=
  { s with
    callbackContexts := s.callbackContexts.map (fun other =>
      if other.id = context.id then context else other) }

/-- `callback_context_check`. -/
def callbackContextCheck (t : Nat) (context : CallbackContext) : Except Fault Unit :=
  ensure (context.owner = t ∧ context.released = false) .abort

/-- `cwhip_callback_acquire`; `id` is the context `calloc` returns. -/
def callbackAcquire (s : State) (t : Nat) (value : Nat) (id : Nat) : Except Fault State := do
  let _ ← s.requireThread t
  s.callbackValidate value
  ensure (∀ context ∈ s.callbackContexts, context.id ≠ id) .unavailable
  return { s with callbackContexts := ⟨id, value, t, 0, false⟩ :: s.callbackContexts }

/-- `++context->in_flight` at the start of `cwhip_callback_context_invoke`. -/
def callbackEnter (s : State) (t : Nat) (id : Nat) : Except Fault State := do
  let context ← s.context id
  callbackContextCheck t context
  return s.setContext { context with inFlight := context.inFlight + 1 }

/-- `--context->in_flight` at its end. -/
def callbackLeave (s : State) (id : Nat) : Except Fault State := do
  let context ← s.context id
  ensure (context.inFlight ≠ 0) .undefined
  return s.setContext { context with inFlight := context.inFlight - 1 }

/-- `cwhip_callback_release`. -/
def callbackRelease (s : State) (t : Nat) (id : Nat) : Except Fault State := do
  let context ← s.context id
  callbackContextCheck t context
  ensure (context.inFlight = 0) .abort
  return s.setContext { context with released := true, callback := 0 }

/-- `cwhip_callback_dispose`. -/
def callbackDispose (s : State) (t : Nat) (id : Nat) : Except Fault State := do
  let context ← s.context id
  ensure (context.owner = t ∧ context.released = true ∧ context.inFlight = 0) .abort
  return { s with callbackContexts := s.callbackContexts.filter (fun other => other.id != id) }

/-- `cwhip_callback_transfer_prepare`. -/
def transferPrepare (s : State) (t : Nat) (value : Nat) (id : Nat) : Except Fault State := do
  let _ ← s.requireThread t
  s.callbackValidate value
  ensure (∀ transfer ∈ s.callbackTransfers, transfer.id ≠ id) .unavailable
  return { s with callbackTransfers := ⟨id, value⟩ :: s.callbackTransfers }

/-- `callback_transfer_remove`. -/
def transferRemove (s : State) (id : Nat) : Except Fault (CallbackTransfer × State) := do
  let transfer ← require (s.callbackTransfers.find? (fun transfer => transfer.id == id)) .abort
  return (transfer,
    { s with callbackTransfers := s.callbackTransfers.filter (fun other => other.id != id) })

/-- `cwhip_callback_transfer_accept`. -/
def transferAccept (s : State) (t : Nat) (id : Nat) (context : Nat) : Except Fault State := do
  let _ ← s.requireThread t
  let removed ← s.transferRemove id
  removed.2.callbackAcquire t removed.1.callback context

/-- `cwhip_callback_transfer_cancel`. -/
def transferCancel (s : State) (t : Nat) (id : Nat) : Except Fault State := do
  let _ ← s.requireThread t
  let removed ← s.transferRemove id
  return removed.2

end State

/-! ## All of them as one step -/

/-- One operation that neither allocates nor collects. -/
inductive Mutation where
  | gcPush (t : Nat) (frame : RootFrame)
  | gcPop (t : Nat) (frame : Nat)
  | storeRoot (t : Nat) (frame : Nat) (index : Nat) (slot : RootSlot)
  | storeObject (serial : Nat) (words : Nat → Nat)
  | storeArray (serial : Nat) (values : List ArrayValue)
  | storeMap (serial : Nat) (entries : List MapEntry)
  | storeBuffer (serial : Nat) (data : List UInt8)
  | gcBeginDestroy (t : Nat) (object : Nat)
  | gcEndDestroy (t : Nat) (object : Nat)
  | gcBeginConstruction (t : Nat) (object : Nat)
  | gcEndConstruction (t : Nat) (object : Nat)
  | exceptionFrameInit (frame : Nat)
  | exceptionPush (t : Nat) (frame : Nat)
  | exceptionPop (t : Nat) (frame : Nat)
  | exceptionClear (frame : Nat)
  | callbackAcquire (t : Nat) (value : Nat) (id : Nat)
  | callbackEnter (t : Nat) (id : Nat)
  | callbackLeave (id : Nat)
  | callbackRelease (t : Nat) (id : Nat)
  | callbackDispose (t : Nat) (id : Nat)
  | transferPrepare (t : Nat) (value : Nat) (id : Nat)
  | transferAccept (t : Nat) (id : Nat) (context : Nat)
  | transferCancel (t : Nat) (id : Nat)

namespace State

def mutate (s : State) : Mutation → Except Fault State
  | .gcPush t frame => s.gcPush t frame
  | .gcPop t frame => s.gcPop t frame
  | .storeRoot t frame index slot => s.storeRoot t frame index slot
  | .storeObject serial words => s.storeObject serial words
  | .storeArray serial values => s.storeArray serial values
  | .storeMap serial entries => s.storeMap serial entries
  | .storeBuffer serial data => s.storeBuffer serial data
  | .gcBeginDestroy t object => s.gcBeginDestroy t object
  | .gcEndDestroy t object => s.gcEndDestroy t object
  | .gcBeginConstruction t object => s.gcBeginConstruction t object
  | .gcEndConstruction t object => s.gcEndConstruction t object
  | .exceptionFrameInit frame => s.exceptionFrameInit frame
  | .exceptionPush t frame => s.exceptionPush t frame
  | .exceptionPop t frame => s.exceptionPop t frame
  | .exceptionClear frame => s.exceptionClear frame
  | .callbackAcquire t value id => s.callbackAcquire t value id
  | .callbackEnter t id => s.callbackEnter t id
  | .callbackLeave id => s.callbackLeave id
  | .callbackRelease t id => s.callbackRelease t id
  | .callbackDispose t id => s.callbackDispose t id
  | .transferPrepare t value id => s.transferPrepare t value id
  | .transferAccept t id context => s.transferAccept t id context
  | .transferCancel t id => s.transferCancel t id

/-- Operations one after the other. -/
def mutateAll (s : State) : List Mutation → Except Fault State
  | [] => .ok s
  | mutation :: rest => do
    let s ← s.mutate mutation
    s.mutateAll rest

/-! ## What an operation can do to the nodes -/

/-- The node keeps its block, and a destroyed node stays destroyed. -/
def Keeps (f : HeapNode → HeapNode) : Prop :=
  ∀ node, (f node).block = node.block ∧ (node.destroyed = true → (f node).destroyed = true)

/-- What one change can do to the heap nodes and the history: nothing, a rewrite
    of one node, or an event that leaves its node destroyed.  An event that runs
    the finalizer happens only to a node that is not destroyed yet. -/
inductive Effect (s s' : State) : Prop where
  | outside (heap : s'.heap = s.heap) (log : s'.log = s.log)
  | node (serial : Nat) (f : HeapNode → HeapNode) (keeps : Keeps f)
      (heap : s'.heap = (s.updateNode serial f).heap) (log : s'.log = s.log)
  | event (event : Event) (target : HeapNode) (f : HeapNode → HeapNode)
      (member : target ∈ s.heap) (about : event.serial = target.serial)
      (alive : event.runsFinalizer = true → target.destroyed = false)
      (keeps : Keeps f) (destroys : ∀ node, (f node).destroyed = true)
      (heap : s'.heap = (s.updateNode target.serial f).heap) (log : s'.log = event :: s.log)

/-- One change of the nodes; it neither allocates nor frees. -/
structure Change (s s' : State) : Prop where
  effect : Effect s s'
  count : s'.objectCount = s.objectCount
  serial : s'.nextSerial = s.nextSerial

/-- Any number of changes. -/
abbrev Changes : State → State → Prop := Relation.ReflTransGen Change

variable {s s' : State} {serial : Nat}

variable {object : Nat} {node : HeapNode} {store : Payload → Option Payload} {mutation : Mutation}
  {mutations : List Mutation}

theorem findContainingObject_some
    (h : s.findContainingObject object = some node) : node ∈ s.heap ∧ node.Contains object := by
  refine ⟨List.mem_of_find?_eq_some h, ?_⟩
  simpa using List.find?_some h

theorem node_some (h : s.node serial = some node) : node ∈ s.heap ∧ node.serial = serial := by
  refine ⟨List.mem_of_find?_eq_some h, ?_⟩
  simpa using List.find?_some h

theorem keeps_flags {destroyed destroying constructing : HeapNode → Bool}
    (h : ∀ node, node.destroyed = true → destroyed node = true) :
    Keeps (fun node => { node with
      destroyed := destroyed node, destroying := destroying node
      constructing := constructing node }) := by
  intro node
  exact ⟨rfl, h node⟩

/-- A store keeps the size of the block. -/
theorem keeps_store
    (h : ∀ payload payload', store payload = some payload' → payload'.size = payload.size) :
    Keeps (fun node => { node with payload := (store node.payload).getD node.payload }) := by
  intro node
  refine ⟨?_, fun hd => hd⟩
  cases hs : store node.payload with
  | none => simp [HeapNode.block, HeapNode.allocationSize, hs]
  | some payload => simp [HeapNode.block, HeapNode.allocationSize, hs, h _ _ hs]

def Pending (s : State) (frame : Nat) : Prop := (s.exceptionFrames frame).hasException = true

/-- Only a raise makes a frame pending: every frame that is pending afterwards
    was the same frame before. -/
def FramesKept (s s' : State) : Prop :=
  ∀ frame, s'.Pending frame → s'.exceptionFrames frame = s.exceptionFrames frame

theorem FramesKept.of_eq (h : s'.exceptionFrames = s.exceptionFrames) :
    FramesKept s s' :=
  fun _ _ => by rw [h]

theorem FramesKept.trans {s₁ s₂ s₃ : State} (h₁ : FramesKept s₁ s₂) (h₂ : FramesKept s₂ s₃) :
    FramesKept s₁ s₃ := by
  intro frame hpending
  have hlast := h₂ frame hpending
  have hmid : s₂.Pending frame := by
    unfold Pending at hpending ⊢
    rwa [← hlast]
  exact hlast.trans (h₁ frame hmid)

/-- Writing a frame without an exception raises none. -/
theorem FramesKept.write {address : Nat} {f : ExceptionFrame} (hf : f.hasException = false)
    (h : s'.exceptionFrames = (s.setFrame address f).exceptionFrames) : FramesKept s s' := by
  intro other hpending
  unfold Pending at hpending
  rw [h] at hpending ⊢
  by_cases hsame : other = address
  · subst hsame
    simp [setFrame, hf] at hpending
  · simp [setFrame, hsame]

/-- A store changes one node in place. -/
theorem storePayload_spec
    (hsize : ∀ payload payload', store payload = some payload' → payload'.size = payload.size)
    (h : s.storePayload serial store = .ok s') : Change s s' ∧ FramesKept s s' := by
  simp only [storePayload, bind_eq_ok, pure_eq_ok] at h
  obtain ⟨_, -, _, -, rfl⟩ := h
  exact ⟨⟨.node serial _ (keeps_store hsize) rfl rfl, rfl, rfl⟩, .of_eq rfl⟩

theorem gcBeginDestroy_spec {t : Nat}
    (h : s.gcBeginDestroy t object = .ok s') : Change s s' ∧ FramesKept s s' := by
  simp only [gcBeginDestroy, bind_eq_ok, pure_eq_ok, require_eq_ok, ensure_eq_ok] at h
  obtain ⟨_, -, node, hnode, _, halive, rfl⟩ := h
  refine ⟨⟨.event (.explicitDestroy node.serial) node _ (findContainingObject_some hnode).1 rfl
    (fun _ => halive) ?_ (fun _ => rfl) rfl rfl, rfl, rfl⟩, .of_eq rfl⟩
  exact keeps_flags (fun _ _ => rfl)

theorem flag_spec {f : HeapNode → HeapNode} {thread : Thread} (keeps : Keeps f)
    (h : (s.updateNode serial f).setThread thread = s') :
    Change s s' ∧ FramesKept s s' := by
  subst h
  exact ⟨⟨.node serial f keeps rfl rfl, rfl, rfl⟩, .of_eq rfl⟩

theorem outside_spec (heap : s'.heap = s.heap) (log : s'.log = s.log)
    (count : s'.objectCount = s.objectCount) (serial : s'.nextSerial = s.nextSerial)
    (frames : FramesKept s s') : Change s s' ∧ FramesKept s s' :=
  ⟨⟨.outside heap log, count, serial⟩, frames⟩

/-- Every mutation changes nodes in place and keeps what frames hold. -/
theorem mutate_spec (h : s.mutate mutation = .ok s') :
    Change s s' ∧ FramesKept s s' := by
  cases mutation with
  | storeObject serial words =>
    simp only [mutate, storeObject] at h
    refine storePayload_spec ?_ h
    intro payload payload' hstore
    cases payload
    all_goals cases hstore
    rfl
  | storeArray serial values =>
    simp only [mutate, storeArray] at h
    refine storePayload_spec ?_ h
    intro payload payload' hstore
    cases payload
    all_goals cases hstore
    rfl
  | storeMap serial entries =>
    simp only [mutate, storeMap] at h
    refine storePayload_spec ?_ h
    intro payload payload' hstore
    cases payload
    all_goals cases hstore
    rfl
  | storeBuffer serial data =>
    simp only [mutate, storeBuffer] at h
    refine storePayload_spec ?_ h
    intro payload payload' hstore
    cases payload
    all_goals cases hstore
    rfl
  | gcBeginDestroy t object => exact gcBeginDestroy_spec h
  | gcEndDestroy t object =>
    simp only [mutate, gcEndDestroy, bind_eq_ok, pure_eq_ok] at h
    obtain ⟨_, -, _, -, _, -, h⟩ := h
    exact flag_spec (keeps_flags fun _ hd => hd) h
  | gcBeginConstruction t object =>
    simp only [mutate, gcBeginConstruction, bind_eq_ok, pure_eq_ok] at h
    obtain ⟨_, -, _, -, _, -, h⟩ := h
    exact flag_spec (keeps_flags fun _ hd => hd) h
  | gcEndConstruction t object =>
    simp only [mutate, gcEndConstruction, bind_eq_ok, pure_eq_ok] at h
    obtain ⟨_, -, _, -, _, -, h⟩ := h
    exact flag_spec (keeps_flags fun _ hd => hd) h
  -- the roots and the callbacks stand outside of the nodes
  | gcPush t frame =>
    simp only [mutate, gcPush, bind_eq_ok, pure_eq_ok] at h
    obtain ⟨_, -, _, -, rfl⟩ := h
    exact outside_spec rfl rfl rfl rfl (.of_eq rfl)
  | gcPop t frame =>
    simp only [mutate, gcPop, bind_eq_ok, pure_eq_ok] at h
    obtain ⟨_, -, _, -, rfl⟩ := h
    exact outside_spec rfl rfl rfl rfl (.of_eq rfl)
  | storeRoot t frame index slot =>
    simp only [mutate, storeRoot, bind_eq_ok, pure_eq_ok] at h
    obtain ⟨_, -, _, -, _, -, rfl⟩ := h
    exact outside_spec rfl rfl rfl rfl (.of_eq rfl)
  | exceptionFrameInit frame =>
    simp only [mutate, exceptionFrameInit, bind_eq_ok, pure_eq_ok] at h
    obtain ⟨_, -, rfl⟩ := h
    exact outside_spec rfl rfl rfl rfl (.write (f := .zero) rfl rfl)
  | exceptionPush t frame =>
    simp only [mutate, exceptionPush, bind_eq_ok, pure_eq_ok] at h
    obtain ⟨_, -, _, -, _, -, rfl⟩ := h
    exact outside_spec rfl rfl rfl rfl (.write rfl rfl)
  | exceptionPop t frame =>
    simp only [mutate, exceptionPop, bind_eq_ok, pure_eq_ok, ensure_eq_ok] at h
    obtain ⟨_, -, _, -, _, hnot, rfl⟩ := h
    refine outside_spec rfl rfl rfl rfl (.write ?_ rfl)
    exact hnot
  | exceptionClear frame =>
    simp only [mutate, exceptionClear, bind_eq_ok, pure_eq_ok] at h
    obtain ⟨_, -, rfl⟩ := h
    exact outside_spec rfl rfl rfl rfl (.write rfl rfl)
  | callbackAcquire t value id =>
    simp only [mutate, callbackAcquire, bind_eq_ok, pure_eq_ok] at h
    obtain ⟨_, -, _, -, _, -, rfl⟩ := h
    exact outside_spec rfl rfl rfl rfl (.of_eq rfl)
  | callbackEnter t id =>
    simp only [mutate, callbackEnter, bind_eq_ok, pure_eq_ok] at h
    obtain ⟨_, -, _, -, rfl⟩ := h
    exact outside_spec rfl rfl rfl rfl (.of_eq rfl)
  | callbackLeave id =>
    simp only [mutate, callbackLeave, bind_eq_ok, pure_eq_ok] at h
    obtain ⟨_, -, _, -, rfl⟩ := h
    exact outside_spec rfl rfl rfl rfl (.of_eq rfl)
  | callbackRelease t id =>
    simp only [mutate, callbackRelease, bind_eq_ok, pure_eq_ok] at h
    obtain ⟨_, -, _, -, _, -, rfl⟩ := h
    exact outside_spec rfl rfl rfl rfl (.of_eq rfl)
  | callbackDispose t id =>
    simp only [mutate, callbackDispose, bind_eq_ok, pure_eq_ok] at h
    obtain ⟨_, -, _, -, rfl⟩ := h
    exact outside_spec rfl rfl rfl rfl (.of_eq rfl)
  | transferPrepare t value id =>
    simp only [mutate, transferPrepare, bind_eq_ok, pure_eq_ok] at h
    obtain ⟨_, -, _, -, _, -, rfl⟩ := h
    exact outside_spec rfl rfl rfl rfl (.of_eq rfl)
  | transferAccept t id context =>
    simp only [mutate, transferAccept, transferRemove, callbackAcquire, bind_eq_ok,
      pure_eq_ok] at h
    obtain ⟨_, -, _, ⟨_, -, rfl⟩, _, -, _, -, _, -, rfl⟩ := h
    exact outside_spec rfl rfl rfl rfl (.of_eq rfl)
  | transferCancel t id =>
    simp only [mutate, transferCancel, transferRemove, bind_eq_ok, pure_eq_ok] at h
    obtain ⟨_, -, _, ⟨_, -, rfl⟩, rfl⟩ := h
    exact outside_spec rfl rfl rfl rfl (.of_eq rfl)

theorem mutate_change (h : s.mutate mutation = .ok s') :
    Change s s' :=
  (mutate_spec h).1

/-- So does any run of them. -/
theorem mutateAll_spec (h : s.mutateAll mutations = .ok s') : Changes s s' ∧ FramesKept s s' := by
  induction mutations generalizing s with
  | nil =>
    cases h
    exact ⟨.refl, .of_eq rfl⟩
  | cons mutation rest ih =>
    simp only [mutateAll, bind_eq_ok] at h
    obtain ⟨s₁, hs₁, hrest⟩ := h
    obtain ⟨hchange, hframes⟩ := mutate_spec hs₁
    obtain ⟨hchanges, hrestFrames⟩ := ih hrest
    exact ⟨.head hchange hchanges, hframes.trans hrestFrames⟩

theorem mutateAll_changes (h : s.mutateAll mutations = .ok s') : Changes s s' :=
  (mutateAll_spec h).1

end State

end Cwhip.Runtime
