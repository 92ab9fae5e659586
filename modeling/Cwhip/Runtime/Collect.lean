/-
  Cwhip.Runtime.Collect

  `cwhip_gc_collect` and the operations that depend on it (`RuntimeGc.c`):
  mark from the roots, run the finalizers of the unmarked objects, mark again,
  sweep; allocation, which collects first; and the raising of an exception,
  which unwinds the destruction and construction stacks.

  What a finalizer does is up to the program, so a collection takes the list of
  operations each finalizer performs as a parameter.
-/

import Mathlib.Algebra.Group.Nat.Defs
import Cwhip.Lib.Machine
import Cwhip.Lib.MachineInt
import Cwhip.Lib.Marking
import Cwhip.Runtime.Operations

namespace Cwhip.Runtime

open Cwhip.Lib

/-- The operations the finalizer of each node performs when it is called. -/
abbrev Finalizers := Nat → List Mutation

namespace State

/-! ## Marking -/

/-- The node `mark_object` would mark for an address. -/
def markTarget (s : State) (address : Nat) : Option Nat :=
  if address = 0 then none else (s.findContainingObject address).map HeapNode.serial

/-- The nodes `mark_roots` marks. -/
def rootSerials (s : State) : List Nat :=
  s.rootReferences.filterMap s.markTarget

/-- The nodes `trace_graph` visits from a node. -/
def successors (s : State) (serial : Nat) : List Nat :=
  match s.node serial with
  | some node => node.payload.references.filterMap s.markTarget
  | none => []

/-- `mark_roots` followed by `trace_graph`.  Every pass through the loop pops
    one node, and there are `object_count` of them. -/
def mark (s : State) : Marking Nat :=
  Marking.run s.successors s.objectCount s.rootSerials

/-! ## The finalizer pass -/

def setCollecting (s : State) (t : Nat) (collecting : Bool) : State :=
  { s with
    threads := s.threads.map (fun thread =>
      if thread.id = t then { thread with collecting := collecting } else thread) }

def setRunningDestructor (s : State) (t : Nat) (running : Bool) : State :=
  { s with
    threads := s.threads.map (fun thread =>
      if thread.id = t then { thread with runningDestructor := running } else thread) }

/-- An exception that reaches `raise_exception` while a finalizer runs is fatal. -/
def fatalRaise {α : Type} : Except Fault α → Except Fault α
  | .error (.raises _) => .error .abort
  | result => result

/-- What the loop does before it calls a finalizer. -/
def callFinalizer (s : State) (t : Nat) (serial : Nat) : State :=
  ((s.updateNode serial (fun node => { node with destroyed := true, destroying := true })
    ).setRunningDestructor t true).record (.finalizerRun serial)

/-- What it does after the finalizer has returned. -/
def finalizerReturn (s : State) (t : Nat) (serial : Nat) : State :=
  (s.setRunningDestructor t false).updateNode serial
    (fun node => { node with destroying := false })

/-- One round of the finalizer loop: a node that is neither marked nor destroyed
    becomes destroyed, and its finalizer, if its class has one, is called. -/
def finalizeNode (s : State) (t : Nat) (finalizers : Finalizers) (marked : List Nat)
    (node : HeapNode) : Except Fault State :=
  if node.serial ∈ marked ∨ node.destroyed = true then .ok s
  else if node.payload.finalize = false then
    .ok (s.updateNode node.serial (fun node => { node with destroyed := true }))
  else do
    let s ← fatalRaise ((s.callFinalizer t node.serial).mutateAll (finalizers node.serial))
    return s.finalizerReturn t node.serial

/-- The loop itself.  Finalizers change no links of the heap list, so its
    serials can be listed before the first round. -/
def finalizePass (s : State) (t : Nat) (finalizers : Finalizers) (marked : List Nat) :
    List Nat → Except Fault State
  | [] => .ok s
  | serial :: rest => do
    let node ← require (s.node serial) .undefined
    let s ← s.finalizeNode t finalizers marked node
    s.finalizePass t finalizers marked rest

/-! ## Collection -/

/-- The sweep: unmarked nodes leave the heap list and are freed. -/
def sweep (s : State) (marked : List Nat) : State :=
  { s with
    heap := s.heap.filter (fun node => decide (node.serial ∈ marked))
    objectCount := s.objectCount
      - (s.heap.filter (fun node => decide (node.serial ∉ marked))).length }

/-- The state after the first marking and the finalizer pass. -/
def gcFinalized (s : State) (t : Nat) (finalizers : Finalizers) : Except Fault State := do
  let thread ← s.requireThread t
  ensure (thread.collecting = false ∧ thread.runningDestructor = false) .abort
  let s := s.setCollecting t true
  s.finalizePass t finalizers s.mark.marked (s.heap.map HeapNode.serial)

/-- `cwhip_gc_collect`. -/
def gcCollect (s : State) (t : Nat) (finalizers : Finalizers) : Except Fault State := do
  let s ← s.gcFinalized t finalizers
  return (s.sweep s.mark.marked).setCollecting t false

/-! ## Allocation -/

/-- `malloc` returns memory outside every allocated block. -/
def MallocReturns (s : State) (address : Nat) (size : Nat) : Prop :=
  address ≠ 0 ∧ ∀ node ∈ s.heap,
    address + size ≤ node.object ∨ node.object + node.allocationSize ≤ address

instance (s : State) (address : Nat) (size : Nat) : Decidable (s.MallocReturns address size) :=
  inferInstanceAs (Decidable (_ ∧ _))

/-- Link a new node at the head of the heap list. -/
def link (s : State) (payload : Payload) (address : Nat) : State :=
  { s with
    heap := ⟨s.nextSerial, address, payload, false, false, false⟩ :: s.heap
    objectCount := s.objectCount + 1
    nextSerial := s.nextSerial + 1 }

/-- What all three allocators do once their own checks have passed. -/
def gcAllocate (s : State) (t : Nat) (finalizers : Finalizers) (payload : Payload)
    (address : Nat) : Except Fault State := do
  let s ← s.gcCollect t finalizers
  ensure (s.MallocReturns address payload.size) .unavailable
  return s.link payload address

/-- `cwhip_gc_alloc` for a class, whose metadata it validates. -/
def gcAlloc (s : State) (t : Nat) (finalizers : Finalizers) (metadata : ClassMeta)
    (address : Nat) : Except Fault State :=
  if h : metadata.valid = true then
    s.gcAllocate t finalizers (.object ⟨metadata, h⟩ (fun _ => 0)) address
  else .error .abort

/-- `cwhip_gc_alloc` with `buffer_metadata`. -/
def gcAllocBuffer (s : State) (t : Nat) (finalizers : Finalizers) (address : Nat) :
    Except Fault State :=
  s.gcAllocate t finalizers (.buffer []) address

/-- `cwhip_gc_alloc_array`. -/
def gcAllocArray (s : State) (t : Nat) (finalizers : Finalizers) (requestedLength : Int)
    (address : Nat) : Except Fault State := do
  ensure (0 ≤ requestedLength ∧ requestedLength ≤ sizeMax / 32) .abort
  s.gcAllocate t finalizers (.array (List.replicate requestedLength.toNat .null)) address

/-- `cwhip_gc_alloc_map`. -/
def gcAllocMap (s : State) (t : Nat) (finalizers : Finalizers) (address : Nat) :
    Except Fault State :=
  s.gcAllocate t finalizers (.map []) address

/-! ## Raising an exception -/

/-- Pop the destruction stack down to the saved element; the destructions it
    leaves are no longer in progress. -/
def unwindDestroys (s : State) (saved : Option Nat) :
    List Nat → Except Fault (List Nat × State)
  | [] => if saved = none then .ok ([], s) else .error .abort
  | serial :: rest =>
    if saved = some serial then .ok (serial :: rest, s)
    else do
      let _ ← require (s.node serial) .undefined
      (s.updateNode serial (fun node => { node with destroying := false })).unwindDestroys saved
        rest

/-- Pop the construction stack down to the saved element; the objects whose
    constructors the exception leaves become destroyed. -/
def unwindConstructions (s : State) (saved : Option Nat) :
    List Nat → Except Fault (List Nat × State)
  | [] => if saved = none then .ok ([], s) else .error .abort
  | serial :: rest =>
    if saved = some serial then .ok (serial :: rest, s)
    else do
      let _ ← require (s.node serial) .undefined
      let s := s.updateNode serial (fun node =>
        { node with constructing := false, destroyed := true })
      (s.record (.failedConstruction serial)).unwindConstructions saved rest

def restoreRoots (saved : Option Nat) (frames : List RootFrame) : Except Fault (List RootFrame) :=
  match saved with
  | none => .ok []
  | some address =>
    match frames.dropWhile (fun frame => frame.address ≠ address) with
    | [] => .error .undefined
    | frames => .ok frames

/-- `raise_exception` up to its `longjmp`: the innermost exception frame of the
    thread takes the object, and the thread's chains go back to where they were
    when the frame was pushed. -/
def raiseException (s : State) (t : Nat) (object : Nat) : Except Fault State := do
  let thread ← s.requireThread t
  ensure (thread.collecting = false ∧ thread.runningDestructor = false) .abort
  let address ← require thread.activeException.head? .abort
  let frame := s.exceptionFrames address
  let s := s.setFrame address { frame with exceptionObject := object, hasException := true }
  let rootFrames ← restoreRoots frame.savedRoots thread.rootFrames
  let destroys ← s.unwindDestroys frame.savedDestroys thread.destroyStack
  let constructions ←
    destroys.2.unwindConstructions frame.savedConstructions thread.constructionStack
  return constructions.2.setThread
    { thread with
      rootFrames := rootFrames
      destroyStack := destroys.1
      constructionStack := constructions.1
      activeException := thread.activeException.tail }

/-! ## Threads -/

/-- `cwhip_runtime_thread_enter`. -/
def threadEnter (s : State) (t : Nat) : Except Fault State := do
  ensure (∀ thread ∈ s.threads, thread.id ≠ t) .abort
  return { s with threads := .fresh t :: s.threads }

/-- `cwhip_runtime_thread_exit`. -/
def threadExit (s : State) (t : Nat) : Except Fault State := do
  let thread ← s.requireThread t
  ensure (thread.rootFrames = []) .abort
  ensure (∀ context ∈ s.callbackContexts, context.owner ≠ t) .abort
  return { s with threads := s.threads.filter (fun other => other.id != t) }

end State

/-! ## The machine -/

/-- One step of the runtime. -/
inductive Action where
  | mutate (mutation : Mutation)
  | collect (t : Nat) (finalizers : Finalizers)
  | alloc (t : Nat) (finalizers : Finalizers) (metadata : ClassMeta) (address : Nat)
  | allocBuffer (t : Nat) (finalizers : Finalizers) (address : Nat)
  | allocArray (t : Nat) (finalizers : Finalizers) (requestedLength : Int) (address : Nat)
  | allocMap (t : Nat) (finalizers : Finalizers) (address : Nat)
  | raise (t : Nat) (object : Nat)
  | threadEnter (t : Nat)
  | threadExit (t : Nat)

def State.step (s : State) : Action → Except Fault State
  | .mutate mutation => s.mutate mutation
  | .collect t finalizers => s.gcCollect t finalizers
  | .alloc t finalizers metadata address => s.gcAlloc t finalizers metadata address
  | .allocBuffer t finalizers address => s.gcAllocBuffer t finalizers address
  | .allocArray t finalizers length address => s.gcAllocArray t finalizers length address
  | .allocMap t finalizers address => s.gcAllocMap t finalizers address
  | .raise t object => s.raiseException t object
  | .threadEnter t => s.threadEnter t
  | .threadExit t => s.threadExit t

/-- Runs of the runtime.  A call that raises takes no step of its own: what
    follows it is the allocation of the exception object and a `raise`. -/
def machine : Machine State Action Fault := ⟨fun s => s = .initial, State.step⟩

end Cwhip.Runtime
