/-
  Cwhip.Runtime.Unwinding

  Exception frames (`CwhipExceptionFrame` in `RuntimeGc.c`) and the four stacks
  they unwind: root frames, trace frames, the objects being destroyed and the
  objects being constructed.  All four are threaded through the frames and heap
  nodes themselves; the model keeps those links.

  A raise ends in a `longjmp` to a frame: a call that raises gives the frame.
  Allocations succeed, after a collection of which the caller says what it finds
  dead and what it frees: the object stacks are no roots, so that may be an object
  on them.  An index stands for one node for good; the block of a freed node may
  be used again, but for another node.
-/

import Cwhip.Lib.Except
import Cwhip.Lib.IntrusiveStack
import Cwhip.Runtime.StringBytes

namespace Cwhip.Runtime.Unwinding

open Cwhip.Lib

/-- How a call can end the program. -/
inductive Fault where
  | aborts
  /-- `uncaught_exception`, with its message. -/
  | uncaught (message : Bytes)
  /-- It follows a link that leads to no node, or to a freed one. -/
  | dangling
  /-- Its loop does not end. -/
  | endless
  deriving DecidableEq, Repr

def ascii (message : String) : Bytes := message.toList.map fun c => UInt8.ofNat c.toNat

/-- `HeapNode`, less what only the collector uses. -/
structure Node where
  object : Nat
  allocationSize : Nat
  destroyPrevious : Option Nat
  constructPrevious : Option Nat
  destroyed : Bool
  destroying : Bool
  constructing : Bool
  /-- A collection has freed it. -/
  freed : Bool
  deriving DecidableEq

/-- `CwhipTraceEntry`. -/
structure TraceEntry where
  name : Bytes
  file : Option Bytes
  line : Nat
  column : Nat
  deriving DecidableEq

/-- `CwhipTraceFrame`. -/
structure TraceFrame where
  previous : Option Nat
  entry : TraceEntry

/-- `CwhipExceptionFrame`.  A message or file that is null has no bytes. -/
structure ExceptionFrame where
  previous : Option Nat
  savedRoots : Option Nat
  savedDestroys : Option Nat
  savedConstructions : Option Nat
  message : Bytes
  file : Bytes
  line : Nat
  column : Nat
  exceptionObject : Option Nat
  exceptionBase : Option Nat
  hasException : Bool
  savedTrace : Option Nat
  trace : Option (List TraceEntry)

/-- A frame as `cwhip_exception_frame_init` leaves it. -/
def ExceptionFrame.zero : ExceptionFrame :=
  ⟨none, none, none, none, [], [], 0, 0, none, none, false, none, none⟩

/-- A thread's stacks, the frames in memory by their addresses, and the heap nodes. -/
structure State where
  nodes : List Node
  rootFrames : Nat → Option Nat
  traceFrames : Nat → TraceFrame
  frames : Nat → ExceptionFrame
  rootFrame : Option Nat
  destroyStack : Option Nat
  constructionStack : Option Nat
  activeException : Option Nat
  activeTrace : Option Nat
  collecting : Bool
  runningDestructor : Bool

/-- What one `cwhip_gc_collect` does to the nodes: those it finds dead, or its
    finalizers destroy, and those it frees.  Finalizers leave the stacks as they
    find them. -/
structure Collection where
  destroyed : Nat → Bool
  freed : Nat → Bool

/-- A `cwhip_gc_alloc`: its collection, and where the new object is. -/
structure Allocation where
  collection : Collection
  object : Nat
  size : Nat

/-- What `make_runtime_exception` allocates: the exception, and its message with the
    buffer of it where Strings are linked in. -/
structure Allocated where
  exception : Allocation
  message : List Allocation

/-- `sizeof(CwhipRuntimeException)`. -/
def sizeofRuntimeException : Nat := 32

/-- No memory holds more frames than there are addresses. -/
def addressSpace : Nat := 2 ^ 64

namespace State

/-- All stacks empty. -/
def initial : State :=
  ⟨[], fun _ => none, fun _ => ⟨none, [], none, 0, 0⟩, fun _ => .zero, none, none, none, none, none,
    false, false⟩

def setFrame (s : State) (address : Nat) (frame : ExceptionFrame) : State :=
  { s with frames := fun other => if other = address then frame else s.frames other }

/-- `cwhip_gc_collect`. -/
def collect (s : State) (collection : Collection) : State :=
  { s with nodes := s.nodes.mapIdx fun index node =>
      { node with
        destroyed := node.destroyed || collection.destroyed index
        freed := node.freed || collection.freed index } }

/-- `cwhip_gc_alloc`. -/
def allocate (s : State) (allocation : Allocation) : Except Fault State := do
  ensure (s.collecting = false ∧ s.runningDestructor = false) .aborts
  let s := s.collect allocation.collection
  return { s with nodes := s.nodes ++
    [⟨allocation.object, allocation.size, none, none, false, false, false, false⟩] }

/-- The newest node with some property that is still on the heap. -/
def findNode (s : State) (test : Node → Bool) : Option Nat :=
  (List.range s.nodes.length).reverse.find? fun index =>
    (s.nodes[index]?).any fun node => !node.freed && test node

/-- `find_object`. -/
def findObject (s : State) (object : Nat) : Option Nat :=
  s.findNode fun node => node.object = object

/-- `find_containing_object`. -/
def findContainingObject (s : State) (object : Nat) : Option Nat :=
  s.findNode fun node => node.object ≤ object ∧ object - node.object < node.allocationSize

/-! ## Root and trace frames -/

/-- The loop of `gc_push` over the active frames. -/
def rootActive (s : State) (frame : Nat) : Nat → Option Nat → Except Fault Bool
  | 0, _ => .error .endless
  | _ + 1, none => .ok false
  | fuel + 1, some active =>
    if active = frame then .ok true else s.rootActive frame fuel (s.rootFrames active)

/-- `cwhip_gc_push_or_abort`, with slots that are there. -/
def gcPush (s : State) (storage : Option Nat) : Except Fault State := do
  let frame ← require storage .aborts
  let active ← s.rootActive frame addressSpace s.rootFrame
  ensure (active = false) .aborts
  return { s with
    rootFrames := fun other => if other = frame then s.rootFrame else s.rootFrames other
    rootFrame := some frame }

/-- `cwhip_gc_pop_or_abort`. -/
def gcPop (s : State) (storage : Option Nat) : Except Fault State := do
  let frame ← require storage .aborts
  ensure (s.rootFrame = some frame) .aborts
  return { s with
    rootFrames := fun other => if other = frame then none else s.rootFrames other
    rootFrame := s.rootFrames frame }

/-- `cwhip_trace_push`. -/
def tracePush (s : State) (storage : Option Nat) (name file : Option Bytes) (line column : Nat) :
    Except Fault State := do
  let frame ← require storage .aborts
  ensure (s.activeTrace ≠ some frame) .aborts
  let name ← require name .aborts
  let pushed : TraceFrame := ⟨s.activeTrace, name, file, line, column⟩
  return { s with
    traceFrames := fun other => if other = frame then pushed else s.traceFrames other
    activeTrace := some frame }

/-- `cwhip_trace_pop`. -/
def tracePop (s : State) (storage : Option Nat) : Except Fault State := do
  let frame ← require storage .aborts
  ensure (s.activeTrace = some frame) .aborts
  let popped : TraceFrame := { s.traceFrames frame with previous := none }
  return { s with
    traceFrames := fun other => if other = frame then popped else s.traceFrames other
    activeTrace := (s.traceFrames frame).previous }

/-- The loop of `capture_trace`. -/
def captureFrom (s : State) : Nat → Option Nat → Except Fault (List TraceEntry)
  | _, none => .ok []
  | 0, some _ => .error .aborts
  | fuel + 1, some frame => do
    let rest ← s.captureFrom fuel (s.traceFrames frame).previous
    return (s.traceFrames frame).entry :: rest

/-- `capture_trace`: null where no frame is active. -/
def captureTrace (s : State) : Except Fault (Option (List TraceEntry)) := do
  let entries ← s.captureFrom (addressSpace - 1) s.activeTrace
  return if entries = [] then none else some entries

/-! ## Raising -/

/-- What the loops at the end of `raise_exception` can end in. -/
def unwindFault : UnwindFault → Fault
  | .bottom => .aborts
  | .dangling => .dangling
  | .endless => .endless

/-- The loop that ends the destroys begun since a frame was pushed. -/
def unwindDestroys (s : State) (saved : Option Nat) : Except Fault State := do
  let nodes ← (unwind Node.destroyPrevious (!·.freed)
    (fun node => { node with destroying := false })
    saved (s.nodes.length + 1) s.nodes s.destroyStack).mapError unwindFault
  return { s with nodes, destroyStack := saved }

/-- The loop that ends the constructions begun since a frame was pushed. -/
def unwindConstructions (s : State) (saved : Option Nat) : Except Fault State := do
  let nodes ← (unwind Node.constructPrevious (!·.freed)
    (fun node => { node with constructing := false, destroyed := true }) saved
    (s.nodes.length + 1) s.nodes s.constructionStack).mapError unwindFault
  return { s with nodes, constructionStack := saved }

/-- What an exception carries. -/
structure Exception where
  message : Bytes
  file : Bytes
  line : Nat
  column : Nat
  exceptionObject : Option Nat
  exceptionBase : Option Nat
  deriving DecidableEq

def exceptionOf (frame : ExceptionFrame) : Exception :=
  ⟨frame.message, frame.file, frame.line, frame.column, frame.exceptionObject, frame.exceptionBase⟩

/-- The trace an exception goes on with: the one it has, or where the program is now. -/
def traceOrCapture (s : State) (trace : Option (List TraceEntry)) :
    Except Fault (Option (List TraceEntry)) :=
  if trace = none then s.captureTrace else .ok trace

/-- `raise_exception`.  Gives the frame it jumps to. -/
def raiseException (s : State) (exception : Exception) (trace : Option (List TraceEntry)) :
    Except Fault (State × Nat) := do
  ensure (s.collecting = false ∧ s.runningDestructor = false)
    (.uncaught (ascii "exceptions cannot escape a GC finalizer"))
  let trace ← s.traceOrCapture trace
  let address ← require s.activeException (.uncaught exception.message)
  let frame := s.frames address
  let s := s.setFrame address { frame with
    message := exception.message
    file := exception.file
    line := exception.line
    column := exception.column
    exceptionObject := exception.exceptionObject
    exceptionBase := exception.exceptionBase
    hasException := true
    trace := trace
    previous := none }
  let s := { s with
    activeException := frame.previous
    rootFrame := frame.savedRoots
    activeTrace := frame.savedTrace }
  let s ← s.unwindDestroys frame.savedDestroys
  let s ← s.unwindConstructions frame.savedConstructions
  return (s, address)

/-- `make_runtime_exception`, which pops the root frame it pushes in between. -/
def makeRuntimeException (s : State) (allocated : Allocated) : Except Fault State := do
  let s ← s.allocate { allocated.exception with size := sizeofRuntimeException }
  allocated.message.foldlM State.allocate s

/-- `cwhip_exception_raise`. -/
def exceptionRaise (s : State) (message file : Bytes) (line column : Nat) (allocated : Allocated) :
    Except Fault (State × Nat) :=
  if s.collecting ∨ s.runningDestructor then
    s.raiseException ⟨message, file, line, column, none, none⟩ none
  else do
    let s ← s.makeRuntimeException allocated
    let object := some allocated.exception.object
    s.raiseException ⟨message, file, line, column, object, object⟩ none

/-- `cwhip_exception_raise_object`. -/
def exceptionRaiseObject (s : State) (object exceptionBase : Option Nat) (message file : Bytes)
    (line column : Nat) : Except Fault (State × Nat) := do
  ensure (object ≠ none ∧ exceptionBase ≠ none) .aborts
  s.raiseException ⟨message, file, line, column, object, exceptionBase⟩ none

/-- A frame that holds no exception any more. -/
def cleared (frame : ExceptionFrame) : ExceptionFrame :=
  { frame with
    message := []
    file := []
    line := 0
    column := 0
    exceptionObject := none
    exceptionBase := none
    hasException := false
    trace := none }

/-- `cwhip_exception_rethrow`. -/
def exceptionRethrow (s : State) (storage : Option Nat) : Except Fault (State × Nat) := do
  let address ← require storage .aborts
  let frame := s.frames address
  ensure (frame.hasException = true) .aborts
  ensure (frame.exceptionObject ≠ none ∧ frame.exceptionBase ≠ none) .aborts
  (s.setFrame address (cleared frame)).raiseException (exceptionOf frame) frame.trace

/-! ## Exception frames -/

/-- `cwhip_exception_push`. -/
def exceptionPush (s : State) (storage : Option Nat) : Except Fault State := do
  let address ← require storage .aborts
  ensure (s.activeException ≠ some address) .aborts
  let s := s.setFrame address { cleared (s.frames address) with
    previous := s.activeException
    savedRoots := s.rootFrame
    savedTrace := s.activeTrace
    savedDestroys := s.destroyStack
    savedConstructions := s.constructionStack }
  return { s with activeException := some address }

/-- `cwhip_exception_pop`. -/
def exceptionPop (s : State) (storage : Option Nat) : Except Fault State := do
  let address ← require storage .aborts
  ensure (s.activeException = some address) .aborts
  let frame := s.frames address
  ensure (frame.hasException = false) .aborts
  let s := s.setFrame address { cleared frame with previous := none }
  return { s with activeException := frame.previous }

/-- `cwhip_exception_clear`. -/
def exceptionClear (s : State) (storage : Option Nat) : Except Fault State := do
  let address ← require storage .aborts
  return s.setFrame address (cleared (s.frames address))

/-! ## Destroys and constructions -/

/-- `cwhip_gc_begin_destroy`. -/
def gcBeginDestroy (s : State) (object : Nat) (file : Bytes) (line column : Nat)
    (allocated : Allocated) :
    Except Fault (State × Option Nat) :=
  let raises (message : String) : Except Fault (State × Option Nat) := do
    let (s, address) ← s.exceptionRaise (ascii message) file line column allocated
    return (s, some address)
  match s.findContainingObject object with
  | none => raises "invalid object reference"
  | some index =>
    if (s.nodes[index]?).any Node.destroyed then raises "object has already been destroyed"
    else
      .ok ({ s with
        nodes := s.nodes.modify index fun node =>
          { node with destroyed := true, destroying := true, destroyPrevious := s.destroyStack }
        destroyStack := some index }, none)

/-- `cwhip_gc_end_destroy`. -/
def gcEndDestroy (s : State) (object : Nat) : Except Fault State := do
  let index ← require (s.findContainingObject object) .aborts
  let node ← require s.nodes[index]? .dangling
  ensure (node.destroying = true ∧ s.destroyStack = some index) .aborts
  return { s with
    nodes := s.nodes.modify index fun node =>
      { node with destroying := false, destroyPrevious := none }
    destroyStack := node.destroyPrevious }

/-- `cwhip_gc_begin_construction`. -/
def gcBeginConstruction (s : State) (object : Nat) : Except Fault State := do
  let index ← require (s.findObject object) .aborts
  let node ← require s.nodes[index]? .dangling
  ensure (node.destroyed = false ∧ node.constructing = false) .aborts
  return { s with
    nodes := s.nodes.modify index fun node =>
      { node with constructing := true, constructPrevious := s.constructionStack }
    constructionStack := some index }

/-- `cwhip_gc_end_construction`. -/
def gcEndConstruction (s : State) (object : Nat) : Except Fault State := do
  let index ← require (s.findObject object) .aborts
  let node ← require s.nodes[index]? .dangling
  ensure (node.constructing = true ∧ s.constructionStack = some index) .aborts
  return { s with
    nodes := s.nodes.modify index fun node =>
      { node with constructing := false, constructPrevious := none }
    constructionStack := node.constructPrevious }

end State

/-! ## Runs -/

/-- A call of the runtime; a storage or reference `none` is null. -/
inductive Call where
  | allocate (allocation : Allocation)
  | gcPush (storage : Option Nat)
  | gcPop (storage : Option Nat)
  | tracePush (storage : Option Nat) (name file : Option Bytes) (line column : Nat)
  | tracePop (storage : Option Nat)
  | exceptionPush (storage : Option Nat)
  | exceptionPop (storage : Option Nat)
  | exceptionClear (storage : Option Nat)
  | exceptionRaise (message file : Bytes) (line column : Nat) (allocated : Allocated)
  | exceptionRaiseObject (object exceptionBase : Option Nat) (message file : Bytes)
      (line column : Nat)
  | exceptionRethrow (storage : Option Nat)
  | gcBeginDestroy (object : Nat) (file : Bytes) (line column : Nat) (allocated : Allocated)
  | gcEndDestroy (object : Nat)
  | gcBeginConstruction (object : Nat)
  | gcEndConstruction (object : Nat)

/-- A call that returns. -/
def returning (x : Except Fault State) : Except Fault (State × Option Nat) := do
  let s ← x
  return (s, none)

/-- A call that raises. -/
def raising (x : Except Fault (State × Nat)) : Except Fault (State × Option Nat) := do
  let (s, address) ← x
  return (s, some address)

/-- One call: the state after it, and the frame it jumps to if it raises. -/
def State.call (s : State) : Call → Except Fault (State × Option Nat)
  | .allocate allocation => returning (s.allocate allocation)
  | .gcPush storage => returning (s.gcPush storage)
  | .gcPop storage => returning (s.gcPop storage)
  | .tracePush storage name file line column =>
    returning (s.tracePush storage name file line column)
  | .tracePop storage => returning (s.tracePop storage)
  | .exceptionPush storage => returning (s.exceptionPush storage)
  | .exceptionPop storage => returning (s.exceptionPop storage)
  | .exceptionClear storage => returning (s.exceptionClear storage)
  | .exceptionRaise message file line column allocated =>
    raising (s.exceptionRaise message file line column allocated)
  | .exceptionRaiseObject object exceptionBase message file line column =>
    raising (s.exceptionRaiseObject object exceptionBase message file line column)
  | .exceptionRethrow storage => raising (s.exceptionRethrow storage)
  | .gcBeginDestroy object file line column allocated =>
    s.gcBeginDestroy object file line column allocated
  | .gcEndDestroy object => returning (s.gcEndDestroy object)
  | .gcBeginConstruction object => returning (s.gcBeginConstruction object)
  | .gcEndConstruction object => returning (s.gcEndConstruction object)

/-- A sequence of calls. -/
def State.run (s : State) : List Call → Except Fault State
  | [] => .ok s
  | call :: rest => do
    let (s, _) ← s.call call
    s.run rest

end Cwhip.Runtime.Unwinding
