/-
  Cwhip.Runtime.Heap

  The data the collector works on (`RuntimeGc.c`): heap nodes and their
  payloads, root frames, registered threads, callback registrations and
  exception frames.

  A `HeapNode *` is modelled by the node's `serial`, a ghost number no two
  nodes of a run ever share; an object pointer is an address, a `Nat` with `0`
  for null, which may point into the middle of an object, as a base subobject's
  does.  The C list links (`next`, `destroy_previous`, ...) become Lean lists in
  the same order.
-/

import Mathlib.Data.List.Basic
import Mathlib.Logic.Function.Basic

namespace Cwhip.Runtime

/-- Why an operation does not return. -/
inductive Fault where
  /-- The C code calls `abort`. -/
  | abort
  /-- The C code would touch memory that is no longer allocated. -/
  | undefined
  /-- The call raises a Cwhip exception with this text instead of returning. -/
  | raises (message : String)
  /-- The environment does not allow the step now: `malloc` does not return that
      address, or another thread holds the lock. -/
  | unavailable
  deriving DecidableEq, Repr

/-! ## Values -/

/-- `CwhipArrayValueTag`. -/
inductive ArrayValueTag where
  | integer | string | object | map | array | boolean | float | unsigned | buffer | handle | type
  deriving DecidableEq, Repr

/-- The word the tag is stored as. -/
def ArrayValueTag.code : ArrayValueTag → Nat
  | integer => 1
  | string => 2
  | object => 3
  | map => 4
  | array => 5
  | boolean => 6
  | float => 7
  | unsigned => 8
  | buffer => 9
  | handle => 10
  | type => 11

/-- `dynamic_value_is_gc_reference`: the tag words that make the pointer part
    of a dynamic value a managed reference. -/
def dynamicValueIsGcReference (tag : Nat) : Bool :=
  tag == ArrayValueTag.object.code || tag == ArrayValueTag.map.code ||
    tag == ArrayValueTag.array.code || tag == ArrayValueTag.buffer.code

/-- `CwhipArrayValue`. -/
structure ArrayValue where
  tag : Nat
  integer : Int
  pointer : Nat
  length : Nat
  deriving DecidableEq, Repr

/-- The null reference new list elements hold. -/
def ArrayValue.null : ArrayValue := ⟨ArrayValueTag.object.code, 0, 0, 0⟩

/-- `CwhipMapEntry`, its key as bytes. -/
structure MapEntry where
  key : List UInt8
  value : ArrayValue
  deriving DecidableEq, Repr

/-- `sizeof(void *)` and `alignof(void *)`. -/
def pointerSize : Nat := 8

/-- `offsetof(CwhipArrayValue, pointer)`: how far before its pointer the tag of
    a dynamic field lies. -/
def tagDistance : Nat := 16

/-! ## Class metadata -/

/-- The part of `CwhipClassMeta` the collector reads.  `finalize` says whether
    the class has a finalizer. -/
structure ClassMeta where
  name : String
  objectSize : Nat
  referenceFieldOffsets : List Nat
  dynamicReferenceFieldOffsets : List Nat
  finalize : Bool
  deriving DecidableEq, Repr

/-- `valid_reference_offset`. -/
def validReferenceOffset (metadata : ClassMeta) (offset : Nat) : Bool :=
  pointerSize ≤ metadata.objectSize && pointerSize ≤ offset &&
    offset ≤ metadata.objectSize - pointerSize && offset % pointerSize == 0

/-- What `cwhip_gc_alloc` checks of the metadata it is given. -/
def ClassMeta.valid (metadata : ClassMeta) : Bool :=
  pointerSize ≤ metadata.objectSize &&
    metadata.referenceFieldOffsets.all (validReferenceOffset metadata) &&
    metadata.dynamicReferenceFieldOffsets.all
      (fun offset => validReferenceOffset metadata offset && tagDistance ≤ offset)

/-- Metadata that passed the check; only such metadata labels a heap node, so
    the checks `trace_graph` repeats cannot fail. -/
abbrev ValidMeta := { metadata : ClassMeta // metadata.valid = true }

/-- `callback_metadata`: `receiver` is its one reference field. -/
def callbackMetadata : ClassMeta := ⟨"callback", 64, [8], [], false⟩

/-! ## Heap nodes -/

/-- What an allocated block holds.  The words of an object are indexed by byte
    offset; those of a list, dict or buffer lie in separate native storage. -/
inductive Payload where
  | object (metadata : ValidMeta) (words : Nat → Nat)
  | array (values : List ArrayValue)
  | map (entries : List MapEntry)
  | buffer (data : List UInt8)

namespace Payload

/-- The size of the block itself: `object_size`, or `sizeof` of the C struct. -/
def size : Payload → Nat
  | object metadata _ => metadata.val.objectSize
  | array _ => 32
  | map _ => 48
  | buffer _ => 32

/-- `metadata->finalize != NULL`; the built-in metadata have no finalizer. -/
def finalize : Payload → Bool
  | object metadata _ => metadata.val.finalize
  | _ => false

/-- The metadata word is `&callback_metadata`. -/
def isCallback : Payload → Bool
  | object metadata _ => metadata.val == callbackMetadata
  | _ => false

/-- The pointer parts of the dynamic values that are managed references. -/
def managedPointers (values : List ArrayValue) : List Nat :=
  (values.filter (fun value => dynamicValueIsGcReference value.tag)).map ArrayValue.pointer

/-- The addresses `trace_graph` passes to `mark_object` for a node. -/
def references : Payload → List Nat
  | object metadata words =>
    metadata.val.referenceFieldOffsets.map words ++
      (metadata.val.dynamicReferenceFieldOffsets.filter
        (fun offset => dynamicValueIsGcReference (words (offset - tagDistance)))).map words
  | array values => managedPointers values
  | map entries => managedPointers (entries.map MapEntry.value)
  | buffer _ => []

end Payload

/-- `HeapNode`.  The mark bit is kept by the collection that sets it. -/
structure HeapNode where
  serial : Nat
  object : Nat
  payload : Payload
  destroyed : Bool
  destroying : Bool
  constructing : Bool

/-- `allocation_size`. -/
def HeapNode.allocationSize (node : HeapNode) : Nat := node.payload.size

/-- The address points into the node's object. -/
def HeapNode.Contains (node : HeapNode) (address : Nat) : Prop :=
  node.object ≤ address ∧ address - node.object < node.allocationSize

instance (node : HeapNode) (address : Nat) : Decidable (node.Contains address) :=
  inferInstanceAs (Decidable (_ ∧ _))

/-- What stays the same for a node's whole life. -/
def HeapNode.block (node : HeapNode) : Nat × Nat × Nat :=
  (node.serial, node.object, node.allocationSize)

/-! ## Threads -/

/-- A slot of a root frame: the pointer it holds and, for an `any` value, the
    word its tag slot holds. -/
structure RootSlot where
  value : Nat
  tag : Option Nat
  deriving DecidableEq, Repr

/-- The tests `mark_roots` makes before it marks the slot's pointer. -/
def RootSlot.managed (slot : RootSlot) : Bool :=
  match slot.tag with
  | none => true
  | some tag => dynamicValueIsGcReference tag

/-- `CwhipRootFrame`. -/
structure RootFrame where
  address : Nat
  slots : List RootSlot
  deriving DecidableEq, Repr

def RootFrame.references (frame : RootFrame) : List Nat :=
  (frame.slots.filter RootSlot.managed).map RootSlot.value

/-- The thread-local variables of a registered thread.  Every chain is listed
    from its innermost element. -/
structure Thread where
  id : Nat
  rootFrames : List RootFrame
  destroyStack : List Nat
  constructionStack : List Nat
  activeException : List Nat
  collecting : Bool
  runningDestructor : Bool
  deriving DecidableEq, Repr

/-- A thread as `cwhip_runtime_thread_enter` finds it. -/
def Thread.fresh (id : Nat) : Thread := ⟨id, [], [], [], [], false, false⟩

/-- `CwhipExceptionFrame` (without the message, location and trace texts).  The
    saved pointers name the tops of the thread's chains at the push. -/
structure ExceptionFrame where
  savedRoots : Option Nat
  savedDestroys : Option Nat
  savedConstructions : Option Nat
  exceptionObject : Nat
  hasException : Bool
  deriving DecidableEq, Repr

/-- A frame after `cwhip_exception_frame_init`. -/
def ExceptionFrame.zero : ExceptionFrame := ⟨none, none, none, 0, false⟩

/-- `CwhipCallbackContext`. -/
structure CallbackContext where
  id : Nat
  callback : Nat
  owner : Nat
  inFlight : Nat
  released : Bool
  deriving DecidableEq, Repr

/-- `CwhipCallbackTransfer`. -/
structure CallbackTransfer where
  id : Nat
  callback : Nat
  deriving DecidableEq, Repr

/-! ## The whole runtime -/

/-- What happened to a node, in the ghost history of a run. -/
inductive Event where
  /-- The collector called the node's finalizer. -/
  | finalizerRun (serial : Nat)
  /-- `cwhip_gc_begin_destroy` succeeded: the program runs the finalizer itself. -/
  | explicitDestroy (serial : Nat)
  /-- An exception left the node's constructor. -/
  | failedConstruction (serial : Nat)
  deriving DecidableEq, Repr

/-- The node an event is about. -/
def Event.serial : Event → Nat
  | finalizerRun serial => serial
  | explicitDestroy serial => serial
  | failedConstruction serial => serial

def Event.runsFinalizer : Event → Bool
  | failedConstruction _ => false
  | _ => true

/-- The process-wide state.  `heap` and `log` are listed from the newest. -/
structure State where
  heap : List HeapNode
  objectCount : Nat
  threads : List Thread
  callbackContexts : List CallbackContext
  callbackTransfers : List CallbackTransfer
  exceptionFrames : Nat → ExceptionFrame
  nextSerial : Nat
  log : List Event

namespace State

/-- The state before the first thread registers. -/
def initial : State := ⟨[], 0, [], [], [], fun _ => .zero, 0, []⟩

/-! ## Lookup -/

/-- `find_object`. -/
def findObject (s : State) (object : Nat) : Option HeapNode :=
  s.heap.find? (fun node => node.object == object)

/-- `find_containing_object`. -/
def findContainingObject (s : State) (object : Nat) : Option HeapNode :=
  s.heap.find? (fun node => decide (node.Contains object))

/-- The node behind a `HeapNode *`, while it is allocated. -/
def node (s : State) (serial : Nat) : Option HeapNode :=
  s.heap.find? (fun node => node.serial == serial)

def thread (s : State) (id : Nat) : Option Thread :=
  s.threads.find? (fun thread => thread.id == id)

/-! ## Updates -/

/-- Write through a `HeapNode *`. -/
def updateNode (s : State) (serial : Nat) (f : HeapNode → HeapNode) : State :=
  { s with heap := s.heap.map (fun node => if node.serial = serial then f node else node) }

/-- Write a thread's thread-local variables. -/
def setThread (s : State) (thread : Thread) : State :=
  { s with threads := s.threads.map (fun other => if other.id = thread.id then thread else other) }

def setFrame (s : State) (address : Nat) (frame : ExceptionFrame) : State :=
  { s with exceptionFrames := Function.update s.exceptionFrames address frame }

def record (s : State) (event : Event) : State :=
  { s with log := event :: s.log }

/-! ## Roots -/

/-- The addresses `mark_roots` passes to `mark_object`: pending transfers,
    contexts that are not released, and every registered thread's root frames. -/
def rootReferences (s : State) : List Nat :=
  s.callbackTransfers.map CallbackTransfer.callback ++
    (s.callbackContexts.filter (fun context => !context.released)).map CallbackContext.callback ++
    s.threads.flatMap (fun thread => thread.rootFrames.flatMap RootFrame.references)

/-- An object the program can still get at: some root points into it, or a
    managed reference of a live object does. -/
inductive Live (s : State) : HeapNode → Prop where
  | root {address : Nat} {node : HeapNode} (hroot : address ∈ s.rootReferences)
      (hnode : node ∈ s.heap) (hin : node.Contains address) : Live s node
  | field {holder : HeapNode} {address : Nat} {node : HeapNode} (hlive : Live s holder)
      (hfield : address ∈ holder.payload.references) (hnode : node ∈ s.heap)
      (hin : node.Contains address) : Live s node

end State

end Cwhip.Runtime
