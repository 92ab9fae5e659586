/-
  Cwhip.Runtime.Synchronization

  Logical mutexes and conditions (`RuntimeThreads.c`): any number of threads
  that lock, unlock, release, wait, signal and broadcast, on any number of
  objects.

  Every section under a native guard is one step.  A condition variable is the
  list of the threads blocked on it: a signal takes at least one of them off the
  list, a broadcast all of them, and a thread may also be woken for no reason.  A
  mutex or condition is there from the start until it is released, and its
  memory is not used again.
-/

import Mathlib.Logic.Function.Basic
import Cwhip.Lib.Except
import Cwhip.Lib.Machine

namespace Cwhip.Runtime.Synchronization

open Cwhip.Lib

/-! ## Objects -/

/-- A `CwhipMutexObject`.  The waiters are threads, so their number stays far
    below the bound of an `int64_t`. -/
structure Mutex where
  /-- The threads blocked on `available`. -/
  available : List Nat
  owner : Nat
  locked : Bool
  waiters : Nat
  deriving DecidableEq, Repr

/-- A `CwhipConditionObject`; the sequence is a `uint64_t`. -/
structure Condition where
  /-- The threads blocked on `condition`. -/
  condition : List Nat
  sequence : BitVec 64
  waiters : Nat
  deriving DecidableEq, Repr

/-- `cwhip_mutex_create`. -/
def Mutex.create (owner : Nat) : Mutex := ⟨[], owner, false, 0⟩

/-- `cwhip_condition_create`. -/
def Condition.create : Condition := ⟨[], 0, 0⟩

/-! ## Calls -/

/-- An operation that a thread calls; a handle may be null. -/
inductive Call where
  | lock (mutex : Option Nat)
  | unlock (mutex : Option Nat)
  | release (mutex : Option Nat)
  | wait (condition mutex : Option Nat)
  | signal (condition : Option Nat)
  | broadcast (condition : Option Nat)
  | releaseCondition (condition : Option Nat)
  deriving DecidableEq, Repr

/-- Who calls `mutex_acquire_locked_guard`. -/
inductive Acquirer where
  | lock
  | wait (condition : Nat)
  deriving DecidableEq, Repr

/-- How far a call is. -/
inductive Progress where
  | lock (mutex : Nat)
  | unlock (mutex : Nat)
  | release (mutex : Nat)
  /-- Before the test of the ownership. -/
  | wait (condition mutex : Nat)
  /-- Before the registration as a waiter. -/
  | register (condition mutex : Nat)
  /-- Registered, and without the runtime lock: before the mutex is released. -/
  | handOver (condition mutex : Nat) (observed : BitVec 64)
  /-- Before a test of the sequence, or blocked on the condition. -/
  | test (condition mutex : Nat) (observed : BitVec 64)
  /-- Before `mutex_acquire_locked_guard`. -/
  | acquire (mutex : Nat) (acquirer : Acquirer)
  /-- In its wait loop: before a test of `locked`, or blocked on `available`. -/
  | acquireLoop (mutex : Nat) (acquirer : Acquirer)
  /-- Behind it, until the runtime lock is acquired. -/
  | acquired (mutex : Nat) (acquirer : Acquirer)
  | notify (condition : Nat) (broadcast : Bool)
  | releaseCondition (condition : Nat)
  deriving DecidableEq, Repr

/-- The error that a call sets; a successful one clears it. -/
inductive LastError where
  | cleared
  | einval
  | edeadlk
  | eperm
  | ebusy
  deriving DecidableEq, Repr

/-- What happens in a run, in the order it does. -/
inductive Occurrence where
  | acquired (thread mutex : Nat)
  | released (thread mutex : Nat)
  | freed (thread mutex : Nat)
  /-- A thread has registered as a waiter. -/
  | registered (thread condition : Nat)
  /-- A signal or broadcast while there are waiters. -/
  | notified (thread condition : Nat)
  | conditionFreed (thread condition : Nat)
  | returned (thread : Nat) (error : LastError)
  /-- A condition wait returns true. -/
  | waited (thread condition mutex : Nat)
  deriving DecidableEq, Repr

/-- A step cannot be taken. -/
inductive Refusal where
  /-- Not now. -/
  | refused
  /-- It would use a mutex or condition that was freed. -/
  | useAfterFree
  deriving DecidableEq, Repr

/-! ## The sections of a mutex -/

/-- `mutex_owned_by_caller`. -/
def Mutex.ownedBy (mutex : Mutex) (thread : Nat) : Bool := mutex.locked && mutex.owner == thread

/-- The thread becomes the owner. -/
def Mutex.take (mutex : Mutex) (thread : Nat) : Mutex :=
  { mutex with locked := true, owner := thread }

/-- One test of the loop of `mutex_acquire_locked_guard`: the thread blocks, or has
    the mutex. -/
def Mutex.tryAcquire (mutex : Mutex) (thread : Nat) : Mutex × Bool :=
  if mutex.locked then ({ mutex with available := mutex.available ++ [thread] }, false)
  else ({ mutex with waiters := mutex.waiters - 1 }.take thread, true)

/-- The threads that stay blocked after `pthread_cond_signal` has woken some. -/
def wakeSome (blocked woken : List Nat) : Except Refusal (List Nat) :=
  if (∀ thread ∈ woken, thread ∈ blocked) ∧ (blocked = [] ∨ woken ≠ []) then
    .ok (blocked.filter (fun thread => thread ∉ woken))
  else .error .refused

/-- `mutex_release_locked_guard`. -/
def Mutex.releaseLockedGuard (mutex : Mutex) (woken : List Nat) : Except Refusal Mutex :=
  if 0 < mutex.waiters then do
    let available ← wakeSome mutex.available woken
    return { mutex with locked := false, available }
  else .ok { mutex with locked := false }

/-- The section of `condition_notify`, when there are waiters. -/
def Condition.notify (condition : Condition) (broadcast : Bool) (woken : List Nat) :
    Except Refusal Condition := do
  let blocked ← (if broadcast then .ok [] else wakeSome condition.condition woken)
  return { condition with sequence := condition.sequence + 1, condition := blocked }

/-! ## The system -/

/-- The objects, the threads, and what has happened. -/
structure System where
  mutexes : Nat → Option Mutex
  conditions : Nat → Option Condition
  /-- The thread that holds the runtime lock. -/
  runtimeLock : Option Nat
  /-- The call each thread is in. -/
  calls : Nat → Option Progress
  log : List Occurrence

/-- A step of the system. -/
inductive Action where
  /-- A thread acquires the runtime lock. -/
  | acquire (thread : Nat)
  /-- A thread outside these calls releases it. -/
  | release (thread : Nat)
  | call (thread : Nat) (call : Call)
  /-- The next section of the call of a thread; where it signals, it wakes these. -/
  | advance (thread : Nat) (woken : List Nat)
  /-- A blocked thread is woken for no reason. -/
  | wake (thread : Nat)
  deriving DecidableEq, Repr

namespace System

/-- Move on a thread. -/
def setCall (s : System) (thread : Nat) (progress : Option Progress) : System :=
  { s with calls := Function.update s.calls thread progress }

def setMutex (s : System) (id : Nat) (mutex : Option Mutex) : System :=
  { s with mutexes := Function.update s.mutexes id mutex }

def setCondition (s : System) (id : Nat) (condition : Option Condition) : System :=
  { s with conditions := Function.update s.conditions id condition }

def record (s : System) (occurrence : Occurrence) : System :=
  { s with log := s.log ++ [occurrence] }

/-- `cwhip_runtime_gil_release`. -/
def gilRelease (s : System) : System := { s with runtimeLock := none }

/-- The call of a thread returns; the thread holds the runtime lock. -/
def answer (s : System) (thread : Nat) (error : LastError) : System :=
  (s.record (.returned thread error)).setCall thread none

/-- The first section of a call; a null handle is refused before it. -/
def start (s : System) (thread : Nat) : Call → System
  | .lock (some mutex) => s.setCall thread (some (.lock mutex))
  | .unlock (some mutex) => s.setCall thread (some (.unlock mutex))
  | .release (some mutex) => s.setCall thread (some (.release mutex))
  | .wait (some condition) (some mutex) => s.setCall thread (some (.wait condition mutex))
  | .signal (some condition) => s.setCall thread (some (.notify condition false))
  | .broadcast (some condition) => s.setCall thread (some (.notify condition true))
  | .releaseCondition (some condition) => s.setCall thread (some (.releaseCondition condition))
  | _ => s.answer thread .einval

/-- The next test of a thread in the loop of `mutex_acquire_locked_guard`. -/
def acquireTest (s : System) (thread id : Nat) (acquirer : Acquirer) (mutex : Mutex) : System :=
  let (mutex, acquired) := mutex.tryAcquire thread
  let s := s.setMutex id (some mutex)
  if acquired then
    (s.record (.acquired thread id)).setCall thread (some (.acquired id acquirer))
  else s.setCall thread (some (.acquireLoop id acquirer))

/-- The next section of a call. -/
def advance (s : System) (thread : Nat) (woken : List Nat) : Progress → Except Refusal System
  | .lock id => do
    let mutex ← require (s.mutexes id) .useAfterFree
    if mutex.ownedBy thread then .ok (s.answer thread .edeadlk)
    else if !mutex.locked then
      -- the uncontended path keeps the runtime lock
      .ok (((s.setMutex id (some (mutex.take thread))).record (.acquired thread id)).answer thread
        .cleared)
    else .ok (s.gilRelease.setCall thread (some (.acquire id .lock)))
  | .unlock id => do
    let mutex ← require (s.mutexes id) .useAfterFree
    if mutex.ownedBy thread then
      let mutex ← mutex.releaseLockedGuard woken
      .ok (((s.setMutex id (some mutex)).record (.released thread id)).answer thread .cleared)
    else .ok (s.answer thread .eperm)
  | .release id => do
    let mutex ← require (s.mutexes id) .useAfterFree
    if mutex.locked || decide (0 < mutex.waiters) then .ok (s.answer thread .ebusy)
    else .ok (((s.setMutex id none).record (.freed thread id)).answer thread .cleared)
  | .wait condition id => do
    let mutex ← require (s.mutexes id) .useAfterFree
    if mutex.ownedBy thread then .ok (s.setCall thread (some (.register condition id)))
    else .ok (s.answer thread .eperm)
  | .register id mutex => do
    let condition ← require (s.conditions id) .useAfterFree
    let s := s.setCondition id (some { condition with waiters := condition.waiters + 1 })
    .ok ((s.gilRelease.record (.registered thread id)).setCall thread
      (some (.handOver id mutex condition.sequence)))
  | .handOver condition id observed => do
    let mutex ← require (s.mutexes id) .useAfterFree
    let mutex ← mutex.releaseLockedGuard woken
    .ok (((s.setMutex id (some mutex)).record (.released thread id)).setCall thread
      (some (.test condition id observed)))
  | .test id mutex observed => do
    let condition ← require (s.conditions id) .useAfterFree
    ensure (thread ∉ condition.condition) .refused
    if condition.sequence = observed then
      .ok (s.setCondition id (some { condition with condition := condition.condition ++ [thread] }))
    else
      let s := s.setCondition id (some { condition with waiters := condition.waiters - 1 })
      .ok (s.setCall thread (some (.acquire mutex (.wait id))))
  | .acquire id acquirer => do
    let mutex ← require (s.mutexes id) .useAfterFree
    .ok (s.acquireTest thread id acquirer { mutex with waiters := mutex.waiters + 1 })
  | .acquireLoop id acquirer => do
    let mutex ← require (s.mutexes id) .useAfterFree
    ensure (thread ∉ mutex.available) .refused
    .ok (s.acquireTest thread id acquirer mutex)
  | .notify id broadcast => do
    let condition ← require (s.conditions id) .useAfterFree
    if 0 < condition.waiters then
      let condition ← condition.notify broadcast woken
      .ok (((s.setCondition id (some condition)).record (.notified thread id)).answer
        thread .cleared)
    else .ok (s.answer thread .cleared)
  | .releaseCondition id => do
    let condition ← require (s.conditions id) .useAfterFree
    if 0 < condition.waiters then .ok (s.answer thread .ebusy)
    else .ok (((s.setCondition id none).record (.conditionFreed thread id)).answer thread .cleared)
  -- behind the loop a call only waits for the runtime lock
  | .acquired _ _ => .error .refused

/-- A call returns with the runtime lock. -/
def comeBack (s : System) (thread mutex : Nat) : Acquirer → System
  | .lock => s.answer thread .cleared
  | .wait condition => (s.record (.waited thread condition mutex)).answer thread .cleared

/-- A blocked thread wakes up. -/
def wake (s : System) (thread : Nat) : Progress → Except Refusal System
  | .test id _ _ => do
    let condition ← require (s.conditions id) .useAfterFree
    .ok (s.setCondition id
      (some { condition with condition := condition.condition.filter (· ≠ thread) }))
  | .acquireLoop id _ => do
    let mutex ← require (s.mutexes id) .useAfterFree
    .ok (s.setMutex id (some { mutex with available := mutex.available.filter (· ≠ thread) }))
  | _ => .error .refused

def step (s : System) : Action → Except Refusal System
  | .acquire thread => do
    ensure (s.runtimeLock = none) .refused
    let s := { s with runtimeLock := some thread }
    match s.calls thread with
    | none => .ok s
    | some (.acquired mutex acquirer) => .ok (s.comeBack thread mutex acquirer)
    | some _ => .error .refused
  | .release thread => do
    ensure (s.runtimeLock = some thread ∧ s.calls thread = none) .refused
    return s.gilRelease
  | .call thread call => do
    ensure (s.runtimeLock = some thread ∧ s.calls thread = none) .refused
    return s.start thread call
  | .advance thread woken => do
    let progress ← require (s.calls thread) .refused
    s.advance thread woken progress
  | .wake thread => do
    let progress ← require (s.calls thread) .refused
    s.wake thread progress

/-- Before the first call: every object that is there is as it was created. -/
structure Initial (s : System) : Prop where
  mutexes : ∀ id mutex, s.mutexes id = some mutex → ∃ owner, mutex = .create owner
  conditions : ∀ id condition, s.conditions id = some condition → condition = .create
  calls : ∀ thread, s.calls thread = none
  log : s.log = []

end System

/-- The threads and their objects. -/
def machine : Machine System Action Refusal := ⟨System.Initial, System.step⟩

end Cwhip.Runtime.Synchronization
