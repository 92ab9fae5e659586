/-
  Cwhip.Runtime.Lock

  Several threads under the global lock (`RuntimeGc.c`), one small step at a
  time: a collection is no longer one action but starts, calls its finalizers,
  lets them act, and ends, and between any two steps another thread may run if
  the lock is free.

  `collecting` and `running_destructor` are thread-local while the heap list is
  not, so the only thing that keeps other threads away from a collection is the
  lock.  It does, in every run in which no thread releases the lock inside its
  own collection (`collection_exclusive`); a finalizer that sleeps is enough to
  break it (`collection_interrupted`).
-/

import Cwhip.Runtime.CollectSound

namespace Cwhip.Runtime

open Cwhip.Lib

/-- The native operations that give the lock up while they wait. -/
inductive BlockingCall where
  | threadStart | threadJoin | semaphoreWait | mutexLock | conditionWait | sleep
  | terminalRead | processWait | asyncNext | asyncWait | asyncShutdown
  deriving DecidableEq, Repr

/-- How far the collection of one thread has come: the serials its first pass
    marked, the nodes its finalizer loop has still to visit, and the node whose
    finalizer is running. -/
structure Collection where
  marked : List Nat
  remaining : List Nat
  current : Option Nat
  deriving DecidableEq, Repr

/-- The runtime, the thread that holds `cwhip_gil`, and the collections in
    progress. -/
structure Locked where
  runtime : State
  holder : Option Nat
  collections : Nat → Option Collection

/-- The thread an operation belongs to; stores belong to whoever runs. -/
def Mutation.thread : Mutation → Option Nat
  | .gcPush t _ => some t
  | .gcPop t _ => some t
  | .storeRoot t _ _ _ => some t
  | .gcBeginDestroy t _ => some t
  | .gcEndDestroy t _ => some t
  | .gcBeginConstruction t _ => some t
  | .gcEndConstruction t _ => some t
  | .exceptionPush t _ => some t
  | .exceptionPop t _ => some t
  | .callbackAcquire t _ _ => some t
  | .callbackEnter t _ => some t
  | .callbackRelease t _ => some t
  | .callbackDispose t _ => some t
  | .transferPrepare t _ _ => some t
  | .transferAccept t _ _ => some t
  | .transferCancel t _ => some t
  | _ => none

/-- A step of one thread. -/
inductive LockAction where
  | threadEnter (t : Nat)
  | threadExit (t : Nat)
  | gilRelease (t : Nat) (call : BlockingCall)
  | gilAcquire (t : Nat)
  | mutate (t : Nat) (mutation : Mutation)
  | raise (t : Nat) (object : Nat)
  | link (t : Nat) (payload : Payload) (address : Nat)
  | collectBegin (t : Nat)
  | finalizeNext (t : Nat)
  | finalizerReturn (t : Nat)
  | collectEnd (t : Nat)

/-- The thread that takes the step. -/
def LockAction.thread : LockAction → Nat
  | threadEnter t | threadExit t | gilRelease t _ | gilAcquire t | mutate t _ | raise t _
  | link t _ _ | collectBegin t | finalizeNext t | finalizerReturn t | collectEnd t => t

namespace Locked

/-- Before the first thread registers. -/
def initial : Locked := ⟨.initial, none, fun _ => none⟩

def setCollection (g : Locked) (t : Nat) (collection : Option Collection) : Locked :=
  { g with collections := Function.update g.collections t collection }

def withRuntime (g : Locked) (s : State) : Locked := { g with runtime := s }

/-- Program code of the thread can run: the thread is not collecting, or it is
    inside a finalizer its collection called. -/
def ProgramRuns (g : Locked) (t : Nat) : Prop :=
  ∀ collection ∈ g.collections t, collection.current.isSome = true

instance (g : Locked) (t : Nat) : Decidable (g.ProgramRuns t) :=
  inferInstanceAs (Decidable (∀ collection ∈ g.collections t, collection.current.isSome = true))

/-- `cwhip_runtime_thread_enter`. -/
def threadEnter (g : Locked) (t : Nat) : Except Fault Locked := do
  ensure (g.holder = none) .unavailable
  let s ← g.runtime.threadEnter t
  return { g with runtime := s, holder := some t }

/-- `cwhip_runtime_thread_exit`. -/
def threadExit (g : Locked) (t : Nat) : Except Fault Locked := do
  ensure (g.holder = some t) .abort
  ensure (g.collections t = none) .unavailable
  let s ← g.runtime.threadExit t
  return { g with runtime := s, holder := none }

/-- `cwhip_runtime_gil_release`, from one of the blocking operations. -/
def gilRelease (g : Locked) (t : Nat) : Except Fault Locked := do
  ensure (g.holder = some t) .abort
  ensure (g.ProgramRuns t) .unavailable
  return { g with holder := none }

/-- `cwhip_runtime_gil_acquire`, when the operation has finished waiting. -/
def gilAcquire (g : Locked) (t : Nat) : Except Fault Locked := do
  let _ ← g.runtime.requireThread t
  ensure (g.holder = none) .unavailable
  return { g with holder := some t }

/-- The result of an operation performed inside or outside a collection. -/
def raiseIn (collection : Option Collection) (result : Except Fault State) : Except Fault State :=
  if collection.isSome then State.fatalRaise result else result

/-- An operation of the program or of a finalizer; inside a collection an
    exception is fatal. -/
def mutate (g : Locked) (t : Nat) (mutation : Mutation) : Except Fault Locked := do
  ensure (g.holder = some t ∧ g.ProgramRuns t) .unavailable
  ensure (∀ owner ∈ mutation.thread, owner = t) .unavailable
  let s ← raiseIn (g.collections t) (g.runtime.mutate mutation)
  return g.withRuntime s

/-- `raise_exception`. -/
def raise (g : Locked) (t : Nat) (object : Nat) : Except Fault Locked := do
  ensure (g.holder = some t) .unavailable
  let s ← g.runtime.raiseException t object
  return g.withRuntime s

/-- The end of an allocation, after its collection: link the new block. -/
def link (g : Locked) (t : Nat) (payload : Payload) (address : Nat) : Except Fault Locked := do
  ensure (g.holder = some t) .unavailable
  let thread ← g.runtime.requireThread t
  ensure (thread.collecting = false ∧ thread.runningDestructor = false) .abort
  ensure (g.runtime.MallocReturns address payload.size) .unavailable
  return g.withRuntime (g.runtime.link payload address)

/-- `cwhip_gc_collect` up to its finalizer loop. -/
def collectBegin (g : Locked) (t : Nat) : Except Fault Locked := do
  ensure (g.holder = some t) .unavailable
  let thread ← g.runtime.requireThread t
  ensure (thread.collecting = false ∧ thread.runningDestructor = false) .abort
  let s := g.runtime.setCollecting t true
  return (g.withRuntime s).setCollection t
    (some ⟨s.mark.marked, s.heap.map HeapNode.serial, none⟩)

/-- One round of the finalizer loop, up to the call of the finalizer. -/
def finalizeNext (g : Locked) (t : Nat) : Except Fault Locked := do
  ensure (g.holder = some t) .unavailable
  let collection ← require (g.collections t) .unavailable
  ensure (collection.current = none) .unavailable
  let serial ← require collection.remaining.head? .unavailable
  let node ← require (g.runtime.node serial) .undefined
  let rest := { collection with remaining := collection.remaining.tail }
  if serial ∈ collection.marked ∨ node.destroyed = true then
    return g.setCollection t (some rest)
  else if node.payload.finalize = false then
    return (g.withRuntime (g.runtime.updateNode serial
      (fun node => { node with destroyed := true }))).setCollection t (some rest)
  else
    return (g.withRuntime (g.runtime.callFinalizer t serial)).setCollection t
      (some { rest with current := some serial })

def finalizerReturn (g : Locked) (t : Nat) : Except Fault Locked := do
  ensure (g.holder = some t) .unavailable
  let collection ← require (g.collections t) .unavailable
  let serial ← require collection.current .unavailable
  return (g.withRuntime (g.runtime.finalizerReturn t serial)).setCollection t
    (some { collection with current := none })

/-- The rest of `cwhip_gc_collect`: mark again and sweep. -/
def collectEnd (g : Locked) (t : Nat) : Except Fault Locked := do
  ensure (g.holder = some t) .unavailable
  let collection ← require (g.collections t) .unavailable
  ensure (collection.current = none ∧ collection.remaining = []) .unavailable
  let s := (g.runtime.sweep g.runtime.mark.marked).setCollecting t false
  return (g.withRuntime s).setCollection t none

def step (g : Locked) : LockAction → Except Fault Locked
  | .threadEnter t => g.threadEnter t
  | .threadExit t => g.threadExit t
  | .gilRelease t _ => g.gilRelease t
  | .gilAcquire t => g.gilAcquire t
  | .mutate t mutation => g.mutate t mutation
  | .raise t object => g.raise t object
  | .link t payload address => g.link t payload address
  | .collectBegin t => g.collectBegin t
  | .finalizeNext t => g.finalizeNext t
  | .finalizerReturn t => g.finalizerReturn t
  | .collectEnd t => g.collectEnd t

/-- Every run of the threads. -/
def machine : Machine Locked LockAction Fault := ⟨fun g => g = .initial, step⟩

/-! ## Exclusivity -/

/-- While a thread is inside a collection no other thread takes a step: none
    allocates, collects, raises, or changes the heap list or its root frames. -/
def Exclusive (g : Locked) : Prop :=
  ∀ t, (g.collections t).isSome = true → ∀ action : LockAction, action.thread ≠ t →
    ∀ g', g.step action ≠ .ok g'

/-- The steps of the runs in which no thread releases the lock inside its own
    collection. -/
def carefulStep (g : Locked) (action : LockAction) : Except Fault Locked :=
  match action with
  | .gilRelease t _ => if (g.collections t).isNone then g.step action else .error .unavailable
  | _ => g.step action

def carefulMachine : Machine Locked LockAction Fault := ⟨fun g => g = .initial, carefulStep⟩

variable {g g' : Locked} {action : LockAction}

/-- A thread steps only with the lock or while nobody has it. -/
theorem step_holder (h : g.step action = .ok g') :
    g.holder = some action.thread ∨ g.holder = none := by
  cases action with
  | threadEnter t =>
    simp only [step, threadEnter, bind_eq_ok, ensure_eq_ok] at h
    obtain ⟨_, hfree, _⟩ := h
    exact Or.inr hfree
  | gilAcquire t =>
    simp only [step, gilAcquire, bind_eq_ok, ensure_eq_ok] at h
    obtain ⟨_, _, _, hfree, _⟩ := h
    exact Or.inr hfree
  | mutate t mutation =>
    simp only [step, mutate, bind_eq_ok, ensure_eq_ok] at h
    obtain ⟨_, ⟨hheld, _⟩, _⟩ := h
    exact Or.inl hheld
  | threadExit t =>
    simp only [step, threadExit, bind_eq_ok, ensure_eq_ok] at h
    obtain ⟨_, hheld, _⟩ := h
    exact Or.inl hheld
  | gilRelease t call =>
    simp only [step, gilRelease, bind_eq_ok, ensure_eq_ok] at h
    obtain ⟨_, hheld, _⟩ := h
    exact Or.inl hheld
  | raise t object =>
    simp only [step, raise, bind_eq_ok, ensure_eq_ok] at h
    obtain ⟨_, hheld, _⟩ := h
    exact Or.inl hheld
  | link t payload address =>
    simp only [step, link, bind_eq_ok, ensure_eq_ok] at h
    obtain ⟨_, hheld, _⟩ := h
    exact Or.inl hheld
  | collectBegin t =>
    simp only [step, collectBegin, bind_eq_ok, ensure_eq_ok] at h
    obtain ⟨_, hheld, _⟩ := h
    exact Or.inl hheld
  | finalizeNext t =>
    simp only [step, finalizeNext, bind_eq_ok, ensure_eq_ok] at h
    obtain ⟨_, hheld, _⟩ := h
    exact Or.inl hheld
  | finalizerReturn t =>
    simp only [step, finalizerReturn, bind_eq_ok, ensure_eq_ok] at h
    obtain ⟨_, hheld, _⟩ := h
    exact Or.inl hheld
  | collectEnd t =>
    simp only [step, collectEnd, bind_eq_ok, ensure_eq_ok] at h
    obtain ⟨_, hheld, _⟩ := h
    exact Or.inl hheld

/-- What a step can do to the collections, by who holds the lock. -/
theorem carefulStep_effect (h : g.carefulStep action = .ok g') :
    (g.holder = none ∧ g'.collections = g.collections) ∨
    (g.holder = some action.thread ∧ g.collections action.thread = none ∧
      g'.collections = g.collections) ∨
    (g.holder = some action.thread ∧ g'.holder = some action.thread ∧
      ∀ t, t ≠ action.thread → g'.collections t = g.collections t) := by
  cases action with
  | threadEnter t =>
    simp only [carefulStep, step, threadEnter, bind_eq_ok, ensure_eq_ok, pure_eq_ok] at h
    obtain ⟨_, hfree, _, _, rfl⟩ := h
    exact Or.inl ⟨hfree, rfl⟩
  | gilAcquire t =>
    simp only [carefulStep, step, gilAcquire, bind_eq_ok, ensure_eq_ok, pure_eq_ok] at h
    obtain ⟨_, _, _, hfree, rfl⟩ := h
    exact Or.inl ⟨hfree, rfl⟩
  | threadExit t =>
    simp only [carefulStep, step, threadExit, bind_eq_ok, ensure_eq_ok, pure_eq_ok] at h
    obtain ⟨_, hheld, _, hidle, _, _, rfl⟩ := h
    exact Or.inr (Or.inl ⟨hheld, hidle, rfl⟩)
  | gilRelease t call =>
    simp only [carefulStep] at h
    split at h
    · rename_i hidle
      simp only [step, gilRelease, bind_eq_ok, ensure_eq_ok, pure_eq_ok] at h
      obtain ⟨_, hheld, _, _, rfl⟩ := h
      exact Or.inr (Or.inl ⟨hheld, Option.isNone_iff_eq_none.mp hidle, rfl⟩)
    · cases h
  | mutate t mutation =>
    simp only [carefulStep, step, mutate, bind_eq_ok, ensure_eq_ok, pure_eq_ok] at h
    obtain ⟨_, ⟨hheld, _⟩, _, _, _, _, rfl⟩ := h
    exact Or.inr (Or.inr ⟨hheld, hheld, fun _ _ => rfl⟩)
  | raise t object =>
    simp only [carefulStep, step, raise, bind_eq_ok, ensure_eq_ok, pure_eq_ok] at h
    obtain ⟨_, hheld, _, _, rfl⟩ := h
    exact Or.inr (Or.inr ⟨hheld, hheld, fun _ _ => rfl⟩)
  | link t payload address =>
    simp only [carefulStep, step, link, bind_eq_ok, ensure_eq_ok, pure_eq_ok] at h
    obtain ⟨_, hheld, _, _, _, _, _, _, rfl⟩ := h
    exact Or.inr (Or.inr ⟨hheld, hheld, fun _ _ => rfl⟩)
  | collectBegin t =>
    simp only [carefulStep, step, collectBegin, bind_eq_ok, ensure_eq_ok, pure_eq_ok] at h
    obtain ⟨_, hheld, _, _, _, _, rfl⟩ := h
    exact Or.inr (Or.inr ⟨hheld, hheld, fun _ hne => Function.update_of_ne hne _ _⟩)
  | finalizeNext t =>
    simp only [carefulStep, step, finalizeNext, bind_eq_ok, ensure_eq_ok] at h
    obtain ⟨_, hheld, _, _, _, _, _, _, _, _, h⟩ := h
    -- a node is passed over, marked, or finalized: only the collection of the thread moves on
    refine Or.inr (Or.inr ⟨hheld, ?_⟩)
    split at h
    · cases h
      exact ⟨hheld, fun _ hne => Function.update_of_ne hne _ _⟩
    · split at h
      · cases h
        exact ⟨hheld, fun _ hne => Function.update_of_ne hne _ _⟩
      · cases h
        exact ⟨hheld, fun _ hne => Function.update_of_ne hne _ _⟩
  | finalizerReturn t =>
    simp only [carefulStep, step, finalizerReturn, bind_eq_ok, ensure_eq_ok, pure_eq_ok] at h
    obtain ⟨_, hheld, _, _, _, _, rfl⟩ := h
    exact Or.inr (Or.inr ⟨hheld, hheld, fun _ hne => Function.update_of_ne hne _ _⟩)
  | collectEnd t =>
    simp only [carefulStep, step, collectEnd, bind_eq_ok, ensure_eq_ok, pure_eq_ok] at h
    obtain ⟨_, hheld, _, _, _, _, rfl⟩ := h
    exact Or.inr (Or.inr ⟨hheld, hheld, fun _ hne => Function.update_of_ne hne _ _⟩)

def CollectorHolds (g : Locked) : Prop :=
  ∀ t, (g.collections t).isSome = true → g.holder = some t

theorem carefulStep_keeps (hinv : g.CollectorHolds)
    (h : g.carefulStep action = .ok g') : g'.CollectorHolds := by
  intro t hcollecting
  rcases carefulStep_effect h with ⟨hfree, hsame⟩ | ⟨hheld, hidle, hsame⟩ | ⟨hheld, hstays, hothers⟩
  · -- the lock was free, so nobody was collecting
    rw [hsame] at hcollecting
    rw [hinv t hcollecting] at hfree
    cases hfree
  · -- the thread that gave the lock up was the only one that could collect
    rw [hsame] at hcollecting
    have hself := (hinv t hcollecting).symm.trans hheld
    obtain rfl : t = action.thread := Option.some.inj hself
    rw [hidle] at hcollecting
    cases hcollecting
  · by_cases hself : t = action.thread
    · rw [hself]
      exact hstays
    · rw [hothers t hself] at hcollecting
      have hsame := (hinv t hcollecting).symm.trans hheld
      exact absurd (Option.some.inj hsame) hself

/-- In every run in which no thread releases the lock inside its own collection,
    every collection is exclusive. -/
theorem collection_exclusive {g : Locked} (h : carefulMachine.Reachable g) : g.Exclusive := by
  have hholds : g.CollectorHolds := by
    refine h.invariant ?_ (fun _ _ _ => carefulStep_keeps)
    rintro _ rfl t hcollecting
    cases hcollecting
  intro t hcollecting action hother g' hstep
  have hheld := hholds t hcollecting
  rcases step_holder hstep with hholder | hfree
  · exact hother (Option.some.inj (hholder.symm.trans hheld))
  · rw [hheld] at hfree
    cases hfree

/-- Two registered threads; thread 1 collects and its collection has just called
    the finalizer of an unreachable object. -/
def finalizerRun : List LockAction :=
  [.threadEnter 1, .gilRelease 1 .sleep, .threadEnter 2, .gilRelease 2 .sleep, .gilAcquire 1,
    .link 1 (.object ⟨State.nodeMeta, rfl⟩ (fun _ => 0)) 16, .collectBegin 1, .finalizeNext 1]

theorem collection_exclusive_finalizer : ∃ g, carefulMachine.exec .initial finalizerRun = .ok g ∧
    (g.collections 1).isSome = true ∧ g.Exclusive := by
  have hrun : carefulMachine.exec .initial finalizerRun = .ok _ := rfl
  exact ⟨_, hrun, rfl, collection_exclusive (.exec rfl hrun)⟩

/-- If the finalizer sleeps, the other thread allocates inside the collection. -/
theorem collection_interrupted : ¬ ∀ g, machine.Reachable g →
    ∀ t, (g.collections t).isSome = true → ∀ other payload address, other ≠ t →
      ∀ g', g.step (.link other payload address) ≠ .ok g' := by
  intro hclaim
  have hrun : machine.exec .initial
      (finalizerRun ++ [.gilRelease 1 .sleep, .gilAcquire 2]) = .ok _ := rfl
  exact hclaim _ (.exec rfl hrun) 1 rfl 2 (.object ⟨State.nodeMeta, rfl⟩ (fun _ => 0)) 32
    (by decide) _ rfl

end Locked

end Cwhip.Runtime
