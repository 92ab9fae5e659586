/-
  Cwhip.Runtime.Callbacks

  What native code may rely on while it holds a callback (`RuntimeGc.c`): the
  registrations that are not released and the pending transfers refer to
  callback objects that no collection frees, in every run of the runtime, and a
  transfer that was prepared can be accepted by any registered thread.

  Eight operations work on the registry; all others leave what it refers to
  alone (`SameRegistry`), up to the sweep, which frees no root.
-/

import Cwhip.Runtime.CollectSound

namespace Cwhip.Runtime

open Cwhip.Lib

/-- What the registry needs of a heap node: where it is, and whether it is a callback. -/
def HeapNode.seat (node : HeapNode) : Nat × Bool := (node.object, node.payload.isCallback)

theorem Payload.size_pos (payload : Payload) : 0 < payload.size := by
  cases payload with
  | object metadata words =>
    have hvalid := metadata.property
    simp only [ClassMeta.valid, Bool.and_eq_true, decide_eq_true_eq] at hvalid
    exact Nat.lt_of_lt_of_le (by decide) hvalid.1.1
  | array values | map entries | buffer data => exact Nat.zero_lt_succ _

theorem HeapNode.contains_object (node : HeapNode) : node.Contains node.object := by
  refine ⟨Nat.le_refl _, ?_⟩
  rw [Nat.sub_self]
  exact node.payload.size_pos

/-- A registration belongs to a registered thread, and refers to a callback
    until it is released, which it is only while no call is in flight. -/
structure CallbackContext.Sound (context : CallbackContext) (threads : List Nat)
    (seats : List (Nat × Bool)) : Prop where
  owner : context.owner ∈ threads
  idle : context.released = true → context.inFlight = 0
  seated : context.released = false → (context.callback, true) ∈ seats

namespace State

/-! ## The registry -/

/-- The addresses `mark_roots` marks for the registry. -/
def registered (s : State) : List Nat :=
  s.callbackTransfers.map CallbackTransfer.callback ++
    (s.callbackContexts.filter (fun context => !context.released)).map CallbackContext.callback

/-- A callback object is allocated at the address. -/
def Seated (s : State) (address : Nat) : Prop := (address, true) ∈ s.heap.map HeapNode.seat

/-- The invariant of the registry. -/
structure CallbacksHeld (s : State) : Prop where
  contexts : (s.callbackContexts.map CallbackContext.id).Nodup
  transfers : (s.callbackTransfers.map CallbackTransfer.id).Nodup
  sound : ∀ context ∈ s.callbackContexts,
    context.Sound (s.threads.map Thread.id) (s.heap.map HeapNode.seat)
  pending : ∀ transfer ∈ s.callbackTransfers, s.Seated transfer.callback

/-- The registry, the registered threads and the callback objects are the same. -/
structure SameRegistry (s s' : State) : Prop where
  contexts : s'.callbackContexts = s.callbackContexts
  transfers : s'.callbackTransfers = s.callbackTransfers
  threads : s'.threads.map Thread.id = s.threads.map Thread.id
  seats : s'.heap.map HeapNode.seat = s.heap.map HeapNode.seat

variable {s s' s'' : State} {t : Nat}

theorem CallbacksHeld.initial : CallbacksHeld .initial :=
  ⟨List.nodup_nil, List.nodup_nil, List.forall_mem_nil _, List.forall_mem_nil _⟩

theorem CallbacksHeld.seated (hs : s.CallbacksHeld) {address : Nat} (h : address ∈ s.registered) :
    s.Seated address := by
  rcases List.mem_append.mp h with h | h
  · obtain ⟨transfer, htransfer, rfl⟩ := List.mem_map.mp h
    exact hs.pending transfer htransfer
  · obtain ⟨context, hcontext, rfl⟩ := List.mem_map.mp h
    obtain ⟨hcontext, hopen⟩ := List.mem_filter.mp hcontext
    exact (hs.sound context hcontext).seated (by simpa using hopen)

/-- The registry stays, and what it refers to. -/
theorem CallbacksHeld.mono (hs : s.CallbacksHeld)
    (hcontexts : s'.callbackContexts = s.callbackContexts)
    (htransfers : s'.callbackTransfers = s.callbackTransfers)
    (howner : ∀ context ∈ s.callbackContexts, context.owner ∈ s'.threads.map Thread.id)
    (hseated : ∀ address ∈ s.registered, s'.Seated address) : s'.CallbacksHeld := by
  refine ⟨hcontexts ▸ hs.contexts, htransfers ▸ hs.transfers, ?_, ?_⟩
  · rw [hcontexts]
    intro context hcontext
    refine ⟨howner context hcontext, (hs.sound context hcontext).idle, fun hopen => ?_⟩
    refine hseated _ (List.mem_append_right _ (List.mem_map_of_mem ?_))
    exact List.mem_filter.mpr ⟨hcontext, by simpa using hopen⟩
  · rw [htransfers]
    intro transfer htransfer
    exact hseated _ (List.mem_append_left _ (List.mem_map_of_mem htransfer))

theorem CallbacksHeld.congr (hs : s.CallbacksHeld) (h : SameRegistry s s') : s'.CallbacksHeld := by
  refine hs.mono h.contexts h.transfers ?_ ?_
  · intro context hcontext
    rw [h.threads]
    exact (hs.sound context hcontext).owner
  · intro address haddress
    rw [Seated, h.seats]
    exact hs.seated haddress

theorem SameRegistry.refl (s : State) : SameRegistry s s := ⟨rfl, rfl, rfl, rfl⟩

theorem SameRegistry.trans (h : SameRegistry s s') (h' : SameRegistry s' s'') :
    SameRegistry s s'' :=
  ⟨h'.contexts.trans h.contexts, h'.transfers.trans h.transfers, h'.threads.trans h.threads,
    h'.seats.trans h.seats⟩

/-! ## Operations that leave the registry alone -/

theorem sameRegistry_updateNode {serial : Nat} {f : HeapNode → HeapNode}
    (hf : ∀ node, (f node).seat = node.seat) : SameRegistry s (s.updateNode serial f) := by
  refine ⟨rfl, rfl, rfl, ?_⟩
  rw [updateNode, List.map_map]
  apply List.map_congr_left
  intro node _
  rw [Function.comp_apply]
  split
  · exact hf node
  · rfl

theorem sameRegistry_mapThreads {f : Thread → Thread} (hf : ∀ thread, (f thread).id = thread.id) :
    SameRegistry s { s with threads := s.threads.map f } := by
  refine ⟨rfl, rfl, ?_, rfl⟩
  rw [List.map_map]
  exact List.map_congr_left (fun thread _ => hf thread)

theorem sameRegistry_setThread (thread : Thread) : SameRegistry s (s.setThread thread) := by
  refine sameRegistry_mapThreads ?_
  intro other
  split
  · next hid => exact hid.symm
  · rfl

/-- What the operations on the flags of a node do. -/
theorem sameRegistry_flag {serial : Nat} {f : HeapNode → HeapNode} {thread : Thread}
    (hf : ∀ node, (f node).seat = node.seat) :
    SameRegistry s ((s.updateNode serial f).setThread thread) :=
  (sameRegistry_updateNode hf).trans (sameRegistry_setThread thread)

theorem SameRegistry.record {event : Event} (h : SameRegistry s s') :
    SameRegistry s (s'.record event) :=
  ⟨h.contexts, h.transfers, h.threads, h.seats⟩

theorem sameRegistry_setCollecting (collecting : Bool) :
    SameRegistry s (s.setCollecting t collecting) := by
  refine sameRegistry_mapThreads ?_
  intro thread
  split
  · rfl
  · rfl

theorem sameRegistry_setRunningDestructor (running : Bool) :
    SameRegistry s (s.setRunningDestructor t running) := by
  refine sameRegistry_mapThreads ?_
  intro thread
  split
  · rfl
  · rfl

theorem sameRegistry_storePayload {serial : Nat} {store : Payload → Option Payload}
    (hkind : ∀ payload payload', store payload = some payload' →
      payload'.isCallback = payload.isCallback)
    (h : s.storePayload serial store = .ok s') : SameRegistry s s' := by
  simp only [storePayload, bind_eq_ok, pure_eq_ok] at h
  obtain ⟨_, -, _, -, rfl⟩ := h
  apply sameRegistry_updateNode
  intro node
  cases hs : store node.payload with
  | none => rfl
  | some payload => simp [HeapNode.seat, hkind _ _ hs]

/-! ## Operations on the registry -/

theorem callbackValidate_spec {value : Nat} {u : Unit} (h : s.callbackValidate value = .ok u) :
    s.Seated value := by
  simp only [callbackValidate, bind_eq_ok, require_eq_ok, ensure_eq_ok] at h
  obtain ⟨node, hfound, hcallback⟩ := h
  have hobject : node.object = value := by simpa using List.find?_some hfound
  refine List.mem_map.mpr ⟨node, List.mem_of_find?_eq_some hfound, ?_⟩
  rw [HeapNode.seat, hobject, hcallback]

theorem callbackAcquire_held {value id : Nat} (hs : s.CallbacksHeld)
    (h : s.callbackAcquire t value id = .ok s') : s'.CallbacksHeld := by
  simp only [callbackAcquire, requireThread, bind_eq_ok, pure_eq_ok, ensure_eq_ok,
    require_eq_ok] at h
  obtain ⟨thread, hthread, _, hvalid, _, hfresh, rfl⟩ := h
  have hid : thread.id = t := by simpa using List.find?_some hthread
  refine ⟨List.nodup_cons.mpr ⟨?_, hs.contexts⟩, hs.transfers, ?_, hs.pending⟩
  · intro hmem
    obtain ⟨context, hcontext, hsame⟩ := List.mem_map.mp hmem
    exact hfresh context hcontext hsame
  · refine List.forall_mem_cons.mpr ⟨?_, hs.sound⟩
    refine ⟨?_, fun _ => rfl, fun _ => callbackValidate_spec hvalid⟩
    exact List.mem_map.mpr ⟨thread, List.mem_of_find?_eq_some hthread, hid⟩

theorem mem_context {id : Nat} {context : CallbackContext} (h : s.context id = .ok context) :
    context ∈ s.callbackContexts := by
  rw [State.context, require_eq_ok] at h
  exact List.mem_of_find?_eq_some h

/-- A registration is rewritten in place. -/
theorem CallbacksHeld.setContext (hs : s.CallbacksHeld) {new : CallbackContext}
    (hnew : new.Sound (s.threads.map Thread.id) (s.heap.map HeapNode.seat)) :
    (s.setContext new).CallbacksHeld := by
  refine ⟨?_, hs.transfers, ?_, hs.pending⟩
  · have hids : (s.setContext new).callbackContexts.map CallbackContext.id
        = s.callbackContexts.map CallbackContext.id := by
      rw [State.setContext, List.map_map]
      apply List.map_congr_left
      intro other _
      rw [Function.comp_apply]
      split
      · next hsame => exact hsame.symm
      · rfl
    rw [hids]
    exact hs.contexts
  · intro other hother
    obtain ⟨old, hold, rfl⟩ := List.mem_map.mp hother
    split
    · exact hnew
    · exact hs.sound old hold

theorem callbackDispose_held {id : Nat} (hs : s.CallbacksHeld)
    (h : s.callbackDispose t id = .ok s') : s'.CallbacksHeld := by
  simp only [callbackDispose, bind_eq_ok, pure_eq_ok] at h
  obtain ⟨_, -, _, -, rfl⟩ := h
  refine ⟨(List.filter_sublist.map _).nodup hs.contexts, hs.transfers, ?_, hs.pending⟩
  intro context hcontext
  exact hs.sound context (List.mem_filter.mp hcontext).1

theorem transferPrepare_held {value id : Nat} (hs : s.CallbacksHeld)
    (h : s.transferPrepare t value id = .ok s') : s'.CallbacksHeld := by
  simp only [transferPrepare, bind_eq_ok, pure_eq_ok, ensure_eq_ok] at h
  obtain ⟨_, -, _, hvalid, _, hfresh, rfl⟩ := h
  refine ⟨hs.contexts, List.nodup_cons.mpr ⟨?_, hs.transfers⟩, hs.sound,
    List.forall_mem_cons.mpr ⟨callbackValidate_spec hvalid, hs.pending⟩⟩
  intro hmem
  obtain ⟨transfer, htransfer, hsame⟩ := List.mem_map.mp hmem
  exact hfresh transfer htransfer hsame

theorem transferRemove_held {id : Nat} {removed : CallbackTransfer × State} (hs : s.CallbacksHeld)
    (h : s.transferRemove id = .ok removed) : removed.2.CallbacksHeld := by
  simp only [transferRemove, bind_eq_ok, pure_eq_ok] at h
  obtain ⟨_, -, rfl⟩ := h
  refine ⟨hs.contexts, (List.filter_sublist.map _).nodup hs.transfers, hs.sound, ?_⟩
  intro transfer htransfer
  exact hs.pending transfer (List.mem_filter.mp htransfer).1

/-- Each operation keeps the registry sound. -/
theorem mutate_held {mutation : Mutation} (hs : s.CallbacksHeld)
    (h : s.mutate mutation = .ok s') : s'.CallbacksHeld := by
  cases mutation with
  | gcPush t frame | gcPop t frame =>
    simp only [mutate, gcPush, gcPop, bind_eq_ok, pure_eq_ok] at h
    obtain ⟨_, -, _, -, rfl⟩ := h
    exact hs.congr (sameRegistry_setThread _)
  | storeRoot t frame index slot =>
    simp only [mutate, storeRoot, bind_eq_ok, pure_eq_ok] at h
    obtain ⟨_, -, _, -, _, -, rfl⟩ := h
    exact hs.congr (sameRegistry_setThread _)
  -- a store keeps the metadata word of an object
  | storeObject serial words | storeArray serial values | storeMap serial entries
  | storeBuffer serial data =>
    simp only [mutate, storeObject, storeArray, storeMap, storeBuffer] at h
    refine hs.congr (sameRegistry_storePayload ?_ h)
    intro payload payload' hstore
    cases payload
    all_goals cases hstore
    rfl
  | gcBeginDestroy t object =>
    simp only [mutate, gcBeginDestroy, bind_eq_ok, pure_eq_ok] at h
    obtain ⟨_, -, _, -, _, -, rfl⟩ := h
    refine hs.congr (SameRegistry.record (sameRegistry_flag ?_))
    exact fun _ => rfl
  | gcEndDestroy t object | gcBeginConstruction t object | gcEndConstruction t object =>
    simp only [mutate, gcEndDestroy, gcBeginConstruction, gcEndConstruction, bind_eq_ok,
      pure_eq_ok] at h
    obtain ⟨_, -, _, -, _, -, rfl⟩ := h
    refine hs.congr (sameRegistry_flag ?_)
    exact fun _ => rfl
  | exceptionFrameInit frame | exceptionClear frame =>
    simp only [mutate, exceptionFrameInit, exceptionClear, bind_eq_ok, pure_eq_ok] at h
    obtain ⟨_, -, rfl⟩ := h
    exact hs.congr ⟨rfl, rfl, rfl, rfl⟩
  | exceptionPush t frame | exceptionPop t frame =>
    simp only [mutate, exceptionPush, exceptionPop, bind_eq_ok, pure_eq_ok] at h
    obtain ⟨_, -, _, -, _, -, rfl⟩ := h
    refine hs.congr (SameRegistry.trans ?_ (sameRegistry_setThread _))
    exact ⟨rfl, rfl, rfl, rfl⟩
  | callbackAcquire t value id => exact callbackAcquire_held hs h
  | callbackEnter t id =>
    simp only [mutate, callbackEnter, callbackContextCheck, bind_eq_ok, pure_eq_ok,
      ensure_eq_ok] at h
    obtain ⟨context, hcontext, _, ⟨_, hopen⟩, rfl⟩ := h
    have hsound := hs.sound context (mem_context hcontext)
    refine hs.setContext ⟨hsound.owner, ?_, hsound.seated⟩
    exact fun hreleased => absurd (hopen.symm.trans hreleased) (by decide)
  | callbackLeave id =>
    simp only [mutate, callbackLeave, bind_eq_ok, pure_eq_ok, ensure_eq_ok] at h
    obtain ⟨context, hcontext, _, hbusy, rfl⟩ := h
    have hsound := hs.sound context (mem_context hcontext)
    refine hs.setContext ⟨hsound.owner, ?_, hsound.seated⟩
    exact fun hreleased => absurd (hsound.idle hreleased) hbusy
  | callbackRelease t id =>
    simp only [mutate, callbackRelease, bind_eq_ok, pure_eq_ok, ensure_eq_ok] at h
    obtain ⟨context, hcontext, _, -, _, hidle, rfl⟩ := h
    have hsound := hs.sound context (mem_context hcontext)
    refine hs.setContext ⟨hsound.owner, fun _ => hidle, ?_⟩
    rintro ⟨⟩
  | callbackDispose t id => exact callbackDispose_held hs h
  | transferPrepare t value id => exact transferPrepare_held hs h
  | transferAccept t id context =>
    simp only [mutate, transferAccept, bind_eq_ok] at h
    obtain ⟨_, -, removed, hremove, hacquire⟩ := h
    exact callbackAcquire_held (transferRemove_held hs hremove) hacquire
  | transferCancel t id =>
    simp only [mutate, transferCancel, bind_eq_ok, pure_eq_ok] at h
    obtain ⟨_, -, removed, hremove, rfl⟩ := h
    exact transferRemove_held hs hremove

theorem mutateAll_held {mutations : List Mutation} (hs : s.CallbacksHeld)
    (h : s.mutateAll mutations = .ok s') : s'.CallbacksHeld := by
  induction mutations generalizing s with
  | nil =>
    cases h
    exact hs
  | cons mutation rest ih =>
    simp only [mutateAll, bind_eq_ok] at h
    obtain ⟨s₁, hs₁, hrest⟩ := h
    exact ih (mutate_held hs hs₁) hrest

/-! ## A collection -/

theorem finalizeNode_held {finalizers : Finalizers} {marked : List Nat} {node : HeapNode}
    (hs : s.CallbacksHeld) (h : s.finalizeNode t finalizers marked node = .ok s') :
    s'.CallbacksHeld := by
  unfold finalizeNode at h
  split at h
  · cases h
    exact hs
  · split at h
    · cases h
      refine hs.congr (sameRegistry_updateNode ?_)
      exact fun _ => rfl
    · simp only [bind_eq_ok, pure_eq_ok, fatalRaise_eq_ok] at h
      obtain ⟨s₁, hmutate, rfl⟩ := h
      have hcalled : (s.callFinalizer t node.serial).CallbacksHeld := by
        refine (hs.congr ?_).congr (sameRegistry_setRunningDestructor true).record
        exact sameRegistry_updateNode (fun _ => rfl)
      refine ((mutateAll_held hcalled hmutate).congr
        (sameRegistry_setRunningDestructor false)).congr (sameRegistry_updateNode ?_)
      exact fun _ => rfl

theorem finalizePass_held {finalizers : Finalizers} {marked serials : List Nat}
    (hs : s.CallbacksHeld) (h : s.finalizePass t finalizers marked serials = .ok s') :
    s'.CallbacksHeld := by
  induction serials generalizing s with
  | nil =>
    cases h
    exact hs
  | cons serial rest ih =>
    simp only [finalizePass, bind_eq_ok] at h
    obtain ⟨node, -, s₁, hs₁, hrest⟩ := h
    exact ih (finalizeNode_held hs hs₁) hrest

/-- The object an address of the registry refers to is a root. -/
theorem live_of_registered {address : Nat} (h : address ∈ s.registered) {node : HeapNode}
    (hnode : node ∈ s.heap) (hobject : node.object = address) : s.Live node := by
  subst hobject
  exact .root (List.mem_append_left _ h) hnode node.contains_object

theorem gcCollect_held {finalizers : Finalizers} (hwf : s.WellFormed) (hs : s.CallbacksHeld)
    (h : s.gcCollect t finalizers = .ok s') : s'.CallbacksHeld := by
  obtain ⟨m, hm, rfl⟩ := gcCollect_spec h
  obtain ⟨hpass, hchanges⟩ := gcFinalized_spec hm
  have hmwf := hwf.changes hchanges
  have hheld := finalizePass_held (hs.congr (sameRegistry_setCollecting true)) hpass
  refine CallbacksHeld.congr (s := m.sweep m.mark.marked) ?_ (sameRegistry_setCollecting false)
  refine hheld.mono rfl rfl (fun context hcontext => (hheld.sound context hcontext).owner) ?_
  intro address haddress
  obtain ⟨node, hnode, hseat⟩ := List.mem_map.mp (hheld.seated haddress)
  have hlive := live_of_registered (s := m) haddress hnode (congrArg Prod.fst hseat)
  exact List.mem_map.mpr
    ⟨node, mem_sweep.mpr ⟨hnode, (hmwf.mem_mark_iff hnode).mpr hlive⟩, hseat⟩

theorem gcAllocate_held {finalizers : Finalizers} {payload : Payload} {address : Nat}
    (hwf : s.WellFormed) (hs : s.CallbacksHeld)
    (h : s.gcAllocate t finalizers payload address = .ok s') : s'.CallbacksHeld := by
  simp only [gcAllocate, bind_eq_ok, pure_eq_ok] at h
  obtain ⟨s₁, hcollect, _, -, rfl⟩ := h
  have hheld := gcCollect_held hwf hs hcollect
  refine hheld.mono rfl rfl (fun context hcontext => (hheld.sound context hcontext).owner) ?_
  exact fun _ haddress => List.mem_cons_of_mem _ (hheld.seated haddress)

/-! ## Raising, and the steps of the runtime -/

theorem unwindDestroys_same {saved : Option Nat} {stack : List Nat} {result : List Nat × State}
    (h : s.unwindDestroys saved stack = .ok result) : SameRegistry s result.2 := by
  induction stack generalizing s with
  | nil =>
    unfold unwindDestroys at h
    split at h
    · cases h
      exact .refl s
    · cases h
  | cons serial rest ih =>
    unfold unwindDestroys at h
    split at h
    · cases h
      exact .refl s
    · simp only [bind_eq_ok] at h
      obtain ⟨_, -, hrest⟩ := h
      refine SameRegistry.trans (sameRegistry_updateNode ?_) (ih hrest)
      exact fun _ => rfl

theorem unwindConstructions_same {saved : Option Nat} {stack : List Nat}
    {result : List Nat × State} (h : s.unwindConstructions saved stack = .ok result) :
    SameRegistry s result.2 := by
  induction stack generalizing s with
  | nil =>
    unfold unwindConstructions at h
    split at h
    · cases h
      exact .refl s
    · cases h
  | cons serial rest ih =>
    unfold unwindConstructions at h
    split at h
    · cases h
      exact .refl s
    · simp only [bind_eq_ok] at h
      obtain ⟨_, -, hrest⟩ := h
      refine SameRegistry.trans (SameRegistry.record (sameRegistry_updateNode ?_)) (ih hrest)
      exact fun _ => rfl

theorem raiseException_same {object : Nat} (h : s.raiseException t object = .ok s') :
    SameRegistry s s' := by
  simp only [raiseException, bind_eq_ok, pure_eq_ok] at h
  obtain ⟨_, -, _, -, _, -, _, -, _, hdestroys, _, hconstructions, rfl⟩ := h
  have hunwound := (unwindDestroys_same hdestroys).trans (unwindConstructions_same hconstructions)
  exact SameRegistry.trans ⟨hunwound.contexts, hunwound.transfers, hunwound.threads,
    hunwound.seats⟩ (sameRegistry_setThread _)

theorem threadExit_held (hs : s.CallbacksHeld) (h : s.threadExit t = .ok s') :
    s'.CallbacksHeld := by
  simp only [threadExit, bind_eq_ok, pure_eq_ok, ensure_eq_ok] at h
  obtain ⟨_, -, _, -, _, howner, rfl⟩ := h
  refine hs.mono rfl rfl ?_ fun _ => hs.seated
  intro context hcontext
  obtain ⟨thread, hthread, hid⟩ := List.mem_map.mp (hs.sound context hcontext).owner
  refine List.mem_map.mpr ⟨thread, List.mem_filter.mpr ⟨hthread, ?_⟩, hid⟩
  simpa [hid] using howner context hcontext

/-- The step lemma of the invariant; `held_of_reachable` takes it to runs. -/
theorem step_held {action : Action} (hwf : s.WellFormed) (hs : s.CallbacksHeld)
    (h : s.step action = .ok s') : s'.CallbacksHeld := by
  cases action with
  | mutate mutation => exact mutate_held hs h
  | collect t finalizers => exact gcCollect_held hwf hs h
  | alloc t finalizers metadata address =>
    simp only [step, gcAlloc] at h
    split at h
    · exact gcAllocate_held hwf hs h
    · cases h
  | allocBuffer t finalizers address => exact gcAllocate_held hwf hs h
  | allocArray t finalizers length address =>
    simp only [step, gcAllocArray, bind_eq_ok] at h
    obtain ⟨_, -, halloc⟩ := h
    exact gcAllocate_held hwf hs halloc
  | allocMap t finalizers address => exact gcAllocate_held hwf hs h
  | raise t object => exact hs.congr (raiseException_same h)
  | threadEnter t =>
    simp only [step, threadEnter, bind_eq_ok, pure_eq_ok] at h
    obtain ⟨_, -, rfl⟩ := h
    refine hs.mono rfl rfl ?_ fun _ => hs.seated
    exact fun context hcontext => List.mem_cons_of_mem _ (hs.sound context hcontext).owner
  | threadExit t => exact threadExit_held hs h

theorem held_of_reachable (h : machine.Reachable s) : s.WellFormed ∧ s.CallbacksHeld := by
  refine h.invariant (I := fun s => s.WellFormed ∧ s.CallbacksHeld) ?_ ?_
  · rintro _ rfl
    exact ⟨.initial, .initial⟩
  · intro s action s' hs hstep
    exact ⟨(step_keeps hs.1 hstep).1, step_held hs.1 hs.2 hstep⟩

/-! ## What native code may rely on -/

/-- The address is a callback object that no collection frees, and where its field
    points into an allocated object, that receiver is not freed either. -/
def CallbackAt (s : State) (address : Nat) : Prop :=
  ∃ node ∈ s.heap, node.object = address ∧ node.payload.isCallback = true ∧ s.Live node ∧
    ∀ receiver ∈ s.heap, (∃ field ∈ node.payload.references, receiver.Contains field) →
      s.Live receiver

/-- A thread that accepts a transfer becomes the owner of a registration of its
    callback, and the transfer is used up. -/
structure Accepted (s : State) (t : Nat) (transfer : CallbackTransfer) (id : Nat) : Prop where
  registered : ⟨id, transfer.callback, t, 0, false⟩ ∈ s.callbackContexts
  consumed : ∀ other ∈ s.callbackTransfers, other.id ≠ transfer.id

theorem callbackAt_of_registered (hs : s.CallbacksHeld) {address : Nat}
    (h : address ∈ s.registered) : s.CallbackAt address := by
  obtain ⟨node, hnode, hseat⟩ := List.mem_map.mp (hs.seated h)
  have hobject : node.object = address := congrArg Prod.fst hseat
  have hlive := live_of_registered h hnode hobject
  refine ⟨node, hnode, hobject, congrArg Prod.snd hseat, hlive, ?_⟩
  rintro receiver hreceiver ⟨field, hfield, hin⟩
  exact .field hlive hfield hreceiver hin

/-- `find_object` finds the callback, so `callback_validate` passes. -/
theorem callbackValidate_of_callbackAt (hwf : s.WellFormed) {address : Nat}
    (h : s.CallbackAt address) : s.callbackValidate address = .ok () := by
  obtain ⟨node, hnode, hobject, hcallback, -⟩ := h
  have hfound : s.findObject address = some node := by
    cases hf : s.findObject address with
    | none =>
      have hnone := List.find?_eq_none.mp hf node hnode
      simp [hobject] at hnone
    | some other =>
      have hother : other.object = address := by simpa using List.find?_some hf
      rw [hwf.eq_of_contains (List.mem_of_find?_eq_some hf) hnode (hother ▸ other.contains_object)
        (hobject ▸ node.contains_object)]
  rw [callbackValidate, hfound, require_bind, ensure, if_pos hcallback]

theorem requireThread_of_mem {thread : Thread} (h : thread ∈ s.threads) :
    ∃ found, s.requireThread thread.id = .ok found := by
  rw [requireThread, State.thread]
  cases hf : s.threads.find? (fun other => other.id == thread.id) with
  | none =>
    have hnone := List.find?_eq_none.mp hf thread h
    simp at hnone
  | some found => exact ⟨found, rfl⟩

theorem transferRemove_eq (hs : s.CallbacksHeld) {transfer : CallbackTransfer}
    (h : transfer ∈ s.callbackTransfers) :
    s.transferRemove transfer.id = .ok (transfer,
      { s with
        callbackTransfers := s.callbackTransfers.filter (fun other =>
        other.id != transfer.id) }) := by
  have hfound : s.callbackTransfers.find? (fun other => other.id == transfer.id)
      = some transfer := by
    cases hf : s.callbackTransfers.find? (fun other => other.id == transfer.id) with
    | none =>
      have hnone := List.find?_eq_none.mp hf transfer h
      simp at hnone
    | some other =>
      have hid : other.id = transfer.id := by simpa using List.find?_some hf
      rw [List.inj_on_of_nodup_map hs.transfers (List.mem_of_find?_eq_some hf) h hid]
  rw [transferRemove, hfound]
  rfl

theorem transferAccept_succeeds (hwf : s.WellFormed) (hs : s.CallbacksHeld)
    {transfer : CallbackTransfer} (htransfer : transfer ∈ s.callbackTransfers) {thread : Thread}
    (hthread : thread ∈ s.threads) {id : Nat}
    (hid : ∀ context ∈ s.callbackContexts, context.id ≠ id) :
    ∃ s', s.transferAccept thread.id transfer.id id = .ok s' ∧
    s'.Accepted thread.id transfer id := by
  have hvalid : s.callbackValidate transfer.callback = .ok () :=
    callbackValidate_of_callbackAt hwf (callbackAt_of_registered hs
      (List.mem_append_left _ (List.mem_map_of_mem htransfer)))
  obtain ⟨found, hfound⟩ := requireThread_of_mem hthread
  let removed : State := { s with
    callbackTransfers := s.callbackTransfers.filter (fun other => other.id != transfer.id) }
  let accepted : State := { removed with
    callbackContexts := ⟨id, transfer.callback, thread.id, 0, false⟩ :: s.callbackContexts }
  have hacquire : removed.callbackAcquire thread.id transfer.callback id = .ok accepted := by
    refine bind_eq_ok.mpr ⟨found, hfound, bind_eq_ok.mpr ⟨(), hvalid, ?_⟩⟩
    exact bind_eq_ok.mpr ⟨(), ensure_eq_ok.mpr hid, rfl⟩
  refine ⟨accepted, ?_, List.mem_cons_self, ?_⟩
  · refine bind_eq_ok.mpr ⟨found, hfound, bind_eq_ok.mpr ⟨(transfer, removed), ?_, hacquire⟩⟩
    exact transferRemove_eq hs htransfer
  · intro other hother
    simpa using (List.mem_filter.mp hother).2

/-- In every state of every run of any number of threads, with collections whose
    finalizers work on the registry too: the registry is sound, whatever it refers
    to survives, and a pending transfer can be accepted by any registered thread. -/
theorem callbacks_survive (h : machine.Reachable s) :
    s.CallbacksHeld ∧ (∀ address ∈ s.registered, s.CallbackAt address) ∧
    ∀ transfer ∈ s.callbackTransfers, ∀ thread ∈ s.threads, ∀ id,
      (∀ context ∈ s.callbackContexts, context.id ≠ id) →
      ∃ s', s.transferAccept thread.id transfer.id id = .ok s' ∧
        s'.Accepted thread.id transfer id := by
  obtain ⟨hwf, hs⟩ := held_of_reachable h
  refine ⟨hs, fun address haddress => callbackAt_of_registered hs haddress, ?_⟩
  intro transfer htransfer thread hthread id hid
  exact transferAccept_succeeds hwf hs htransfer hthread hid

/-- Thread 1 prepares a callback for thread 2 and drops its own reference; the
    next allocation collects, and a finalizer registers the callback once more. -/
def handOffRun : List Action :=
  [.threadEnter 1, .threadEnter 2, .alloc 1 (fun _ => []) nodeMeta 16,
    .mutate (.gcPush 1 ⟨1024, [⟨16, none⟩]⟩), .alloc 1 (fun _ => []) callbackMetadata 64,
    .mutate (.storeObject 1 (fun offset => if offset = 8 then 16 else 0)),
    .mutate (.transferPrepare 1 64 7), .mutate (.gcPop 1 1024),
    .alloc 1 (fun _ => []) nodeMeta 256,
    .collect 1 (fun _ => [.callbackAcquire 1 64 3])]

theorem callbacks_survive_handOff : ∃ s, machine.exec .initial handOffRun = .ok s ∧
    s.heap.map (fun node => (node.serial, node.object)) = [(1, 64), (0, 16)] ∧
    s.registered = [64, 64] ∧ s.CallbackAt 64 ∧
    ∃ s', s.transferAccept 2 7 9 = .ok s' ∧ s'.Accepted 2 ⟨7, 64⟩ 9 := by
  have hrun : machine.exec .initial handOffRun = .ok _ := rfl
  have hsurvive := callbacks_survive (.exec rfl hrun)
  refine ⟨_, rfl, by decide, by decide, hsurvive.2.1 64 (by decide), ?_⟩
  exact hsurvive.2.2 ⟨7, 64⟩ (by decide) (.fresh 2) (by decide) 9 (by decide)

end State

end Cwhip.Runtime
