/-
  Cwhip.Runtime.CollectSound

  The collector is safe over whole runs.

  A marking pass marks exactly the live nodes (`mem_mark_iff`), by the generic
  marker's theorem and the disjointness of blocks, which makes the first node
  `find_containing_object` meets the only one.  The finalizer pass is a chain
  of changes, so it keeps the invariant; the sweep then keeps exactly what the
  second pass marked.
-/

import Cwhip.Runtime.Invariant

namespace Cwhip.Runtime

open Cwhip.Lib

namespace State

/-! ## A marking pass marks the live nodes -/

theorem WellFormed.object_ne_zero {s : State} (h : s.WellFormed) {node : HeapNode}
    (hn : node ∈ s.heap) : node.object ≠ 0 :=
  h.addresses _ (mem_blocks hn)

theorem WellFormed.markTarget_iff {s : State} (h : s.WellFormed) {node : HeapNode}
    (hn : node ∈ s.heap) {address : Nat} :
    s.markTarget address = some node.serial ↔ node.Contains address := by
  unfold markTarget
  constructor
  · intro hm
    split at hm
    · cases hm
    · obtain ⟨found, hfound, hserial⟩ := Option.map_eq_some_iff.mp hm
      obtain ⟨hmem, hin⟩ := findContainingObject_some hfound
      rwa [h.eq_of_serial hmem hn hserial] at hin
  · intro hin
    have hne : address ≠ 0 := by
      have hpos := h.object_ne_zero hn
      have hle := hin.1
      omega
    rw [if_neg hne]
    cases hf : s.findContainingObject address with
    | none =>
      have hnone := List.find?_eq_none.mp hf node hn
      simp [hin] at hnone
    | some found =>
      obtain ⟨hmem, hin'⟩ := findContainingObject_some hf
      rw [h.eq_of_contains hmem hn hin' hin]
      rfl

theorem markTarget_mem {s : State} {address serial : Nat}
    (h : s.markTarget address = some serial) :
    ∃ node ∈ s.heap, node.serial = serial ∧ node.Contains address := by
  unfold markTarget at h
  split at h
  · cases h
  · obtain ⟨node, hfound, rfl⟩ := Option.map_eq_some_iff.mp h
    obtain ⟨hmem, hin⟩ := findContainingObject_some hfound
    exact ⟨node, hmem, rfl, hin⟩

theorem mem_serials {s : State} {serial : Nat} :
    serial ∈ s.heap.map HeapNode.serial ↔ ∃ node ∈ s.heap, node.serial = serial :=
  List.mem_map

theorem rootSerials_sub {s : State} : ∀ a ∈ s.rootSerials, a ∈ s.heap.map HeapNode.serial := by
  intro a ha
  obtain ⟨address, _, htarget⟩ := List.mem_filterMap.mp ha
  obtain ⟨node, hnode, hserial, _⟩ := markTarget_mem htarget
  exact mem_serials.mpr ⟨node, hnode, hserial⟩

theorem successors_sub {s : State} {serial : Nat} :
    ∀ b ∈ s.successors serial, b ∈ s.heap.map HeapNode.serial := by
  intro b hb
  unfold successors at hb
  split at hb
  · obtain ⟨address, _, htarget⟩ := List.mem_filterMap.mp hb
    obtain ⟨node, hnode, hserial, _⟩ := markTarget_mem htarget
    exact mem_serials.mpr ⟨node, hnode, hserial⟩
  · simp at hb

theorem Live.mem {s : State} {node : HeapNode} (h : s.Live node) : node ∈ s.heap := by
  cases h with
  | root _ hm _ => exact hm
  | field _ _ hm _ => exact hm

theorem WellFormed.reachableFrom_iff {s : State} (h : s.WellFormed) {node : HeapNode}
    (hn : node ∈ s.heap) :
    ReachableFrom s.successors s.rootSerials node.serial ↔ s.Live node := by
  constructor
  · intro hreach
    have hlive : ∃ live ∈ s.heap, live.serial = node.serial ∧ s.Live live := by
      refine hreach.closed (p := fun serial =>
        ∃ live ∈ s.heap, live.serial = serial ∧ s.Live live) ?_ ?_
      · intro serial hserial
        obtain ⟨address, haddress, htarget⟩ := List.mem_filterMap.mp hserial
        obtain ⟨live, hmem, heq, hin⟩ := markTarget_mem htarget
        exact ⟨live, hmem, heq, .root haddress hmem hin⟩
      · rintro _ ⟨holder, hholder, rfl, hlive⟩ serial hserial
        simp only [successors, h.node_eq hholder] at hserial
        obtain ⟨address, haddress, htarget⟩ := List.mem_filterMap.mp hserial
        obtain ⟨live, hmem, heq, hin⟩ := markTarget_mem htarget
        exact ⟨live, hmem, heq, .field hlive haddress hmem hin⟩
    obtain ⟨live, hmem, heq, hlive⟩ := hlive
    rwa [h.eq_of_serial hmem hn heq] at hlive
  · intro hlive
    induction hlive with
    | root hroot hnode hin =>
      exact .root (List.mem_filterMap.mpr ⟨_, hroot, (h.markTarget_iff hnode).mpr hin⟩)
    | field hholder hfield hnode hin ih =>
      refine (ih hholder.mem).step ?_
      simp only [successors, h.node_eq hholder.mem]
      exact List.mem_filterMap.mpr ⟨_, hfield, (h.markTarget_iff hnode).mpr hin⟩

theorem WellFormed.mark_eq {s : State} (h : s.WellFormed) :
    s.mark = Marking.run s.successors (s.heap.map HeapNode.serial).length s.rootSerials := by
  have hcount := h.count
  simp only [blocks, List.length_map] at hcount
  simp [mark, hcount]

theorem WellFormed.mem_mark_iff {s : State} (h : s.WellFormed) {node : HeapNode}
    (hn : node ∈ s.heap) : node.serial ∈ s.mark.marked ↔ s.Live node := by
  rw [h.mark_eq, Marking.mem_run_marked_iff rootSerials_sub (fun _ _ => successors_sub),
    h.reachableFrom_iff hn]

theorem WellFormed.mark_peak_le {s : State} (h : s.WellFormed) :
    s.mark.peak ≤ s.objectCount := by
  have hcount := h.count
  have hpeak : (Marking.run s.successors (s.heap.map HeapNode.serial).length s.rootSerials).peak
      ≤ (s.heap.map HeapNode.serial).length :=
    Marking.run_peak_le rootSerials_sub (fun _ _ => successors_sub)
  rw [← h.mark_eq] at hpeak
  simp only [blocks, List.length_map] at hcount hpeak
  omega

/-! ## The thread flags do not matter to liveness -/

theorem rootReferences_threads {s : State} {f : Thread → Thread}
    (hf : ∀ thread, (f thread).rootFrames = thread.rootFrames) :
    rootReferences { s with threads := s.threads.map f } = s.rootReferences := by
  simp only [rootReferences, List.flatMap_map, hf]

theorem rootReferences_setCollecting (s : State) (t : Nat) (collecting : Bool) :
    (s.setCollecting t collecting).rootReferences = s.rootReferences := by
  refine rootReferences_threads ?_
  intro thread
  split <;> rfl

theorem Live.congr {s s' : State} (hheap : s'.heap = s.heap)
    (hroots : s'.rootReferences = s.rootReferences) {node : HeapNode} (h : s.Live node) :
    s'.Live node := by
  induction h with
  | root hroot hnode hin => exact .root (hroots ▸ hroot) (hheap ▸ hnode) hin
  | field _ hfield hnode hin ih => exact .field ih hfield (hheap ▸ hnode) hin

theorem live_setCollecting {s : State} {t : Nat} {collecting : Bool} {node : HeapNode} :
    (s.setCollecting t collecting).Live node ↔ s.Live node :=
  ⟨@Live.congr (s.setCollecting t collecting) s rfl
      (rootReferences_setCollecting s t collecting).symm node,
    @Live.congr s (s.setCollecting t collecting) rfl
      (rootReferences_setCollecting s t collecting) node⟩

theorem setCollecting_change (s : State) (t : Nat) (collecting : Bool) :
    Change s (s.setCollecting t collecting) :=
  .of_eq rfl rfl rfl rfl

theorem setRunningDestructor_change (s : State) (t : Nat) (running : Bool) :
    Change s (s.setRunningDestructor t running) :=
  .of_eq rfl rfl rfl rfl

/-! ## The finalizer pass -/

theorem updateNode_change {s : State} {serial : Nat} {f : HeapNode → HeapNode} (hf : Keeps f) :
    Change s (s.updateNode serial f) :=
  ⟨.node serial f hf rfl rfl, rfl, rfl⟩

theorem fatalRaise_eq_ok {α : Type} {x : Except Fault α} {a : α} :
    fatalRaise x = .ok a ↔ x = .ok a := by
  cases x with
  | ok b => rfl
  | error fault => cases fault <;> simp [fatalRaise]

theorem callFinalizer_change {s : State} {t : Nat} {node : HeapNode} (hn : node ∈ s.heap)
    (halive : node.destroyed = false) : Change s (s.callFinalizer t node.serial) :=
  ⟨.event (.finalizerRun node.serial) node _ hn rfl (fun _ => halive)
    (keeps_flags fun _ _ => rfl) (fun _ => rfl) rfl rfl, rfl, rfl⟩

theorem finalizerReturn_changes (s : State) (t serial : Nat) :
    Changes s (s.finalizerReturn t serial) :=
  .head (setRunningDestructor_change s t false)
    (.single (updateNode_change (keeps_flags fun _ hd => hd)))

theorem finalizeNode_changes {s s' : State} {t : Nat} {finalizers : Finalizers}
    {marked : List Nat} {node : HeapNode} (hn : node ∈ s.heap)
    (h : s.finalizeNode t finalizers marked node = .ok s') : Changes s s' := by
  unfold finalizeNode at h
  split at h
  · cases h
    exact .refl
  · rename_i hpending
    split at h
    · cases h
      exact .single (updateNode_change (keeps_flags fun _ _ => rfl))
    · simp only [bind_eq_ok, pure_eq_ok, fatalRaise_eq_ok] at h
      obtain ⟨s₁, hmutate, rfl⟩ := h
      have halive : node.destroyed = false := by simpa using fun hd => hpending (Or.inr hd)
      have hafter := mutateAll_changes hmutate
      exact .head (callFinalizer_change hn halive)
        (hafter.trans (finalizerReturn_changes s₁ t node.serial))

theorem finalizePass_changes {s s' : State} {t : Nat} {finalizers : Finalizers}
    {marked serials : List Nat} (h : s.finalizePass t finalizers marked serials = .ok s') :
    Changes s s' := by
  induction serials generalizing s with
  | nil =>
    cases h
    exact .refl
  | cons serial rest ih =>
    simp only [finalizePass, bind_eq_ok, require_eq_ok] at h
    obtain ⟨node, hnode, s₁, hs₁, hrest⟩ := h
    exact (finalizeNode_changes (node_some hnode).1 hs₁).trans (ih hrest)

theorem destroyed_updateNode {s : State} {serial : Nat} {f : HeapNode → HeapNode}
    (hd : ∀ node, (f node).destroyed = true) {node : HeapNode}
    (hn : node ∈ (s.updateNode serial f).heap) (hserial : node.serial = serial) :
    node.destroyed = true := by
  obtain ⟨origin, _, rfl⟩ := mem_updateNode.mp hn
  by_cases hsame : origin.serial = serial
  · rw [if_pos hsame]
    exact hd origin
  · rw [if_neg hsame] at hserial
    exact absurd hserial hsame

theorem Persists.destroyed {s s' : State} (h : Persists s s')
    {serial : Nat} (hserial : serial < s.nextSerial)
    (hd : ∀ node ∈ s.heap, node.serial = serial → node.destroyed = true) {node' : HeapNode}
    (hn : node' ∈ s'.heap) (heq : node'.serial = serial) : node'.destroyed = true := by
  obtain ⟨node, hnode, hsame, hkeep⟩ := h.2 node' hn (heq ▸ hserial)
  exact hkeep (hd node hnode (hsame.trans heq))

theorem finalizeNode_destroys {s s' : State} {t : Nat} {finalizers : Finalizers}
    {marked : List Nat} {node : HeapNode} (hs : s.WellFormed) (hn : node ∈ s.heap)
    (hmarked : node.serial ∉ marked)
    (h : s.finalizeNode t finalizers marked node = .ok s') {node' : HeapNode}
    (hn' : node' ∈ s'.heap) (heq : node'.serial = node.serial) : node'.destroyed = true := by
  have hchanges := finalizeNode_changes hn h
  unfold finalizeNode at h
  split at h
  · rename_i hskip
    refine hchanges.persists.destroyed (hs.fresh _ (mem_blocks hn)) ?_ hn' heq
    intro other hother hserial
    rw [hs.eq_of_serial hother hn hserial]
    exact hskip.resolve_left hmarked
  · split at h
    · cases h
      exact destroyed_updateNode (fun _ => rfl) hn' heq
    · simp only [bind_eq_ok, pure_eq_ok, fatalRaise_eq_ok] at h
      obtain ⟨s₁, hmutate, rfl⟩ := h
      have hlater := Changes.persists ((mutateAll_changes hmutate).trans
        (finalizerReturn_changes s₁ t node.serial))
      have hless : node.serial < s.nextSerial := hs.fresh _ (mem_blocks hn)
      obtain ⟨origin, horigin, hsame, hkeep⟩ := hlater.2 node' hn' (heq.trans_lt hless)
      exact hkeep (destroyed_updateNode (fun _ => rfl) horigin
        (hsame.trans heq))

theorem finalizePass_destroys {s s' : State} {t : Nat} {finalizers : Finalizers}
    {marked serials : List Nat} (hs : s.WellFormed)
    (h : s.finalizePass t finalizers marked serials = .ok s') {serial : Nat}
    (hserial : serial ∈ serials) (hmarked : serial ∉ marked) {node' : HeapNode}
    (hn' : node' ∈ s'.heap) (heq : node'.serial = serial) : node'.destroyed = true := by
  induction serials generalizing s with
  | nil => simp at hserial
  | cons first rest ih =>
    simp only [finalizePass, bind_eq_ok, require_eq_ok] at h
    obtain ⟨node, hnode, s₁, hs₁, hrest⟩ := h
    obtain ⟨hmem, hfirst⟩ := node_some hnode
    have hchanges := finalizeNode_changes hmem hs₁
    have hwf := hs.changes hchanges
    rcases List.mem_cons.mp hserial with rfl | hin
    · have hless : serial < s₁.nextSerial :=
        lt_of_lt_of_le (hfirst ▸ hs.fresh _ (mem_blocks hmem)) hchanges.persists.1
      refine (finalizePass_changes hrest).persists.destroyed hless ?_ hn' heq
      intro other hother hother'
      exact finalizeNode_destroys hs hmem (hfirst ▸ hmarked) hs₁ hother
        (hother'.trans hfirst.symm)
    · exact ih hwf hrest hin

/-! ## A collection -/

theorem gcFinalized_spec {s m : State} {t : Nat} {finalizers : Finalizers}
    (h : s.gcFinalized t finalizers = .ok m) :
    (s.setCollecting t true).finalizePass t finalizers (s.setCollecting t true).mark.marked
        (s.heap.map HeapNode.serial) = .ok m ∧ Changes s m := by
  simp only [gcFinalized, bind_eq_ok] at h
  obtain ⟨_, _, _, _, hpass⟩ := h
  exact ⟨hpass, .head (setCollecting_change s t true) (finalizePass_changes hpass)⟩

theorem gcCollect_spec {s s' : State} {t : Nat} {finalizers : Finalizers}
    (h : s.gcCollect t finalizers = .ok s') :
    ∃ m, s.gcFinalized t finalizers = .ok m ∧
      s' = (m.sweep m.mark.marked).setCollecting t false := by
  simp only [gcCollect, bind_eq_ok, pure_eq_ok] at h
  obtain ⟨m, hm, rfl⟩ := h
  exact ⟨m, hm, rfl⟩

theorem mem_gcCollect_iff {m : State} (hm : m.WellFormed) {t : Nat} {node : HeapNode} :
    node ∈ ((m.sweep m.mark.marked).setCollecting t false).heap ↔
      node ∈ m.heap ∧ m.Live node := by
  have hheap : ((m.sweep m.mark.marked).setCollecting t false).heap
      = (m.sweep m.mark.marked).heap := rfl
  rw [hheap, mem_sweep]
  exact and_congr_right fun hn => hm.mem_mark_iff hn

theorem Live.sweep {m : State} (hm : m.WellFormed) {t : Nat} {node : HeapNode}
    (h : m.Live node) : ((m.sweep m.mark.marked).setCollecting t false).Live node := by
  have hroots : ((m.sweep m.mark.marked).setCollecting t false).rootReferences
      = m.rootReferences := rootReferences_setCollecting _ t false
  induction h with
  | root hroot hnode hin =>
    exact .root (hroots ▸ hroot)
      ((mem_gcCollect_iff hm).mpr ⟨hnode, .root hroot hnode hin⟩) hin
  | field hholder hfield hnode hin ih =>
    exact .field ih hfield
      ((mem_gcCollect_iff hm).mpr ⟨hnode, .field hholder hfield hnode hin⟩) hin

theorem gcCollect_keeps {s s' : State} {t : Nat} {finalizers : Finalizers} (hs : s.WellFormed)
    (h : s.gcCollect t finalizers = .ok s') : s'.WellFormed ∧ Persists s s' := by
  obtain ⟨m, hm, rfl⟩ := gcCollect_spec h
  obtain ⟨_, hchanges⟩ := gcFinalized_spec hm
  have hwf := hs.changes hchanges
  have hlast := setCollecting_change (m.sweep m.mark.marked) t false
  exact ⟨(hwf.sweep _).change hlast,
    (hchanges.persists.trans (persists_sweep m _)).trans hlast.persists⟩

/-! ## Every step keeps the invariant -/

theorem gcAllocate_keeps {s s' : State} {t address : Nat} {finalizers : Finalizers}
    {payload : Payload} (hs : s.WellFormed)
    (h : s.gcAllocate t finalizers payload address = .ok s') :
    s'.WellFormed ∧ Persists s s' := by
  simp only [gcAllocate, bind_eq_ok, pure_eq_ok, ensure_eq_ok] at h
  obtain ⟨s₁, hcollect, _, hmalloc, rfl⟩ := h
  obtain ⟨hwf, hpersists⟩ := gcCollect_keeps hs hcollect
  exact ⟨hwf.link hmalloc, hpersists.trans (persists_link s₁ payload address)⟩

theorem unwindDestroys_spec {s : State} {saved : Option Nat} {stack : List Nat}
    {result : List Nat × State} (h : s.unwindDestroys saved stack = .ok result) :
    Changes s result.2 ∧ result.2.exceptionFrames = s.exceptionFrames := by
  induction stack generalizing s with
  | nil =>
    unfold unwindDestroys at h
    split at h
    · cases h
      exact ⟨.refl, rfl⟩
    · cases h
  | cons serial rest ih =>
    unfold unwindDestroys at h
    split at h
    · cases h
      exact ⟨.refl, rfl⟩
    · simp only [bind_eq_ok] at h
      obtain ⟨_, _, hrest⟩ := h
      obtain ⟨hchanges, hframes⟩ := ih hrest
      exact ⟨.head (updateNode_change (keeps_flags fun _ hd => hd)) hchanges, hframes⟩

/-- Unwinding flags the objects under construction and moves none. -/
theorem unwindConstructions_spec {s : State} {saved : Option Nat} {stack : List Nat}
    {result : List Nat × State} (h : s.unwindConstructions saved stack = .ok result) :
    Changes s result.2 ∧ result.2.exceptionFrames = s.exceptionFrames := by
  induction stack generalizing s with
  | nil =>
    unfold unwindConstructions at h
    split at h
    · cases h
      exact ⟨.refl, rfl⟩
    · cases h
  | cons serial rest ih =>
    unfold unwindConstructions at h
    split at h
    · cases h
      exact ⟨.refl, rfl⟩
    · simp only [bind_eq_ok, require_eq_ok] at h
      obtain ⟨node, hnode, hrest⟩ := h
      obtain ⟨hmem, hserial⟩ := node_some hnode
      obtain ⟨hchanges, hframes⟩ := ih hrest
      refine ⟨.head ?_ hchanges, hframes⟩
      subst hserial
      refine ⟨.event (.failedConstruction node.serial) node _ hmem rfl ?_
        (keeps_flags fun _ _ => rfl) (fun _ => rfl) rfl rfl, rfl, rfl⟩
      intro hruns
      cases hruns

theorem raiseException_spec {s s' : State} {t object : Nat}
    (h : s.raiseException t object = .ok s') :
    Changes s s' ∧ ∃ thread address, s.thread t = some thread ∧
      thread.activeException.head? = some address ∧
      s'.exceptionFrames = Function.update s.exceptionFrames address
        { s.exceptionFrames address with exceptionObject := object, hasException := true } := by
  simp only [raiseException, bind_eq_ok, pure_eq_ok, require_eq_ok, requireThread] at h
  obtain ⟨thread, hthread, _, _, address, haddress, _, _, destroys, hdestroys, constructions,
    hconstructions, rfl⟩ := h
  obtain ⟨hdestroyed, hframes⟩ := unwindDestroys_spec hdestroys
  obtain ⟨hconstructed, hframes'⟩ := unwindConstructions_spec hconstructions
  have hframe : Change s (s.setFrame address
      { s.exceptionFrames address with exceptionObject := object, hasException := true }) :=
    .of_eq rfl rfl rfl rfl
  refine ⟨.tail (.head hframe (hdestroyed.trans hconstructed)) (.of_eq rfl rfl rfl rfl),
    thread, address, hthread, haddress, ?_⟩
  exact hframes'.trans hframes

theorem raiseException_changes {s s' : State} {t object : Nat}
    (h : s.raiseException t object = .ok s') : Changes s s' :=
  (raiseException_spec h).1

theorem Changes.keeps {s s' : State} (hs : s.WellFormed) (h : Changes s s') :
    s'.WellFormed ∧ Persists s s' :=
  ⟨hs.changes h, h.persists⟩

/-- Every step keeps the heap well formed and brings no object back. -/
theorem step_keeps {s s' : State} {action : Action} (hs : s.WellFormed)
    (h : s.step action = .ok s') : s'.WellFormed ∧ Persists s s' := by
  cases action with
  | mutate mutation => exact Changes.keeps hs (.single (mutate_change h))
  | collect t finalizers => exact gcCollect_keeps hs h
  | alloc t finalizers metadata address =>
    simp only [step, gcAlloc] at h
    split at h
    · exact gcAllocate_keeps hs h
    · cases h
  | allocBuffer t finalizers address => exact gcAllocate_keeps hs h
  | allocArray t finalizers length address =>
    simp only [step, gcAllocArray, bind_eq_ok] at h
    obtain ⟨_, _, halloc⟩ := h
    exact gcAllocate_keeps hs halloc
  | allocMap t finalizers address => exact gcAllocate_keeps hs h
  | raise t object => exact Changes.keeps hs (raiseException_changes h)
  | threadEnter t =>
    simp only [step, threadEnter, bind_eq_ok, pure_eq_ok] at h
    obtain ⟨_, _, rfl⟩ := h
    exact Changes.keeps hs (.single (.of_eq rfl rfl rfl rfl))
  | threadExit t =>
    simp only [step, threadExit, bind_eq_ok, pure_eq_ok] at h
    obtain ⟨_, _, _, _, _, _, rfl⟩ := h
    exact Changes.keeps hs (.single (.of_eq rfl rfl rfl rfl))

/-- The heap is well formed after every run. -/
theorem wellFormed_of_reachable {s : State} (h : machine.Reachable s) : s.WellFormed := by
  refine h.invariant ?_ ?_
  · rintro _ rfl
    exact .initial
  · intro s action s' hs hstep
    exact (step_keeps hs hstep).1

/-- Along a run objects come and go, and a destroyed one stays destroyed. -/
theorem persists_of_run {s s' : State} (hs : s.WellFormed) (h : machine.Run s s') :
    Persists s s' :=
  h.monotone (fun _ _ _ hi hstep => (step_keeps hi hstep).1) Persists.refl
    (fun _ _ _ => Persists.trans) (fun _ _ _ hi hstep => (step_keeps hi hstep).2) hs

/-! ## The collector is safe over whole runs -/

/-- What a collection from `s`, in state `m` once its finalizers have run, has
    done when it ends in `s'`. -/
structure CollectionSafe (s m s' : State) (t : Nat) : Prop where
  /-- The finalizers free nothing and allocate nothing. -/
  blocks : m.blocks = s.blocks
  /-- The sweep frees the unreachable objects and no others. -/
  kept : ∀ node, node ∈ s'.heap ↔ node ∈ m.heap ∧ m.Live node
  /-- Every object that is left can be reached. -/
  live : ∀ node ∈ s'.heap, s'.Live node
  /-- An object that only a finalizer saved stays destroyed from then on. -/
  resurrected : ∀ node ∈ s.heap, ¬ s.Live node → ∀ later, machine.Run s' later →
    ∀ node' ∈ later.heap, node'.serial = node.serial → node'.destroyed = true
  /-- Neither marking pass outgrows the worklist. -/
  worklist : (s.setCollecting t true).mark.peak ≤ s.objectCount ∧
    m.mark.peak ≤ s.objectCount

/-- One collection frees what is unreachable and nothing else. -/
theorem gcCollect_collectionSafe {s m s' : State} {t : Nat} {finalizers : Finalizers}
    (hs : s.WellFormed) (hm : s.gcFinalized t finalizers = .ok m)
    (h : s.gcCollect t finalizers = .ok s') : CollectionSafe s m s' t := by
  obtain ⟨m', hm', hs'⟩ := gcCollect_spec h
  obtain rfl : m = m' := Except.ok.inj (hm.symm.trans hm')
  obtain ⟨hpass, hchanges⟩ := gcFinalized_spec hm
  have hstart : (s.setCollecting t true).WellFormed := hs.change (setCollecting_change s t true)
  have hmwf := hs.changes hchanges
  have hcount : m.objectCount = s.objectCount := by
    rw [hmwf.count, hs.count, hchanges.blocks_eq]
  have hlast : Persists m s' := by
    rw [hs']
    exact (persists_sweep m _).trans (setCollecting_change _ t false).persists
  have hswf := (gcCollect_keeps hs h).1
  refine ⟨hchanges.blocks_eq, ?_, ?_, ?_, hstart.mark_peak_le, hcount ▸ hmwf.mark_peak_le⟩
  · intro node
    rw [hs']
    exact mem_gcCollect_iff hmwf
  · intro node hnode
    rw [hs'] at hnode ⊢
    exact ((mem_gcCollect_iff hmwf).mp hnode).2.sweep hmwf
  · intro node hnode hdead later hrun node' hnode' hserial
    have hunmarked : node.serial ∉ (s.setCollecting t true).mark.marked := by
      intro hmarked
      exact hdead (live_setCollecting.mp ((hstart.mem_mark_iff hnode).mp hmarked))
    have hless : node.serial < m.nextSerial :=
      lt_of_lt_of_le (hs.fresh _ (mem_blocks hnode)) hchanges.persists.1
    refine (hlast.trans (persists_of_run hswf hrun)).destroyed hless ?_ hnode' hserial
    intro other hother hsame
    exact finalizePass_destroys hstart hpass (List.mem_map_of_mem hnode) hunmarked hother hsame

/-- A class of one reference field at offset 8 and a finalizer. -/
def nodeMeta : ClassMeta := ⟨"Node", 16, [8], [], true⟩

/-- Thread 1 keeps one object in a root slot and drops a second one. -/
def resurrectionRun : List Action :=
  [.threadEnter 1, .alloc 1 (fun _ => []) nodeMeta 16,
    .mutate (.gcPush 1 ⟨1024, [⟨16, none⟩]⟩), .alloc 1 (fun _ => []) nodeMeta 32]

/-- The finalizer of the second object stores it in the first. -/
def resurrect : Finalizers :=
  fun _ => [.storeObject 0 (fun offset => if offset = 8 then 32 else 0)]

end State

end Cwhip.Runtime
