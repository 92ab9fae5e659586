/-
  Cwhip.Runtime.GrowableStorageRuns

  Any sequence of operations on lists, buffers and the bytes of Strings.

  A slice is two turns: its bounds are computed first, and its bytes are copied when
  its object has been allocated.  The collection of garbage in between may run
  destructors, and these may use the buffer.
-/

import Mathlib.Data.List.Forall2
import Cwhip.Runtime.GrowableStorageSound

namespace Cwhip.Runtime

open Cwhip.Lib Cwhip.Lib.BlockArray

-- ============================================================================
-- Operations
-- ============================================================================

/-- A slice whose object is being allocated. -/
structure PendingSlice where
  source : Nat
  first : Nat
  count : Nat
  deriving DecidableEq

/-- The bounds of `cwhip_buffer_slice_ex`; one that is not given is `none`. -/
def beginSlice (source : Nat) (start stop : Option Int64) (length : Nat) : PendingSlice :=
  let first := normalizeSliceBound (start.map Int64.toInt) length 1 true
  let last := normalizeSliceBound (stop.map Int64.toInt) length 1 false
  ⟨source, first.toNat, if first < last then (last - first).toNat else 0⟩

theorem beginSlice_fits (source : Nat) (start stop : Option Int64) (length : Nat) :
    (beginSlice source start stop length).first + (beginSlice source start stop length).count ≤
    length := by
  have hfirst := normalizeSliceBound_forward (start.map Int64.toInt) length Int.one_pos true
  have hlast := normalizeSliceBound_forward (stop.map Int64.toInt) length Int.one_pos false
  unfold beginSlice
  dsimp only
  split <;> omega

/-- Lists, buffers (those of Strings too) and slices, by when they were made. -/
structure Collections where
  lists : List (BlockArray ArrayValue)
  buffers : List (BlockArray UInt8)
  slices : List PendingSlice

def Collections.empty : Collections := ⟨[], [], []⟩

inductive CollectionAction where
  | newList
  | resizeList (list : Nat) (length : Int64)
  | appendList (list : Nat) (value : ArrayValue)
  | newBuffer (length : Int64)
  | resizeBuffer (buffer : Nat) (length : Int64)
  | clearBuffer (buffer : Nat)
  | appendBuffer (buffer : Nat) (value : UInt64)
  | setBuffer (buffer : Nat) (index : Int64) (value : UInt64)
  | insert (buffer : Nat) (index : Int64) (other : Bytes)
  | removeRange (buffer : Nat) (first last : Int64)
  | beginSlice (buffer : Nat) (start stop : Option Int64)
  | endSlice (slice : Nat)

/-- An operation, and the sizes there is memory for while it runs. -/
structure CollectionTurn where
  action : CollectionAction
  available : Nat → Bool

/-- An operation on one of the arrays. -/
def atEntry {α : Type} (entries : List (BlockArray α)) (entry : Nat) (op : BlockM α Unit) :
    EStateM.Result BlockStop (List (BlockArray α)) Unit :=
  match entries[entry]? with
  | none => .ok () entries
  | some s =>
    match op s with
    | .ok _ s' => .ok () (entries.set entry s')
    | .error stop s' => .error stop (entries.set entry s')

def Collections.withLists (store : Collections) :
    EStateM.Result BlockStop (List (BlockArray ArrayValue)) Unit →
    EStateM.Result BlockStop Collections Unit
  | .ok _ lists => .ok () { store with lists }
  | .error stop lists => .error stop { store with lists }

def Collections.withBuffers (store : Collections) :
    EStateM.Result BlockStop (List (BlockArray UInt8)) Unit →
    EStateM.Result BlockStop Collections Unit
  | .ok _ buffers => .ok () { store with buffers }
  | .error stop buffers => .error stop { store with buffers }

def sliceCopy (bytes : Bytes) : BlockArray UInt8 := ⟨bytes.map some, bytes.length, bytes.length⟩

def Collections.step (store : Collections) (turn : CollectionTurn) :
    EStateM.Result BlockStop Collections Unit :=
  match turn.action with
  | .newList => .ok () { store with lists := store.lists ++ [.empty] }
  | .resizeList list length =>
    store.withLists (atEntry store.lists list (arrayResize turn.available length))
  | .appendList list value =>
    store.withLists (atEntry store.lists list (arrayAppend turn.available value))
  | .newBuffer length =>
    match bufferNew turn.available length .empty with
    | .ok _ s => .ok () { store with buffers := store.buffers ++ [s] }
    | .error stop _ => .error stop store
  | .resizeBuffer buffer length =>
    store.withBuffers (atEntry store.buffers buffer (bufferResize turn.available length))
  | .clearBuffer buffer =>
    store.withBuffers (atEntry store.buffers buffer (bufferClear turn.available))
  | .appendBuffer buffer value =>
    store.withBuffers (atEntry store.buffers buffer (bufferAppend turn.available value))
  | .setBuffer buffer index value =>
    store.withBuffers (atEntry store.buffers buffer (bufferSet index value))
  | .insert buffer index other =>
    store.withBuffers (atEntry store.buffers buffer (stringInsert turn.available index other))
  | .removeRange buffer first last =>
    store.withBuffers (atEntry store.buffers buffer (stringRemoveRange first last))
  | .beginSlice buffer start stop =>
    match store.buffers[buffer]? with
    | none => .ok () store
    | some s =>
      .ok () { store with slices := store.slices ++ [beginSlice buffer start stop s.length] }
  | .endSlice slice =>
    match store.slices[slice]? with
    | none => .ok () store
    | some pending =>
      match store.buffers[pending.source]? with
      | none => .ok () store
      | some s =>
        match bufferSliced turn.available pending.first pending.count s with
        | .ok bytes _ =>
          .ok () { store with
            buffers := store.buffers ++ [sliceCopy bytes], slices := store.slices.eraseIdx slice }
        | .error stop _ => .error stop store

/-- A program goes on after an exception. -/
def Collections.run : Collections → List CollectionTurn → EStateM.Result BlockStop Collections Unit
  | store, [] => .ok () store
  | store, turn :: turns =>
    match store.step turn with
    | .ok _ store' => store'.run turns
    | .error (.raised _) store' => store'.run turns
    | .error stop store' => .error stop store'

-- ============================================================================
-- What the operations mean
-- ============================================================================

/-- The values of the collections. -/
structure Contents where
  lists : List (List ArrayValue)
  buffers : List Bytes
  slices : List PendingSlice

def Contents.empty : Contents := ⟨[], [], []⟩

/-- A value is replaced, unless the operation raises. -/
def changeEntry {α : Type} (values : List (List α)) (entry : Nat) (op : List α → Outcome (List α)) :
    List (List α) :=
  match values[entry]? with
  | none => values
  | some value =>
    match op value with
    | .returned value' => values.set entry value'
    | .raised _ => values

/-- A slice has the elements between its bounds, unless a destructor shortened the
    buffer in between; then it only has their number. -/
def SliceOf (pending : PendingSlice) (value bytes : Bytes) : Prop :=
  bytes.length = pending.count ∧
    (pending.first + pending.count ≤ value.length →
      bytes = (value.drop pending.first).take pending.count)

def Contents.Next (contents : Contents) (action : CollectionAction) (contents' : Contents) : Prop :=
  match action with
  | .newList => contents' = { contents with lists := contents.lists ++ [[]] }
  | .resizeList list length =>
    contents' = { contents with lists := changeEntry contents.lists list (resizedList length) }
  | .appendList list value =>
    contents' = { contents with lists := changeEntry contents.lists list (appendedList value) }
  | .newBuffer length =>
    match resizedBuffer length [] with
    | .returned value => contents' = { contents with buffers := contents.buffers ++ [value] }
    | .raised _ => contents' = contents
  | .resizeBuffer buffer length =>
    contents' = { contents with
      buffers := changeEntry contents.buffers buffer (resizedBuffer length) }
  | .clearBuffer buffer => contents' =
      { contents with buffers := changeEntry contents.buffers buffer fun _ => .returned [] }
  | .appendBuffer buffer value =>
    contents' = { contents with
      buffers := changeEntry contents.buffers buffer (appendedBuffer value) }
  | .setBuffer buffer index value =>
    contents' = { contents with
      buffers := changeEntry contents.buffers buffer (setBuffer index value) }
  | .insert buffer index other =>
    contents' = { contents with
      buffers := changeEntry contents.buffers buffer (insertedString index other) }
  | .removeRange buffer first last =>
    contents' = { contents with
      buffers := changeEntry contents.buffers buffer (removedString first last) }
  | .beginSlice buffer start stop =>
    match contents.buffers[buffer]? with
    | none => contents' = contents
    | some value => contents' =
        { contents with slices := contents.slices ++ [beginSlice buffer start stop value.length] }
  | .endSlice slice =>
    match contents.slices[slice]? with
    | none => contents' = contents
    | some pending => ∃ value bytes, contents.buffers[pending.source]? = some value ∧
        SliceOf pending value bytes ∧
        contents' = { contents with
          buffers := contents.buffers ++ [bytes], slices := contents.slices.eraseIdx slice }

def Contents.Reaches : Contents → List CollectionAction → Contents → Prop
  | contents, [], contents' => contents' = contents
  | contents, action :: actions, contents' =>
    ∃ next, contents.Next action next ∧ next.Reaches actions contents'

-- ============================================================================
-- One operation
-- ============================================================================

/-- The arrays hold the values, and what the slices will copy was written. -/
structure Collections.Represents (store : Collections) (contents : Contents) : Prop where
  lists : List.Forall₂ (Holds arrayLimit) store.lists contents.lists
  buffers : List.Forall₂ (Holds int64Max) store.buffers contents.buffers
  slices : contents.slices = store.slices
  written : ∀ pending ∈ store.slices, ∃ s, store.buffers[pending.source]? = some s ∧
    s.Written (pending.first + pending.count)

variable {α : Type} {store : Collections} {contents : Contents}

variable {β : Type} {xs : List α} {limit : Nat} {entries : List (BlockArray α)}
  {values : List (List α)} {turn : CollectionTurn}

theorem forall₂_getElem? {R : α → β → Prop} {ys : List β} (h : List.Forall₂ R xs ys) (index : Nat) :
    (xs[index]? = none ∧ ys[index]? = none) ∨ ∃ x y, xs[index]? = some x ∧ ys[index]? = some y ∧
    R x y := by
  induction h generalizing index with
  | nil => exact .inl ⟨rfl, rfl⟩
  | cons hxy _ ih =>
    cases index with
    | zero => exact .inr ⟨_, _, rfl, rfl, hxy⟩
    | succ index =>
      simp only [List.getElem?_cons_succ]
      exact ih index

theorem forall₂_set {R : α → β → Prop} {ys : List β} (h : List.Forall₂ R xs ys) {x : α} {y : β}
    (hxy : R x y) (index : Nat) : List.Forall₂ R (xs.set index x) (ys.set index y) := by
  induction h generalizing index with
  | nil => exact .nil
  | cons hhead htail ih =>
    cases index with
    | zero => exact .cons hxy htail
    | succ index => exact .cons hhead (ih index)

theorem forall₂_fits (h : List.Forall₂ (Holds limit) entries values) {s : BlockArray α}
    (hs : s ∈ entries) : s.length ≤ s.capacity := by
  obtain ⟨index, hindex⟩ := List.mem_iff_getElem?.mp hs
  rcases forall₂_getElem? h index with ⟨hnone, -⟩ | ⟨s', value, hs', -, hholds⟩
  · rw [hnone] at hindex
    cases hindex
  · obtain rfl : s' = s := Option.some_inj.mp (hs'.symm.trans hindex)
    exact hholds.fits

theorem atEntry_performs {available : Nat → Bool} (h : List.Forall₂ (Holds limit) entries values)
    (entry : Nat) {op : BlockM α Unit} {outcome : List α → Outcome (List α)}
    (hop : ∀ s value, s.Holds limit value → Performs limit available (op s) s (outcome value)) :
    (∃ entries', atEntry entries entry op = .ok () entries' ∧
      List.Forall₂ (Holds limit) entries' (changeEntry values entry outcome) ∧
      ∀ (other : Nat) (s : BlockArray α) (count : Nat), entries[other]? = some s → s.Written count →
        ∃ s' : BlockArray α, entries'[other]? = some s' ∧ s'.Written count) ∨
    (∃ message, atEntry entries entry op = .error (.raised message) entries ∧
    changeEntry values entry outcome = values) ∨
    ∃ entries' bytes, atEntry entries entry op = .error .aborted entries' ∧
    available bytes = false := by
  unfold atEntry changeEntry
  rcases forall₂_getElem? h entry with ⟨hnone, hnone'⟩ | ⟨s, value, hs, hvalue, hholds⟩
  · rw [hnone, hnone']
    exact .inl ⟨entries, rfl, h, fun _ s _ hs hcount => ⟨s, hs, hcount⟩⟩
  · rw [hs, hvalue]
    dsimp only
    rcases (hop s value hholds).ends with ⟨s', value', hrun, houtcome, hholds', hkept⟩ | ⟨message,
      hrun, houtcome⟩ | ⟨s', bytes, hrun, hbytes⟩
    · rw [hrun, houtcome]
      refine .inl ⟨_, rfl, forall₂_set h hholds' entry, ?_⟩
      intro other s₁ count hs₁ hcount
      rw [List.getElem?_set]
      split
      · rename_i hsame
        subst hsame
        obtain rfl : s = s₁ := Option.some_inj.mp (hs.symm.trans hs₁)
        rw [if_pos (List.getElem?_eq_some_iff.mp hs).1]
        exact ⟨s', rfl, hkept count hcount⟩
      · exact ⟨s₁, hs₁, hcount⟩
    · rw [hrun, houtcome]
      -- an exception leaves the array alone
      have hset : entries.set entry s = entries := by
        obtain ⟨hlt, rfl⟩ := List.getElem?_eq_some_iff.mp hs
        exact List.set_getElem_self hlt
      refine .inr (.inl ⟨message, ?_, rfl⟩)
      show EStateM.Result.error (BlockStop.raised message) (entries.set entry s) = _
      rw [hset]
    · rw [hrun]
      exact .inr (.inr ⟨_, bytes, rfl, hbytes⟩)

/-- What a turn leads to. -/
def StepSound (store : Collections) (contents : Contents) (turn : CollectionTurn) : Prop :=
  match store.step turn with
  | .ok _ store' => ∃ contents', contents.Next turn.action contents' ∧ store'.Represents contents'
  | .error (.raised _) store' => store' = store ∧ contents.Next turn.action contents
  | .error stop _ => stop = .aborted ∧ ∃ bytes, turn.available bytes = false

theorem withLists_sound {store : Collections} {contents : Contents} (h : store.Represents contents)
    {turn : CollectionTurn}
    (list : Nat) {op : BlockM ArrayValue Unit} {outcome : List ArrayValue →
    Outcome (List ArrayValue)}
    (hop : ∀ s value, s.Holds arrayLimit value → Performs arrayLimit turn.available (op s) s
    (outcome value))
    (hstep : store.step turn = store.withLists (atEntry store.lists list op))
    (hnext : ∀ contents', contents.Next turn.action contents' ↔
      contents' = { contents with lists := changeEntry contents.lists list outcome }) :
      StepSound store contents turn := by
  rw [StepSound, hstep]
  rcases atEntry_performs h.lists list hop with ⟨lists, hrun, hholds, -⟩ | ⟨message, hrun,
    hsame⟩ | ⟨lists, bytes, hrun, hbytes⟩
  · rw [hrun]
    exact ⟨_, (hnext _).mpr rfl, hholds, h.buffers, h.slices, h.written⟩
  · rw [hrun]
    refine ⟨rfl, (hnext _).mpr ?_⟩
    rw [hsame]
  · rw [hrun]
    exact ⟨rfl, bytes, hbytes⟩

theorem withBuffers_sound (h : store.Represents contents) (buffer : Nat) {op : BlockM UInt8 Unit}
    {outcome : Bytes → Outcome Bytes}
    (hop : ∀ s value, s.Holds int64Max value → Performs int64Max turn.available (op s) s
    (outcome value))
    (hstep : store.step turn = store.withBuffers (atEntry store.buffers buffer op))
    (hnext : ∀ contents', contents.Next turn.action contents' ↔
      contents' = { contents with buffers := changeEntry contents.buffers buffer outcome }) :
    StepSound store contents turn := by
  rw [StepSound, hstep]
  rcases atEntry_performs h.buffers buffer hop with
    ⟨buffers, hrun, hholds, hkept⟩ | ⟨message, hrun, hsame⟩ | ⟨buffers, bytes, hrun, hbytes⟩
  · rw [hrun]
    refine ⟨_, (hnext _).mpr rfl, h.lists, hholds, h.slices, ?_⟩
    intro pending hpending
    obtain ⟨s, hs, hwritten⟩ := h.written pending hpending
    exact hkept _ s _ hs hwritten
  · rw [hrun]
    refine ⟨rfl, (hnext _).mpr ?_⟩
    rw [hsame]
  · rw [hrun]
    exact ⟨rfl, bytes, hbytes⟩

theorem Collections.Represents.addBuffer (h : store.Represents contents) {s : BlockArray UInt8}
    {value : Bytes} (hs : s.Holds int64Max value) :
    ({ store with buffers := store.buffers ++ [s] } : Collections).Represents
      { contents with buffers := contents.buffers ++ [value] } := by
  refine ⟨h.lists, List.rel_append h.buffers (.cons hs .nil), h.slices, ?_⟩
  intro pending hpending
  obtain ⟨source, hsource, hwritten⟩ := h.written pending hpending
  exact ⟨source, List.getElem?_append_left (List.getElem?_eq_some_iff.mp hsource).1 ▸ hsource,
    hwritten⟩

theorem newBuffer_sound (h : store.Represents contents) (available : Nat → Bool)
    (length : Int64) : StepSound store contents ⟨.newBuffer length, available⟩ := by
  unfold StepSound Collections.step Contents.Next
  dsimp only
  rcases (bufferNew_performs available length).ends with ⟨s, value, hrun, houtcome, hholds,
    -⟩ | ⟨message, hrun, houtcome⟩ |
    ⟨s, bytes, hrun, hbytes⟩
  · rw [hrun, houtcome]
    exact ⟨_, rfl, h.addBuffer hholds⟩
  · rw [hrun, houtcome]
    exact ⟨rfl, rfl⟩
  · rw [hrun]
    exact ⟨rfl, bytes, hbytes⟩

theorem beginSlice_sound (h : store.Represents contents) (available : Nat → Bool) (buffer : Nat)
    (start stop : Option Int64) : StepSound store contents ⟨.beginSlice buffer start stop,
    available⟩ := by
  unfold StepSound Collections.step Contents.Next
  dsimp only
  rcases forall₂_getElem? h.buffers buffer with ⟨hnone, hnone'⟩ | ⟨s, value, hs, hvalue, hholds⟩
  · rw [hnone, hnone']
    exact ⟨_, rfl, h⟩
  · rw [hs, hvalue]
    dsimp only
    rw [hholds.length_eq]
    refine ⟨_, rfl, h.lists, h.buffers, congrArg (· ++ _) h.slices, ?_⟩
    intro pending hpending
    rcases List.mem_append.mp hpending with hbefore | hnew
    · exact h.written pending hbefore
    · rw [List.mem_singleton] at hnew
      subst hnew
      refine ⟨s, hs, hholds.written.le ?_⟩
      rw [hholds.length_eq]
      exact beginSlice_fits buffer start stop value.length

theorem endSlice_sound (h : store.Represents contents) (available : Nat → Bool)
    (slice : Nat) : StepSound store contents ⟨.endSlice slice, available⟩ := by
  unfold StepSound Collections.step Contents.Next
  dsimp only
  rw [h.slices]
  cases hslice : store.slices[slice]? with
  | none => exact ⟨_, rfl, h⟩
  | some pending =>
    dsimp only
    obtain ⟨s, hs, hwritten⟩ := h.written pending (List.mem_of_getElem? hslice)
    rcases forall₂_getElem? h.buffers pending.source with ⟨hnone, -⟩ | ⟨s', value, hs',
      hvalue, hholds⟩
    · rw [hnone] at hs
      cases hs
    · obtain rfl : s' = s := Option.some_inj.mp (hs'.symm.trans hs)
      rw [hs]
      dsimp only
      unfold bufferSliced
      obtain ⟨bytes, hread, hlength⟩ := hwritten.read
      simp only [run_throw_bind, run_ite, hread]
      have hcopied : ∃ contents', (∃ value bytes, contents.buffers[pending.source]? = some value ∧
            SliceOf pending value bytes ∧ contents' = { contents with
              buffers := contents.buffers ++ [bytes], slices := store.slices.eraseIdx slice }) ∧
          ({ store with
            buffers := store.buffers ++ [sliceCopy bytes], slices := store.slices.eraseIdx slice } :
            Collections).Represents contents' := by
        refine ⟨_, ⟨value, bytes, hvalue, ⟨hlength, ?_⟩, rfl⟩, ?_⟩
        · intro hrange
          have hexact := hholds.front.read hrange
          rw [hread] at hexact
          exact (EStateM.Result.ok.inj hexact).1
        · have hbound : bytes.length ≤ int64Max := by
            have hblock := hwritten.length_le
            have hcapacity := hholds.block
            have hlimit := hholds.bounded
            omega
          have hcopy : (sliceCopy bytes).Holds int64Max bytes :=
            ⟨rfl, List.prefix_rfl, List.length_map _, hbound⟩
          obtain ⟨hlists, hbuffers, -, hwritten'⟩ := h.addBuffer hcopy
          exact ⟨hlists, hbuffers, rfl, fun other hother =>
            hwritten' other (List.eraseIdx_subset hother)⟩
      by_cases hnone : pending.count ≠ 0
      · rw [if_pos hnone]
        by_cases hmemory : available pending.count = false
        · rw [if_pos hmemory]
          exact ⟨rfl, _, hmemory⟩
        · rw [if_neg hmemory]
          exact hcopied
      · rw [if_neg hnone]
        exact hcopied

/-- One turn of any operation is sound. -/
theorem step_sound (h : store.Represents contents) (turn : CollectionTurn) :
    StepSound store contents turn := by
  obtain ⟨action, available⟩ := turn
  cases action with
  | newList =>
    exact ⟨_, rfl, List.rel_append h.lists (.cons ⟨rfl, List.nil_prefix, rfl, Nat.zero_le _⟩ .nil),
      h.buffers, h.slices,
      h.written⟩
  | resizeList list length =>
    exact withLists_sound h list (fun _ _ hs => arrayResize_performs available length hs) rfl
      fun _ => Iff.rfl
  | appendList list value =>
    exact withLists_sound h list (fun _ _ hs => arrayAppend_performs available value hs) rfl
      fun _ => Iff.rfl
  | newBuffer length => exact newBuffer_sound h available length
  | resizeBuffer buffer length =>
    exact withBuffers_sound h buffer (fun _ _ hs => bufferResize_performs available length hs) rfl
      fun _ => Iff.rfl
  | clearBuffer buffer =>
    refine withBuffers_sound h buffer (fun _ value hs => ?_) rfl fun _ => Iff.rfl
    have hclear := bufferResize_performs available 0 hs
    have hnone : resizedBuffer 0 value = .returned [] := by
      rw [resizedBuffer, if_neg (by decide), resized, show (0 : Int64).toInt.toNat = 0 by decide,
        List.take_zero,
        Nat.zero_sub, List.replicate_zero, List.append_nil]
    rwa [hnone] at hclear
  | appendBuffer buffer value =>
    exact withBuffers_sound h buffer (fun _ _ hs => bufferAppend_performs available value hs) rfl
      fun _ => Iff.rfl
  | setBuffer buffer index value =>
    exact withBuffers_sound h buffer (fun _ _ hs => bufferSet_performs available index value hs) rfl
      fun _ => Iff.rfl
  | insert buffer index other =>
    exact withBuffers_sound h buffer (fun _ _ hs => stringInsert_performs available index other hs)
      rfl fun _ => Iff.rfl
  | removeRange buffer first last =>
    exact withBuffers_sound h buffer (fun _ _ hs =>
      stringRemoveRange_performs available first last hs) rfl
      fun _ => Iff.rfl
  | beginSlice buffer start stop => exact beginSlice_sound h available buffer start stop
  | endSlice slice => exact endSlice_sound h available slice

-- ============================================================================
-- Any sequence
-- ============================================================================

theorem run_sound (h : store.Represents contents) (turns : List CollectionTurn) :
    match store.run turns with
    | .ok _ store' => ∃ contents', contents.Reaches (turns.map (·.action)) contents' ∧
        store'.Represents contents'
    | .error stop _ => stop = .aborted ∧ ∃ turn ∈ turns, ∃ bytes, turn.available bytes = false := by
  induction turns generalizing store contents with
  | nil => exact ⟨contents, rfl, h⟩
  | cons turn turns ih =>
    have hstep := step_sound h turn
    -- what the rest of the turns does, after this one
    have hrest {store' : Collections} {next : Contents} (hnext : contents.Next turn.action next)
        (h' : store'.Represents next) :
        match store'.run turns with
        | .ok _ store'' =>
          ∃ contents', contents.Reaches ((turn :: turns).map (·.action)) contents' ∧
            store''.Represents contents'
        | .error stop _ =>
          stop = .aborted ∧ ∃ turn' ∈ turn :: turns, ∃ bytes, turn'.available bytes = false := by
      have hrun := ih h'
      split at hrun
      · obtain ⟨contents', hreaches, hrepresents⟩ := hrun
        exact ⟨contents', ⟨next, hnext, hreaches⟩, hrepresents⟩
      · obtain ⟨hstop, turn', hturn', hbytes⟩ := hrun
        exact ⟨hstop, turn', List.mem_cons_of_mem turn hturn', hbytes⟩
    unfold StepSound at hstep
    rw [Collections.run]
    split at hstep
    · rename_i store' hok
      obtain ⟨next, hnext, h'⟩ := hstep
      exact hrest hnext h'
    · rename_i message store' hraised
      obtain ⟨rfl, hnext⟩ := hstep
      exact hrest hnext h
    · rename_i stop store' hnot hstopped
      obtain ⟨rfl, hbytes⟩ := hstep
      exact ⟨rfl, turn, List.mem_cons_self, hbytes⟩

theorem empty_represents : Collections.empty.Represents Contents.empty :=
  ⟨.nil, .nil, rfl, fun _ hpending => (List.not_mem_nil hpending).elim⟩

/-- Growable storage, over any sequence of operations: every array is as long as its
    value, which lies in front of a block of its capacity; what an operation makes of
    the values is `Contents.Next`; an operation that raises leaves everything as it
    was, and only memory that is refused stops the program.  The capacity loops end,
    with what they would compute without a bound on the integers. -/
theorem growable_storage (turns : List CollectionTurn) :
    (match Collections.empty.run turns with
    | .ok _ store =>
      ∃ contents, Contents.empty.Reaches (turns.map (·.action)) contents ∧
        store.Represents contents ∧
        (∀ list ∈ store.lists, list.length ≤ list.capacity) ∧
          (∀ buffer ∈ store.buffers, buffer.length ≤ buffer.capacity) ∧
        ∀ turn message store', store.step turn = .error (.raised message) store' → store' = store
    | .error stop _ => stop = .aborted ∧ ∃ turn ∈ turns, ∃ bytes, turn.available bytes = false) ∧
    (∀ capacity requested, capacity ≤ arrayLimit → requested ≤ arrayLimit →
      arrayCapacity doubled capacity requested = arrayCapacity (· * 2) capacity requested ∧
        ∃ result, arrayCapacity doubled capacity requested = some result ∧ requested ≤ result ∧
          result ≤ arrayLimit) ∧
    ∀ capacity requested, capacity ≤ int64Max → requested ≤ int64Max →
      bufferCapacity doubled capacity requested = bufferCapacity (· * 2) capacity requested ∧
        ∃ result, bufferCapacity doubled capacity requested = some result ∧ requested ≤ result ∧
            result ≤ int64Max := by
  refine ⟨?_, fun capacity requested hcapacity hrequested => ?_,
    fun capacity requested hcapacity hrequested => ?_⟩
  · have hrun := run_sound empty_represents turns
    split at hrun
    · rename_i store _
      obtain ⟨contents, hreaches, h⟩ := hrun
      refine ⟨contents, hreaches, h, ?_, ?_, ?_⟩
      · intro list hlist
        exact forall₂_fits h.lists hlist
      · intro buffer hbuffer
        exact forall₂_fits h.buffers hbuffer
      · intro turn message store' hraised
        have hstep := step_sound h turn
        rw [StepSound, hraised] at hstep
        exact hstep.1
    · exact hrun
  · obtain ⟨hexact, result, hresult, henough, hlimit, -⟩ := arrayCapacity_ends hcapacity hrequested
    exact ⟨hexact, result, hresult, henough, hlimit⟩
  · obtain ⟨hexact, result, hresult, henough, hlimit, -⟩ := bufferCapacity_ends hcapacity hrequested
    exact ⟨hexact, result, hresult, henough, hlimit⟩

end Cwhip.Runtime
