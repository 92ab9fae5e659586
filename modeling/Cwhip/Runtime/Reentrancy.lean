/-
  Cwhip.Runtime.Reentrancy

  Which of the runtime's allocating operations survive the finalizers their
  own allocations run: they touch no memory outside a live allocation, and end
  as the operation does on one value that the receiver had during the call.
-/

import Cwhip.Runtime.DictSlice
import Cwhip.Runtime.StringSearch

namespace Cwhip.Runtime

open Cwhip.Lib

/-- A run of an operation stays inside live allocations and ends as the
    operation can on one value. -/
def Survives {α : Type} (run : Except NativeFault α) (outcomes : Except NativeFault α → Prop) :
    Prop :=
  (∀ fault, run = .error fault → fault.isMemory = false) ∧ outcomes run

/-- An operation on a value has no memory to leave. -/
def Clean {α : Type} (spec : Except NativeFault α) : Prop :=
  ∀ fault, spec = .error fault → fault.isMemory = false

variable {α β : Type}

theorem survives_iff {run : Except NativeFault α} {outcomes : Except NativeFault α → Prop}
    (houtcomes : ∀ outcome, outcomes outcome → Clean outcome) : Survives run outcomes ↔
    outcomes run := by
  constructor
  · exact fun h => h.2
  · exact fun h => ⟨houtcomes run h, h⟩

/-! ## Operations on values -/

theorem Clean.ok (a : α) : Clean (.ok a) := fun _ h => nomatch h

theorem Clean.bind {x : Except NativeFault α} {f : α → Except NativeFault β} (hx : Clean x)
    (hf : ∀ a, Clean (f a)) : Clean (x >>= f) := by
  cases x with
  | error fault =>
    intro fault' h
    cases h
    exact hx fault rfl
  | ok a => exact hf a

theorem Clean.ensure (c : Prop) [Decidable c] (message : String) :
    Clean (Lib.ensure c (.raises message)) := by
  intro fault h
  unfold Lib.ensure at h
  split at h
  · cases h
  · cases h
    rfl

theorem Clean.mapM {f : α → Except NativeFault β} (hf : ∀ a, Clean (f a))
    (l : List α) : Clean (l.mapM f) := by
  induction l with
  | nil => exact Clean.ok []
  | cons a rest ih =>
    rw [List.mapM_cons]
    exact (hf a).bind fun b => ih.bind fun bs => Clean.ok (b :: bs)

theorem newSpec_clean (bytes : Bytes) : Clean (newSpec bytes) :=
  (Clean.ensure _ _).bind fun _ => (Clean.ensure _ _).bind fun _ => Clean.ok bytes

theorem sliceSpec_clean (value : Bytes) (first last : Int) : Clean (sliceSpec value first last) :=
  (Clean.ensure _ _).bind fun _ => newSpec_clean _

theorem trimSpec_clean (value : Bytes) : Clean (trimSpec value) := newSpec_clean _

theorem replaceSpec_clean (value target replacement : Bytes) :
    Clean (replaceSpec value target replacement) :=
  (Clean.ensure _ _).bind fun _ => newSpec_clean _

theorem splitSpec_clean (value separator : Bytes) : Clean (splitSpec value separator) :=
  (Clean.ensure _ _).bind fun _ => (Clean.ensure _ _).bind fun _ =>
    (Clean.mapM newSpec_clean _).bind fun _ => Clean.ok _

theorem listSliceSpec_clean (value : List α) (start stop : Option Int) (step : Int) :
    Clean (listSliceSpec value start stop step) :=
  (Clean.ensure _ _).bind fun _ => (Clean.ensure _ _).bind fun _ => Clean.ok _

/-! ## Strings -/

variable {finalizers : StringFinalizers} {s : StringState}

/-- What the operation can come to on the values that the receiver has up to this many
    collections. -/
def OnReceiver (finalizers : StringFinalizers) (s : StringState) (collections : Nat)
    (spec : Bytes → Except NativeFault α) (outcome : Except NativeFault α) : Prop :=
  ∃ moment ≤ collections, outcome = spec (s.after finalizers moment).strings.receiver.value

/-- A String range that is copied stays in its block until both collections of the
    copy's allocation are over, and then holds what the operation gives on the value
    that the receiver had at the call, after the first collection, or after both. -/
def RangeSurvives (finalizers : StringFinalizers) (s : StringState)
    (spec : Bytes → Except NativeFault Bytes)
    (start length : Nat) : Prop :=
  ∀ bytes, spec s.strings.receiver.value = .ok bytes → bytes ≠ [] →
    (s.after finalizers 2).strings.receiver.block = s.strings.receiver.block ∧
      OnReceiver finalizers s 2 spec
        (.ok (((s.after finalizers 2).strings.receiver.cells.drop start).take length))

theorem survives_range {spec : Bytes → Except NativeFault Bytes}
    (hspec : ∀ value, Clean (spec value))
    (start length : Nat) :
    Survives (spec s.strings.receiver.value >>= copiedRange finalizers s start length)
        (OnReceiver finalizers s 2 spec) ↔
      RangeSurvives finalizers s spec start length := by
  rw [survives_iff fun outcome ⟨moment, _, houtcome⟩ => houtcome ▸ hspec _, RangeSurvives]
  -- what the operation gives on the value at the call
  have hcall : OnReceiver finalizers s 2 spec (spec s.strings.receiver.value) :=
    ⟨0, Nat.zero_le _, rfl⟩
  cases hbytes : spec s.strings.receiver.value with
  | error fault =>
    rw [hbytes] at hcall
    exact iff_of_true hcall fun bytes h => nomatch h
  | ok bytes =>
    rw [hbytes] at hcall
    simp only [ok_bind, copiedRange, Except.ok.injEq, forall_eq']
    by_cases hnil : bytes = []
    · rw [if_pos hnil]
      subst hnil
      exact iff_of_true hcall fun h => absurd rfl h
    · rw [if_neg hnil]
      split
      · rename_i hblock
        exact ⟨fun h _ => ⟨hblock, h⟩, fun h => (h hnil).2⟩
      · rename_i hmoved
        refine iff_of_false ?_ fun h => hmoved (h hnil).1
        -- no value makes the operation read freed memory
        rintro ⟨moment, _, houtcome⟩
        exact absurd (hspec _ _ houtcome.symm) (by decide)

/-- What `split` can come to on the values that receiver and separator have up to this
    many collections. -/
def OnStrings (finalizers : StringFinalizers) (s : StringState) (collections : Nat)
    (outcome : Except NativeFault (List (Option Bytes))) : Prop :=
  ∃ moment ≤ collections, ∃ moment' ≤ collections,
    outcome = splitSpec (s.after finalizers moment).strings.receiver.value
      (s.after finalizers moment').strings.argument.value

/-- Finalizers leave both Strings with the values of Strings. -/
def KeepStrings (finalizers : StringFinalizers) (s : StringState) : Prop :=
  ∀ moment, StringValue (s.after finalizers moment).strings.receiver.value ∧
    StringValue (s.after finalizers moment).strings.argument.value

/-- The collections of a call of `split`: one for the list, and two for each field. -/
def splitCollections (s : StringState) : Nat :=
  1 + 2 * (splitFields s.strings.receiver.value s.strings.argument.value).length

/-- `split` refuses, or fills its list with the fields of a value that the receiver has
    during the call, by a value of the separator: as many as were counted, each of them
    as it is there until it has been copied. -/
def SplitSurvives (finalizers : StringFinalizers) (s : StringState) : Prop :=
  s.strings.argument.value = [] ∨
    int64Max < (splitFields s.strings.receiver.value s.strings.argument.value).length ∨
    ∃ moment ≤ splitCollections s, ∃ moment' ≤ splitCollections s, ∃ fields,
      (s.after finalizers moment').strings.argument.value ≠ [] ∧
      splitFields (s.after finalizers moment).strings.receiver.value
        (s.after finalizers moment').strings.argument.value = fields ∧
      fields.length = (splitFields s.strings.receiver.value s.strings.argument.value).length ∧
      FieldsStay finalizers (s.collect finalizers) s.strings.argument.block
        s.strings.argument.length 0 fields

theorem splitSpec_eq {value separator : Bytes} (hvalue : StringValue value)
    (hseparator : StringValue separator) :
    splitSpec value separator =
      if separator = [] then .error (.raises "String.split separator cannot be empty")
      else if (splitFields value separator).length ≤ int64Max then .ok
      ((splitFields value separator).map some)
      else .error (.raises "String split result is too large") := by
  rw [splitSpec]
  split
  · rename_i hempty
    exact ensure_bind_error (fun h => h hempty) _ _
  · rename_i hne
    rw [ensure_bind hne]
    split
    · rename_i hcount
      rw [ensure_bind hcount, mapM_newSpec (splitFields_values hvalue hseparator hne)]
      rfl
    · rename_i hlong
      exact ensure_bind_error hlong _ _

theorem survives_split (h : KeepStrings finalizers s) :
    Survives (returned (stringSplit finalizers s)) (OnStrings finalizers s (splitCollections s)) ↔
      SplitSurvives finalizers s := by
  rw [survives_iff fun outcome ⟨_, _, _, _, houtcome⟩ => houtcome ▸ splitSpec_clean _ _]
  have hvalues : StringValue s.strings.receiver.value ∧ StringValue s.strings.argument.value := h 0
  have hcall := splitSpec_eq hvalues.1 hvalues.2
  have hrun := stringSplit_eq finalizers s
  by_cases hempty : s.strings.argument.value = []
  · refine iff_of_true ⟨0, Nat.zero_le _, 0, Nat.zero_le _, ?_⟩ (.inl hempty)
    rw [hrun, if_pos hempty]
    exact (hcall.trans (if_pos hempty)).symm
  by_cases hcount : (splitFields s.strings.receiver.value s.strings.argument.value).length ≤
    int64Max
  · rw [hrun, if_neg hempty, if_pos hcount]
    -- the second scan, for the fields of whatever values
    have hscan (moment moment' : Nat)
      (hne : (s.after finalizers moment').strings.argument.value ≠ []) :
        returned (splitLoop finalizers s.strings.argument.block s.strings.argument.length
            (splitFields s.strings.receiver.value s.strings.argument.value).length 0
              (s.collect finalizers)) =
          .ok ((splitFields (s.after finalizers moment).strings.receiver.value
            (s.after finalizers moment').strings.argument.value).map some) ↔ _ :=
      splitLoop_ok_iff (splitFields_fields hne).ne_nil
        (fun field hmem => (splitFields_values (h moment).1 (h moment').2 hne field hmem).2)
          (Nat.zero_le _)
        fun index _ => by
          have hlength := (h (1 + 2 * index)).1.2
          rw [s.after_add finalizers 1, GrowVec.value_length] at hlength
          exact .inr hlength
    constructor
    · rintro ⟨moment, hmoment, moment', hmoment', houtcome⟩
      rw [splitSpec_eq (h moment).1 (h moment').2] at houtcome
      split at houtcome
      · exact absurd houtcome (avoids_splitLoop (by decide) (by decide))
      · rename_i hne
        split at houtcome
        · obtain ⟨hsame, hstay⟩ := (hscan moment moment' hne).mp houtcome
          exact .inr (.inr ⟨moment, hmoment, moment', hmoment', _, hne, rfl, hsame.symm, hstay⟩)
        · exact absurd houtcome (avoids_splitLoop (by decide) (by decide))
    · rintro (hnil | hlong | ⟨moment, hmoment, moment', hmoment', _, hne, rfl, hsame, hstay⟩)
      · exact absurd hnil hempty
      · exact absurd hcount (Nat.not_le.mpr hlong)
      · refine ⟨moment, hmoment, moment', hmoment', ?_⟩
        rw [splitSpec_eq (h moment).1 (h moment').2, if_neg hne, if_pos (by omega)]
        exact (hscan moment moment' hne).mpr ⟨hsame.symm, hstay⟩
  · refine iff_of_true ⟨0, Nat.zero_le _, 0, Nat.zero_le _, ?_⟩ (.inr (.inl (Nat.not_le.mp hcount)))
    rw [hrun, if_neg hempty, if_neg hcount]
    exact (hcall.trans (by rw [if_neg hempty, if_neg hcount])).symm

/-! ## Buffers, lists and dicts -/

/-- What the operation can come to on the value before the collection or after it. -/
def OnCells {V : Type} (update : CellsUpdate α) (source : GrowVec α)
    (spec : List α → Except NativeFault V)
    (outcome : Except NativeFault V) : Prop :=
  outcome = spec source.value ∨ outcome = spec (update.apply source).value

theorem survives_cells {V : Type} {update : CellsUpdate α} {source : GrowVec α}
    {spec : List α → Except NativeFault V}
    (hspec : ∀ value, Clean (spec value)) {run : Except NativeFault V} {kept later : Prop}
    (hkept : run = spec source.value ↔ kept) (hlater : run = spec (update.apply source).value ↔
    later) :
    Survives run (OnCells update source spec) ↔ kept ∨ later := by
  rw [survives_iff, OnCells, hkept, hlater]
  rintro outcome (rfl | rfl)
  · exact hspec _
  · exact hspec _

/-- The cells that the bounds select are as they were, or they are, as the bounds before
    the collection select them, what the slice of the value after it has. -/
def SpanSurvives (update : CellsUpdate UInt8) (source : GrowVec UInt8) (start stop : Option Int) :
    Prop :=
  SpanKept source (update.apply source) start stop ∨
    ((update.apply source).cells.drop (normalizeSliceBound start source.length 1 true).toNat).take
        (spanLength (normalizeSliceBound start source.length 1 true)
          (normalizeSliceBound stop source.length 1 false)) =
      bufferSliceSpec (update.apply source).value start stop

theorem survives_buffer (update : CellsUpdate UInt8) (source : GrowVec UInt8)
    (start stop : Option Int) :
    Survives (bufferSlice update source start stop)
        (OnCells update source fun value => .ok (bufferSliceSpec value start stop)) ↔
      SpanSurvives update source start stop := by
  refine survives_cells (fun _ => Clean.ok _) (bufferSlice_eq update source start stop) ?_
  rw [bufferSlice_reads, Except.ok.injEq]

/-- The same of the elements of a list, unless the slice is refused. -/
def ElementsSurvive (update : CellsUpdate α) (source : GrowVec α) (start stop : Option Int)
    (step : Int) : Prop :=
  ∀ result, listSliceSpec source.value start stop step = .ok result →
    CellsKept source (update.apply source) (listSliceIndices source.length start stop step) ∨
      listSliceSpec (update.apply source).value start stop step =
        .ok ((listSliceIndices source.length start stop step).filterMap fun index =>
          (update.apply source).cells[index.toNat]?)

theorem listSlice_safe (update : CellsUpdate α) (source : GrowVec α) (start stop : Option Int)
    (step : Int) :
    Clean (listSlice update source start stop step) := by
  have hspec := listSliceSpec_clean source.value start stop step
  rw [listSlice_reads]
  cases hresult : listSliceSpec source.value start stop step with
  | ok result => exact Clean.ok _
  | error fault =>
    rw [hresult] at hspec
    exact fun fault' h => hspec fault' (congrArg _ (Except.error.inj h))

theorem survives_list (update : CellsUpdate α) (source : GrowVec α) (start stop : Option Int)
    (step : Int) :
    Survives (listSlice update source start stop step)
        (OnCells update source fun value => listSliceSpec value start stop step) ↔
      ElementsSurvive update source start stop step := by
  have hkept := listSlice_eq update source start stop step
  rw [survives_cells (fun value => listSliceSpec_clean value start stop step) hkept Iff.rfl,
    ElementsSurvive,
    listSlice_reads]
  cases hresult : listSliceSpec source.value start stop step with
  | error fault => exact iff_of_true (.inl fun result h => nomatch h) fun result h => nomatch h
  | ok result =>
    simp only [Except.map, Except.ok.injEq, forall_eq']
    exact or_congr_right eq_comm

theorem survives_listSnapshot {update : CellsUpdate α} {source : GrowVec α}
    (hlength : source.length ≤ int64Max) :
    Survives (listSnapshot update source) (OnCells update source .ok) ↔
      CellsKept source (update.apply source) (sliceIndices 0 1 source.length) ∨
        (update.apply source).length = source.length := by
  refine survives_cells (fun _ => Clean.ok _) (listSnapshot_eq update hlength) ?_
  have hspec := listSliceSpec_snapshot (source.value_length.symm ▸ hlength)
  rw [GrowVec.value_length] at hspec
  rw [listSnapshot, listSlice_reads, hspec, listSliceIndices_snapshot, filterMap_sliceIndices]
  simp only [Except.map, Except.ok.injEq]
  constructor
  · intro h
    have hlengths := congrArg List.length h
    rw [List.length_take, GrowVec.value_length, Nat.min_eq_left] at hlengths
    · exact hlengths.symm
    · exact Nat.le_trans source.fits (update.grows source)
  · intro h
    rw [GrowVec.value, h]

/-- What the operation can come to on the entries before the collection or after it. -/
def OnEntries {V : Type} (update : DictUpdate V) (source : Dict V)
    (spec : List (Bytes × V) → List (Bytes × V)) (outcome : Except NativeFault (List (Bytes × V))) :
    Prop :=
  outcome = .ok (spec source.entries) ∨ outcome = .ok (spec (update.apply source).entries)

/-- The cells of these indices read as they did, or with the keys they point to they
    still are the entries that the operation gives on the dict after the collection. -/
def EntriesSurvive {V : Type} (update : DictUpdate V) (source : Dict V) (indices : List Int)
    (spec : List (Bytes × V) → List (Bytes × V)) : Prop :=
  (∀ index ∈ indices, (update.apply source).readEntry index = source.readEntry index) ∨
    ∃ entries, indices.mapM (update.apply source).readEntry = .ok entries ∧
      mapSetAll entries = spec (update.apply source).entries

theorem survives_entries {V : Type} {update : DictUpdate V} {source : Dict V} {indices : List Int}
    {spec : List (Bytes × V) → List (Bytes × V)} {run : Except NativeFault (List (Bytes × V))}
    (hreads : run = (indices.mapM (update.apply source).readEntry).map mapSetAll)
    (hkept : run = .ok (spec source.entries) ↔
      ∀ index ∈ indices, (update.apply source).readEntry index = source.readEntry index) :
    Survives run (OnEntries update source spec) ↔ EntriesSurvive update source indices spec := by
  rw [survives_iff, OnEntries, EntriesSurvive, hkept]
  · refine or_congr_right ?_
    rw [hreads]
    cases indices.mapM (update.apply source).readEntry with
    | error fault => exact iff_of_false (fun h => nomatch h) fun ⟨_, h, _⟩ => nomatch h
    | ok entries =>
      simp only [Except.map, Except.ok.injEq]
      exact ⟨fun h => ⟨entries, rfl, h⟩, fun ⟨_, hsame, h⟩ => hsame ▸ h⟩
  · rintro outcome (rfl | rfl)
    · exact Clean.ok _
    · exact Clean.ok _

/-! ## The operations -/

/-- A finalizer of the second collection appends "c". -/
def appendsLater : StringFinalizers := fun collection => if collection = 1 then .appendReceiver [99]
    else .none

/-- "a,b" in a block with room, and "," to split it by. -/
def withRoom : StringState := ⟨⟨⟨0, [97, 44, 98, 0], 3, by decide⟩, .ofList 1 [44]⟩, 0⟩

theorem keepStrings_appendsLater : KeepStrings appendsLater withRoom := by
  have hvalue {bytes : Bytes} (hbytes : validUtf8 bytes = true ∧ bytes.length ≤ int64Max) :
      StringValue bytes :=
    ⟨(validUtf8_iff bytes).mp hbytes.1, hbytes.2⟩
  -- from the second collection on the Strings stay as they are
  have hlater (moment : Nat) : (withRoom.after appendsLater (2 + moment)).strings =
      (withRoom.after appendsLater 2).strings ∧
          (withRoom.after appendsLater (2 + moment)).collections = 2 + moment := by
    induction moment with
    | zero => exact ⟨rfl, rfl⟩
    | succ moment ih =>
      obtain ⟨hstrings, hcollections⟩ := ih
      have hnone : appendsLater (2 + moment) = .none := if_neg (by omega)
      rw [← Nat.add_assoc, StringState.after, StringState.collect, hcollections, hnone]
      exact ⟨hstrings, rfl⟩
  intro moment
  match moment with
  | 0 | 1 => exact ⟨hvalue (by decide), hvalue (by decide)⟩
  | moment + 2 =>
    rw [Nat.add_comm, (hlater moment).1]
    exact ⟨hvalue (by decide), hvalue (by decide)⟩

end Cwhip.Runtime
