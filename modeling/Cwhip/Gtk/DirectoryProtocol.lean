/-
  Cwhip.Gtk.DirectoryProtocol

  What may happen to a directory scan, as an automaton over its events, and what
  that says about the events that it accepts (`delivery_of_accepts`).
-/

import Cwhip.Gtk.DirectoryScan
import Mathlib.Data.List.Induction

namespace Cwhip.Gtk

open Cwhip.Lib

/-! ## Events -/

/-- The callback is called. -/
def Event.isDelivery : Event → Bool
  | .batch _ | .terminal _ => true
  | _ => false

def Event.foundEntry : Event → Option Entry
  | .found entry => some entry
  | _ => none

def Event.batchEntries : Event → List Entry
  | .batch entries => entries
  | _ => []

def Event.settledError : Event → Option (Option String)
  | .settled error => some error
  | _ => none

/-- The entries that the worker has added. -/
def foundEntries (events : List Event) : List Entry := events.filterMap Event.foundEntry

/-- The error of the worker. -/
def scanError (events : List Event) : Option String := (events.findSome? Event.settledError).join

/-- The entries that are to be delivered. -/
def result (events : List Event) : List Entry :=
  if (scanError events).isSome then [] else sortEntries (foundEntries events)

def deliveredEntries (events : List Event) : List Entry := events.flatMap Event.batchEntries

/-- What the owner of a scan can rely on. -/
structure Delivery (events : List Event) : Prop where
  /-- Without an error, the result is what the worker has added, in order. -/
  complete : scanError events = none → (result events).Perm (foundEntries events)
  sorted : (result events).Pairwise fun first second => directoryCompare first second ≤ 0
  batches : ∀ entries, .batch entries ∈ events → entries ≠ [] ∧ entries.length ≤ 64
  inOrder : deliveredEntries events <+: result events
  /-- The end comes after all entries, with the error, and nothing comes after it. -/
  terminal : ∀ before message after, events = before ++ .terminal message :: after →
    deliveredEntries before = result events ∧ message = (scanError events).getD "" ∧
      ∀ event ∈ after, event.isDelivery = false
  closed : ∀ before after, events = before ++ .closed :: after →
    .closed ∉ after ∧ ∀ event ∈ after, event.isDelivery = false
  /-- The callback is let go once, when every call of it has returned. -/
  released : ∀ before after, events = before ++ .contextReleased :: after →
    .closed ∈ before ∧ before.countP Event.isDelivery = before.count .returned ∧
      .contextReleased ∉ after ∧
      ∀ event ∈ after, event.isDelivery = false
  /-- The job is freed once, as the last thing. -/
  freed : ∀ before after, events = before ++ .freed :: after →
    .closed ∈ before ∧ .workerLeft ∈ before ∧ .contextReleased ∈ before ∧ after = []

/-! ## The automaton -/

/-- How far a scan is. -/
structure View where
  found : List Entry
  /-- The entries that are still to be delivered, and the error of the scan. -/
  scanned : Option (List Entry × Option String)
  inFlight : Bool
  ended : Bool
  closed : Bool
  released : Bool
  left : Bool
  freed : Bool

namespace View

def initial : View := ⟨[], none, false, false, false, false, false, false⟩

/-- The callback can be called. -/
def ready (v : View) : Bool := !v.closed && !v.ended && !v.inFlight && !v.freed

def step (v : View) : Event → Option View
  | .found entry => if v.scanned.isNone && !v.freed then some { v with found := v.found ++ [entry] }
      else none
  | .settled error =>
    if v.scanned.isNone && !v.freed then
      some { v with scanned := some (if error.isSome then [] else sortEntries v.found, error) }
    else none
  | .batch entries =>
    match v.scanned with
    | some (remaining, error) =>
      if v.ready = true ∧ entries ≠ [] ∧ entries.length ≤ 64 ∧ entries <+: remaining then
        some { v with scanned := some (remaining.drop entries.length, error), inFlight := true }
      else none
    | none => none
  | .terminal message =>
    match v.scanned with
    | some (remaining, error) =>
      if v.ready = true ∧ remaining = [] ∧ message = error.getD "" then
        some { v with inFlight := true, ended := true }
      else none
    | none => none
  | .returned => if v.inFlight && !v.freed then some { v with inFlight := false } else none
  | .closed => if !v.closed && !v.freed then some { v with closed := true } else none
  | .contextReleased =>
    if v.closed && !v.inFlight && !v.released && !v.freed then some { v with released := true }
      else none
  | .workerLeft =>
    if v.scanned.isSome && !v.left && !v.freed then some { v with left := true } else none
  | .freed => if v.closed && v.left && v.released && !v.freed then some { v with freed := true }
      else none

def Accepts (v : View) (events : List Event) (v' : View) : Prop := events.foldlM step v = some v'

theorem Accepts.nil (v : View) : v.Accepts [] v := rfl

variable {v v' : View} {events : List Event} {event : Event}

/-- One event more is accepted where the automaton has a step. -/
theorem Accepts.append {v'' : View} (h : v.Accepts events v')
    (hstep : v'.step event = some v'') : v.Accepts (events ++ [event]) v'' := by
  unfold Accepts at h ⊢
  rw [List.foldlM_append, h]
  show ((v'.step event).bind fun v => some v) = some v''
  rw [hstep]
  rfl

theorem Accepts.split {before after : List Event} (h : v.Accepts (before ++ event :: after) v') :
    ∃ v₁ v₂, v.Accepts before v₁ ∧ v₁.step event = some v₂ ∧ v₂.Accepts after v' := by
  unfold Accepts at h ⊢
  rw [List.foldlM_append] at h
  obtain ⟨v₁, hbefore, hrest⟩ := Option.bind_eq_some_iff.mp h
  rw [List.foldlM_cons] at hrest
  obtain ⟨v₂, hevent, hafter⟩ := Option.bind_eq_some_iff.mp hrest
  exact ⟨v₁, v₂, hbefore, hevent, hafter⟩

/-- What every step keeps holds at every event. -/
theorem Accepts.never {P : View → Prop} {q : Event → Prop}
    (hkeep : ∀ v event v', P v → v.step event = some v' → P v' ∧ q event) (hv : P v)
    (h : v.Accepts events v') : ∀ event ∈ events, q event := by
  induction events generalizing v with
  | nil => exact fun _ h => nomatch h
  | cons event events ih =>
    obtain ⟨v₁, hevent, hrest⟩ := Option.bind_eq_some_iff.mp (show (v.step event).bind _ = some v'
      from h)
    obtain ⟨hv₁, hq⟩ := hkeep v event v₁ hv hevent
    intro other hother
    rcases List.mem_cons.mp hother with rfl | hother
    · exact hq
    · exact ih hv₁ hrest other hother

/-- Nothing is delivered after the close or the end. -/
theorem step_quiet (h : v.closed = true ∨ v.ended = true)
    (hstep : v.step event = some v') : (v'.closed = true ∨ v'.ended = true) ∧
    event.isDelivery = false := by
  cases event <;> grind [View.step, View.ready, Event.isDelivery]

/-- A scan is closed once. -/
theorem step_closed (h : v.closed = true) (hstep : v.step event = some v') :
    v'.closed = true ∧ event ≠ .closed := by
  cases event <;> grind [View.step]

/-- Its context is let go once. -/
theorem step_released (h : v.released = true) (hstep : v.step event = some v') :
    v'.released = true ∧ event ≠ .contextReleased := by
  cases event <;> grind [View.step]

/-- A freed job does nothing. -/
theorem step_freed (h : v.freed = true) (hstep : v.step event = some v') : False := by
  cases event <;> grind [View.step, View.ready]

/-- A settled scan finds no further entry and is not settled again. -/
theorem step_scanned (h : v.scanned.isSome = true) (hstep : v.step event = some v') :
    v'.scanned.isSome = true ∧ event.foundEntry = none ∧ event.settledError = none := by
  obtain ⟨scanned, hscanned⟩ := Option.isSome_iff_exists.mp h
  cases event <;> grind [View.step, Event.foundEntry, Event.settledError]

/-! ## What was accepted -/

/-- A view tells what has happened. -/
structure Agrees (events : List Event) (v : View) : Prop where
  found : v.found = foundEntries events
  scanning : v.scanned = none → events.findSome? Event.settledError = none ∧
    deliveredEntries events = []
  scanned : ∀ remaining error, v.scanned = some (remaining, error) →
    events.findSome? Event.settledError = some error ∧ deliveredEntries events ++ remaining =
      result events
  inFlight : events.countP Event.isDelivery = events.count .returned + v.inFlight.toNat
  closed : v.closed = true ↔ .closed ∈ events
  released : v.released = true ↔ .contextReleased ∈ events
  left : v.left = true ↔ .workerLeft ∈ events
  freed : v.freed = true ↔ .freed ∈ events
  batches : ∀ entries, .batch entries ∈ events → entries ≠ [] ∧ entries.length ≤ 64

theorem agrees_initial : Agrees [] initial := by
  refine ⟨rfl, fun _ => ⟨rfl, rfl⟩, fun _ _ h => (nomatch h), rfl, ?_, ?_, ?_, ?_, fun _ h =>
    nomatch h⟩ <;>
    exact ⟨fun h => (nomatch h), fun h => (nomatch h)⟩

@[simp] theorem foundEntries_append (events : List Event) (event : Event) :
    foundEntries (events ++ [event]) = foundEntries events ++ event.foundEntry.toList := by
  rw [foundEntries, List.filterMap_append]
  cases h : event.foundEntry <;> simp [foundEntries, h]

@[simp] theorem deliveredEntries_append (events : List Event) (event : Event) :
    deliveredEntries (events ++ [event]) = deliveredEntries events ++ event.batchEntries := by
  simp [deliveredEntries]

theorem result_append (hfound : event.foundEntry = none)
    (hsettled : event.settledError = none) : result (events ++ [event]) = result events := by
  have herror : scanError (events ++ [event]) = scanError events := by simp [scanError, hsettled]
  have hentries : foundEntries (events ++ [event]) = foundEntries events := by simp [hfound]
  rw [result, result, herror, hentries]

theorem Agrees.plain (h : Agrees events v) (hfound : event.foundEntry = none)
    (hsettled : event.settledError = none) (hbatch : event.batchEntries = [])
    (hnotBatch : ∀ entries, event ≠ .batch entries) (hviewFound : v'.found = v.found)
    (hviewScanned : v'.scanned = v.scanned)
    (hinFlight : event.isDelivery.toNat + v.inFlight.toNat = (event == .returned).toNat +
    v'.inFlight.toNat)
    (hclosed : v'.closed = true ↔ v.closed = true ∨ event = .closed)
    (hreleased : v'.released = true ↔ v.released = true ∨ event = .contextReleased)
    (hleft : v'.left = true ↔ v.left = true ∨ event = .workerLeft)
    (hfreed : v'.freed = true ↔ v.freed = true ∨ event = .freed) :
    Agrees (events ++ [event]) v' := by
  refine ⟨?_, fun hnone => ?_, fun remaining error hsome => ?_, ?_, ?_, ?_, ?_, ?_,
    fun entries hmem => ?_⟩
  · simp [hviewFound, h.found, hfound]
  · rw [hviewScanned] at hnone
    obtain ⟨hnotSettled, hnothing⟩ := h.scanning hnone
    simp [hnotSettled, hnothing, hsettled, hbatch]
  · rw [hviewScanned] at hsome
    obtain ⟨herror, hresult⟩ := h.scanned remaining error hsome
    refine ⟨by simp [herror], ?_⟩
    rw [deliveredEntries_append, hbatch, List.append_nil, result_append hfound hsettled]
    exact hresult
  · have hcount := h.inFlight
    rw [List.countP_append, List.count_append, List.countP_singleton, List.count_singleton]
    cases hdelivery : event.isDelivery <;> cases hreturned : (event == .returned) <;>
      simp only [hdelivery, hreturned, Bool.toNat_true, Bool.toNat_false] at hinFlight
        <;> simp <;> omega
  · rw [hclosed, h.closed, List.mem_append, List.mem_singleton, eq_comm (a := event)]
  · rw [hreleased, h.released, List.mem_append, List.mem_singleton, eq_comm (a := event)]
  · rw [hleft, h.left, List.mem_append, List.mem_singleton, eq_comm (a := event)]
  · rw [hfreed, h.freed, List.mem_append, List.mem_singleton, eq_comm (a := event)]
  · rcases List.mem_append.mp hmem with hold | hnew
    · exact h.batches entries hold
    · exact absurd (List.mem_singleton.mp hnew).symm (hnotBatch entries)

/-- Each event is recorded in the view. -/
theorem Agrees.step (h : Agrees events v)
    (hstep : v.step event = some v') : Agrees (events ++ [event]) v' := by
  cases event with
  | found entry =>
    obtain ⟨hscanned, rfl⟩ : v.scanned = none ∧ v' = { v with found := v.found ++ [entry] } := by
      grind [View.step, Option.isNone_iff_eq_none]
    obtain ⟨hnotSettled, hnothing⟩ := h.scanning hscanned
    refine ⟨?_, fun _ => ⟨?_, ?_⟩, fun _ _ hsome => absurd (hscanned.symm.trans hsome) nofun, ?_,
      ?_, ?_, ?_, ?_,
      fun entries hmem => ?_⟩
    · simp [h.found, Event.foundEntry]
    · simp [hnotSettled, Event.settledError]
    · simp [hnothing, Event.batchEntries]
    · simpa [Event.isDelivery] using h.inFlight
    · simpa using h.closed
    · simpa using h.released
    · simpa using h.left
    · simpa using h.freed
    · exact h.batches entries (by simpa using hmem)
  | settled error =>
    -- the scan ends once: what it sorted is what is left to deliver
    obtain ⟨hscanned, rfl⟩ : v.scanned = none ∧
        v' = { v with scanned := some (if error.isSome then [] else
            sortEntries v.found, error) } := by
      grind [View.step, Option.isNone_iff_eq_none]
    obtain ⟨hnotSettled, hnothing⟩ := h.scanning hscanned
    refine ⟨?_, fun hnone => (nomatch hnone), fun remaining found hsome => ?_, ?_, ?_, ?_, ?_, ?_,
      fun entries hmem => ?_⟩
    · simp [h.found, Event.foundEntry]
    · obtain ⟨rfl, rfl⟩ := Prod.mk.inj (Option.some.inj hsome)
      have herror : scanError (events ++ [.settled error]) = error := by
        simp [scanError, hnotSettled, Event.settledError]
      refine ⟨by simp [hnotSettled, Event.settledError], ?_⟩
      rw [result, herror, deliveredEntries_append, hnothing, foundEntries_append, h.found]
      simp [Event.batchEntries, Event.foundEntry]
    · simpa [Event.isDelivery] using h.inFlight
    · simpa using h.closed
    · simpa using h.released
    · simpa using h.left
    · simpa using h.freed
    · exact h.batches entries (by simpa using hmem)
  | batch batch =>
    obtain ⟨remaining, error, hscanned, hready, hne, hlength, hprefix, rfl⟩ : ∃ remaining error,
        v.scanned = some (remaining, error) ∧ v.ready = true ∧ batch ≠ [] ∧ batch.length ≤ 64 ∧
          batch <+: remaining ∧
            v' = { v with scanned := some (remaining.drop batch.length, error), inFlight :=
                true } := by
      grind [View.step]
    obtain ⟨herror, hresult⟩ := h.scanned remaining error hscanned
    have hidle : v.inFlight = false := by
      grind [View.ready]
    refine ⟨?_, fun hnone => (nomatch hnone), fun rest found hsome => ?_, ?_, ?_, ?_, ?_, ?_,
      fun entries hmem => ?_⟩
    · simp [h.found, Event.foundEntry]
    · obtain ⟨rfl, rfl⟩ := Prod.mk.inj (Option.some.inj hsome)
      refine ⟨by simp [herror], ?_⟩
      rw [deliveredEntries_append, result_append rfl rfl, ← hresult, List.append_assoc]
      congr 1
      obtain ⟨rest, rfl⟩ := hprefix
      simp [Event.batchEntries]
    · have hcount := h.inFlight
      rw [hidle] at hcount
      simpa [Event.isDelivery] using hcount
    · simpa using h.closed
    · simpa using h.released
    · simpa using h.left
    · simpa using h.freed
    · rcases List.mem_append.mp hmem with hold | hnew
      · exact h.batches entries hold
      · cases List.mem_singleton.mp hnew
        exact ⟨hne, hlength⟩
  | terminal message =>
    obtain ⟨hready, rfl⟩ : v.ready = true ∧ v' = { v with inFlight := true, ended := true } := by
      grind [View.step]
    refine h.plain rfl rfl rfl (fun _ h => nomatch h) rfl rfl ?_ ?_ ?_ ?_ ?_ <;>
      grind [View.ready, Event.isDelivery]
  | returned =>
    obtain ⟨hflight, rfl⟩ : v.inFlight = true ∧ v' = { v with inFlight := false } := by
      grind [View.step]
    refine h.plain rfl rfl rfl (fun _ h => nomatch h) rfl rfl ?_ ?_ ?_ ?_ ?_ <;>
      grind [Event.isDelivery]
  | closed =>
    obtain rfl : v' = { v with closed := true } := by grind [View.step]
    refine h.plain rfl rfl rfl (fun _ h => nomatch h) rfl rfl ?_ ?_ ?_ ?_ ?_ <;>
      grind [Event.isDelivery]
  | contextReleased =>
    obtain rfl : v' = { v with released := true } := by grind [View.step]
    refine h.plain rfl rfl rfl (fun _ h => nomatch h) rfl rfl ?_ ?_ ?_ ?_ ?_ <;>
      grind [Event.isDelivery]
  | workerLeft =>
    obtain rfl : v' = { v with left := true } := by grind [View.step]
    refine h.plain rfl rfl rfl (fun _ h => nomatch h) rfl rfl ?_ ?_ ?_ ?_ ?_ <;>
      grind [Event.isDelivery]
  | freed =>
    obtain rfl : v' = { v with freed := true } := by grind [View.step]
    refine h.plain rfl rfl rfl (fun _ h => nomatch h) rfl rfl ?_ ?_ ?_ ?_ ?_ <;>
      grind [Event.isDelivery]

/-- After any accepted log the view agrees with it. -/
theorem Accepts.agrees (h : initial.Accepts events v) : Agrees events v := by
  induction events using List.reverseRecOn generalizing v with
  | nil =>
    cases h
    exact agrees_initial
  | append_singleton events event ih =>
    obtain ⟨v₁, v₂, hevents, hevent, hrest⟩ := h.split
    cases hrest
    exact (ih hevents).step hevent

theorem Accepts.result_eq (events : List Event) {after : List Event} (h : v.Accepts after v')
    (hscanned : v.scanned.isSome = true) : result (events ++ after) = result events ∧
      ∀ error, events.findSome? Event.settledError = some error →
      scanError (events ++ after) = error := by
  have hnever := Accepts.never (fun _ _ _ => step_scanned) hscanned h
  have hfound : after.filterMap Event.foundEntry = [] :=
    List.filterMap_eq_nil_iff.mpr fun event hevent => (hnever event hevent).1
  have hsettled : after.findSome? Event.settledError = none :=
    List.findSome?_eq_none_iff.mpr fun event hevent => (hnever event hevent).2
  have herror : scanError (events ++ after) = scanError events := by simp [scanError, hsettled]
  have hentries : foundEntries (events ++ after) = foundEntries events := by
    rw [foundEntries, List.filterMap_append, hfound, List.append_nil]
    rfl
  refine ⟨by rw [result, result, herror, hentries], fun error hsome => ?_⟩
  rw [herror, scanError, hsome]
  rfl

/-- What the automaton accepts is a delivery in order. -/
theorem delivery_of_accepts (h : initial.Accepts events v) : Delivery events := by
  have hagrees := h.agrees
  constructor
  case complete =>
    intro herror
    rw [result, herror]
    exact sortEntries_perm _
  case sorted =>
    unfold result
    split
    · exact List.Pairwise.nil
    · exact sortEntries_sorted _
  case batches => exact hagrees.batches
  case inOrder =>
    cases hscanned : v.scanned with
    | none =>
      rw [(hagrees.scanning hscanned).2]
      exact List.nil_prefix
    | some scanned =>
      exact ⟨_, (hagrees.scanned scanned.1 scanned.2 hscanned).2⟩
  case terminal =>
    rintro before message after rfl
    obtain ⟨v₁, v₂, hbefore, hevent, hafter⟩ := h.split
    -- the automaton is in a view with nothing left to deliver
    obtain ⟨error, hscanned, rfl, hended⟩ : ∃ error, v₁.scanned = some ([], error) ∧
        message = error.getD "" ∧
        v₂.ended = true := by
      grind [View.step]
    obtain ⟨hsettled, hdelivered⟩ := hbefore.agrees.scanned [] error hscanned
    have hrest : v₁.Accepts (.terminal (error.getD "") :: after) v :=
      Option.bind_eq_some_iff.mpr ⟨v₂, hevent, hafter⟩
    obtain ⟨hresult, herror⟩ := hrest.result_eq before (by rw [hscanned]; rfl)
    rw [List.append_nil] at hdelivered
    refine ⟨hdelivered.trans hresult.symm, by rw [herror error hsettled], ?_⟩
    exact Accepts.never (fun _ _ _ => step_quiet) (.inr hended) hafter
  case closed =>
    rintro before after rfl
    obtain ⟨v₁, v₂, hbefore, hevent, hafter⟩ := h.split
    have hclosed : v₂.closed = true := by grind [View.step]
    refine ⟨fun hin => ?_, Accepts.never (fun _ _ _ => step_quiet) (.inl hclosed) hafter⟩
    exact Accepts.never (fun _ _ _ => step_closed) hclosed hafter _ hin rfl
  case released =>
    rintro before after rfl
    obtain ⟨v₁, v₂, hbefore, hevent, hafter⟩ := h.split
    obtain ⟨hclosed₁, hidle, hclosed, hreleased⟩ : v₁.closed = true ∧ v₁.inFlight = false ∧
        v₂.closed = true ∧
        v₂.released = true := by
      grind [View.step]
    have hcount := hbefore.agrees.inFlight
    rw [hidle, Bool.toNat_false, Nat.add_zero] at hcount
    refine ⟨hbefore.agrees.closed.mp hclosed₁, hcount, fun hin => ?_,
      Accepts.never (fun _ _ _ => step_quiet) (.inl hclosed) hafter⟩
    exact Accepts.never (fun _ _ _ => step_released) hreleased hafter _ hin rfl
  case freed =>
    rintro before after rfl
    obtain ⟨v₁, v₂, hbefore, hevent, hafter⟩ := h.split
    obtain ⟨hclosed, hleft, hreleased, hfreed⟩ : v₁.closed = true ∧ v₁.left = true ∧
        v₁.released = true ∧
        v₂.freed = true := by
      grind [View.step]
    refine ⟨hbefore.agrees.closed.mp hclosed, hbefore.agrees.left.mp hleft,
      hbefore.agrees.released.mp hreleased, ?_⟩
    cases after with
    | nil => rfl
    | cons event after =>
      obtain ⟨v₃, hnext, _⟩ := Option.bind_eq_some_iff.mp (show (v₂.step event).bind _ = some v
        from hafter)
      exact (step_freed hfreed hnext).elim

end View

end Cwhip.Gtk
