/-
  Cwhip.Runtime.ProcessAsyncSound

  What a process and its log have in common in every reachable state, whatever
  the order of the steps: the events appended are those taken and those queued,
  and the flags say what has happened.
-/

import Mathlib.Data.List.Sublists
import Cwhip.Runtime.ProcessAsync

namespace Cwhip.Runtime.ProcessAsync

open Cwhip.Lib
open List (append_assoc append_nil mem_append)

/-! ## Logs -/

/-- The event of a chunk that was read. -/
def Occurrence.readEvent? : Occurrence → Option Event
  | .read kind data => some (.output kind data)
  | _ => none

def Occurrence.appendedEvent? : Occurrence → Option Event
  | .appended event => some event
  | _ => none

/-- The event that a call of `next` has taken. -/
def Occurrence.takenEvent? : Occurrence → Option Event
  | .returned _ _ event => event
  | _ => none

def readEvents (log : List Occurrence) : List Event := log.filterMap Occurrence.readEvent?

def appendedEvents (log : List Occurrence) : List Event := log.filterMap Occurrence.appendedEvent?

def takenEvents (log : List Occurrence) : List Event := log.filterMap Occurrence.takenEvent?

/-- One of the occurrences about the child, or about the shutdown. -/
def Occurrence.isChild : Occurrence → Bool
  | .signalled _ | .cancelled | .reaped _ | .closing => true
  | _ => false

/-- The first comes before the second. -/
def Precedes (first second : Occurrence) (log : List Occurrence) : Prop :=
    [first, second].Sublist log

variable {last : Occurrence} {log : List Occurrence} {p' : Process} {pump pump' : Pump}

theorem precedes_append_singleton {first second : Occurrence} :
    Precedes first second (log ++ [last]) ↔
      Precedes first second log ∨ (first ∈ log ∧ second = last) := by
  unfold Precedes
  constructor
  · intro h
    obtain ⟨left, right, heq, hleft, hright⟩ := List.sublist_append_iff.mp h
    cases right with
    | nil =>
      rw [append_nil] at heq
      exact .inl (heq ▸ hleft)
    | cons occurrence rest =>
      have hrest : rest = [] := by
        have hlength := hright.length_le
        simp only [List.length_cons, List.length_nil] at hlength
        exact List.length_eq_zero_iff.mp (by omega)
      subst hrest
      have hlast : occurrence = last := List.mem_singleton.mp (List.singleton_sublist.mp hright)
      have hpair : [first] ++ [second] = left ++ [occurrence] := heq
      obtain ⟨rfl, hsecond⟩ := List.append_inj' hpair rfl
      refine .inr ⟨List.singleton_sublist.mp hleft, ?_⟩
      rw [← hlast]
      exact List.singleton_inj.mp hsecond
  · rintro (h | ⟨hfirst, rfl⟩)
    · exact h.trans (List.sublist_append_left log [last])
    · exact (List.singleton_sublist.mpr hfirst).append (List.Sublist.refl [second])

/-! ## The child -/

def NoSignalAfter (first second : Occurrence) : Prop :=
  ∀ waited signal, first = .reaped waited → second ≠ .signalled signal

/-- An effective cancellation came before a reap that succeeded. -/
def CancelledFirst (log : List Occurrence) : Prop :=
  ∃ waited : Waited, waited.succeeded = true ∧ Precedes .cancelled (.reaped waited) log

/-- The flags about the child are what the log says. -/
structure ChildRecorded (p : Process) (log : List Occurrence) : Prop where
  unreaped : p.reaped = false → (∀ waited, .reaped waited ∉ log) ∧ p.state = .running
  signals : log.Pairwise NoSignalAfter
  effective : p.cancelEffective = true ↔ .cancelled ∈ log
  cancelled : p.state = .cancelled ↔ CancelledFirst log
  closing : p.closing = true ↔ .closing ∈ log

theorem cancelledFirst_append_of_not_reaped
    (h : ∀ waited, last ≠ .reaped waited) : CancelledFirst (log ++ [last]) ↔
    CancelledFirst log := by
  unfold CancelledFirst
  simp only [precedes_append_singleton]
  constructor
  · rintro ⟨waited, hsucceeded, hprecedes | ⟨_, hlast⟩⟩
    · exact ⟨waited, hsucceeded, hprecedes⟩
    · exact absurd hlast.symm (h waited)
  · rintro ⟨waited, hsucceeded, hprecedes⟩
    exact ⟨waited, hsucceeded, .inl hprecedes⟩

/-- An occurrence other than the reaping extends what the log says of the child. -/
theorem ChildRecorded.append {p : Process} (h : ChildRecorded p log)
    (hlast : ∀ waited, last ≠ .reaped waited)
    (hsignal : ∀ signal, last = .signalled signal → p.reaped = false)
    (hreaped : p'.reaped = p.reaped) (hstate : p'.state = p.state)
    (heffective : p'.cancelEffective = true ↔ p.cancelEffective = true ∨ last = .cancelled)
    (hclosing : p'.closing = true ↔ p.closing = true ∨ last = .closing) :
    ChildRecorded p' (log ++ [last]) where
  unreaped := by
    intro hunreaped
    rw [hreaped] at hunreaped
    rw [hstate]
    obtain ⟨hnone, hrunning⟩ := h.unreaped hunreaped
    refine ⟨fun waited hmem => ?_, hrunning⟩
    rcases List.mem_append.mp hmem with hmem | hmem
    · exact hnone waited hmem
    · exact hlast waited (List.mem_singleton.mp hmem).symm
  signals := by
    refine List.pairwise_append.mpr ⟨h.signals, List.pairwise_singleton _ _, ?_⟩
    intro first hfirst second hsecond waited signal hreap hsignalled
    rw [List.mem_singleton.mp hsecond] at hsignalled
    exact (h.unreaped (hsignal signal hsignalled)).1 waited (hreap ▸ hfirst)
  effective := by
    rw [heffective, h.effective, mem_append, List.mem_singleton]
    exact or_congr_right eq_comm
  cancelled := by rw [hstate, h.cancelled, cancelledFirst_append_of_not_reaped hlast]
  closing := by
    rw [hclosing, h.closing, mem_append, List.mem_singleton]
    exact or_congr_right eq_comm

theorem ChildRecorded.other {p : Process} (h : ChildRecorded p log) (hreaped : p'.reaped = p.reaped)
    (hstate : p'.state = p.state) (heffective : p'.cancelEffective = p.cancelEffective)
    (hclosing : p'.closing = p.closing)
    (hlast : last.isChild = false) : ChildRecorded p' (log ++ [last]) := by
  apply h.append _ _ hreaped hstate
  · rw [heffective]
    exact (or_iff_left fun heq => by simp [heq, Occurrence.isChild] at hlast).symm
  · rw [hclosing]
    exact (or_iff_left fun heq => by simp [heq, Occurrence.isChild] at hlast).symm
  · rintro waited rfl
    cases hlast
  · rintro signal rfl
    cases hlast

theorem ChildRecorded.same {p : Process} (h : ChildRecorded p log) (hreaped : p'.reaped = p.reaped)
    (hstate : p'.state = p.state) (heffective : p'.cancelEffective = p.cancelEffective)
    (hclosing : p'.closing = p.closing) :
    ChildRecorded p' log where
  unreaped := by rw [hreaped, hstate]; exact h.unreaped
  signals := h.signals
  effective := by rw [heffective]; exact h.effective
  cancelled := by rw [hstate]; exact h.cancelled
  closing := by rw [hclosing]; exact h.closing

/-- Reaping a child is recorded with the state it leaves. -/
theorem ChildRecorded.reap {p : Process} (h : ChildRecorded p log) (hunreaped : p.reaped = false)
    (hreaped : p'.reaped = true) (heffective : p'.cancelEffective = p.cancelEffective)
    (hclosing : p'.closing = p.closing) {waited : Waited}
    (hstate : p'.state = .cancelled ↔ waited.succeeded = true ∧ p.cancelEffective = true) :
    ChildRecorded p' (log ++ [.reaped waited]) where
  unreaped := by simp [hreaped]
  signals := by
    refine List.pairwise_append.mpr ⟨h.signals, List.pairwise_singleton _ _,
      fun first _ second hsecond => ?_⟩
    intro _ signal _ hsignal
    rw [List.mem_singleton.mp hsecond] at hsignal
    cases hsignal
  effective := by rw [heffective, h.effective]; simp
  cancelled := by
    rw [hstate, h.effective, CancelledFirst]
    simp only [precedes_append_singleton]
    constructor
    · rintro ⟨hsucceeded, hcancelled⟩
      exact ⟨waited, hsucceeded, .inr ⟨hcancelled, rfl⟩⟩
    · rintro ⟨earlier, hsucceeded, hprecedes | ⟨hcancelled, heq⟩⟩
      · -- the child is reaped only once
        have hmem : Occurrence.reaped earlier ∈ log := hprecedes.subset (by simp)
        exact absurd hmem ((h.unreaped hunreaped).1 earlier)
      · cases heq
        exact ⟨hsucceeded, hcancelled⟩
  closing := by rw [hclosing, h.closing]; simp

section recordError

variable (p : Process) (message : String) (errorNumber : Int)

@[simp] theorem recordError_queue : (p.recordError message errorNumber).queue = p.queue := by
  unfold Process.recordError
  split <;> rfl

@[simp] theorem recordError_completed : (p.recordError message errorNumber).completed =
    p.completed := by
  unfold Process.recordError
  split <;> rfl

@[simp] theorem recordError_completionTaken :
    (p.recordError message errorNumber).completionTaken = p.completionTaken := by
  unfold Process.recordError
  split <;> rfl

@[simp] theorem recordError_reaped : (p.recordError message errorNumber).reaped = p.reaped := by
  unfold Process.recordError
  split <;> rfl

@[simp] theorem recordError_state : (p.recordError message errorNumber).state = p.state := by
  unfold Process.recordError
  split <;> rfl

@[simp] theorem recordError_cancelEffective :
    (p.recordError message errorNumber).cancelEffective = p.cancelEffective := by
  unfold Process.recordError
  split <;> rfl

@[simp] theorem recordError_closing : (p.recordError message errorNumber).closing = p.closing := by
  unfold Process.recordError
  split <;> rfl

end recordError

/-- Reaping records the state that was waited for. -/
theorem reap_effect {p : Process} {waited : Waited} (hunreaped : p.reaped = false)
    (hwaited : waited ≠ .nothing) (now : Int) :
    (p.reap waited now).2 = [.reaped waited] ∧ (p.reap waited now).1.reaped = true ∧
      (p.reap waited now).1.cancelEffective = p.cancelEffective ∧
      (p.reap waited now).1.closing = p.closing ∧
      ((p.reap waited now).1.state = .cancelled ↔
        waited.succeeded = true ∧ p.cancelEffective = true) := by
  unfold Process.reap
  rw [if_neg (by simp [hunreaped, hwaited])]
  cases waited with
  | nothing => exact absurd rfl hwaited
  | failed errorNumber => simp [Waited.succeeded]
  | exited | signaled =>
    cases heffective : p.cancelEffective <;> simp [Process.recordStatus, Waited.succeeded]
  | other => simp [Process.recordStatus, Waited.succeeded]

theorem childRecorded_reap {p : Process} (h : ChildRecorded p log) (waited : Waited) (now : Int) :
    ChildRecorded (p.reap waited now).1 (log ++ (p.reap waited now).2) := by
  by_cases hreap : p.reaped = true ∨ waited = .nothing
  · rw [Process.reap, if_pos hreap, append_nil]
    exact h
  · rw [not_or, Bool.not_eq_true] at hreap
    obtain ⟨hlog, hreaped, heffective, hclosing, hstate⟩ := reap_effect hreap.1 hreap.2 now
    rw [hlog]
    exact h.reap hreap.1 hreaped heffective hclosing hstate

theorem childRecorded_check {p : Process} (h : ChildRecorded p log) (waited : Waited) (now : Int) :
    ChildRecorded (p.check waited now).1 (log ++ (p.check waited now).2.1) := by
  have hreap := childRecorded_reap h waited now
  simp only [Process.check]
  split
  · next hkill =>
    simp only [Bool.and_eq_true, Bool.not_eq_true'] at hkill
    rw [← append_assoc]
    exact hreap.append (by simp) (fun _ _ => hkill.1.1.1) rfl rfl (by simp) (by simp)
  · simpa using hreap

/-- Cancelling signals only a child that was not reaped. -/
theorem childRecorded_cancel {p : Process} (h : ChildRecorded p log) (grace now : Int) :
    ChildRecorded (p.cancel grace now).1 (log ++ (p.cancel grace now).2.1) := by
  unfold Process.cancel
  split
  · simpa using h
  · dsimp only
    split
    · rw [append_nil]
      exact h.same rfl rfl rfl rfl
    · split
      · rw [append_nil]
        split <;> exact h.same rfl rfl rfl rfl
      · next hreaped heffective =>
        rw [Bool.not_eq_true] at hreaped
        have hcancelled : ChildRecorded { p with cancelEffective := true } (log ++ [.cancelled]) :=
          h.append (by simp) (by simp) rfl rfl (by simp) (by simp)
        have hsignalled : ChildRecorded { p with cancelEffective := true }
            (log ++ [.cancelled] ++ [.signalled (if grace = 0 then .kill else .term)]) :=
          hcancelled.append (by simp) (fun _ _ => hreaped) rfl rfl (by simp) (by simp)
        rw [append_assoc] at hsignalled
        exact hsignalled.same rfl rfl rfl rfl

theorem childRecorded_close {p : Process} (h : ChildRecorded p log) :
    ChildRecorded p.close.1 (log ++ p.close.2) := by
  have hclosing : ChildRecorded { p with closing := true } (log ++ [.closing]) :=
    h.append (by simp) (by simp) rfl rfl (by simp) (by simp)
  unfold Process.close
  split
  · simpa using h
  · split
    · next hrunning =>
      simp only [Bool.and_eq_true, Bool.not_eq_true'] at hrunning
      have hcancelled : ChildRecorded { p with closing := true, cancelEffective := true }
          (log ++ [.closing] ++ [.cancelled]) :=
        hclosing.append (by simp) (by simp) rfl rfl (by simp) (by simp)
      cases hkilled : p.killed with
      | true =>
        rw [append_assoc] at hcancelled
        exact hcancelled.same rfl rfl rfl rfl
      | false =>
        have hsignalled : ChildRecorded { p with closing := true, cancelEffective := true }
            (log ++ [.closing] ++ [.cancelled] ++ [.signalled .kill]) :=
          hcancelled.append (by simp) (fun _ _ => hrunning.1) rfl rfl (by simp) (by simp)
        rw [append_assoc, append_assoc] at hsignalled
        exact hsignalled.same rfl rfl rfl rfl
    · exact hclosing

/-! ## The queue -/

/-- The event the pump has read and not yet appended. -/
def Pump.pending (pump : Pump) : List Event :=
  match pump.phase with
  | .append kind data _ => [.output kind data]
  | _ => []

/-- The completion event, once there is one. -/
def Process.completion (p : Process) : List Event := if p.completed then [.completed] else []

/-- Occurrences that are no read, append or return. -/
def Quiet (occurrences : List Occurrence) : Prop :=
  readEvents occurrences = [] ∧ appendedEvents occurrences = [] ∧ takenEvents occurrences = []

/-- A section leaves the queue alone. -/
structure KeepsQueue (p : Process) (after : Process × List Occurrence) : Prop where
  queue : after.1.queue = p.queue
  completed : after.1.completed = p.completed
  completionTaken : after.1.completionTaken = p.completionTaken
  quiet : Quiet after.2

structure Recorded (p : Process) (pump : Pump) (log : List Occurrence) : Prop where
  child : ChildRecorded p log
  queue : appendedEvents log = takenEvents log ++ p.queue
  chunks : appendedEvents log ++ pump.pending = readEvents log ++ p.completion
  completed : p.completed = true ↔ pump.phase = .returned
  taken : p.completionTaken = true ↔ .completed ∈ takenEvents log

theorem readEvents_append (log occurrences : List Occurrence) :
    readEvents (log ++ occurrences) = readEvents log ++ readEvents occurrences :=
    List.filterMap_append

theorem appendedEvents_append (log occurrences : List Occurrence) :
    appendedEvents (log ++ occurrences) = appendedEvents log ++ appendedEvents occurrences :=
  List.filterMap_append

theorem takenEvents_append (log occurrences : List Occurrence) :
    takenEvents (log ++ occurrences) = takenEvents log ++ takenEvents occurrences :=
    List.filterMap_append

theorem readEvents_singleton (occurrence : Occurrence) :
    readEvents [occurrence] = occurrence.readEvent?.toList := by
  unfold readEvents
  cases h : occurrence.readEvent? <;> simp [h]

theorem appendedEvents_singleton (occurrence : Occurrence) :
    appendedEvents [occurrence] = occurrence.appendedEvent?.toList := by
  unfold appendedEvents
  cases h : occurrence.appendedEvent? <;> simp [h]

theorem takenEvents_singleton (occurrence : Occurrence) :
    takenEvents [occurrence] = occurrence.takenEvent?.toList := by
  unfold takenEvents
  cases h : occurrence.takenEvent? <;> simp [h]

/-- A section that leaves the queue alone keeps the whole record. -/
theorem Recorded.keeps {p : Process} (h : Recorded p pump log) {after : Process × List Occurrence}
    (hsection : KeepsQueue p after) (hchild : ChildRecorded after.1 (log ++ after.2))
    (hpending : pump'.pending = pump.pending)
    (hphase : pump'.phase = .returned ↔ pump.phase = .returned) :
    Recorded after.1 pump' (log ++ after.2) where
  child := hchild
  queue := by
    rw [appendedEvents_append, takenEvents_append, hsection.quiet.2.1, hsection.quiet.2.2,
      hsection.queue,
      append_nil, append_nil, h.queue]
  chunks := by
    rw [appendedEvents_append, readEvents_append, hsection.quiet.1, hsection.quiet.2.1, hpending,
      Process.completion, hsection.completed, append_nil, append_nil]
    exact h.chunks
  completed := by rw [hsection.completed, hphase, h.completed]
  taken := by
    rw [hsection.completionTaken, takenEvents_append, hsection.quiet.2.2, append_nil, h.taken]

theorem keepsQueue_reap (p : Process) (waited : Waited) (now : Int) :
    KeepsQueue p (p.reap waited now) := by
  unfold Process.reap
  split
  · exact ⟨rfl, rfl, rfl, rfl, rfl, rfl⟩
  · cases waited with
    | nothing => exact ⟨by simp [Process.recordStatus], by simp [Process.recordStatus],
        by simp [Process.recordStatus], rfl, rfl, rfl⟩
    | failed errorNumber => exact ⟨by simp, by simp, by simp, rfl, rfl, rfl⟩
    | exited code =>
      dsimp only
      split <;> exact ⟨rfl, rfl, rfl, rfl, rfl, rfl⟩
    | signaled signal =>
      dsimp only
      split <;> exact ⟨rfl, rfl, rfl, rfl, rfl, rfl⟩
    | other => exact ⟨by simp [Process.recordStatus], by simp [Process.recordStatus],
        by simp [Process.recordStatus], rfl, rfl, rfl⟩

theorem keepsQueue_check (p : Process) (waited : Waited) (now : Int) :
    KeepsQueue p ((p.check waited now).1, (p.check waited now).2.1) := by
  have hreap := keepsQueue_reap p waited now
  obtain ⟨hread, happended, htaken⟩ := hreap.quiet
  simp only [Process.check]
  split
  · refine ⟨hreap.queue, hreap.completed, hreap.completionTaken, ?_, ?_, ?_⟩
    · rw [readEvents_append, hread]
      rfl
    · rw [appendedEvents_append, happended]
      rfl
    · rw [takenEvents_append, htaken]
      rfl
  · rw [append_nil]
    exact hreap

theorem keepsQueue_cancel (p : Process) (grace now : Int) :
    KeepsQueue p ((p.cancel grace now).1, (p.cancel grace now).2.1) := by
  unfold Process.cancel
  split
  · exact ⟨rfl, rfl, rfl, rfl, rfl, rfl⟩
  · dsimp only
    split
    · exact ⟨rfl, rfl, rfl, rfl, rfl, rfl⟩
    · split
      · split <;> exact ⟨rfl, rfl, rfl, rfl, rfl, rfl⟩
      · exact ⟨rfl, rfl, rfl, rfl, rfl, rfl⟩

theorem keepsQueue_close (p : Process) : KeepsQueue p p.close := by
  unfold Process.close
  split
  · exact ⟨rfl, rfl, rfl, rfl, rfl, rfl⟩
  · split
    · cases p.killed <;> exact ⟨rfl, rfl, rfl, rfl, rfl, rfl⟩
    · exact ⟨rfl, rfl, rfl, rfl, rfl, rfl⟩

/-! ## Steps -/

theorem Recorded.silent {p : Process} (h : Recorded p pump log) (hchild : ChildRecorded p' log)
    (hkeeps : KeepsQueue p (p', [])) (hpending : pump'.pending = pump.pending)
    (hphase : pump'.phase = .returned ↔ pump.phase = .returned) :
    Recorded p' pump' log := by
  have hkept := h.keeps hkeeps (by rwa [append_nil]) hpending hphase
  rwa [append_nil] at hkept

theorem Recorded.answered {p : Process} (h : Recorded p pump log) (thread : Nat)
    (answer : Answer) : Recorded p pump (log ++ [.answered thread answer]) := by
  have hkeeps : KeepsQueue p (p, [.answered thread answer]) := ⟨rfl, rfl, rfl, rfl, rfl, rfl⟩
  have hchild : ChildRecorded p (log ++ [.answered thread answer]) := by
    apply h.child.other <;> rfl
  exact h.keeps hkeeps hchild rfl Iff.rfl

/-- Taking hands over the oldest event. -/
theorem Recorded.take {p : Process} (h : Recorded p pump log) (thread : Nat) (timeout : Int) :
    Recorded p.take.1 pump (log ++ [.returned thread timeout p.take.2]) := by
  unfold Process.take
  split
  · have hkeeps : KeepsQueue p (p, [.returned thread timeout none]) :=
      ⟨rfl, rfl, rfl, rfl, rfl, rfl⟩
    have hchild : ChildRecorded p (log ++ [.returned thread timeout none]) := by
      apply h.child.other <;> rfl
    exact h.keeps hkeeps hchild rfl Iff.rfl
  · next event rest hqueue =>
    have htaken : takenEvents (log ++ [.returned thread timeout (some event)]) =
        takenEvents log ++ [event] := by
      rw [takenEvents_append, takenEvents_singleton]
      rfl
    have happended : appendedEvents (log ++ [.returned thread timeout (some event)]) =
        appendedEvents log := by
      rw [appendedEvents_append, appendedEvents_singleton]
      exact append_nil _
    have hread : readEvents (log ++ [.returned thread timeout (some event)]) = readEvents log := by
      rw [readEvents_append, readEvents_singleton]
      exact append_nil _
    constructor
    case child => apply h.child.other <;> rfl
    case queue => rw [happended, htaken, h.queue, hqueue, append_assoc, List.singleton_append]
    case chunks =>
      rw [happended, hread]
      exact h.chunks
    case completed => exact h.completed
    case taken =>
      rw [htaken, mem_append, ← h.taken, List.mem_singleton, Bool.or_eq_true, beq_iff_eq]
      exact or_congr_right eq_comm

/-- Bytes that were read become the pending event. -/
theorem Recorded.read {p : Process} (h : Recorded p pump log) (hpending : pump.pending = [])
    (hphase : pump.phase ≠ .returned) (kind : Stream) (data : List UInt8) (pass : Nat) :
    Recorded p { pump with phase := .append kind data pass } (log ++ [.read kind data]) := by
  have hcompleted : p.completed = false := by
    rw [← Bool.not_eq_true, h.completed]
    exact hphase
  have happended : appendedEvents (log ++ [.read kind data]) = appendedEvents log := by
    rw [appendedEvents_append, appendedEvents_singleton]
    exact append_nil _
  have htaken : takenEvents (log ++ [.read kind data]) = takenEvents log := by
    rw [takenEvents_append, takenEvents_singleton]
    exact append_nil _
  constructor
  case child => apply h.child.other <;> rfl
  case queue => rw [happended, htaken, h.queue]
  case chunks =>
    have hchunks := h.chunks
    rw [hpending, Process.completion, hcompleted, if_neg Bool.false_ne_true, append_nil,
      append_nil] at hchunks
    rw [happended, readEvents_append, readEvents_singleton, Process.completion, hcompleted,
      if_neg Bool.false_ne_true, append_nil, hchunks]
    rfl
  case completed => simp [hcompleted]
  case taken => rw [htaken, h.taken]

/-- The pending event goes behind all others of the queue. -/
theorem Recorded.append {p : Process} {event : Event} (h : Recorded p pump log)
    (hchild : ChildRecorded p' (log ++ [.appended event])) (hqueue : p'.queue = p.queue ++ [event])
    (hcompletionTaken : p'.completionTaken = p.completionTaken) (hpending' : pump'.pending = [])
    (hcompleted : p'.completed = true ↔ pump'.phase = .returned) (hnone : p.completion = [])
    (hevent : pump.pending ++ p'.completion = [event]) :
    Recorded p' pump' (log ++ [.appended event]) := by
  have happended : appendedEvents (log ++ [.appended event]) = appendedEvents log ++ [event] := by
    rw [appendedEvents_append, appendedEvents_singleton]
    rfl
  have htaken : takenEvents (log ++ [.appended event]) = takenEvents log := by
    rw [takenEvents_append, takenEvents_singleton]
    exact append_nil _
  have hread : readEvents (log ++ [.appended event]) = readEvents log := by
    rw [readEvents_append, readEvents_singleton]
    exact append_nil _
  constructor
  case child => exact hchild
  case queue => rw [happended, htaken, h.queue, hqueue, append_assoc]
  case chunks =>
    calc appendedEvents (log ++ [.appended event]) ++ pump'.pending
        = appendedEvents log ++ (pump.pending ++ p'.completion) := by
          rw [happended, hpending', append_nil, hevent]
      _ = readEvents log ++ p.completion ++ p'.completion := by rw [← append_assoc, h.chunks]
      _ = readEvents (log ++ [.appended event]) ++ p'.completion := by rw [hnone, hread, append_nil]
  case completed => exact hcompleted
  case taken => rw [hcompletionTaken, htaken, h.taken]

@[simp] theorem pending_afterDrain (pump : Pump) (kind : Stream) : (pump.afterDrain kind).pending =
    [] := by
  cases kind with
  | stdout => cases h : pump.stderrOpen <;> simp [Pump.afterDrain, Pump.pending, h]
  | stderr => rfl

theorem afterDrain_ne_returned (pump : Pump) (kind : Stream) : (pump.afterDrain kind).phase ≠
    .returned := by
  cases kind with
  | stdout => cases h : pump.stderrOpen <;> simp [Pump.afterDrain, h]
  | stderr => simp [Pump.afterDrain]

/-- Every step of the pump keeps the record. -/
theorem pumpStep_recorded {s s' : System} {answers : Answers} (h : Recorded s.process s.pump s.log)
    (hstep : s.pumpStep answers = .ok s') : Recorded s'.process s'.pump s'.log := by
  -- A phase in which the pump holds no chunk goes to another such phase.
  have hmove : ∀ pump' : Pump, s.pump.pending = [] → pump'.pending = [] → s.pump.phase ≠ .returned →
      pump'.phase ≠ .returned → Recorded s.process pump' s.log := by
    intro pump' hpending hpending' hphase hphase'
    exact h.silent h.child ⟨rfl, rfl, rfl, rfl, rfl, rfl⟩ (hpending'.trans hpending.symm)
      (iff_of_false hphase' hphase)
  unfold System.pumpStep at hstep
  cases hphase : s.pump.phase with
  | poll =>
    have hpending : s.pump.pending = [] := by simp [Pump.pending, hphase]
    simp only [hphase] at hstep
    split at hstep
    · obtain rfl := Except.ok.inj hstep
      exact hmove _ hpending rfl (by simp [hphase]) (by simp)
    · obtain rfl := Except.ok.inj hstep
      exact hmove _ hpending (by simp) (by simp [hphase]) (afterDrain_ne_returned _ _)
  | drain kind pass =>
    have hpending : s.pump.pending = [] := by simp [Pump.pending, hphase]
    simp only [hphase] at hstep
    split at hstep
    · cases hread : answers.read with
      | data first rest =>
        rw [hread] at hstep
        obtain rfl := Except.ok.inj hstep
        exact h.read hpending (by simp [hphase]) kind (first :: rest) pass
      | endOfFile =>
        rw [hread] at hstep
        obtain rfl := Except.ok.inj hstep
        exact hmove _ hpending (by simp) (by simp [hphase]) (afterDrain_ne_returned _ _)
      | interrupted =>
        rw [hread] at hstep
        obtain rfl := Except.ok.inj hstep
        exact hmove _ hpending rfl (by simp [hphase]) (by simp)
      | wouldBlock =>
        rw [hread] at hstep
        obtain rfl := Except.ok.inj hstep
        exact hmove _ hpending (by simp) (by simp [hphase]) (afterDrain_ne_returned _ _)
      | failed errorNumber =>
        rw [hread] at hstep
        obtain rfl := Except.ok.inj hstep
        exact hmove _ hpending rfl (by simp [hphase]) (by simp)
    · obtain rfl := Except.ok.inj hstep
      exact hmove _ hpending (by simp) (by simp [hphase]) (afterDrain_ne_returned _ _)
  | append kind data pass =>
    simp only [hphase] at hstep
    obtain rfl := Except.ok.inj hstep
    have hcompleted : s.process.completed = false := by
      rw [← Bool.not_eq_true, h.completed, hphase]
      simp
    have hchild : ChildRecorded (s.process.appendEvent (.output kind data))
        (s.log ++ [.appended (.output kind data)]) := by
      apply h.child.other <;> rfl
    refine h.append hchild rfl rfl rfl ?_ ?_ ?_
    · simp [System.leave, Process.appendEvent, hcompleted]
    · simp [Process.completion, hcompleted]
    · simp [Pump.pending, hphase, Process.completion, System.leave, Process.appendEvent, hcompleted]
  | readFailed kind errorNumber =>
    have hpending : s.pump.pending = [] := by simp [Pump.pending, hphase]
    simp only [hphase] at hstep
    obtain rfl := Except.ok.inj hstep
    refine h.silent (h.child.same (by simp) (by simp) (by simp) (by simp))
      ⟨by simp, by simp, by simp, rfl, rfl, rfl⟩ (by simp [hpending]) ?_
    exact iff_of_false (afterDrain_ne_returned _ _) (by simp [hphase])
  | check =>
    simp only [hphase] at hstep
    obtain rfl := Except.ok.inj hstep
    have hpending : s.pump.pending = [] := by simp [Pump.pending, hphase]
    exact h.keeps (keepsQueue_check s.process answers.waited answers.now)
      (childRecorded_check h.child answers.waited answers.now) (by rw [hpending]; rfl)
        (by simp [hphase])
  | decide abandonOutput =>
    have hpending : s.pump.pending = [] := by simp [Pump.pending, hphase]
    simp only [hphase] at hstep
    generalize (if abandonOutput then (s.pump.closeFd .stdout).closeFd .stderr else s.pump) =
      pump at hstep
    split at hstep
    · obtain rfl := Except.ok.inj hstep
      exact hmove _ hpending rfl (by simp [hphase]) (by simp)
    · obtain rfl := Except.ok.inj hstep
      exact hmove _ hpending rfl (by simp [hphase]) (by simp)
  | complete =>
    have hpending : s.pump.pending = [] := by simp [Pump.pending, hphase]
    simp only [hphase] at hstep
    obtain rfl := Except.ok.inj hstep
    have hcompleted : s.process.completed = false := by
      rw [← Bool.not_eq_true, h.completed, hphase]
      simp
    have hchild : ChildRecorded s.process.complete (s.log ++ [.appended .completed]) := by
      apply h.child.other <;> rfl
    refine h.append hchild rfl rfl rfl ?_ ?_ ?_
    · simp [System.leave, Process.complete, Process.appendEvent]
    · simp [Process.completion, hcompleted]
    · simp [hpending, Process.completion, System.leave, Process.complete, Process.appendEvent]
  | returned =>
    simp only [hphase] at hstep
    cases hstep

end Cwhip.Runtime.ProcessAsync
