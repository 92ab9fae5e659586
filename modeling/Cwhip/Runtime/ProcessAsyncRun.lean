/-
  Cwhip.Runtime.ProcessAsyncRun

  The events of a process over any run of its pump and of the threads that use it.

  A consumer that had to wait leaves its wait when there is something to return,
  but locks the process again later, and another consumer may have taken the
  event by then.  This is the only way `next` without a time limit returns null
  before the end.
-/

import Cwhip.Runtime.ProcessAsyncSound

namespace Cwhip.Runtime.ProcessAsync

open Cwhip.Lib

/-! ## The invariant -/

def System.Recorded (s : System) : Prop := ProcessAsync.Recorded s.process s.pump s.log

variable {s s' : System} {thread : Nat} {log : List Occurrence}

theorem recorded_started (h : System.Started s) : s.Recorded := by
  cases h with
  | launched pid hpid runtimeLock =>
    constructor
    case child =>
      refine ⟨fun _ => ⟨fun _ => List.not_mem_nil, rfl⟩,
        List.Pairwise.nil, by simp [Process.allocated], ?_,
        by simp [Process.allocated]⟩
      simp [Process.allocated, CancelledFirst, Precedes]
    case queue => rfl
    case chunks => rfl
    case completed => simp [Process.allocated]
    case taken => simp [Process.allocated, takenEvents]
  | failed message errorNumber runtimeLock =>
    constructor
    case child =>
      refine ⟨by simp [Process.appendEvent],
        List.pairwise_singleton _ _, by simp [Process.appendEvent, Process.allocated],
        ?_, by simp [Process.appendEvent, Process.allocated]⟩
      simp only [Process.appendEvent, CancelledFirst, Precedes]
      refine iff_of_false (by simp) ?_
      rintro ⟨waited, _, hprecedes⟩
      have hlength := hprecedes.length_le
      simp at hlength
    case queue => rfl
    case chunks => rfl
    case completed => simp [Process.appendEvent]
    case taken => simp [Process.appendEvent, Process.allocated, takenEvents, Occurrence.takenEvent?]

variable {now : Int} {progress : Progress} {action : Action}

theorem advance_recorded (h : s.Recorded)
    (hstep : s.advance thread now progress = .ok s') : s'.Recorded := by
  cases progress with
  | next timeout =>
    simp only [System.advance] at hstep
    split at hstep
    · obtain rfl := Except.ok.inj hstep
      exact h
    · obtain rfl := Except.ok.inj hstep
      exact Recorded.take h thread timeout
  | nextBlocked timeout start =>
    simp only [System.advance] at hstep
    split at hstep <;> obtain rfl := Except.ok.inj hstep <;> exact h
  | nextReacquire timeout => cases hstep
  | nextTake timeout =>
    obtain rfl := Except.ok.inj hstep
    exact Recorded.take h thread timeout
  | wait timeout =>
    simp only [System.advance] at hstep
    split at hstep
    · obtain rfl := Except.ok.inj hstep
      exact h
    · obtain rfl := Except.ok.inj hstep
      exact Recorded.answered h thread _
  | waitBlocked timeout start =>
    simp only [System.advance] at hstep
    split at hstep
    · obtain rfl := Except.ok.inj hstep
      exact Recorded.answered h thread _
    · obtain rfl := Except.ok.inj hstep
      exact h
  | cancel grace =>
    simp only [System.advance] at hstep
    split at hstep
    · obtain rfl := Except.ok.inj hstep
      exact Recorded.answered h thread _
    · obtain rfl := Except.ok.inj hstep
      have hcancel := h.keeps (keepsQueue_cancel s.process grace now)
        (childRecorded_cancel h.child grace now)
        rfl Iff.rfl
      exact hcancel.answered thread _
  | shutdown =>
    have hclose : ProcessAsync.Recorded s.process.close.1 s.pump (s.log ++ s.process.close.2) :=
      h.keeps (keepsQueue_close s.process) (childRecorded_close h.child) rfl Iff.rfl
    simp only [System.advance] at hstep
    split at hstep
    · obtain rfl := Except.ok.inj hstep
      exact hclose.silent (hclose.child.same rfl rfl rfl rfl) ⟨rfl, rfl, rfl, rfl, rfl,
        rfl⟩ rfl Iff.rfl
    · split at hstep <;> obtain rfl := Except.ok.inj hstep <;> exact hclose
  | shutdownJoin =>
    simp only [System.advance] at hstep
    split at hstep
    · obtain rfl := Except.ok.inj hstep
      exact h.silent (h.child.same rfl rfl rfl rfl) ⟨rfl, rfl, rfl, rfl, rfl, rfl⟩ rfl Iff.rfl
    · cases hstep
  | shutdownWait =>
    simp only [System.advance] at hstep
    split at hstep <;> obtain rfl := Except.ok.inj hstep <;> exact h
  | state =>
    obtain rfl := Except.ok.inj hstep
    exact Recorded.answered h thread _
  | reacquire => cases hstep

/-- The step lemma of the record; `reachable_recorded` takes it to runs. -/
theorem step_recorded (h : s.Recorded) (hstep : s.step action = .ok s') :
    s'.Recorded := by
  cases action with
  | acquire thread =>
    simp only [System.step] at hstep
    split at hstep
    · split at hstep
      · obtain rfl := Except.ok.inj hstep
        exact h
      · obtain rfl := Except.ok.inj hstep
        exact h
      · obtain rfl := Except.ok.inj hstep
        exact h
      · cases hstep
    · cases hstep
  | release thread | call thread call =>
    simp only [System.step] at hstep
    split at hstep
    · obtain rfl := Except.ok.inj hstep
      exact h
    · cases hstep
  | advance thread now =>
    simp only [System.step] at hstep
    split at hstep
    · exact advance_recorded h hstep
    · cases hstep
  | pump answers => exact pumpStep_recorded h hstep

theorem reachable_recorded (h : machine.Reachable s) : s.Recorded :=
  h.invariant (fun _ => recorded_started) fun _ _ _ => step_recorded

/-! ## Null without a time limit -/

/-- After this there is nothing more to wait for. -/
def Occurrence.ends : Occurrence → Bool
  | .returned _ _ (some .completed) | .closing => true
  | _ => false

/-- A call of `next` without a time limit returns null. -/
def Occurrence.nullUnlimited : Occurrence → Bool
  | .returned _ timeout none => decide (timeout < 0)
  | _ => false

/-- `next` without a time limit returns null only after the completion event was
    taken or the shutdown began. -/
def NullsEnded (log : List Occurrence) : Prop :=
  ∀ before null after, log = before ++ null :: after → null.nullUnlimited = true →
    ∃ occurrence ∈ before, occurrence.ends = true

/-- A consumer that comes back from a wait without a time limit finds what it
    waited for: no other one has taken it. -/
def Undisturbed (s : System) : Action → Prop
  | .advance thread _ =>
    ∀ timeout, s.calls thread = some (.nextTake timeout) → timeout < 0 → s.process.ready = true
  | _ => True

theorem nullsEnded_append_singleton {last : Occurrence} :
    NullsEnded (log ++ [last]) ↔
      NullsEnded log ∧ (last.nullUnlimited = true → ∃ occurrence ∈ log,
      occurrence.ends = true) := by
  constructor
  · intro h
    refine ⟨fun before null after heq => ?_, fun hlast => h log last [] rfl hlast⟩
    exact h before null (after ++ [last]) (by rw [heq, List.append_assoc, List.cons_append])
  · rintro ⟨h, hlast⟩ before null after heq hnull
    rcases List.eq_nil_or_concat after with rfl | ⟨rest, final, rfl⟩
    · obtain ⟨rfl, hsame⟩ := List.append_inj' heq rfl
      rw [List.singleton_inj] at hsame
      exact hlast (hsame ▸ hnull)
    · rw [List.concat_eq_append, ← List.cons_append, ← List.append_assoc] at heq
      exact h before null rest (List.append_inj' heq rfl).1 hnull

theorem nullsEnded_append {occurrences : List Occurrence}
    (h : ∀ occurrence ∈ occurrences, occurrence.nullUnlimited = false) :
    NullsEnded (log ++ occurrences) ↔ NullsEnded log := by
  induction occurrences using List.reverseRecOn with
  | nil => rw [List.append_nil]
  | append_singleton occurrences last ih =>
    rw [← List.append_assoc, nullsEnded_append_singleton, h last (by simp)]
    simpa using ih fun occurrence hmem => h occurrence (by simp [hmem])

theorem exists_ends_iff (h : s.Recorded) :
    (∃ occurrence ∈ s.log, occurrence.ends = true) ↔
      s.process.completionTaken = true ∨ s.process.closing = true := by
  rw [h.taken, h.child.closing, takenEvents, List.mem_filterMap]
  constructor
  · rintro ⟨occurrence, hmem, hends⟩
    cases occurrence with
    | returned thread timeout event =>
      cases event with
      | none => cases hends
      | some event =>
        cases event with
        | output kind data => cases hends
        | completed => exact .inl ⟨_, hmem, rfl⟩
    | closing => exact .inr hmem
    | _ => cases hends
  · rintro (⟨occurrence, hmem, htaken⟩ | hclosing)
    · cases occurrence with
      | returned thread timeout event =>
        cases event with
        | none => cases htaken
        | some event =>
          cases htaken
          exact ⟨_, hmem, rfl⟩
      | _ => cases htaken
    · exact ⟨_, hclosing, rfl⟩

theorem nullsEnded_take (h : s.Recorded) (thread : Nat) (timeout : Int) :
    NullsEnded (s.takeEvent thread timeout).log ↔
      NullsEnded s.log ∧ (timeout < 0 → s.process.ready = true) := by
  show NullsEnded (s.log ++ [.returned thread timeout s.process.take.2]) ↔ _
  rw [nullsEnded_append_singleton, exists_ends_iff h]
  refine and_congr_right fun _ => ?_
  cases hqueue : s.process.queue with
  | nil | cons event rest => simp [Process.take, hqueue, Occurrence.nullUnlimited, Process.ready]

theorem nullUnlimited_reap (p : Process) (waited : Waited) (now : Int) :
    ∀ occurrence ∈ (p.reap waited now).2, occurrence.nullUnlimited = false := by
  unfold Process.reap
  split
  · simp
  · cases waited <;> simp [Occurrence.nullUnlimited]

theorem nullUnlimited_check (p : Process) (waited : Waited) (now : Int) :
    ∀ occurrence ∈ (p.check waited now).2.1, occurrence.nullUnlimited = false := by
  simp only [Process.check]
  intro occurrence hmem
  rcases List.mem_append.mp hmem with hmem | hmem
  · exact nullUnlimited_reap p waited now occurrence hmem
  · split at hmem
    · rw [List.mem_singleton.mp hmem]
      rfl
    · cases hmem

theorem nullUnlimited_cancel (p : Process) (grace now : Int) :
    ∀ occurrence ∈ (p.cancel grace now).2.1, occurrence.nullUnlimited = false := by
  unfold Process.cancel
  split
  · simp
  · dsimp only
    split
    · simp
    · split
      · simp
      · simp [Occurrence.nullUnlimited]

theorem nullUnlimited_close (p : Process) :
    ∀ occurrence ∈ p.close.2, occurrence.nullUnlimited = false := by
  unfold Process.close
  split
  · simp
  · split
    · cases p.killed <;> simp [Occurrence.nullUnlimited]
    · simp [Occurrence.nullUnlimited]

theorem nullsEnded_answered {answer : Answer} :
    NullsEnded (log ++ [.answered thread answer]) ↔ NullsEnded log :=
  nullsEnded_append (by simp [Occurrence.nullUnlimited])

theorem nullsEnded_advance (h : s.Recorded) (hprogress : ∀ timeout, progress ≠ .nextTake timeout)
    (hstep : s.advance thread now progress = .ok s') : NullsEnded s'.log ↔ NullsEnded s.log := by
  cases progress with
  | next timeout =>
    simp only [System.advance] at hstep
    split at hstep
    · obtain rfl := Except.ok.inj hstep
      exact Iff.rfl
    · next hready =>
      obtain rfl := Except.ok.inj hstep
      rw [nullsEnded_take h]
      refine and_iff_left fun hnegative => ?_
      simp only [Bool.and_eq_true, Bool.not_eq_true', decide_eq_true_eq, not_and, not_not] at hready
      cases hpredicate : s.process.ready with
      | true => rfl
      | false =>
        have hzero := hready hpredicate
        omega
  | nextBlocked timeout start =>
    simp only [System.advance] at hstep
    split at hstep <;> obtain rfl := Except.ok.inj hstep <;> exact Iff.rfl
  | nextReacquire timeout => cases hstep
  | nextTake timeout => exact absurd rfl (hprogress timeout)
  | wait timeout =>
    simp only [System.advance] at hstep
    split at hstep
    · obtain rfl := Except.ok.inj hstep
      exact Iff.rfl
    · obtain rfl := Except.ok.inj hstep
      exact nullsEnded_answered
  | waitBlocked timeout start =>
    simp only [System.advance] at hstep
    split at hstep
    · obtain rfl := Except.ok.inj hstep
      exact nullsEnded_answered
    · obtain rfl := Except.ok.inj hstep
      exact Iff.rfl
  | cancel grace =>
    simp only [System.advance] at hstep
    split at hstep
    · obtain rfl := Except.ok.inj hstep
      exact nullsEnded_answered
    · obtain rfl := Except.ok.inj hstep
      exact nullsEnded_answered.trans (nullsEnded_append (nullUnlimited_cancel s.process grace now))
  | shutdown =>
    have hclose : NullsEnded (s.log ++ s.process.close.2) ↔ NullsEnded s.log :=
      nullsEnded_append (nullUnlimited_close s.process)
    simp only [System.advance] at hstep
    split at hstep
    · obtain rfl := Except.ok.inj hstep
      exact hclose
    · split at hstep <;> obtain rfl := Except.ok.inj hstep <;> exact hclose
  | shutdownJoin =>
    simp only [System.advance] at hstep
    split at hstep
    · obtain rfl := Except.ok.inj hstep
      exact Iff.rfl
    · cases hstep
  | shutdownWait =>
    simp only [System.advance] at hstep
    split at hstep <;> obtain rfl := Except.ok.inj hstep <;> exact Iff.rfl
  | state =>
    obtain rfl := Except.ok.inj hstep
    exact nullsEnded_answered
  | reacquire => cases hstep

theorem nullsEnded_pumpStep {answers : Answers} (hstep : s.pumpStep answers = .ok s') :
    NullsEnded s'.log ↔ NullsEnded s.log := by
  unfold System.pumpStep at hstep
  split at hstep
  · split at hstep <;> obtain rfl := Except.ok.inj hstep <;> exact Iff.rfl
  · split at hstep
    · split at hstep
      · obtain rfl := Except.ok.inj hstep
        exact nullsEnded_append (by simp [Occurrence.nullUnlimited])
      all_goals
        obtain rfl := Except.ok.inj hstep
        exact Iff.rfl
    · obtain rfl := Except.ok.inj hstep
      exact Iff.rfl
  · obtain rfl := Except.ok.inj hstep
    exact nullsEnded_append (by simp [Occurrence.nullUnlimited])
  · obtain rfl := Except.ok.inj hstep
    exact Iff.rfl
  · obtain rfl := Except.ok.inj hstep
    exact nullsEnded_append (nullUnlimited_check s.process answers.waited answers.now)
  · next abandonOutput hphase =>
    dsimp only at hstep
    generalize (if abandonOutput then (s.pump.closeFd .stdout).closeFd .stderr else s.pump) =
      pump at hstep
    split at hstep <;> obtain rfl := Except.ok.inj hstep <;> exact Iff.rfl
  · obtain rfl := Except.ok.inj hstep
    exact nullsEnded_append (by simp [Occurrence.nullUnlimited])
  · cases hstep

/-- A step breaks it exactly if the consumer is disturbed. -/
theorem nullsEnded_step (h : s.Recorded) (hstep : s.step action = .ok s') :
    NullsEnded s'.log ↔ NullsEnded s.log ∧ Undisturbed s action := by
  cases action with
  | acquire thread =>
    refine (iff_of_eq (congrArg NullsEnded ?_)).trans (iff_of_eq (and_true _)).symm
    simp only [System.step] at hstep
    split at hstep
    · split at hstep
      · obtain rfl := Except.ok.inj hstep
        rfl
      · obtain rfl := Except.ok.inj hstep
        rfl
      · obtain rfl := Except.ok.inj hstep
        rfl
      · cases hstep
    · cases hstep
  | release thread | call thread call =>
    refine (iff_of_eq (congrArg NullsEnded ?_)).trans (iff_of_eq (and_true _)).symm
    simp only [System.step] at hstep
    split at hstep
    · obtain rfl := Except.ok.inj hstep
      rfl
    · cases hstep
  | advance thread now =>
    simp only [System.step] at hstep
    split at hstep
    · next progress hprogress =>
      by_cases htake : ∃ timeout, progress = .nextTake timeout
      · obtain ⟨timeout, rfl⟩ := htake
        obtain rfl := Except.ok.inj hstep
        rw [nullsEnded_take h]
        refine and_congr_right fun _ => ?_
        simp only [Undisturbed, hprogress, Option.some.injEq, Progress.nextTake.injEq]
        exact ⟨fun hready _ heq => heq ▸ hready, fun hready => hready timeout rfl⟩
      · rw [not_exists] at htake
        rw [nullsEnded_advance h htake hstep]
        refine (and_iff_left fun timeout heq => ?_).symm
        rw [hprogress, Option.some.injEq] at heq
        exact absurd heq (htake timeout)
    · cases hstep
  | pump answers => exact (nullsEnded_pumpStep hstep).trans (iff_of_eq (and_true _)).symm

/-! ## The protocol -/

theorem completed_notMem_readEvents (log : List Occurrence) : Event.completed ∉ readEvents log := by
  intro hmem
  obtain ⟨occurrence, _, hread⟩ := List.mem_filterMap.mp hmem
  cases occurrence <;> cases hread

/-- The events and signals of a process, in one state of a run. -/
structure Protocol (s : System) : Prop where
  /-- Every chunk read is taken by one call of `next`, or queued, or held by the
      pump, in the order they were read; the completion event comes after them. -/
  delivered : takenEvents s.log ++ s.process.queue ++ s.pump.pending =
    readEvents s.log ++ s.process.completion
  /-- They were appended in this order. -/
  appended : appendedEvents s.log = takenEvents s.log ++ s.process.queue
  /-- Nothing follows the completion event. -/
  completion : s.process.completed = true → appendedEvents s.log = readEvents s.log ++ [.completed]
  /-- Before the end there is none. -/
  incomplete : s.process.completed = false → .completed ∉ appendedEvents s.log
  /-- When it has been taken, so has every chunk. -/
  drained : s.process.completionTaken = true → takenEvents s.log = readEvents s.log ++ [.completed]
  signals : s.log.Pairwise NoSignalAfter
  finalState : s.process.completed = true → (s.process.asyncState = .cancelled ↔
    CancelledFirst s.log)

theorem Recorded.protocol (h : s.Recorded) : Protocol s := by
  have hdelivered : takenEvents s.log ++ s.process.queue ++ s.pump.pending =
      readEvents s.log ++ s.process.completion := by rw [← h.queue, h.chunks]
  have hcompletion : s.process.completed = true → appendedEvents s.log = readEvents s.log ++
      [.completed] := by
    intro hcompleted
    have hpending : s.pump.pending = [] := by simp [Pump.pending, h.completed.mp hcompleted]
    have hchunks := h.chunks
    rwa [hpending, List.append_nil, Process.completion, if_pos hcompleted] at hchunks
  have hincomplete : s.process.completed = false → .completed ∉ appendedEvents s.log := by
    intro hcompleted hmem
    have hchunks := h.chunks
    rw [Process.completion, hcompleted, if_neg Bool.false_ne_true, List.append_nil] at hchunks
    exact completed_notMem_readEvents s.log (hchunks ▸ List.mem_append_left _ hmem)
  constructor
  case delivered => exact hdelivered
  case appended => exact h.queue
  case completion => exact hcompletion
  case incomplete => exact hincomplete
  case drained =>
    intro htaken
    have hmem := h.taken.mp htaken
    have hcompleted : s.process.completed = true := by
      by_contra hopen
      rw [Bool.not_eq_true] at hopen
      exact hincomplete hopen (h.queue ▸ List.mem_append_left _ hmem)
    have happended := hcompletion hcompleted
    rw [h.queue] at happended
    -- the completion event is the last of all, so nothing is queued behind it
    rcases List.eq_nil_or_concat s.process.queue with hqueue | ⟨rest, last, hqueue⟩
    · rwa [hqueue, List.append_nil] at happended
    · rw [hqueue, List.concat_eq_append, ← List.append_assoc] at happended
      have hbefore := (List.append_inj' happended rfl).1
      exact absurd (hbefore ▸ List.mem_append_left rest hmem) (completed_notMem_readEvents s.log)
  case signals => exact h.child.signals
  case finalState =>
    intro hcompleted
    rw [Process.asyncState, if_pos hcompleted]
    exact h.child.cancelled

theorem nullsEnded_started (h : System.Started s) : NullsEnded s.log := by
  cases h with
  | launched pid hpid runtimeLock =>
    intro before null after heq
    simp at heq
  | failed message errorNumber runtimeLock =>
    show NullsEnded ([] ++ [Occurrence.appended .completed])
    rw [nullsEnded_append_singleton]
    refine ⟨fun before null after heq => ?_, fun h => nomatch h⟩
    simp at heq

/-- In every run the events are delivered as promised and no reaped child is
    signalled; and no call of `next` without a time limit returns null too early
    exactly if every consumer that had to wait comes back undisturbed. -/
theorem async_protocol {s₀ s : System} {actions : List Action} (hstart : System.Started s₀)
    (hrun : machine.exec s₀ actions = .ok s) :
    Protocol s ∧ (NullsEnded s.log ↔ machine.Along Undisturbed s₀ actions) := by
  have hrecorded : s.Recorded := reachable_recorded (Machine.Reachable.exec hstart hrun)
  refine ⟨Recorded.protocol hrecorded, ?_⟩
  have hiff := Machine.exec_iff_along (fun _ _ _ => step_recorded) (fun _ _ _ => nullsEnded_step)
    (recorded_started hstart) hrun
  rw [hiff]
  exact and_iff_right (nullsEnded_started hstart)

/-! ## Two consumers -/

/-- A process right after its launch. -/
def justLaunched : System :=
  ⟨{ Process.allocated with pumpStarted := true, pid := 7 }, ⟨.poll, true, true⟩, none,
    fun _ => none, []⟩

theorem started_justLaunched : System.Started justLaunched := .launched 7 (by decide) none

/-- A thread calls `next` without a time limit and has to wait. -/
def callNext (thread : Nat) : List Action :=
  [.acquire thread, .call thread (.next (-1)), .advance thread 0]

/-- Two threads wait, and both are woken by one chunk. -/
def oneChunk : List Action :=
  callNext 1 ++ callNext 2 ++
  [.pump ⟨.wouldBlock, .nothing, 0⟩, .pump ⟨.data 104 [105], .nothing, 0⟩,
    .pump ⟨.wouldBlock, .nothing, 0⟩,
    .advance 1 0, .advance 2 0, .acquire 1, .advance 1 0, .release 1, .acquire 2, .advance 2 0]

theorem oneChunk_log : ∃ s, machine.exec justLaunched oneChunk = .ok s ∧
    s.log = [.read .stdout [104, 105], .appended (.output .stdout [104, 105]),
      .returned 1 (-1) (some (.output .stdout [104, 105])), .returned 2 (-1) none] :=
  ⟨_, rfl, rfl⟩

/-- The second one returns null, while the child is running. -/
theorem next_returns_early : ¬ ∀ s, machine.Reachable s → NullsEnded s.log := by
  intro h
  obtain ⟨s, hrun, hlog⟩ := oneChunk_log
  have hended := h s (Machine.Reachable.exec started_justLaunched hrun)
  rw [hlog] at hended
  obtain ⟨occurrence, hmem, hends⟩ := hended [.read .stdout [104, 105],
    .appended (.output .stdout [104, 105]), .returned 1 (-1) (some (.output .stdout [104, 105]))]
    (.returned 2 (-1) none) [] rfl rfl
  revert occurrence
  decide

theorem oneChunk_protocol : ∃ s, machine.exec justLaunched oneChunk = .ok s ∧ Protocol s ∧
    (NullsEnded s.log ↔ machine.Along Undisturbed justLaunched oneChunk) := by
  obtain ⟨s, hrun, _⟩ := oneChunk_log
  exact ⟨s, hrun, async_protocol started_justLaunched hrun⟩

end Cwhip.Runtime.ProcessAsync
