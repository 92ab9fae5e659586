/-
  Cwhip.Runtime.ProcessAsync

  Asynchronous child processes (`RuntimeProcessAsync.c`): the pump thread of one
  process and any number of threads that call `next`, `wait`, `cancel`,
  `shutdown` and `state`.

  Every section under the lock of the process is one step.  What the system
  answers (reads, `waitpid`, the clock) comes with the step that asks for it, and
  a thread in a condition wait may test its predicate at any time.  The clock is
  read once a section.  Memory allocation succeeds; the reference count only
  keeps the object alive and is left out, and so is what the pump polls for.
-/

import Cwhip.Lib.Machine

namespace Cwhip.Runtime.ProcessAsync

open Cwhip.Lib

/-! ## Processes -/

inductive Stream where
  | stdout
  | stderr
  deriving DecidableEq, Repr

/-- A `CwhipProcessEvent`. -/
inductive Event where
  | output (kind : Stream) (data : List UInt8)
  | completed
  deriving DecidableEq, Repr

inductive ProcessState where
  | running
  | exited
  | signaled
  | cancelled
  | launchFailed
  | waitFailed
  deriving DecidableEq, Repr

/-- The message of an error and its number. -/
structure ProcessError where
  message : String
  errorNumber : Int
  deriving DecidableEq, Repr

/-- A `CwhipAsyncProcess`, without what only the pump uses. -/
structure Process where
  pumpStarted : Bool
  pumpJoining : Bool
  pumpJoined : Bool
  pid : Int
  /-- `head` to `tail`. -/
  queue : List Event
  reaped : Bool
  completed : Bool
  completionTaken : Bool
  closing : Bool
  cancelRequested : Bool
  cancelEffective : Bool
  killed : Bool
  killDeadline : Int
  cancelTime : Int
  reapTime : Int
  state : ProcessState
  exitCode : Int
  signalNumber : Int
  error : Option ProcessError
  deriving DecidableEq, Repr

/-- What `waitpid` gives with `WNOHANG`. -/
inductive Waited where
  /-- The child is still running. -/
  | nothing
  | failed (errorNumber : Int)
  | exited (code : Int)
  | signaled (signal : Int)
  /-- Neither `WIFEXITED` nor `WIFSIGNALED`. -/
  | other
  deriving DecidableEq, Repr

/-- The child was reaped with a status. -/
def Waited.succeeded : Waited → Bool
  | .exited _ | .signaled _ => true
  | _ => false

inductive Signal where
  | term
  | kill
  deriving DecidableEq, Repr

/-- What a call other than `next` returns. -/
inductive Answer where
  | completed (completed : Bool)
  | accepted (accepted : Bool)
  | state (state : ProcessState)
  deriving DecidableEq, Repr

/-- What happens in a run, in the order it does. -/
inductive Occurrence where
  /-- The pump has read a chunk. -/
  | read (kind : Stream) (data : List UInt8)
  | appended (event : Event)
  /-- A call of `next` takes an event, or returns null. -/
  | returned (thread : Nat) (timeout : Int) (event : Option Event)
  | answered (thread : Nat) (answer : Answer)
  | signalled (signal : Signal)
  | cancelled
  | reaped (waited : Waited)
  | closing
  deriving DecidableEq, Repr

/-! ## The sections under the lock -/

/-- `record_error_locked`. -/
def Process.recordError (p : Process) (message : String) (errorNumber : Int) : Process :=
  match p.error with
  | some _ => p
  | none => { p with error := some ⟨message, errorNumber⟩ }

/-- `append_event_locked`. -/
def Process.appendEvent (p : Process) (event : Event) : Process :=
  { p with queue := p.queue ++ [event] }

/-- What a status says about the child. -/
def Process.recordStatus (p : Process) : Waited → Process
  | .exited code => { p with exitCode := code, state := .exited }
  | .signaled signal => { p with signalNumber := signal, state := .signaled }
  | _ => { p with state := .waitFailed }.recordError "wait failed" 10

/-- `reap_locked`. -/
def Process.reap (p : Process) (waited : Waited) (now : Int) : Process × List Occurrence :=
  if p.reaped ∨ waited = .nothing then (p, [])
  else
    let p := { p with reaped := true, reapTime := now }
    match waited with
    | .failed errorNumber =>
      ({ p with state := .waitFailed }.recordError "wait failed" errorNumber, [.reaped waited])
    | _ =>
      let p := p.recordStatus waited
      (if p.cancelEffective ∧ p.state ≠ .waitFailed then { p with state := .cancelled } else p,
        [.reaped waited])

/-- The section of each pump iteration: reap, kill after the grace period, and
    whether the output is abandoned. -/
def Process.check (p : Process) (waited : Waited) (now : Int) : Process × List Occurrence × Bool :=
  let (p, reaped) := p.reap waited now
  let kill := !p.reaped && p.cancelEffective && !p.killed && decide (p.killDeadline ≤ now)
  let p := if kill then { p with killed := true } else p
  let since := max p.reapTime p.cancelTime
  let abandonOutput := p.reaped && (p.closing || (p.cancelRequested && decide (250 ≤ now - since)))
  (p, reaped ++ (if kill then [.signalled .kill] else []), abandonOutput)

/-- The last section of the pump. -/
def Process.complete (p : Process) : Process :=
  { p with completed := true }.appendEvent .completed

/-- The end of `cwhip_process_async_next`. -/
def Process.take (p : Process) : Process × Option Event :=
  match p.queue with
  | [] => (p, none)
  | event :: rest =>
    ({ p with queue := rest, completionTaken := p.completionTaken || event == .completed },
      some event)

/-- A call of `next` has something to return, or will never have. -/
def Process.ready (p : Process) : Bool := !p.queue.isEmpty || p.completionTaken || p.closing

/-- The section of `cwhip_process_async_cancel`, and whether the call is accepted. -/
def Process.cancel (p : Process) (grace now : Int) : Process × List Occurrence × Bool :=
  if p.completed || p.closing then (p, [], false)
  else
    let p := { p with
      cancelTime := if p.cancelRequested then p.cancelTime else now, cancelRequested := true }
    if p.reaped then (p, [], true)
    else if p.cancelEffective then
      (if !p.killed && decide (now + grace < p.killDeadline)
        then { p with killDeadline := now + grace }
        else p, [], true)
    else
      ({ p with
          cancelEffective := true, killDeadline := now + grace,
          killed := p.killed || grace == 0 },
        [.cancelled, .signalled (if grace = 0 then .kill else .term)], true)

/-- `cwhip_process_async_state`. -/
def Process.asyncState (p : Process) : ProcessState := if p.completed then p.state else .running

/-- The first part of the section of `cwhip_process_async_shutdown`. -/
def Process.close (p : Process) : Process × List Occurrence :=
  if p.closing then (p, [])
  else if !p.reaped && decide (0 < p.pid) then
    ({ p with closing := true, cancelRequested := true, cancelEffective := true, killed := true },
      [.closing, .cancelled] ++ (if p.killed then [] else [.signalled .kill]))
  else ({ p with closing := true }, [.closing])

/-! ## Threads -/

/-- How far a call is. -/
inductive Progress where
  /-- Before the first section of `next`. -/
  | next (timeout : Int)
  /-- In the wait loop of `next`, without the runtime lock. -/
  | nextBlocked (timeout start : Int)
  /-- After it, until the runtime lock is acquired. -/
  | nextReacquire (timeout : Int)
  /-- Before the second section of `next`. -/
  | nextTake (timeout : Int)
  | wait (timeout : Int)
  | waitBlocked (timeout start : Int)
  | cancel (grace : Int)
  | shutdown
  /-- In `pthread_join`. -/
  | shutdownJoin
  /-- Waits for the thread that joins. -/
  | shutdownWait
  | state
  /-- At the end of `wait` or `shutdown`, until the runtime lock is acquired. -/
  | reacquire
  deriving DecidableEq, Repr

/-- An operation that a thread calls. -/
inductive Call where
  | next (timeout : Int)
  | wait (timeout : Int)
  | cancel (grace : Int)
  | shutdown
  | state
  deriving DecidableEq, Repr

def Call.start : Call → Progress
  | .next timeout => .next timeout
  | .wait timeout => .wait timeout
  | .cancel grace => .cancel grace
  | .shutdown => .shutdown
  | .state => .state

inductive PumpPhase where
  | poll
  /-- At the head of the loop of `drain_stream`. -/
  | drain (kind : Stream) (pass : Nat)
  /-- Has read a chunk and waits for the lock. -/
  | append (kind : Stream) (data : List UInt8) (pass : Nat)
  /-- Has failed to read and waits for the lock. -/
  | readFailed (kind : Stream) (errorNumber : Int)
  | check
  | decide (abandonOutput : Bool)
  | complete
  | returned
  deriving DecidableEq, Repr

/-- The pump thread and the descriptors it owns. -/
structure Pump where
  phase : PumpPhase
  stdoutOpen : Bool
  stderrOpen : Bool
  deriving DecidableEq, Repr

/-- `close_fd`. -/
def Pump.closeFd (pump : Pump) : Stream → Pump
  | .stdout => { pump with stdoutOpen := false }
  | .stderr => { pump with stderrOpen := false }

/-- What follows `drain_stream`. -/
def Pump.afterDrain (pump : Pump) : Stream → Pump
  | .stdout => { pump with phase := if pump.stderrOpen then .drain .stderr 0 else .check }
  | .stderr => { pump with phase := .check }

/-- What `read` gives; a chunk is not empty. -/
inductive ReadResult where
  | data (first : UInt8) (rest : List UInt8)
  | endOfFile
  | interrupted
  | wouldBlock
  | failed (errorNumber : Int)
  deriving DecidableEq, Repr

/-- What the system answers to a step of the pump that asks it. -/
structure Answers where
  read : ReadResult
  waited : Waited
  now : Int
  deriving DecidableEq, Repr

/-- `READS_PER_STREAM_PASS`. -/
def readsPerStreamPass : Nat := 16

/-- A process, its pump, the threads, and what has happened. -/
structure System where
  process : Process
  pump : Pump
  /-- The thread that holds the runtime lock. -/
  runtimeLock : Option Nat
  /-- The call each thread is in. -/
  calls : Nat → Option Progress
  log : List Occurrence

/-- A step of the system. -/
inductive Action where
  /-- A thread acquires the runtime lock. -/
  | acquire (thread : Nat)
  /-- A thread outside these calls releases it. -/
  | release (thread : Nat)
  | call (thread : Nat) (call : Call)
  /-- The next step of the call of a thread, at a time of the clock. -/
  | advance (thread : Nat) (now : Int)
  /-- The next step of the pump. -/
  | pump (answers : Answers)
  deriving DecidableEq, Repr

/-- The step cannot be taken now. -/
inductive Refusal where
  | refused
  deriving DecidableEq, Repr

/-- Move on a thread. -/
def System.setCall (s : System) (thread : Nat) (progress : Option Progress) : System :=
  { s with calls := fun other => if other = thread then progress else s.calls other }

/-- A section under the lock has been left. -/
def System.leave (s : System) (left : Process × List Occurrence) : System :=
  { s with process := left.1, log := s.log ++ left.2 }

/-- `cwhip_runtime_gil_release`. -/
def System.gilRelease (s : System) : System := { s with runtimeLock := none }

/-- The end of `next`. -/
def System.takeEvent (s : System) (thread : Nat) (timeout : Int) : System :=
  let (process, event) := s.process.take
  (s.leave (process, [.returned thread timeout event])).setCall thread none

/-- The end of another call. -/
def System.answer (s : System) (thread : Nat) (answer : Answer) : System :=
  ({ s with log := s.log ++ [Occurrence.answered thread answer] }).setCall thread none

/-- `deadline_passed`. -/
def deadlinePassed (timeout start now : Int) : Bool := decide (0 ≤ timeout) &&
    decide (timeout ≤ now - start)

/-- The next step of a call that has not to acquire the runtime lock. -/
def System.advance (s : System) (thread : Nat) (now : Int) : Progress → Except Refusal System
  | .next timeout =>
    if !s.process.ready && timeout ≠ 0 then
      .ok (s.gilRelease.setCall thread (some (.nextBlocked timeout now)))
    else .ok (s.takeEvent thread timeout)
  | .nextBlocked timeout start =>
    if s.process.ready || deadlinePassed timeout start now then
      .ok (s.setCall thread (some (.nextReacquire timeout)))
    else .ok s
  | .nextTake timeout => .ok (s.takeEvent thread timeout)
  | .wait timeout =>
    if !s.process.completed && timeout ≠ 0 then
      .ok (s.gilRelease.setCall thread (some (.waitBlocked timeout now)))
    else .ok (s.answer thread (.completed s.process.completed))
  | .waitBlocked timeout start =>
    if s.process.completed || s.process.closing || deadlinePassed timeout start now then
      .ok ((s.answer thread (.completed s.process.completed)).setCall thread (some .reacquire))
    else .ok s
  | .cancel grace =>
    if grace < 0 then .ok (s.answer thread (.accepted false))
    else
      let (process, occurrences, accepted) := s.process.cancel grace now
      .ok ((s.leave (process, occurrences)).answer thread (.accepted accepted))
  | .shutdown =>
    let s := s.leave s.process.close
    let p := s.process
    if p.pumpStarted && !p.pumpJoined && !p.pumpJoining then
      .ok (({ s with process := { p with pumpJoining := true } }).gilRelease.setCall thread
        (some .shutdownJoin))
    else if p.pumpJoining && !p.pumpJoined then
      .ok (s.gilRelease.setCall thread (some .shutdownWait))
    else .ok (s.setCall thread none)
  | .shutdownJoin =>
    if s.pump.phase = .returned then
      .ok (({ s with process := { s.process with pumpJoined := true } }).setCall thread
        (some .reacquire))
    else .error .refused
  | .shutdownWait =>
    if s.process.pumpJoined then .ok (s.setCall thread (some .reacquire)) else .ok s
  | .state => .ok (s.answer thread (.state s.process.asyncState))
  | .nextReacquire _ | .reacquire => .error .refused

/-- The next step of the pump: `pump_main` and `drain_stream`. -/
def System.pumpStep (s : System) (answers : Answers) : Except Refusal System :=
  match s.pump.phase with
  | .poll =>
    if s.pump.stdoutOpen then .ok { s with pump.phase := .drain .stdout 0 }
    else .ok { s with pump := s.pump.afterDrain .stdout }
  | .drain kind pass =>
    if pass < readsPerStreamPass then
      match answers.read with
      | .data first rest =>
        .ok { s with pump.phase := .append kind (first :: rest) pass, log := s.log ++
          [.read kind (first :: rest)] }
      | .endOfFile => .ok { s with pump := (s.pump.closeFd kind).afterDrain kind }
      | .interrupted => .ok { s with pump.phase := .drain kind (pass + 1) }
      | .wouldBlock => .ok { s with pump := s.pump.afterDrain kind }
      | .failed errorNumber => .ok { s with pump.phase := .readFailed kind errorNumber }
    else .ok { s with pump := s.pump.afterDrain kind }
  | .append kind data pass =>
    let s := s.leave (s.process.appendEvent (.output kind data), [.appended (.output kind data)])
    .ok { s with pump.phase := .drain kind (pass + 1) }
  | .readFailed kind errorNumber =>
    let message := if kind = .stdout then "stdout read failed" else "stderr read failed"
    .ok { s with
      process := s.process.recordError message errorNumber
      pump := (s.pump.closeFd kind).afterDrain kind }
  | .check =>
    let (process, occurrences, abandonOutput) := s.process.check answers.waited answers.now
    let s := s.leave (process, occurrences)
    .ok { s with pump.phase := .decide abandonOutput }
  | .decide abandonOutput =>
    let pump := if abandonOutput then (s.pump.closeFd .stdout).closeFd .stderr else s.pump
    if s.process.reaped && !pump.stdoutOpen && !pump.stderrOpen then
      .ok { s with pump := { pump with phase := .complete } }
    else .ok { s with pump := { pump with phase := .poll } }
  | .complete =>
    let s := s.leave (s.process.complete, [.appended .completed])
    .ok { s with pump.phase := .returned }
  | .returned => .error .refused

def System.step (s : System) : Action → Except Refusal System
  | .acquire thread =>
    if s.runtimeLock = none then
      let s := { s with runtimeLock := some thread }
      match s.calls thread with
      | none => .ok s
      | some (.nextReacquire timeout) => .ok (s.setCall thread (some (.nextTake timeout)))
      | some .reacquire => .ok (s.setCall thread none)
      | some _ => .error .refused
    else .error .refused
  | .release thread =>
    if s.runtimeLock = some thread ∧ s.calls thread = none then .ok s.gilRelease
      else .error .refused
  | .call thread call =>
    if s.runtimeLock = some thread ∧ s.calls thread = none then
      .ok (s.setCall thread (some call.start))
    else .error .refused
  | .advance thread now =>
    match s.calls thread with
    | some progress => s.advance thread now progress
    | none => .error .refused
  | .pump answers => s.pumpStep answers

/-! ## Start -/

/-- `allocate_process`, when the child is started. -/
def Process.allocated : Process where
  pumpStarted := false
  pumpJoining := false
  pumpJoined := false
  pid := -1
  queue := []
  reaped := false
  completed := false
  completionTaken := false
  closing := false
  cancelRequested := false
  cancelEffective := false
  killed := false
  killDeadline := 0
  cancelTime := 0
  reapTime := 0
  state := .running
  exitCode := -1
  signalNumber := 0
  error := none

/-- `cwhip_process_async_start` has returned, with a child or with `fail_launch`. -/
inductive System.Started : System → Prop where
  | launched (pid : Int) (hpid : 0 < pid) (runtimeLock : Option Nat) :
    Started ⟨{ Process.allocated with pumpStarted := true, pid }, ⟨.poll, true, true⟩, runtimeLock,
      fun _ => none, []⟩
  | failed (message : String) (errorNumber : Int) (runtimeLock : Option Nat) :
    Started ⟨({ Process.allocated with
          state := .launchFailed, reaped := true, completed := true
          error := some ⟨message, errorNumber⟩ }).appendEvent .completed,
      ⟨.returned, false, false⟩, runtimeLock, fun _ => none, [.appended .completed]⟩

/-- The protocol. -/
def machine : Machine System Action Refusal where
  init := System.Started
  step := System.step

end Cwhip.Runtime.ProcessAsync
