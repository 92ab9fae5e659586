/-
  Cwhip.Runtime.ProcessWait

  Synchronous child processes (`RuntimeProcess.c`, `Process` of `process.cw`):
  any number of threads that call `wait` and `close` on one process.

  What a thread does while it holds the runtime lock is one step, and so is each
  iteration of the polling loop, which runs without it.  What the system answers
  comes with the step that asks for it.  A record that is freed is gone, and the
  step that would read it fails.
-/

import Cwhip.Lib.Except
import Cwhip.Lib.Machine
import Cwhip.Runtime.ProcessAsync
import Cwhip.Runtime.StringBytes

namespace Cwhip.Runtime.ProcessWait

open Cwhip.Lib
open ProcessAsync (Stream)

def ENOMEM : Nat := 12

def EOVERFLOW : Nat := 75

def EINVAL : Nat := 22

def ECHILD : Nat := 10

/-! ## The child -/

/-- What `waitpid` stores. -/
inductive WaitStatus where
  | exited (code : Nat)
  | signaled (signal : Nat)
  | other
  deriving DecidableEq, Repr

/-- The status of a process that was waited for. -/
def WaitStatus.code : WaitStatus → Int
  | .exited code => code
  | .signaled signal => -signal
  | .other => -1

inductive Child where
  | running
  | exited (status : WaitStatus)
  /-- Its exit was reported to a `waitpid`. -/
  | reaped (status : WaitStatus)
  deriving DecidableEq, Repr

/-- What `waitpid` gives with `WNOHANG`. -/
inductive Waited where
  | running
  | reaped (status : WaitStatus)
  | interrupted
  | failed (errorNumber : Nat)

/-- `waitpid`: a child is reported once. -/
def Child.waitpid (child : Child) (interrupted : Bool) : Waited × Child :=
  if interrupted then (.interrupted, child)
  else
    match child with
    | .running => (.running, .running)
    | .exited status => (.reaped status, .reaped status)
    | .reaped status => (.failed ECHILD, .reaped status)

/-- A pipe, with all that was ever written to it. -/
structure Pipe where
  pending : List UInt8
  /-- A process holds the write end. -/
  writers : Bool
  written : List UInt8

/-! ## The record -/

/-- The fields of one stream; an error number 0 is `none`. -/
structure Capture where
  /-- The descriptor is open. -/
  fd : Bool
  error : Option Nat
  bytes : List UInt8
  capacity : Nat

/-- A `CwhipProcess`. -/
structure Process where
  captures : Stream → Capture
  waited : Bool
  status : Int
  outputError : Option Nat

namespace Process

def setCapture (p : Process) (stream : Stream) (capture : Capture) : Process :=
  { p with captures := Function.update p.captures stream capture }

/-- `close_fd`. -/
def closeFd (p : Process) (stream : Stream) : Process :=
  p.setCapture stream { p.captures stream with fd := false }

end Process

/-- The capacity that `append_output` asks for; 64 doublings exceed any machine size. -/
def grown : Nat → Nat → Nat → Nat
  | 0, capacity, _ => capacity
  | fuel + 1, capacity, required =>
    if capacity < required then
      if int64Max / 2 < capacity then int64Max else grown fuel (capacity * 2) required
    else capacity

/-- `append_output`; `memory` if `realloc` succeeds. -/
def appendOutput (capture : Capture) (chunk : List UInt8) (memory : Bool) : Except Nat Capture :=
  if int64Max < capture.bytes.length ∨ int64Max - capture.bytes.length <
    chunk.length then .error EOVERFLOW
  else
    let required := capture.bytes.length + chunk.length
    if capture.capacity < required then
      if memory then
        .ok { capture with
          bytes := capture.bytes ++ chunk
          capacity := grown 64 (if capture.capacity = 0 then 4096 else capture.capacity) required }
      else .error ENOMEM
    else .ok { capture with bytes := capture.bytes ++ chunk }

/-- A chunk in `drain_pipe`. -/
def Process.store (p : Process) (stream : Stream) (chunk : List UInt8) (memory : Bool) : Process :=
  let capture := p.captures stream
  if capture.error.isSome then p
  else
    match appendOutput capture chunk memory with
    | .ok stored => p.setCapture stream stored
    | .error error =>
      { p.setCapture stream { capture with error := some error } with
        outputError := if p.outputError.isNone then some error else p.outputError }

/-- What one `read` gives while there is more to read; a chunk comes with whether
    there is memory for it. -/
inductive ReadResult where
  | chunk (count : Nat) (memory : Bool)
  | interrupted
  | failed (errorNumber : Nat)
  deriving DecidableEq, Repr

/-- The step cannot be taken now, or it reads a record that was freed. -/
inductive Refusal where
  | refused
  | freed
  deriving DecidableEq, Repr

/-- `drain_pipe`. -/
def drainPipe (stream : Stream) : List ReadResult → Process → Pipe → Except Refusal (Process × Pipe)
  | [], p, pipe => do
    ensure (pipe.pending = []) .refused
    -- `EAGAIN` while a process can write, and else the end of the stream
    return (if pipe.writers then p else p.closeFd stream, pipe)
  | .chunk count memory :: reads, p, pipe => do
    ensure (0 < count ∧ count ≤ 8192 ∧ count ≤ pipe.pending.length) .refused
    drainPipe stream reads (p.store stream (pipe.pending.take count) memory)
      { pipe with pending := pipe.pending.drop count }
  | .interrupted :: reads, p, pipe => drainPipe stream reads p pipe
  | .failed errorNumber :: _, p, pipe =>
    .ok ({ p with outputError := some errorNumber }.closeFd stream, pipe)

/-- `cwhip_process_exit_code`. -/
def Process.exitCode (p : Process) : Int := if p.waited then p.status else -1

/-- `cwhip_process_stdout` and `cwhip_process_stderr`. -/
def Process.output (p : Process) (stream : Stream) : List UInt8 :=
    if p.waited then (p.captures stream).bytes else []

/-! ## Threads -/

/-- A thread in the loop of `cwhip_process_wait`, with its variables. -/
structure Waiting where
  /-- The caller is `cwhip_process_close`. -/
  closing : Bool
  childReaped : Bool
  waitStatus : WaitStatus
  waitError : Option Nat
  deriving DecidableEq, Repr

/-- A call of `cwhip_process_wait` that has returned, with its error number and with
    what the process says then. -/
structure Returned where
  thread : Nat
  ok : Bool
  error : Option Nat
  exitCode : Int
  output : Stream → List UInt8
  /-- A read or an allocation for the output has failed. -/
  outputError : Option Nat

/-- A process object, its record, its child, the threads inside, and what has returned. -/
structure System where
  /-- `_native` is not null. -/
  native : Bool
  /-- The record, until it is freed. -/
  process : Option Process
  child : Child
  pipes : Stream → Pipe
  calls : Nat → Option Waiting
  returned : List Returned

/-- A step of the system. -/
inductive Action where
  /-- `Process.wait`, until it is in the loop. -/
  | wait (thread : Nat)
  /-- `Process.close`, until it is in the loop. -/
  | close (thread : Nat)
  /-- One iteration of the loop. -/
  | poll (thread : Nat) (reads : Stream → List ReadResult) (interrupted : Bool)
  /-- What follows the loop. -/
  | finish (thread : Nat)
  | write (stream : Stream) (bytes : List UInt8)
  /-- The last process that could write to a stream closes it. -/
  | hangUp (stream : Stream)
  | exit (status : WaitStatus)

namespace System

def setCall (s : System) (thread : Nat) (waiting : Option Waiting) : System :=
  { s with calls := Function.update s.calls thread waiting }

def setPipe (s : System) (stream : Stream) (pipe : Pipe) : System :=
  { s with pipes := Function.update s.pipes stream pipe }

/-- `cwhip_process_wait` returns. -/
def waitReturns (s : System) (thread : Nat) (ok : Bool) (error : Option Nat) (p : Process) :
    System :=
  { s with returned := s.returned ++ [⟨thread, ok, error, p.exitCode, p.output, p.outputError⟩] }

/-- The end of `cwhip_process_close` and of `Process.close`. -/
def freeProcess (s : System) : System := { s with process := none, native := false }

/-- `Process.wait` and the beginning of `cwhip_process_wait`. -/
def wait (s : System) (thread : Nat) : Except Refusal System := do
  ensure (s.calls thread = none) .refused
  if !s.native then
    return { s with returned := s.returned ++
      [⟨thread, false, some EINVAL, -1, fun _ => [], none⟩] }
  let p ← require s.process .freed
  if p.waited then return s.waitReturns thread true none p
  return s.setCall thread (some ⟨false, false, .exited 0, none⟩)

/-- `Process.close` and the beginning of `cwhip_process_close`. -/
def close (s : System) (thread : Nat) : Except Refusal System := do
  ensure (s.calls thread = none) .refused
  if !s.native then return s
  let p ← require s.process .freed
  if p.waited then return s.freeProcess
  return s.setCall thread (some ⟨true, false, .exited 0, none⟩)

/-- A stream in an iteration. -/
def drain (s : System) (stream : Stream) (reads : List ReadResult) (p : Process) :
    Except Refusal (Process × System) := do
  if !(p.captures stream).fd then return (p, s)
  let (p, pipe) ← drainPipe stream reads p (s.pipes stream)
  return (p, s.setPipe stream pipe)

/-- The condition of the loop. -/
def goesOn (waiting : Waiting) (p : Process) : Bool :=
  !waiting.childReaped || (p.captures .stdout).fd || (p.captures .stderr).fd

/-- The `waitpid` of an iteration. -/
def reap (s : System) (waiting : Waiting) (interrupted : Bool) (p : Process) :
    Waiting × Process × System :=
  if waiting.childReaped then (waiting, p, s)
  else
    match s.child.waitpid interrupted with
    | (.reaped waitStatus, child) =>
      ({ waiting with childReaped := true, waitStatus }, p, { s with child })
    | (.failed errorNumber, child) =>
      ({ waiting with childReaped := true, waitError := some errorNumber },
        (p.closeFd .stdout).closeFd .stderr, { s with child })
    | (_, child) => (waiting, p, { s with child })

/-- One iteration. -/
def poll (s : System) (thread : Nat) (reads : Stream → List ReadResult) (interrupted : Bool) :
    Except Refusal System := do
  let waiting ← require (s.calls thread) .refused
  let p ← require s.process .freed
  ensure (goesOn waiting p = true) .refused
  let (p, s) ← s.drain .stdout (reads .stdout) p
  let (p, s) ← s.drain .stderr (reads .stderr) p
  let (waiting, p, s) := s.reap waiting interrupted p
  return { s with process := some p }.setCall thread (some waiting)

/-- The rest of `cwhip_process_wait`, and of `cwhip_process_close` around it.  The
    `waitpid` that follows the loop is not reached, as the loop ends with the child reaped. -/
def finish (s : System) (thread : Nat) : Except Refusal System := do
  let waiting ← require (s.calls thread) .refused
  let p ← require s.process .freed
  ensure (goesOn waiting p = false) .refused
  let (p, s) :=
    if waiting.waitError.isSome then (p, s.waitReturns thread false waiting.waitError p)
    else
      let p := { p with status := waiting.waitStatus.code, waited := true }
      (p, s.waitReturns thread true p.outputError p)
  let s := s.setCall thread none
  return if waiting.closing then s.freeProcess else { s with process := some p }

def step (s : System) : Action → Except Refusal System
  | .wait thread => s.wait thread
  | .close thread => s.close thread
  | .poll thread reads interrupted => s.poll thread reads interrupted
  | .finish thread => s.finish thread
  | .write stream bytes => do
    let pipe := s.pipes stream
    ensure (pipe.writers = true) .refused
    return s.setPipe stream { pipe with pending := pipe.pending ++ bytes, written := pipe.written ++
      bytes }
  | .hangUp stream => do
    let pipe := s.pipes stream
    ensure (pipe.writers = true) .refused
    return s.setPipe stream { pipe with writers := false }
  | .exit status => do
    ensure (s.child = .running) .refused
    return { s with child := .exited status }

/-- `cwhip_process_spawn` has returned a record. -/
def spawned : System where
  native := true
  process := some ⟨fun _ => ⟨true, none, [], 0⟩, false, 0, none⟩
  child := .running
  pipes := fun _ => ⟨[], true, []⟩
  calls := fun _ => none
  returned := []

end System

/-- Any number of threads that share a process. -/
def machine : Machine System Action Refusal := ⟨(· = .spawned), System.step⟩

end Cwhip.Runtime.ProcessWait
