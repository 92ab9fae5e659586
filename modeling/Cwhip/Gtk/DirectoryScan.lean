/-
  Cwhip.Gtk.DirectoryScan

  Directory scans of the `gtk` package (`explorer.c`): the workers that read a
  directory each, the timers that hand the entries to callbacks on the owner
  thread, and what cancels a scan.

  A worker takes one step for each call of the file system, one for sorting, one
  for the `done` flag, and one for its reference.  The owner thread runs user code
  between two dispatches, in a callback, and in the finalizers of a collection
  that the allocation of an error text can start; all that is a stack of
  dispatches in progress.  A timer is not dispatched while it is being dispatched
  (`g_source_set_can_recurse`).

  What GLib does with names comes as a parameter.  Tokens are not used again, and
  a job goes by its token; a job that is freed is gone.
-/

import Cwhip.Lib.Except
import Cwhip.Lib.Machine
import Cwhip.Lib.Utf8
import Mathlib.Data.List.Sort

namespace Cwhip.Gtk

open Cwhip.Lib

/-! ## Entries -/

/-- A `DirectoryEntry`. -/
structure Entry where
  path : List UInt8
  name : List UInt8
  kind : Nat
  deriving DecidableEq, Repr

inductive FileType where
  | directory
  | symbolicLink
  | regular
  | other
  deriving DecidableEq, Repr

/-- What the enumerator says about a child. -/
structure Info where
  name : Option (List UInt8)
  type : FileType
  deriving DecidableEq, Repr

/-- What a scan was asked for. -/
structure Query where
  path : List UInt8
  hidden : Bool
  root : Option (List UInt8)
  excludes : List (List UInt8)
  deriving DecidableEq, Repr

/-- Functions of GLib on names. -/
structure GLib where
  buildFilename : List UInt8 → List UInt8 → List UInt8
  patternMatchSimple : List UInt8 → List UInt8 → Bool
  utf8Validate : List UInt8 → Bool

/-- `/` -/
def slash : UInt8 := 47

/-- `\n` -/
def newline : UInt8 := 10

/-- `.` -/
def dot : UInt8 := 46

/-- The path of an entry below the root, if it is there. -/
def relativePath (query : Query) (path : List UInt8) : Option (List UInt8) :=
  match query.root with
  | none | some [] => none
  | some root =>
    if root.isPrefixOf path then
      match path.drop root.length with
      | [] => if root = [slash] then some [] else none
      | next :: rest =>
        if next = slash then some rest
        else if root = [slash] then some (next :: rest) else none
    else none

/-- `directory_excluded`. -/
def directoryExcluded (glib : GLib) (query : Query) (name path : List UInt8) : Bool :=
  query.excludes.any fun pattern =>
    if pattern = [] then false
    else if slash ∈ pattern then (relativePath query path).any (glib.patternMatchSimple pattern)
    else glib.patternMatchSimple pattern name

def FileType.kind : FileType → Nat
  | .directory => 1
  | .symbolicLink => 2
  | .regular => 0
  | .other => 3

def invalidFilename : String := "Directory contains a filename that is not valid UTF-8"

/-- An iteration of the enumeration: an entry, nothing, or an error. -/
def scanInfo (glib : GLib) (query : Query) (info : Info) : Except String (Option Entry) :=
  match info.name with
  | none => .ok none
  | some name =>
    if query.hidden || name.head? != some dot then
      if glib.utf8Validate name then
        let path := glib.buildFilename query.path name
        if directoryExcluded glib query name path then .ok none
          else .ok (some ⟨path, name, info.type.kind⟩)
      else .error invalidFilename
    else .ok none

/-- `strcmp`. -/
def strcmp (a b : List UInt8) : Int := if a < b then -1 else if a = b then 0 else 1

/-- `directory_compare`. -/
def directoryCompare (first second : Entry) : Int :=
  if decide (first.kind = 1) != decide (second.kind = 1) then (if first.kind = 1 then -1 else 1)
  else strcmp first.name second.name

/-- `g_ptr_array_sort`, which is stable. -/
def sortEntries (entries : List Entry) : List Entry :=
  entries.insertionSort fun first second => directoryCompare first second ≤ 0

theorem strcmp_le_iff {a b : List UInt8} : strcmp a b ≤ 0 ↔ a ≤ b := by
  unfold strcmp
  split
  · next h => exact ⟨fun _ => le_of_lt h, fun _ => by decide⟩
  · next h =>
    split
    · next heq => exact ⟨fun _ => le_of_eq heq, fun _ => by decide⟩
    · next hne =>
        exact ⟨fun h => absurd h (by decide), fun hle => absurd (lt_of_le_of_ne hle hne) h⟩

theorem directoryCompare_le_iff {first second : Entry} : directoryCompare first second ≤ 0 ↔
    first.kind = 1 ∧ second.kind ≠ 1 ∨ (first.kind = 1 ↔ second.kind = 1) ∧
    first.name ≤ second.name := by
  unfold directoryCompare
  by_cases hfirst : first.kind = 1
  · by_cases hsecond : second.kind = 1
    · simp [hfirst, hsecond, strcmp_le_iff]
    · simp [hfirst, hsecond]
  · by_cases hsecond : second.kind = 1
    · simp [hfirst, hsecond]
    · simp [hfirst, hsecond, strcmp_le_iff]

theorem sortEntries_perm (entries : List Entry) : (sortEntries entries).Perm entries :=
  List.perm_insertionSort ..

theorem sortEntries_sorted (entries : List Entry) :
    (sortEntries entries).Pairwise fun first second => directoryCompare first second ≤ 0 := by
  have htotal : Std.Total fun first second : Entry => directoryCompare first second ≤ 0 := by
    refine ⟨fun first second => ?_⟩
    rw [directoryCompare_le_iff, directoryCompare_le_iff]
    have := le_total first.name second.name
    tauto
  have htrans : IsTrans Entry fun first second => directoryCompare first second ≤ 0 := by
    refine ⟨fun first second third => ?_⟩
    simp only [directoryCompare_le_iff]
    have := @le_trans _ _ first.name second.name third.name
    tauto
  exact List.pairwise_insertionSort _ entries

/-! ## Jobs -/

/-- A `DirectoryJob`. -/
structure Job where
  refs : Nat
  done : Bool
  owner : Nat
  query : Query
  /-- `cancel` is cancelled. -/
  cancelled : Bool
  entries : List Entry
  error : Option String
  position : Nat
  /-- `context` is not null. -/
  context : Bool
  active : Nat
  closed : Bool

/-- Where a worker is, with its `error`. -/
inductive Worker where
  | opening
  | enumerating
  | closing (error : Option String)
  | settling (error : Option String)
  | finishing
  | leaving
  deriving DecidableEq, Repr

/-- What happens to a scan. -/
inductive Event where
  /-- The worker adds an entry. -/
  | found (entry : Entry)
  /-- The worker has sorted the entries, or drops them for an error. -/
  | settled (error : Option String)
  /-- The callback is called with a batch. -/
  | batch (entries : List Entry)
  /-- It is called for the end. -/
  | terminal (message : String)
  | returned
  | closed
  | contextReleased
  | workerLeft
  | freed
  deriving DecidableEq, Repr

/-- A scan that was started. -/
structure Scan where
  /-- The job, until it is freed. -/
  job : Option Job
  /-- The worker, until it ends. -/
  worker : Option Worker
  /-- The timer is attached to the main context. -/
  source : Bool
  events : List Event

/-- A step is not possible now, ends the program, or reads memory that is not there. -/
inductive Refusal where
  | refused
  | fatal
  | invalid
  deriving DecidableEq, Repr

namespace Scan

def record (scan : Scan) (event : Event) : Scan := { scan with events := scan.events ++ [event] }

def setJob (scan : Scan) (job : Job) : Scan := { scan with job := some job }

/-- `directory_unref`. -/
def unref (scan : Scan) : Except Refusal Scan := do
  let job ← require scan.job .invalid
  if job.refs = 1 then return { scan with job := none }.record .freed
  return scan.setJob { job with refs := job.refs - 1 }

/-- `directory_release`. -/
def release (scan : Scan) : Except Refusal Scan := do
  let job ← require scan.job .invalid
  if job.active ≠ 0 || !job.context then return scan
  return (scan.setJob { job with context := false }).record .contextReleased

/-- `directory_close` of a job that is off the list. -/
def close (scan : Scan) : Except Refusal Scan := do
  let job ← require scan.job .invalid
  let scan := ({ scan with source := false }.setJob { job with closed := true, cancelled :=
    true }).record .closed
  let scan ← scan.release
  scan.unref

/-- What the file system answers to a worker. -/
inductive Answer where
  /-- The call succeeds; of the enumerator, there are no more children. -/
  | done
  | child (info : Info)
  | failed (message : String)
  deriving DecidableEq, Repr

def setWorker (scan : Scan) (worker : Option Worker) : Scan := { scan with worker }

/-- The next step of `directory_worker`. -/
def workerStep (glib : GLib) (scan : Scan) (answer : Answer) : Except Refusal Scan := do
  let worker ← require scan.worker .refused
  let job ← require scan.job .invalid
  match worker with
  | .opening =>
    match answer with
    | .failed message => return scan.setWorker (some (.settling (some message)))
    | _ => return scan.setWorker (some .enumerating)
  | .enumerating =>
    if job.cancelled then return scan.setWorker (some (.closing none))
    match answer with
    | .done => return scan.setWorker (some (.closing none))
    | .failed message => return scan.setWorker (some (.closing (some message)))
    | .child info =>
      match scanInfo glib job.query info with
      | .ok none => return scan
      | .ok (some entry) =>
        return (scan.setJob { job with entries := job.entries ++ [entry] }).record (.found entry)
      | .error message => return scan.setWorker (some (.closing (some message)))
  | .closing error =>
    match answer with
    | .failed message => return scan.setWorker (some (.settling (error <|> some message)))
    | _ => return scan.setWorker (some (.settling error))
  | .settling error =>
    let entries := if error.isSome then [] else sortEntries job.entries
    return ((scan.setJob { job with entries, error }).setWorker (some .finishing)).record
      (.settled error)
  | .finishing => return (scan.setJob { job with done := true }).setWorker (some .leaving)
  | .leaving => ((scan.setWorker none).record .workerLeft).unref

end Scan

/-! ## The owner thread -/

/-- Where a dispatch is. -/
inductive Point where
  /-- The error text of a batch is allocated. -/
  | preparing (count : Nat)
  /-- The callback runs. -/
  | delivering (count : Nat)
  | preparingEnd
  | deliveringEnd
  deriving DecidableEq, Repr

/-- A dispatch in progress. -/
structure Frame where
  job : Nat
  point : Point
  deriving DecidableEq, Repr

/-- All scans, the list `directory_jobs`, and the owner thread. -/
structure System where
  scans : Nat → Option Scan
  directoryJobs : List Nat
  /-- The innermost dispatch comes first. -/
  stack : List Frame
  lastToken : Nat

inductive Action where
  | start (owner : Nat) (path : List UInt8) (hidden : Bool) (root excludes : Option (List UInt8))
  /-- The next step of a worker. -/
  | worker (token : Nat) (answer : Scan.Answer)
  /-- The timer of a job is dispatched. -/
  | dispatch (token : Nat)
  /-- The innermost dispatch calls the callback. -/
  | invoke
  /-- The innermost callback returns. -/
  | returned
  /-- `cwhip_gtk_directory_cancel`. -/
  | cancel (token : Nat)
  /-- `directory_cancel_owner`, for a widget that is destroyed or for all of them. -/
  | cancelOwner (owner : Option Nat)
  deriving DecidableEq, Repr

namespace System

def setScan (s : System) (token : Nat) (scan : Scan) : System :=
  { s with scans := Function.update s.scans token (some scan) }

/-- A job on the list, or in the hands of a timer. -/
def scanOf (s : System) (token : Nat) : Except Refusal Scan := require (s.scans token) .invalid

def jobOf (s : System) (token : Nat) : Except Refusal Job := do
  let scan ← s.scanOf token
  require scan.job .invalid

/-- The list without a job; running off its end is not checked. -/
def unlinkFrom (s : System) (token : Nat) : List Nat → Except Refusal (List Nat)
  | [] => .error .invalid
  | other :: rest =>
    if other = token then .ok rest
    else do
      let _ ← s.jobOf other
      return other :: (← s.unlinkFrom token rest)

/-- `directory_close`. -/
def directoryClose (s : System) (token : Nat) : Except Refusal System := do
  let scan ← s.scanOf token
  let job ← require scan.job .invalid
  if job.closed then return s
  let directoryJobs ← s.unlinkFrom token s.directoryJobs
  let scan ← scan.close
  return { s with directoryJobs }.setScan token scan

/-- The loop of `cwhip_gtk_directory_cancel`. -/
def cancelFrom (s : System) (token : Nat) : List Nat → Except Refusal System
  | [] => .ok s
  | other :: rest => do
    let _ ← s.jobOf other
    if other = token then s.directoryClose other else s.cancelFrom token rest

/-- The loop of `directory_cancel_owner`. -/
def cancelOwnerFrom (owner : Option Nat) : List Nat → System → Except Refusal System
  | [], s => .ok s
  | token :: rest, s => do
    let job ← s.jobOf token
    let s ← (if owner.all (· == job.owner) then s.directoryClose token else .ok s)
    cancelOwnerFrom owner rest s

/-- The job of `directory_start`. -/
def newJob (owner : Nat) (query : Query) : Job :=
  { refs := 2, done := false, owner, query, cancelled := false, entries := [], error := none,
    position := 0
    context := true, active := 0, closed := false }

/-- `directory_start`; without patterns, there is nothing to exclude. -/
def directoryStart (s : System) (owner : Nat) (path : List UInt8) (hidden : Bool)
    (root excludes : Option (List UInt8)) :
    System :=
  let token := s.lastToken + 1
  let excludes := match excludes with
    | none | some [] => []
    | some patterns => patterns.splitOn newline
  { s with lastToken := token, directoryJobs := token :: s.directoryJobs }.setScan token
    ⟨some (newJob owner ⟨path, hidden, root, excludes⟩), some .opening, true, []⟩

def push (s : System) (token : Nat) (point : Point) : System :=
    { s with stack := ⟨token, point⟩ :: s.stack }

/-- The end of `directory_dispatch`. -/
def leaveDispatch (s : System) (token : Nat) : Except Refusal System := do
  let scan ← s.scanOf token
  let scan ← scan.unref
  return s.setScan token scan

/-- `directory_dispatch` after the batch. -/
def dispatchEnd (s : System) (token : Nat) : Except Refusal System := do
  let job ← s.jobOf token
  if !job.closed && job.position == job.entries.length then return s.push token .preparingEnd
  s.leaveDispatch token

/-- `directory_dispatch`, until it allocates. -/
def dispatch (s : System) (token : Nat) : Except Refusal System := do
  let scan ← require (s.scans token) .refused
  ensure (scan.source = true ∧ ∀ frame ∈ s.stack, frame.job ≠ token) .refused
  let job ← require scan.job .invalid
  if !job.done then return s
  let s := s.setScan token (scan.setJob { job with refs := job.refs + 1 })
  if job.position < job.entries.length then
    return s.push token (.preparing (min 64 (job.entries.length - job.position)))
  s.dispatchEnd token

/-- A call of the callback, in `directory_deliver`. -/
def call (s : System) (frame : Frame) (stack : List Frame) (point : Point) (event : Job → Event) :
    Except Refusal System := do
  let scan ← s.scanOf frame.job
  let job ← require scan.job .invalid
  -- `cwhip_callback_adapter` ends the program on a registration that is null
  ensure (job.context = true) .fatal
  let scan := (scan.setJob { job with active := job.active + 1 }).record (event job)
  return { s with stack := ⟨frame.job, point⟩ :: stack }.setScan frame.job scan

/-- `directory_deliver`, with the text allocated. -/
def invoke (s : System) : Except Refusal System :=
  match s.stack with
  | frame :: stack =>
    match frame.point with
    | .preparing count =>
      s.call frame stack (.delivering count) fun job =>
        .batch ((job.entries.drop job.position).take count)
    | .preparingEnd => s.call frame stack .deliveringEnd fun job => .terminal (job.error.getD "")
    | _ => .error .refused
  | [] => .error .refused

/-- The end of `directory_deliver`. -/
def endDelivery (scan : Scan) : Except Refusal Scan := do
  let job ← require scan.job .invalid
  let scan := (scan.setJob { job with active := job.active - 1 }).record .returned
  if job.closed then scan.release else return scan

/-- The callback has returned to `directory_dispatch`. -/
def callbackReturned (s : System) : Except Refusal System :=
  match s.stack with
  | frame :: stack =>
    match frame.point with
    | .delivering count => do
      let scan ← s.scanOf frame.job
      let scan ← endDelivery scan
      let job ← require scan.job .invalid
      let s := { s with stack }.setScan frame.job
        (scan.setJob { job with position := job.position + count })
      s.dispatchEnd frame.job
    | .deliveringEnd => do
      let scan ← s.scanOf frame.job
      let scan ← endDelivery scan
      let s ← ({ s with stack }.setScan frame.job scan).directoryClose frame.job
      s.leaveDispatch frame.job
    | _ => .error .refused
  | [] => .error .refused

def step (glib : GLib) (s : System) : Action → Except Refusal System
  | .start owner path hidden root excludes => .ok (s.directoryStart owner path hidden root excludes)
  | .worker token answer => do
    let scan ← require (s.scans token) .refused
    let scan ← scan.workerStep glib answer
    return s.setScan token scan
  | .dispatch token => s.dispatch token
  | .invoke => s.invoke
  | .returned => s.callbackReturned
  | .cancel token => s.cancelFrom token s.directoryJobs
  | .cancelOwner owner => cancelOwnerFrom owner s.directoryJobs s

/-- No scan was started. -/
def initial : System := ⟨fun _ => none, [], [], 0⟩

end System

/-- The workers and the owner thread. -/
def machine (glib : GLib) : Machine System Action Refusal := ⟨(· = .initial), System.step glib⟩

end Cwhip.Gtk
