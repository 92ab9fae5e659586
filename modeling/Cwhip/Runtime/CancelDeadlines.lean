/-
  Cwhip.Runtime.CancelDeadlines

  The deadline after which the pump kills a cancelled child
  (`cwhip_process_async_cancel` and `pump_main` in `RuntimeProcessAsync.c`).

  The deadline is an `int64_t` of milliseconds: the time of the request and the grace
  period are added without a check.  Every order of the sections under the lock of the
  process is a run here.
-/

import Mathlib.Algebra.Group.Int.Defs
import Mathlib.Data.List.Induction
import Cwhip.Runtime.ProcessAsync

namespace Cwhip.Runtime.ProcessAsync

-- ============================================================================
-- Requests
-- ============================================================================

/-- What the monotonic clock gives. -/
structure MonotonicTime where
  milliseconds : Int64
  nonneg : 0 ≤ milliseconds.toInt

/-- The section of `cwhip_process_async_cancel`, with what the addition gives. -/
def Process.cancelUntil (p : Process) (grace now deadline : Int) :
    Process × List Occurrence × Bool :=
  if p.completed || p.closing then (p, [], false)
  else
    let p := { p with
      cancelTime := if p.cancelRequested then p.cancelTime else now, cancelRequested := true }
    if p.reaped then (p, [], true)
    else if p.cancelEffective then
      (if !p.killed && decide (deadline < p.killDeadline) then { p with killDeadline := deadline }
        else p, [], true)
    else
      ({ p with
        cancelEffective := true, killDeadline := deadline, killed := p.killed || grace == 0 },
        [.cancelled, .signalled (if grace = 0 then .kill else .term)], true)

/-- `cwhip_process_async_cancel`.  The addition is one of 64-bit integers; C leaves it
    open what it gives when it overflows, and the processor wraps around. -/
def Process.cancel64 (p : Process) (grace now : Int64) : Process × List Occurrence × Bool :=
  if grace.toInt < 0 then (p, [], false)
  else p.cancelUntil grace.toInt now.toInt (now + grace).toInt

/-- The addition is reached. -/
def Process.ComputesDeadline (p : Process) (grace : Int64) : Prop :=
  0 ≤ grace.toInt ∧ p.completed = false ∧ p.closing = false ∧ p.reaped = false ∧
    (p.cancelEffective = true → p.killed = false)

instance (p : Process) (grace : Int64) : Decidable (p.ComputesDeadline grace) :=
    inferInstanceAs (Decidable (_ ∧ _))

-- ============================================================================
-- Runs
-- ============================================================================

/-- A section under the lock of the process. -/
inductive LockedSection where
  | cancel (grace : Int64) (now : MonotonicTime)
  /-- The section of each pump iteration. -/
  | check (waited : Waited) (now : MonotonicTime)
  | append (event : Event)
  | readFailed (message : String) (errorNumber : Int)
  | complete
  | take
  | close
  | joining
  | joined

/-- A request that a deadline is computed for. -/
structure CancelRequest where
  time : Int
  grace : Int
  deriving DecidableEq

/-- When the grace period has elapsed. -/
def CancelRequest.elapsed (request : CancelRequest) : Int := request.time + request.grace

/-- A process, the requests so far, and when the pump escalated to `SIGKILL`. -/
structure Cancellation where
  process : Process
  requests : List CancelRequest
  escalations : List Int

def Cancellation.step (c : Cancellation) : LockedSection → Cancellation
  | .cancel grace now =>
    { c with
      process := (c.process.cancel64 grace now.milliseconds).1
      requests := if c.process.ComputesDeadline grace then ⟨now.milliseconds.toInt, grace.toInt⟩ ::
        c.requests
        else c.requests }
  | .check waited now =>
    let (process, occurrences, _) := c.process.check waited now.milliseconds.toInt
    { c with
      process
      escalations := if .signalled .kill ∈ occurrences then now.milliseconds.toInt :: c.escalations
        else c.escalations }
  | .append event => { c with process := c.process.appendEvent event }
  | .readFailed message errorNumber =>
    { c with process := c.process.recordError message errorNumber }
  | .complete => { c with process := c.process.complete }
  | .take => { c with process := c.process.take.1 }
  | .close => { c with process := c.process.close.1 }
  | .joining => { c with process := { c.process with pumpJoining := true } }
  | .joined => { c with process := { c.process with pumpJoined := true } }

def Cancellation.run (c : Cancellation) (sections : List LockedSection) : Cancellation :=
    sections.foldl step c

def Cancellation.start (process : Process) : Cancellation := ⟨process, [], []⟩

/-- The deadline is the least of the times at which a requested grace period has
    elapsed, and none of the escalations was before that. -/
def Cancellation.Exact (c : Cancellation) : Prop :=
  (c.requests ≠ [] → (∃ request ∈ c.requests, c.process.killDeadline = request.elapsed) ∧
    ∀ request ∈ c.requests, c.process.killDeadline ≤ request.elapsed) ∧
  ∀ time ∈ c.escalations, ∃ request ∈ c.requests, request.elapsed ≤ time

-- ============================================================================
-- One section
-- ============================================================================

/-- Nothing that the deadline depends on changes. -/
structure KeepsDeadline (p p' : Process) : Prop where
  killDeadline : p'.killDeadline = p.killDeadline
  cancelEffective : p'.cancelEffective = p.cancelEffective
  killed : p'.killed = p.killed

theorem keepsDeadline_recordError (p : Process) (message : String) (errorNumber : Int) :
    KeepsDeadline p (p.recordError message errorNumber) := by
  unfold Process.recordError
  split <;> exact ⟨rfl, rfl, rfl⟩

theorem keepsDeadline_recordStatus (p : Process) (waited : Waited) :
    KeepsDeadline p (p.recordStatus waited) := by
  have hfailed : KeepsDeadline p
      ({ p with state := .waitFailed }.recordError "wait failed" 10) := by
    obtain ⟨hdeadline, heffective, hkilled⟩ :=
      keepsDeadline_recordError { p with state := .waitFailed } "wait failed" 10
    exact ⟨hdeadline, heffective, hkilled⟩
  cases waited with
  | exited code | signaled signal => exact ⟨rfl, rfl, rfl⟩
  | nothing | failed errorNumber | other => exact hfailed

theorem keepsDeadline_reap (p : Process) (waited : Waited) (now : Int) :
    KeepsDeadline p (p.reap waited now).1 ∧ .signalled .kill ∉ (p.reap waited now).2 := by
  unfold Process.reap
  split
  · exact ⟨⟨rfl, rfl, rfl⟩, List.not_mem_nil⟩
  · -- a child that was reaped with a status, or not
    have hstatus : KeepsDeadline p
        (let q := { p with reaped := true, reapTime := now }.recordStatus waited
        if q.cancelEffective ∧ q.state ≠ .waitFailed then { q with state := .cancelled }
            else q) := by
      obtain ⟨hdeadline, heffective, hkilled⟩ :=
        keepsDeadline_recordStatus { p with reaped := true, reapTime := now } waited
      dsimp only
      split <;> exact ⟨hdeadline, heffective, hkilled⟩
    cases waited with
    | failed errorNumber =>
      obtain ⟨hdeadline, heffective, hkilled⟩ :=
        keepsDeadline_recordError { p with reaped := true, reapTime := now, state := .waitFailed }
          "wait failed" errorNumber
      exact ⟨⟨hdeadline, heffective, hkilled⟩, by simp⟩
    | nothing | exited code | signaled signal | other => exact ⟨hstatus, by simp⟩

/-- What holds of requests in any run, whatever the additions give. -/
structure Tracked (c : Cancellation) : Prop where
  nonneg : ∀ request ∈ c.requests, 0 ≤ request.elapsed
  waiting : c.process.cancelEffective = true → c.process.killed = false → c.requests ≠ []
  none : c.process.cancelEffective = false → c.requests = []

variable {c : Cancellation} {p : Process} {grace : Int64} {now : MonotonicTime}

theorem Tracked.keep (h : Tracked c) (hkeeps : KeepsDeadline c.process p)
    (escalations : List Int) : Tracked ⟨p, c.requests, escalations⟩ :=
  ⟨h.nonneg, hkeeps.cancelEffective ▸ hkeeps.killed ▸ h.waiting, hkeeps.cancelEffective ▸ h.none⟩

theorem Cancellation.Exact.keep (h : c.Exact) (hkeeps : KeepsDeadline c.process p) :
    Exact ⟨p, c.requests, c.escalations⟩ := by
  refine ⟨?_, h.2⟩
  rw [hkeeps.killDeadline]
  exact h.1

theorem check_spec (p : Process) (waited : Waited) (now : Int) :
    let q := (p.check waited now).1
    q.killDeadline = p.killDeadline ∧ q.cancelEffective = p.cancelEffective ∧
      ((.signalled .kill ∉ (p.check waited now).2.1 ∧ q.killed = p.killed) ∨
        (p.cancelEffective = true ∧ p.killed = false ∧ p.killDeadline ≤ now ∧
            q.killed = true)) := by
  obtain ⟨⟨hdeadline, heffective, hkilled⟩, hsilent⟩ := keepsDeadline_reap p waited now
  unfold Process.check
  dsimp only
  generalize p.reap waited now = reaped at *
  by_cases hkill : (!reaped.1.reaped && reaped.1.cancelEffective && !reaped.1.killed &&
    decide (reaped.1.killDeadline ≤ now)) = true
  · rw [if_pos hkill]
    simp only [Bool.and_eq_true, Bool.not_eq_true', decide_eq_true_eq] at hkill
    exact ⟨hdeadline, heffective, .inr ⟨heffective ▸ hkill.1.1.2, hkilled ▸ hkill.1.2,
      hdeadline ▸ hkill.2, rfl⟩⟩
  · rw [if_neg hkill, if_neg hkill, List.append_nil]
    exact ⟨hdeadline, heffective, .inl ⟨hsilent, hkilled⟩⟩

theorem cancelUntil_keeps (h : ¬ p.ComputesDeadline grace) (hgrace : 0 ≤ grace.toInt)
    (now deadline : Int) : KeepsDeadline p (p.cancelUntil grace.toInt now deadline).1 := by
  unfold Process.cancelUntil
  split
  · exact ⟨rfl, rfl, rfl⟩
  · rename_i hopen
    rw [Bool.or_eq_true, not_or, Bool.not_eq_true, Bool.not_eq_true] at hopen
    dsimp only
    split
    · exact ⟨rfl, rfl, rfl⟩
    · rename_i hunreaped
      -- what is left is a request after the child was killed
      have hkilled : p.cancelEffective = true ∧ p.killed = true := by
        have hcomputes : ¬ (p.cancelEffective = true → p.killed = false) := fun hwaits =>
          h ⟨hgrace, hopen.1, hopen.2, Bool.not_eq_true _ ▸ hunreaped, hwaits⟩
        rwa [Classical.not_imp, Bool.not_eq_false] at hcomputes
      rw [if_pos hkilled.1, hkilled.2]
      exact ⟨rfl, rfl, hkilled.2.symm⟩

theorem cancelUntil_computes (h : p.ComputesDeadline grace) (now deadline : Int) :
    (p.cancelUntil grace.toInt now deadline).1.cancelEffective = true ∧
    (p.cancelUntil grace.toInt now deadline).1.killDeadline =
      if p.cancelEffective = true then min deadline p.killDeadline else deadline := by
  obtain ⟨-, hcompleted, hclosing, hreaped, hwaits⟩ := h
  unfold Process.cancelUntil
  rw [hcompleted, hclosing, hreaped]
  dsimp only
  rw [Bool.or_false, if_neg Bool.false_ne_true, if_neg Bool.false_ne_true]
  split
  · rename_i heffective
    rw [hwaits heffective]
    dsimp only
    by_cases hsooner : deadline < p.killDeadline
    · rw [if_pos (by simp [hsooner])]
      exact ⟨heffective, (Int.min_eq_left (Int.le_of_lt hsooner)).symm⟩
    · rw [if_neg (by simp [hsooner])]
      exact ⟨heffective, (Int.min_eq_right (Int.not_lt.mp hsooner)).symm⟩
  · exact ⟨rfl, rfl⟩

theorem keepsDeadline_take (p : Process) : KeepsDeadline p p.take.1 := by
  unfold Process.take
  split <;> exact ⟨rfl, rfl, rfl⟩

theorem close_spec (p : Process) :
    p.close.1.killDeadline = p.killDeadline ∧
      (KeepsDeadline p p.close.1 ∨ (p.close.1.cancelEffective = true ∧
      p.close.1.killed = true)) := by
  unfold Process.close
  split
  · exact ⟨rfl, .inl ⟨rfl, rfl, rfl⟩⟩
  · split
    · exact ⟨rfl, .inr ⟨rfl, rfl⟩⟩
    · exact ⟨rfl, .inl ⟨rfl, rfl, rfl⟩⟩

theorem elapsed_nonneg (hgrace : 0 ≤ grace.toInt) (now : MonotonicTime) :
    0 ≤ (⟨now.milliseconds.toInt, grace.toInt⟩ : CancelRequest).elapsed :=
  Int.add_nonneg now.nonneg hgrace

theorem Tracked.step (h : Tracked c) (sect : LockedSection) : Tracked (c.step sect) := by
  cases sect with
  | cancel grace now =>
    unfold Cancellation.step Process.cancel64
    dsimp only
    by_cases hgrace : grace.toInt < 0
    · rw [if_pos hgrace, if_neg (fun hcomputes => absurd hcomputes.1 (Int.not_le.mpr hgrace))]
      exact h
    · rw [if_neg hgrace]
      by_cases hcomputes : c.process.ComputesDeadline grace
      · obtain ⟨heffective, -⟩ := cancelUntil_computes hcomputes now.milliseconds.toInt
          (now.milliseconds + grace).toInt
        rw [if_pos hcomputes]
        refine ⟨?_, fun _ _ => List.cons_ne_nil _ _, fun hnot => ?_⟩
        · intro request hrequest
          rcases List.mem_cons.mp hrequest with rfl | hrequest
          · exact elapsed_nonneg (Int.not_lt.mp hgrace) now
          · exact h.nonneg request hrequest
        · rw [heffective] at hnot
          cases hnot
      · rw [if_neg hcomputes]
        exact h.keep (cancelUntil_keeps hcomputes (Int.not_lt.mp hgrace) _ _) _
  | check waited now =>
    obtain ⟨-, heffective, hkilled⟩ := check_spec c.process waited now.milliseconds.toInt
    refine ⟨h.nonneg, ?_, ?_⟩
    · intro hwaits halive
      rcases hkilled with ⟨-, hsame⟩ | ⟨-, -, -, hdead⟩
      · exact h.waiting (heffective ▸ hwaits) (hsame ▸ halive)
      · exact absurd (hdead.symm.trans halive) (by decide)
    · intro hnot
      exact h.none (heffective ▸ hnot)
  | append event => exact ⟨h.nonneg, h.waiting, h.none⟩
  | readFailed message errorNumber => exact h.keep (keepsDeadline_recordError _ _ _) _
  | complete => exact ⟨h.nonneg, h.waiting, h.none⟩
  | take => exact h.keep (keepsDeadline_take _) _
  | close =>
    rcases (close_spec c.process).2 with hkeeps | ⟨heffective, hkilled⟩
    · exact h.keep hkeeps _
    · refine ⟨h.nonneg, fun _ halive => ?_, fun hnot => ?_⟩
      · exact absurd (hkilled.symm.trans halive) (by decide)
      · exact absurd (heffective.symm.trans hnot) (by decide)
  | joining | joined => exact ⟨h.nonneg, h.waiting, h.none⟩

theorem Tracked.run (h : Tracked c) (sections : List LockedSection) : Tracked (c.run sections) := by
  induction sections generalizing c with
  | nil => exact h
  | cons sect sections ih => exact ih (h.step sect)

-- ============================================================================
-- Exact deadlines
-- ============================================================================

/-- The addition of a request does not overflow. -/
def Fits (grace : Int64) (now : MonotonicTime) : Prop := now.milliseconds.toInt + grace.toInt <
    2 ^ 63

theorem add_of_fits (hgrace : 0 ≤ grace.toInt) (h : Fits grace now) :
    (now.milliseconds + grace).toInt = now.milliseconds.toInt + grace.toInt := by
  have hnow := now.nonneg
  have hfits : now.milliseconds.toInt + grace.toInt < 2 ^ 63 := h
  rw [Int64.toInt_add, Int.bmod_eq_of_le] <;> omega

theorem add_of_not_fits (h : ¬ Fits grace now) :
    (now.milliseconds + grace).toInt < 0 := by
  have hover : 2 ^ 63 ≤ now.milliseconds.toInt + grace.toInt := Int.not_lt.mp h
  have hnow := now.milliseconds.toInt_lt
  have hgrace := grace.toInt_lt
  rw [Int64.toInt_add, Int.bmod_def]
  split <;> omega

theorem Cancellation.Exact.least (h : c.Exact) (htracked : Tracked c)
    (hcomputes : c.process.ComputesDeadline grace) (request : CancelRequest) :
    let deadline := if c.process.cancelEffective =
    true then min request.elapsed c.process.killDeadline else request.elapsed
    (∃ other ∈ request :: c.requests, deadline = other.elapsed) ∧
      ∀ other ∈ request :: c.requests, deadline ≤ other.elapsed := by
  dsimp only
  by_cases heffective : c.process.cancelEffective = true
  · obtain ⟨⟨earlier, hearlier, hequal⟩, hleast⟩ :=
      h.1 (htracked.waiting heffective (hcomputes.2.2.2.2 heffective))
    rw [if_pos heffective]
    constructor
    · rcases Int.le_total request.elapsed c.process.killDeadline with hle | hle
      · exact ⟨request, List.mem_cons_self, Int.min_eq_left hle⟩
      · exact ⟨earlier, List.mem_cons_of_mem _ hearlier, (Int.min_eq_right hle).trans hequal⟩
    · intro other hother
      rcases List.mem_cons.mp hother with rfl | hother
      · exact Int.min_le_left _ _
      · exact Int.le_trans (Int.min_le_right _ _) (hleast other hother)
  · rw [if_neg heffective, htracked.none (Bool.not_eq_true _ ▸ heffective)]
    refine ⟨⟨request, List.mem_cons_self, rfl⟩, fun other hother => ?_⟩
    exact Int.le_of_eq (congrArg CancelRequest.elapsed (List.mem_singleton.mp hother).symm)

theorem Cancellation.Exact.step (h : c.Exact) (htracked : Tracked c) (sect : LockedSection)
    (hfits : ∀ grace now, sect = .cancel grace now → c.process.ComputesDeadline grace →
    Fits grace now) :
    (c.step sect).Exact := by
  cases sect with
  | cancel grace now =>
    unfold Cancellation.step Process.cancel64
    dsimp only
    by_cases hgrace : grace.toInt < 0
    · rw [if_pos hgrace, if_neg (fun hcomputes => absurd hcomputes.1 (Int.not_le.mpr hgrace))]
      exact h
    · rw [if_neg hgrace]
      by_cases hcomputes : c.process.ComputesDeadline grace
      · obtain ⟨-, hdeadline⟩ := cancelUntil_computes hcomputes now.milliseconds.toInt
          (now.milliseconds + grace).toInt
        rw [add_of_fits (Int.not_lt.mp hgrace) (hfits grace now rfl hcomputes)] at hdeadline ⊢
        rw [if_pos hcomputes]
        refine ⟨fun _ => ?_, fun time htime => ?_⟩
        · dsimp only
          rw [hdeadline]
          exact h.least htracked hcomputes _
        · obtain ⟨request, hrequest, helapsed⟩ := h.2 time htime
          exact ⟨request, List.mem_cons_of_mem _ hrequest, helapsed⟩
      · rw [if_neg hcomputes]
        exact h.keep (cancelUntil_keeps hcomputes (Int.not_lt.mp hgrace) _ _)
  | check waited now =>
    obtain ⟨hdeadline, heffective, hkilled⟩ := check_spec c.process waited now.milliseconds.toInt
    refine ⟨?_, ?_⟩
    · show c.requests ≠ [] → (∃ request ∈ c.requests,
        (c.process.check waited now.milliseconds.toInt).1.killDeadline = _) ∧
        ∀ request ∈ c.requests, (c.process.check waited now.milliseconds.toInt).1.killDeadline ≤ _
      rw [hdeadline]
      exact h.1
    · intro time htime
      rcases hkilled with ⟨hsilent, -⟩ | ⟨hwaits, halive, hpassed, -⟩
      · refine h.2 time ?_
        change time ∈ (if .signalled .kill ∈ (c.process.check waited
          now.milliseconds.toInt).2.1 then _ else _) at htime
        rwa [if_neg hsilent] at htime
      · -- the deadline that has passed is that of a request
        obtain ⟨⟨request, hrequest, helapsed⟩, -⟩ := h.1 (htracked.waiting hwaits halive)
        unfold Cancellation.step at htime
        dsimp only at htime
        split at htime
        · rcases List.mem_cons.mp htime with rfl | hearlier
          · exact ⟨request, hrequest, helapsed ▸ hpassed⟩
          · exact h.2 time hearlier
        · exact h.2 time htime
  | append event => exact h
  | readFailed message errorNumber => exact h.keep (keepsDeadline_recordError _ _ _)
  | complete => exact h
  | take => exact h.keep (keepsDeadline_take _)
  | close =>
    refine ⟨?_, h.2⟩
    show c.requests ≠ [] → (∃ request ∈ c.requests, c.process.close.1.killDeadline = _) ∧
      ∀ request ∈ c.requests, c.process.close.1.killDeadline ≤ _
    rw [(close_spec c.process).1]
    exact h.1
  | joining => exact h
  | joined => exact h

theorem not_exact_of_overflow (htracked : Tracked c) (hcomputes : c.process.ComputesDeadline grace)
    (hover : ¬ Fits grace now) : ¬ (c.step (.cancel grace now)).Exact := by
  have hnext := htracked.step (.cancel grace now)
  have hpast := add_of_not_fits hover
  intro hexact
  obtain ⟨-, hdeadline⟩ := cancelUntil_computes hcomputes now.milliseconds.toInt
    (now.milliseconds + grace).toInt
  have hprocess : (c.step (.cancel grace now)).process =
      (c.process.cancelUntil grace.toInt now.milliseconds.toInt (now.milliseconds +
          grace).toInt).1 := by
    show (c.process.cancel64 grace now.milliseconds).1 = _
    rw [Process.cancel64, if_neg (Int.not_lt.mpr hcomputes.1)]
  have hrequests : (c.step (.cancel grace now)).requests ≠ [] := by
    show (if c.process.ComputesDeadline grace then _ else _) ≠ ([] : List CancelRequest)
    rw [if_pos hcomputes]
    exact List.cons_ne_nil _ _
  -- the deadline is negative, and no request has elapsed then
  have hnegative : (c.step (.cancel grace now)).process.killDeadline < 0 := by
    rw [hprocess, hdeadline]
    split
    · exact Int.lt_of_le_of_lt (Int.min_le_left _ _) hpast
    · exact hpast
  obtain ⟨request, hrequest, hequal⟩ := (hexact.1 hrequests).1
  have helapsed := hnext.nonneg request hrequest
  omega

theorem tracked_start {s : System} (hstart : System.Started s) : Tracked (.start s.process) := by
  cases hstart with
  | launched pid hpid runtimeLock | failed message errorNumber runtimeLock =>
    exact ⟨nofun, nofun, fun _ => rfl⟩

theorem exact_start (p : Process) : (Cancellation.start p).Exact :=
    ⟨fun hne => (hne rfl).elim, nofun⟩

/-- In every state of a run the deadline is the least sum of the time of a request and
    its grace period, and no escalation was before it, if and only if no sum exceeds
    the largest `int64_t` where one is computed. -/
theorem deadlines_exact_iff {s : System} (hstart : System.Started s)
    (sections : List LockedSection) :
    (∀ earlier, earlier <+: sections → ((Cancellation.start s.process).run earlier).Exact) ↔
      ∀ earlier grace now, earlier ++ [.cancel grace now] <+: sections →
        ((Cancellation.start s.process).run earlier).process.ComputesDeadline grace →
        Fits grace now := by
  have htracked (earlier : List LockedSection) := (tracked_start hstart).run earlier
  have hconcat (earlier : List LockedSection) (sect : LockedSection) :
      (Cancellation.start s.process).run (earlier ++ [sect]) =
          ((Cancellation.start s.process).run earlier).step sect := by
    rw [Cancellation.run, List.foldl_append]
    rfl
  constructor
  · intro hexact earlier grace now hprefix hcomputes
    have hafter := hexact _ hprefix
    rw [hconcat] at hafter
    exact Classical.byContradiction fun hover =>
      not_exact_of_overflow (htracked earlier) hcomputes hover hafter
  · intro hfits earlier
    induction earlier using List.reverseRecOn with
    | nil => exact fun _ => exact_start _
    | append_singleton earlier sect ih =>
      intro hprefix
      rw [hconcat]
      refine (ih ((List.prefix_append _ _).trans hprefix)).step (htracked earlier) sect ?_
      rintro grace now rfl hcomputes
      exact hfits earlier grace now hprefix hcomputes

/-- A child that was just launched. -/
theorem deadlines_exact_launched :
    (∀ earlier, earlier <+: [.cancel 10 ⟨5, by decide⟩] →
        ((Cancellation.start { Process.allocated with pumpStarted := true, pid := 7 }).run
        earlier).Exact) ↔
      ∀ earlier grace now, earlier ++ [.cancel grace now] <+: [.cancel 10 ⟨5, by decide⟩] →
        ((Cancellation.start { Process.allocated with pumpStarted := true, pid := 7 }).run
          earlier).process.ComputesDeadline
          grace → Fits grace now :=
  deadlines_exact_iff (System.Started.launched 7 (by decide) none) _

/-- The longest grace period: the child is killed at the next look. -/
theorem longest_grace_kills :
    let launched := Cancellation.start { Process.allocated with pumpStarted := true, pid := 7 }
    let c := launched.run [.cancel Int64.maxValue ⟨5, by decide⟩, .check .nothing ⟨6, by decide⟩]
    c.requests = [⟨5, 2 ^ 63 - 1⟩] ∧ c.process.killDeadline = -2 ^ 63 + 4 ∧ c.escalations = [6] ∧
        ¬ c.Exact := by
  have hrequests : ((Cancellation.start
      { Process.allocated with pumpStarted := true, pid := 7 }).run
      [.cancel Int64.maxValue ⟨5, by decide⟩, .check .nothing ⟨6, by decide⟩]).requests =
          [⟨5, 2 ^ 63 - 1⟩] := by
    decide +kernel
  have hescalations : ((Cancellation.start
      { Process.allocated with pumpStarted := true, pid := 7 }).run
      [.cancel Int64.maxValue ⟨5, by decide⟩, .check .nothing ⟨6, by decide⟩]).escalations =
          [6] := by
    decide +kernel
  refine ⟨hrequests, by decide +kernel, hescalations, fun hexact => ?_⟩
  obtain ⟨request, hrequest, helapsed⟩ :=
    hexact.2 6 (by rw [hescalations]; exact List.mem_singleton.mpr rfl)
  rw [hrequests, List.mem_singleton] at hrequest
  subst hrequest
  exact absurd helapsed (by decide)

end Cwhip.Runtime.ProcessAsync
