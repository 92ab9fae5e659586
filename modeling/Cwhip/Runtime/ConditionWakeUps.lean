/-
  Cwhip.Runtime.ConditionWakeUps

  No wake-up of a condition is lost (`RuntimeThreads.c`), whatever the order in
  which threads register, hand their mutex over, block, signal and broadcast.

  A waiter remembers the sequence it registered at.  The sequence has moved on by
  the notifications since then, modulo 2^64, so a waiter that was notified does
  not block any more as long as these are fewer than 2^64
  (`conditions_lose_no_wakeUp`); after exactly 2^64 of them it would
  (`wrapped_sequence_blocks`).
-/

import Cwhip.Runtime.MutexSafety

namespace Cwhip.Runtime.Synchronization

open Cwhip.Lib
open List (append_assoc append_nil)
open Function (update_eq_self update_of_ne update_self)

/-! ## Waiters -/

/-- The sequence that a thread in the wait loop of a condition has observed. -/
def Progress.waitsOn (condition : Nat) : Progress → Option (BitVec 64)
  | .handOver id _ observed | .test id _ observed => if id = condition then some observed else none
  | _ => none

def waitsOn (condition : Nat) (call : Option Progress) : Option (BitVec 64) :=
  call.bind (Progress.waitsOn condition)

/-- Registered as a waiter, and not out of the wait loop yet. -/
def Waits (condition : Nat) (call : Option Progress) : Prop :=
    (waitsOn condition call).isSome = true

/-- Out of the wait loop, and on the way to the mutex. -/
def Progress.past (condition mutex : Nat) : Progress → Bool
  | .acquire id acquirer | .acquireLoop id acquirer | .acquired id acquirer =>
    id == mutex && acquirer == .wait condition
  | _ => false

/-- The mutex that a waiter has to return with. -/
def Progress.returnsWith (condition mutex : Nat) : Progress → Bool
  | .handOver id about _ | .test id about _ => id == condition && about == mutex
  | progress => progress.past condition mutex

/-- Registered as a waiter with this mutex, and not yet returned. -/
def Registered (condition mutex : Nat) (call : Option Progress) : Prop :=
  ∃ progress, call = some progress ∧ progress.returnsWith condition mutex = true

/-- How often a condition was notified since a thread registered on it. -/
def missedAfter (condition thread count : Nat) : Occurrence → Nat
  | .registered other id => if other = thread ∧ id = condition then 0 else count
  | .notified _ id => if id = condition then count + 1 else count
  | _ => count

def missed (condition thread : Nat) (log : List Occurrence) : Nat :=
  log.foldl (missedAfter condition thread) 0

theorem missed_append (condition thread : Nat) (log extra : List Occurrence) :
    missed condition thread (log ++ extra) = extra.foldl (missedAfter condition thread)
    (missed condition thread log) :=
  List.foldl_append

/-- The occurrences that a step adds are not about the condition. -/
def Unheard (condition : Nat) (extra : List Occurrence) : Prop :=
  ∀ thread count, extra.foldl (missedAfter condition thread) count = count

/-! ## One step -/

inductive ConditionStep (id thread : Nat) (before after : Option Progress)
    (extra : List Occurrence) :
    Option Condition → Option Condition → Prop where
  | same (condition : Option Condition) (unheard : Unheard id extra)
      (waits : waitsOn id after = waitsOn id before)
      (tests : ∀ mutex observed, before = some (.test id mutex observed) → after = before) :
      ConditionStep id thread before after extra condition condition
  | register (condition : Condition) (mutex : Nat) (call : before = some (.register id mutex))
      (next : after = some (.handOver id mutex condition.sequence))
      (own : ∀ count, extra.foldl (missedAfter id thread) count = 0)
      (others : ∀ other ≠ thread, ∀ count, extra.foldl (missedAfter id other) count = count) :
      ConditionStep id thread before after extra (some condition)
        (some { condition with waiters := condition.waiters + 1 })
  /-- Nothing has happened since the thread observed the sequence: it blocks. -/
  | block (condition : Condition) (mutex : Nat) (unheard : Unheard id extra)
      (call : before = some (.test id mutex condition.sequence)) (stays : after = before) :
      ConditionStep id thread before after extra (some condition)
        (some { condition with condition := condition.condition ++ [thread] })
  | leave (condition : Condition) (mutex : Nat) (observed : BitVec 64) (unheard : Unheard id extra)
      (call : before = some (.test id mutex observed)) (changed : condition.sequence ≠ observed)
      (awake : thread ∉ condition.condition) (next : after = some (.acquire mutex (.wait id))) :
      ConditionStep id thread before after extra (some condition)
        (some { condition with waiters := condition.waiters - 1 })
  /-- A blocked thread wakes up for no reason. -/
  | wake (condition : Condition) (unheard : Unheard id extra) (stays : after = before) :
      ConditionStep id thread before after extra (some condition)
        (some { condition with condition := condition.condition.filter (· ≠ thread) })
  | notify (condition : Condition) (broadcast : Bool) (blocked : List Nat)
      (call : before = some (.notify id broadcast)) (next : after = none)
      (heard : ∀ other count, extra.foldl (missedAfter id other) count = count + 1)
      (fewer : ∀ other ∈ blocked, other ∈ condition.condition)
      (wakes : condition.condition = [] ∨ ∃ other ∈ condition.condition, other ∉ blocked)
      (all : broadcast = true → blocked = []) :
      ConditionStep id thread before after extra (some condition)
        (some { condition with sequence := condition.sequence + 1, condition := blocked })
  | free (condition : Condition) (unheard : Unheard id extra) (idle : condition.waiters = 0)
      (call : before = some (.releaseCondition id)) (next : after = none) :
      ConditionStep id thread before after extra (some condition) none

/-- What a step does to the calls, the log and the conditions. -/
def StepsCondition (s s' : System) (thread : Nat) : Prop :=
  ∃ next extra, s'.calls = Function.update s.calls thread next ∧ s'.log = s.log ++ extra ∧
    ∀ id, ConditionStep id thread (s.calls thread) next extra (s.conditions id) (s'.conditions id)

section

variable {id thread : Nat} {before after : Option Progress} {extra : List Occurrence}

theorem ConditionStep.focus {conditions : Nat → Option Condition} {about : Nat}
    {condition' : Option Condition}
    (hon : ConditionStep about thread before after extra (conditions about) condition')
    (hunheard : ∀ id ≠ about, Unheard id extra)
    (hwaits : ∀ id ≠ about, waitsOn id after = waitsOn id before)
    (htests : ∀ id ≠ about, ∀ mutex observed, before ≠ some (.test id mutex observed)) (id : Nat) :
    ConditionStep id thread before after extra (conditions id)
    (Function.update conditions about condition' id) := by
  by_cases hid : id = about
  · subst hid
    simpa using hon
  · rw [update_of_ne hid]
    exact .same _ (hunheard id hid) (hwaits id hid) fun mutex observed h =>
      absurd h (htests id hid mutex observed)

theorem StepsCondition.quiet {s s' : System} {thread : Nat} (next : Option Progress)
    (extra : List Occurrence) (hcalls : s'.calls = Function.update s.calls thread next)
    (hlog : s'.log = s.log ++ extra) (hconditions : s'.conditions = s.conditions)
    (hunheard : ∀ id, Unheard id extra)
    (hwaits : ∀ id, waitsOn id next = waitsOn id (s.calls thread))
    (htests : ∀ id mutex observed, s.calls thread = some (.test id mutex observed) →
    next = s.calls thread) :
    StepsCondition s s' thread := by
  refine ⟨next, extra, hcalls, hlog, fun id => ?_⟩
  rw [hconditions]
  exact .same _ (hunheard id) (hwaits id) (htests id)

end

/-- The calls that are in no wait loop. -/
def Progress.waitless (progress : Progress) : Prop := ∀ condition, progress.waitsOn condition = none

variable {s s' : System} {progress : Progress} {broadcast : Bool} {woken : List Nat}
  {action : Action}

theorem stepsCondition_waitless {thread : Nat} (next : Option Progress) (extra : List Occurrence)
    (hcall : s.calls thread = some progress) (hwaitless : progress.waitless)
    (hnext : ∀ id, waitsOn id next = none) (hcalls : s'.calls = Function.update s.calls thread next)
    (hlog : s'.log = s.log ++ extra) (hconditions : s'.conditions = s.conditions)
    (hunheard : ∀ id, Unheard id extra) : StepsCondition s s' thread := by
  refine .quiet next extra hcalls hlog hconditions hunheard (fun id =>
    ?_) fun id mutex observed h => ?_
  · rw [hnext, hcall]
    exact (hwaitless id).symm
  · obtain rfl := Option.some.inj (hcall.symm.trans h)
    have hloop := hwaitless id
    simp [Progress.waitsOn] at hloop

/-- A test of the mutex leaves the conditions alone. -/
theorem acquireTest_stepsCondition {thread about : Nat} {acquirer : Acquirer} {mutex : Mutex}
    (hcall : s.calls thread = some progress) (hwaitless : progress.waitless) :
    StepsCondition s (s.acquireTest thread about acquirer mutex) thread := by
  by_cases hlocked : mutex.locked = true
  · rw [System.acquireTest, tryAcquire_locked hlocked]
    exact stepsCondition_waitless (some (.acquireLoop about acquirer)) [] hcall hwaitless
      (fun _ => rfl) rfl (append_nil _).symm rfl fun _ _ _ => rfl
  · rw [System.acquireTest, tryAcquire_free hlocked]
    exact stepsCondition_waitless (some (.acquired about acquirer))
      [.acquired thread about] hcall hwaitless
      (fun _ => rfl) rfl rfl rfl fun _ _ _ => rfl

theorem notify_eq_ok {condition condition' : Condition}
    (h : condition.notify broadcast woken = .ok condition') :
    ∃ blocked, condition' = { condition with sequence := condition.sequence + 1, condition :=
    blocked } ∧
      (∀ other ∈ blocked, other ∈ condition.condition) ∧
      (condition.condition = [] ∨ ∃ other ∈ condition.condition, other ∉ blocked) ∧
      (broadcast = true → blocked = []) := by
  simp only [Condition.notify, bind_eq_ok, pure_eq_ok] at h
  obtain ⟨blocked, hblocked, rfl⟩ := h
  refine ⟨blocked, rfl, ?_⟩
  cases broadcast with
  | true =>
    rw [if_pos rfl] at hblocked
    obtain rfl := Except.ok.inj hblocked
    refine ⟨fun _ h => absurd h List.not_mem_nil, ?_, fun _ => rfl⟩
    rcases List.eq_nil_or_concat condition.condition with hnil | ⟨rest, last, hlast⟩
    · exact .inl hnil
    · exact .inr ⟨last, by simp [hlast], by simp⟩
  | false =>
    obtain ⟨hfewer, hwakes⟩ := wakeSome_eq_ok hblocked
    exact ⟨hfewer, hwakes, by rintro ⟨⟩⟩

/-- One section of a call, for every place the call can be in. -/
theorem advance_stepsCondition {thread : Nat} (hcall : s.calls thread = some progress)
    (h : s.advance thread woken progress = .ok s') :
    StepsCondition s s' thread := by
  -- an answer of a call that waits on no condition leaves every condition as it is
  have hanswer : ∀ {s₁ : System} {error : LastError} (extra : List Occurrence), progress.waitless →
      s₁.calls = s.calls → s₁.log = s.log ++ extra → s₁.conditions = s.conditions →
        (∀ id, Unheard id extra) →
      StepsCondition s (s₁.answer thread error) thread := by
    intro s₁ error extra hwaitless hcalls hlog hconditions hunheard
    refine stepsCondition_waitless none (extra ++ [.returned thread error]) hcall hwaitless
      (fun _ => rfl) ?_ ?_ hconditions fun id other count => ?_
    · rw [← hcalls]
      rfl
    · rw [← append_assoc, ← hlog]
      rfl
    · rw [List.foldl_append, hunheard id]
      rfl
  have hback : ∀ {error : LastError}, progress.waitless →
      StepsCondition s (s.answer thread error) thread :=
    fun hwaitless => hanswer [] hwaitless rfl (append_nil _).symm rfl fun _ _ _ => rfl
  cases progress with
  | lock about =>
    simp only [System.advance, bind_eq_ok] at h
    obtain ⟨mutex, _, h⟩ := h
    split at h
    · obtain rfl := Except.ok.inj h
      exact hback fun _ => rfl
    · split at h
      · obtain rfl := Except.ok.inj h
        exact hanswer [.acquired thread about] (fun _ => rfl) rfl rfl rfl fun _ _ _ => rfl
      · obtain rfl := Except.ok.inj h
        exact stepsCondition_waitless (some (.acquire about .lock)) [] hcall (fun _ => rfl)
          (fun _ => rfl) rfl (append_nil _).symm rfl fun _ _ _ => rfl
  | unlock about =>
    simp only [System.advance, bind_eq_ok] at h
    obtain ⟨mutex, _, h⟩ := h
    split at h
    · simp only [bind_eq_ok] at h
      obtain ⟨mutex', _, h⟩ := h
      obtain rfl := Except.ok.inj h
      exact hanswer [.released thread about] (fun _ => rfl) rfl rfl rfl fun _ _ _ => rfl
    · obtain rfl := Except.ok.inj h
      exact hback fun _ => rfl
  | release about =>
    simp only [System.advance, bind_eq_ok] at h
    obtain ⟨mutex, _, h⟩ := h
    split at h
    · obtain rfl := Except.ok.inj h
      exact hback fun _ => rfl
    · obtain rfl := Except.ok.inj h
      exact hanswer [.freed thread about] (fun _ => rfl) rfl rfl rfl fun _ _ _ => rfl
  | wait condition about =>
    simp only [System.advance, bind_eq_ok] at h
    obtain ⟨mutex, _, h⟩ := h
    split at h
    · obtain rfl := Except.ok.inj h
      exact stepsCondition_waitless (some (.register condition about)) [] hcall (fun _ => rfl)
        (fun _ => rfl) rfl (append_nil _).symm rfl fun _ _ _ => rfl
    · obtain rfl := Except.ok.inj h
      exact hback fun _ => rfl
  | register about mutex =>
    simp only [System.advance, bind_eq_ok, require_eq_ok] at h
    obtain ⟨condition, hcondition, h⟩ := h
    obtain rfl := Except.ok.inj h
    refine ⟨some (.handOver about mutex condition.sequence), [.registered thread about],
      rfl, rfl, ?_⟩
    refine ConditionStep.focus ?_ (fun id hne other count => ?_)
      (fun id hne => ?_) fun id _ mutex observed h => ?_
    · rw [hcondition]
      refine .register condition mutex hcall rfl (fun count => ?_) fun other hother count => ?_
      · simp [missedAfter]
      · simp [missedAfter, Ne.symm hother]
    · simp [missedAfter, Ne.symm hne]
    · rw [hcall]
      simp [waitsOn, Progress.waitsOn, Ne.symm hne]
    · cases hcall.symm.trans h
  | handOver condition about observed =>
    simp only [System.advance, bind_eq_ok] at h
    obtain ⟨_, _, mutex', _, h⟩ := h
    obtain rfl := Except.ok.inj h
    refine .quiet (some (.test condition about observed)) [.released thread about] rfl rfl rfl
      (fun _ _ _ => rfl) (fun id => by rw [hcall]; rfl) fun id mutex observed h => ?_
    cases hcall.symm.trans h
  | test about mutex observed =>
    simp only [System.advance, bind_eq_ok, require_eq_ok, ensure_eq_ok] at h
    obtain ⟨condition, hcondition, _, hawake, h⟩ := h
    have htest : ∀ id ≠ about, ∀ mutex observed, s.calls thread ≠
        some (.test id mutex observed) := by
      intro id hne mutex' observed' h
      cases hcall.symm.trans h
      exact hne rfl
    split at h
    · next hsame =>
      obtain rfl := Except.ok.inj h
      refine ⟨s.calls thread, [], (update_eq_self _ _).symm, (append_nil _).symm, ?_⟩
      refine ConditionStep.focus ?_ (fun _ _ _ _ => rfl) (fun _ _ => rfl) htest
      rw [hcondition]
      exact .block condition mutex (fun _ _ => rfl) (by rw [hcall, hsame]) rfl
    · next hchanged =>
      obtain rfl := Except.ok.inj h
      refine ⟨some (.acquire mutex (.wait about)), [], rfl, (append_nil _).symm, ?_⟩
      refine ConditionStep.focus ?_ (fun _ _ _ _ => rfl) (fun id hne => ?_) htest
      · rw [hcondition]
        exact .leave condition mutex observed (fun _ _ => rfl) hcall hchanged hawake rfl
      · rw [hcall]
        simp [waitsOn, Progress.waitsOn, Ne.symm hne]
  | acquire about acquirer =>
    simp only [System.advance, bind_eq_ok] at h
    obtain ⟨mutex, _, h⟩ := h
    obtain rfl := Except.ok.inj h
    exact acquireTest_stepsCondition hcall fun _ => rfl
  | acquireLoop about acquirer =>
    simp only [System.advance, bind_eq_ok] at h
    obtain ⟨mutex, _, _, _, h⟩ := h
    obtain rfl := Except.ok.inj h
    exact acquireTest_stepsCondition hcall fun _ => rfl
  | notify about broadcast =>
    simp only [System.advance, bind_eq_ok, require_eq_ok] at h
    obtain ⟨condition, hcondition, h⟩ := h
    split at h
    · simp only [bind_eq_ok] at h
      obtain ⟨condition', hnotify, h⟩ := h
      obtain rfl := Except.ok.inj h
      obtain ⟨blocked, rfl, hfewer, hwakes, hall⟩ := notify_eq_ok hnotify
      refine ⟨none, [.notified thread about, .returned thread .cleared],
        rfl, append_assoc _ _ _, ?_⟩
      refine ConditionStep.focus ?_ (fun id hne other count => ?_) (fun id _ => by rw [hcall]; rfl)
        fun id _ mutex observed h => ?_
      · rw [hcondition]
        exact .notify condition broadcast blocked hcall rfl
          (fun other count => by simp [missedAfter]) hfewer
          hwakes hall
      · simp [missedAfter, Ne.symm hne]
      · cases hcall.symm.trans h
    · obtain rfl := Except.ok.inj h
      exact hback fun _ => rfl
  | releaseCondition about =>
    simp only [System.advance, bind_eq_ok, require_eq_ok] at h
    obtain ⟨condition, hcondition, h⟩ := h
    split at h
    · obtain rfl := Except.ok.inj h
      exact hback fun _ => rfl
    · next hidle =>
      obtain rfl := Except.ok.inj h
      refine ⟨none, [.conditionFreed thread about, .returned thread .cleared], rfl,
        append_assoc _ _ _, ?_⟩
      refine ConditionStep.focus ?_ (fun _ _ _ _ => rfl) (fun id _ => by rw [hcall]; rfl)
        fun id _ mutex observed h => ?_
      · rw [hcondition]
        exact .free condition (fun _ _ => rfl) (by omega) hcall rfl
      · cases hcall.symm.trans h
  | acquired about acquirer => cases h

/-- All that a step can do to a condition; the invariants are derived from it. -/
theorem step_condition (h : s.step action = .ok s') :
    StepsCondition s s' action.thread := by
  have hstill : ∀ {thread : Nat} {s' : System}, s'.calls = s.calls → s'.log = s.log →
      s'.conditions = s.conditions → StepsCondition s s' thread :=
          fun {thread s'} hcalls hlog hconditions =>
    .quiet (s.calls thread) [] (by rw [hcalls, update_eq_self])
      (by rw [hlog, append_nil]) hconditions (fun _ _ _ => rfl) (fun _ => rfl) fun _ _ _ _ => rfl
  cases action with
  | acquire thread =>
    simp only [System.step, bind_eq_ok] at h
    obtain ⟨_, _, h⟩ := h
    split at h
    · obtain rfl := Except.ok.inj h
      exact hstill rfl rfl rfl
    · next mutex acquirer hcall =>
      obtain rfl := Except.ok.inj h
      have hwaitless : (Progress.acquired mutex acquirer).waitless := fun _ => rfl
      -- with the mutex and the runtime lock back, the call returns
      cases acquirer with
      | lock =>
        exact stepsCondition_waitless none [.returned thread .cleared] hcall hwaitless
          (fun _ => rfl) rfl rfl rfl fun _ _ _ => rfl
      | wait condition =>
        exact stepsCondition_waitless none [.waited thread condition mutex,
          .returned thread .cleared] hcall
          hwaitless (fun _ => rfl) rfl
          (append_assoc _ _ _) rfl fun _ _ _ => rfl
    · cases h
  | release thread =>
    simp only [System.step, bind_eq_ok, pure_eq_ok] at h
    obtain ⟨_, _, rfl⟩ := h
    exact hstill rfl rfl rfl
  | call thread call =>
    simp only [System.step, bind_eq_ok, pure_eq_ok, ensure_eq_ok] at h
    obtain ⟨_, ⟨_, hidle⟩, rfl⟩ := h
    have hbegin : ∀ progress : Progress, progress.waitless →
        StepsCondition s (s.setCall thread (some progress)) thread := fun progress hwaitless =>
      .quiet _ [] rfl (append_nil _).symm rfl (fun _ _ _ => rfl)
        (fun id => by rw [hidle]; exact hwaitless id) fun _ _ _ h => absurd (hidle.symm.trans h)
          (by simp)
    unfold System.start
    split
    case h_8 =>
      exact .quiet none [.returned thread .einval] rfl rfl rfl (fun _ _ _ => rfl)
        (fun id => congrArg (waitsOn id) hidle.symm) fun _ _ _ h => absurd (hidle.symm.trans h)
          (by simp)
    all_goals exact hbegin _ fun _ => rfl
  | advance thread woken =>
    simp only [System.step, bind_eq_ok, require_eq_ok] at h
    obtain ⟨progress, hcall, h⟩ := h
    exact advance_stepsCondition hcall h
  | wake thread =>
    simp only [System.step, bind_eq_ok, require_eq_ok] at h
    obtain ⟨progress, hcall, h⟩ := h
    unfold System.wake at h
    split at h
    · next about mutex observed =>
      simp only [bind_eq_ok, require_eq_ok] at h
      obtain ⟨condition, hcondition, h⟩ := h
      obtain rfl := Except.ok.inj h
      refine ⟨s.calls thread, [], (update_eq_self _ _).symm, (append_nil _).symm, ?_⟩
      refine ConditionStep.focus ?_ (fun _ _ _ _ => rfl)
        (fun _ _ => rfl) fun id hne mutex' observed' h => ?_
      · rw [hcondition]
        exact .wake condition (fun _ _ => rfl) rfl
      · cases hcall.symm.trans h
        exact hne rfl
    · simp only [bind_eq_ok] at h
      obtain ⟨_, _, h⟩ := h
      obtain rfl := Except.ok.inj h
      exact hstill rfl rfl rfl
    · cases h

/-! ## The invariants -/

/-- What a condition, its waiters and the log have in common. -/
structure ConditionInvariant (s : System) : Prop where
  /-- The condition of a waiter is there, and its sequence tells the waiter's notifications. -/
  sequence : ∀ id thread observed, waitsOn id (s.calls thread) = some observed →
    ∃ condition, s.conditions id = some condition ∧
      condition.sequence = observed + BitVec.ofNat 64 (missed id thread s.log)
  waiters : ∀ id condition, s.conditions id = some condition → census (Waits id) s.calls =
    condition.waiters
  /-- Only waiters block. -/
  blocked : ∀ id condition, s.conditions id = some condition → ∀ thread ∈ condition.condition,
    ∃ mutex observed, s.calls thread = some (.test id mutex observed)

theorem System.Initial.conditionInvariant (h : s.Initial) : ConditionInvariant s where
  sequence := by
    intro id thread observed hwaits
    rw [h.calls] at hwaits
    cases hwaits
  waiters := by
    intro id condition hcondition
    rw [h.conditions id condition hcondition]
    refine census_eq_zero.mpr fun thread hwaits => ?_
    rw [h.calls] at hwaits
    cases hwaits
  blocked := by
    intro id condition hcondition thread hblocked
    rw [h.conditions id condition hcondition] at hblocked
    cases hblocked

section

variable {id thread : Nat} {calls : Nat → Option Progress} {after : Option Progress}
  {log extra : List Occurrence} {condition condition' : Option Condition}

variable {observed : BitVec 64}

theorem waitsOn_test {id mutex : Nat} :
    waitsOn id (some (.test id mutex observed)) = some observed :=
  if_pos rfl

theorem waits_of_waiters {id : Nat} {calls : Nat → Option Progress} {n : Nat}
    (hcount : census (Waits id) calls = n) {thread : Nat}
    (hwaits : waitsOn id (calls thread) = some observed) : 0 < n := by
  by_contra hnone
  have hzero : n = 0 := by omega
  rw [hzero] at hcount
  exact census_eq_zero.mp hcount thread (by rw [Waits, hwaits]; rfl)

theorem ConditionStep.sequence (h : ConditionStep id thread (calls thread) after extra
    condition condition')
    (hcount : ∀ found, condition = some found → census (Waits id) calls = found.waiters)
    (hsequence : ∀ other observed, waitsOn id (calls other) = some observed →
      ∃ found, condition = some found ∧ found.sequence = observed + BitVec.ofNat 64
      (missed id other log)) :
    ∀ other observed, waitsOn id (Function.update calls thread after other) = some observed →
      ∃ found, condition' = some found ∧
        found.sequence = observed + BitVec.ofNat 64 (missed id other (log ++ extra)) := by
  intro other observed hwaits
  rw [missed_append]
  -- a thread that still waits for what it waited for before
  have hbefore : waitsOn id after = waitsOn id (calls thread) ∨ waitsOn id after = none →
      waitsOn id (calls other) = some observed := by
    intro hkept
    by_cases hother : other = thread
    · subst hother
      rw [update_self] at hwaits
      rcases hkept with hkept | hkept
      · rwa [← hkept]
      · rw [hkept] at hwaits
        cases hwaits
    · rwa [update_of_ne hother] at hwaits
  cases h with
  | same condition unheard waits =>
    rw [unheard]
    exact hsequence other observed (hbefore (.inl waits))
  | register found mutex call next own others =>
    refine ⟨_, rfl, ?_⟩
    by_cases hother : other = thread
    · subst hother
      rw [update_self, next] at hwaits
      have hobserved : found.sequence = observed := by
        simpa [waitsOn, Progress.waitsOn] using hwaits
      rw [own, hobserved]
      simp
    · rw [update_of_ne hother] at hwaits
      obtain ⟨was, hwas, heq⟩ := hsequence other observed hwaits
      cases hwas
      rw [others other hother]
      exact heq
  | block found mutex unheard call stays =>
    obtain ⟨was, hwas, heq⟩ := hsequence other observed (hbefore (.inl (by rw [stays])))
    cases hwas
    exact ⟨_, rfl, by rw [unheard]; exact heq⟩
  | leave found mutex seen unheard call changed awake next =>
    obtain ⟨was, hwas, heq⟩ := hsequence other observed (hbefore (.inr (by rw [next]; rfl)))
    cases hwas
    exact ⟨_, rfl, by rw [unheard]; exact heq⟩
  | wake found unheard stays =>
    obtain ⟨was, hwas, heq⟩ := hsequence other observed (hbefore (.inl (by rw [stays])))
    cases hwas
    exact ⟨_, rfl, by rw [unheard]; exact heq⟩
  | notify found broadcast blocked call next heard =>
    obtain ⟨was, hwas, heq⟩ := hsequence other observed (hbefore (.inr (by rw [next]; rfl)))
    cases hwas
    refine ⟨_, rfl, ?_⟩
    rw [heard]
    show found.sequence + 1 = _
    rw [heq, BitVec.ofNat_add, BitVec.add_assoc]
    rfl
  | free found unheard idle call next =>
    -- there was no waiter
    have hold := hbefore (.inr (by rw [next]; rfl))
    have hpos := waits_of_waiters (hcount found rfl) hold
    omega

theorem ConditionStep.waiters (h : ConditionStep id thread (calls thread) after extra
    condition condition')
    (hcount : ∀ found, condition = some found → census (Waits id) calls = found.waiters) :
    ∀ found, condition' = some found → census (Waits id) (Function.update calls thread after) =
    found.waiters := by
  cases h with
  | same condition unheard waits =>
    intro found hfound
    rw [census_same (by rw [Waits, Waits, waits])]
    exact hcount found hfound
  | register found mutex call next =>
    rintro _ ⟨rfl⟩
    refine census_enter_eq (hcount found rfl) ?_ ?_
    · rw [call]
      exact Bool.false_ne_true
    · rw [next, Waits, waitsOn, Option.bind_some, Progress.waitsOn, if_pos rfl]
      rfl
  | block found mutex unheard call stays =>
    rintro _ ⟨rfl⟩
    rw [stays, update_eq_self]
    exact hcount found rfl
  | leave found mutex observed unheard call changed awake next =>
    rintro _ ⟨rfl⟩
    refine (census_leave_eq (hcount found rfl) ?_ ?_).2
    · rw [call, Waits, waitsOn_test]
      rfl
    · rw [next]
      exact Bool.false_ne_true
  | wake found unheard stays =>
    rintro _ ⟨rfl⟩
    rw [stays, update_eq_self]
    exact hcount found rfl
  | notify found broadcast blocked call next =>
    rintro _ ⟨rfl⟩
    rw [census_same (by rw [call, next]; exact Iff.rfl)]
    exact hcount found rfl
  | free found => rintro _ ⟨⟩

theorem ConditionStep.blocked (h : ConditionStep id thread (calls thread) after extra
    condition condition') (hblocked : ∀ found, condition = some found → ∀ other ∈ found.condition,
      ∃ mutex observed, calls other = some (.test id mutex observed)) :
    ∀ found, condition' = some found → ∀ other ∈ found.condition,
      ∃ mutex observed, Function.update calls thread after other =
      some (.test id mutex observed) := by
  -- the blocked threads that the step does not move
  have hothers : ∀ {found : Condition} {other : Nat}, condition = some found →
      other ∈ found.condition →
      (other = thread → after = calls thread) →
      ∃ mutex observed, Function.update calls thread after other =
          some (.test id mutex observed) := by
    intro found other hfound hmem hstays
    obtain ⟨mutex, observed, hcall⟩ := hblocked found hfound other hmem
    refine ⟨mutex, observed, ?_⟩
    by_cases hother : other = thread
    · rw [hother, update_self, hstays hother, ← hother, hcall]
    · rw [update_of_ne hother, hcall]
  cases h with
  | same condition unheard waits tests =>
    intro found hfound other hmem
    refine hothers hfound hmem fun hother => ?_
    obtain ⟨mutex, observed, hcall⟩ := hblocked found hfound other hmem
    exact tests mutex observed (hother ▸ hcall)
  | register found mutex call =>
    rintro _ ⟨rfl⟩ other hmem
    refine hothers rfl hmem fun hother => ?_
    obtain ⟨about, observed, htest⟩ := hblocked found rfl other hmem
    cases (hother ▸ htest).symm.trans call
  | block found mutex unheard call stays =>
    rintro _ ⟨rfl⟩ other hmem
    rcases List.mem_append.mp hmem with hmem | hmem
    · exact hothers rfl hmem fun _ => stays
    · rw [List.mem_singleton.mp hmem, update_self, stays]
      exact ⟨mutex, _, call⟩
  | leave found mutex observed unheard call changed awake next =>
    rintro _ ⟨rfl⟩ other hmem
    exact hothers rfl hmem fun hother => absurd (hother ▸ hmem) awake
  | wake found unheard stays =>
    rintro _ ⟨rfl⟩ other hmem
    exact hothers rfl (List.mem_of_mem_filter hmem) fun _ => stays
  | notify found broadcast blocked call next heard fewer =>
    rintro _ ⟨rfl⟩ other hmem
    refine hothers rfl (fewer other hmem) fun hother => ?_
    obtain ⟨about, observed, htest⟩ := hblocked found rfl other (fewer other hmem)
    cases (hother ▸ htest).symm.trans call
  | free found => rintro _ ⟨⟩

end

theorem ConditionInvariant.step (hs : ConditionInvariant s)
    (h : s.step action = .ok s') : ConditionInvariant s' := by
  obtain ⟨next, extra, hcalls, hlog, hcondition⟩ := step_condition h
  refine ⟨fun id => ?_, fun id => ?_, fun id => ?_⟩
  · rw [hcalls, hlog]
    exact (hcondition id).sequence (hs.waiters id) (hs.sequence id)
  · rw [hcalls]
    exact (hcondition id).waiters (hs.waiters id)
  · rw [hcalls]
    exact (hcondition id).blocked (hs.blocked id)

/-! ## Waiters that were notified -/

/-- Not in a wait on the condition any more, or out of its wait loop. -/
def Past (condition : Nat) (call : Option Progress) : Prop :=
  call = none ∨ ∃ progress mutex, call = some progress ∧ progress.past condition mutex = true

/-- A notified waiter: it is not blocked, unless the sequence has come round. -/
def Awake (id thread : Nat) (s : System) : Prop :=
  Past id (s.calls thread) ∨
    Waits id (s.calls thread) ∧ 0 < missed id thread s.log ∧
      (missed id thread s.log < 2 ^ 64 →
        ∀ condition, s.conditions id = some condition → thread ∉ condition.condition)

/-- A waiter past its loop stays past it until it calls again. -/
theorem past_step {id : Nat} (action : Action) (hpast : Past id (s.calls action.thread))
    (hcall : ∀ call, action ≠ .call action.thread call) (h : s.step action = .ok s') :
    Past id (s'.calls action.thread) := by
  -- a waiter that takes the mutex back is past the loop, whether the mutex is free or not
  have hacquire : ∀ {thread about : Nat} {acquirer : Acquirer} {mutex : Mutex},
      acquirer = .wait id → Past id ((s.acquireTest thread about acquirer mutex).calls thread) := by
    rintro thread about acquirer mutex rfl
    by_cases hlocked : mutex.locked = true
    · rw [System.acquireTest, tryAcquire_locked hlocked]
      exact .inr ⟨.acquireLoop about (.wait id),
        about, by simp [System.setCall], by simp [Progress.past]⟩
    · rw [System.acquireTest, tryAcquire_free hlocked]
      exact .inr ⟨.acquired about (.wait id), about, by simp [System.setCall, System.record],
        by simp [Progress.past]⟩
  cases action with
  | call thread call => exact absurd rfl (hcall call)
  | acquire thread =>
    simp only [System.step, bind_eq_ok] at h
    obtain ⟨_, _, h⟩ := h
    split at h
    · next hidle =>
      obtain rfl := Except.ok.inj h
      exact .inl hidle
    · next acquirer _ =>
      obtain rfl := Except.ok.inj h
      left
      cases acquirer <;> simp [System.comeBack, System.answer, System.setCall, Action.thread]
    · cases h
  | release thread =>
    simp only [System.step, bind_eq_ok, pure_eq_ok] at h
    obtain ⟨_, _, rfl⟩ := h
    exact hpast
  | advance thread woken =>
    simp only [System.step, bind_eq_ok, require_eq_ok] at h
    obtain ⟨progress, hprogress, h⟩ := h
    rcases hpast with hnone | ⟨was, mutex, hwas, hpast⟩
    · exact absurd (hprogress.symm.trans hnone) (by simp)
    · obtain rfl := Option.some.inj (hprogress.symm.trans hwas)
      cases progress with
      | acquire about acquirer =>
        simp only [System.advance, bind_eq_ok] at h
        obtain ⟨_, _, h⟩ := h
        obtain rfl := Except.ok.inj h
        simp only [Progress.past, Bool.and_eq_true, beq_iff_eq] at hpast
        exact hacquire hpast.2
      | acquireLoop about acquirer =>
        simp only [System.advance, bind_eq_ok] at h
        obtain ⟨_, _, _, _, h⟩ := h
        obtain rfl := Except.ok.inj h
        simp only [Progress.past, Bool.and_eq_true, beq_iff_eq] at hpast
        exact hacquire hpast.2
      | acquired about acquirer => cases h
      | lock | unlock | release | wait | register | handOver | test | notify | releaseCondition =>
        cases hpast
  | wake thread =>
    simp only [System.step, bind_eq_ok, require_eq_ok] at h
    obtain ⟨progress, hprogress, h⟩ := h
    unfold System.wake at h
    split at h
    · simp only [bind_eq_ok] at h
      obtain ⟨_, _, h⟩ := h
      obtain rfl := Except.ok.inj h
      exact hpast
    · simp only [bind_eq_ok] at h
      obtain ⟨_, _, h⟩ := h
      obtain rfl := Except.ok.inj h
      exact hpast
    · cases h

variable {n notifier : Nat} {call : Option Progress}

theorem sequence_changed {observed sequence : BitVec 64}
    (h : sequence = observed + BitVec.ofNat 64 n) (hpos : 0 < n)
    (hlt : n < 2 ^ 64) : sequence ≠ observed := by
  intro heq
  have hnat := congrArg BitVec.toNat (h.symm.trans heq)
  simp only [BitVec.toNat_add, BitVec.toNat_ofNat] at hnat
  have hbound := observed.isLt
  omega

theorem Awake.step {id thread : Nat} (hs : ConditionInvariant s) (hawake : Awake id thread s)
    (hcall : ∀ call, action ≠ .call thread call) (h : s.step action = .ok s') :
    Awake id thread s' := by
  obtain ⟨next, extra, hcalls, hlog, hcondition⟩ := step_condition h
  rcases hawake with hpast | ⟨hwaits, hpos, hfree⟩
  · left
    by_cases hthread : thread = action.thread
    · subst hthread
      exact past_step action hpast hcall h
    · rwa [hcalls, update_of_ne hthread]
  · have hstep := hcondition id
    -- the notifications it missed do not become fewer
    have hkept : ∀ {n : Nat}, missed id thread s'.log = n → missed id thread s.log ≤ n →
        Waits id (s'.calls thread) →
        (n < 2 ^ 64 → ∀ condition, s'.conditions id = some condition →
          thread ∉ condition.condition) →
        Awake id thread s' := by
      intro n hmissed hle hwaits' hfree'
      exact .inr ⟨hwaits', by omega, fun hlt => hfree' (hmissed ▸ hlt)⟩
    have hmissed' : missed id thread s'.log = extra.foldl (missedAfter id thread)
        (missed id thread s.log) := by
      rw [hlog, missed_append]
    have hstays : next = s.calls action.thread ∨ thread ≠ action.thread →
        s'.calls thread = s.calls thread := by
      intro h
      rw [hcalls]
      by_cases hthread : thread = action.thread
      · subst hthread
        rw [update_self]
        exact h.elim (fun h => h) fun h => absurd rfl h
      · exact update_of_ne hthread _ _
    obtain ⟨observed, hobserved⟩ := Option.isSome_iff_exists.mp hwaits
    obtain ⟨found, hfound, hsequence⟩ := hs.sequence id thread observed hobserved
    rw [hfound] at hstep
    generalize hafter : s'.conditions id = after at hstep
    cases hstep with
    | same condition unheard waits =>
      refine hkept (hmissed'.trans (unheard _ _)) le_rfl ?_ fun hlt condition hcond => ?_
      · rw [hcalls]
        by_cases hthread : thread = action.thread
        · subst hthread
          rwa [update_self, Waits, waits]
        · rwa [update_of_ne hthread]
      · rw [hafter] at hcond
        exact hfree hlt condition (hfound.trans hcond)
    | register condition mutex call next own others =>
      have hthread : thread ≠ action.thread := by
        rintro rfl
        rw [call] at hobserved
        cases hobserved
      refine hkept (hmissed'.trans (others thread hthread _)) le_rfl
        ((hstays (.inr hthread)).symm ▸ hwaits) ?_
      intro hlt condition hcond
      rw [hafter] at hcond
      cases hcond
      exact hfree hlt found hfound
    | block condition mutex unheard call stays =>
      refine hkept (hmissed'.trans (unheard _ _)) le_rfl ((hstays (.inl stays)).symm ▸ hwaits) ?_
      intro hlt condition hcond hmem
      rw [hafter] at hcond
      cases hcond
      rcases List.mem_append.mp hmem with hmem | hmem
      · exact hfree hlt found hfound hmem
      · -- the thread itself would have found its own sequence
        have hthread := List.mem_singleton.mp hmem
        subst hthread
        rw [call, waitsOn_test] at hobserved
        exact sequence_changed hsequence hpos hlt (Option.some.inj hobserved)
    | leave condition mutex seen unheard call changed awake hnext =>
      by_cases hthread : thread = action.thread
      · subst hthread
        left
        rw [hcalls, update_self, hnext]
        exact .inr ⟨_, mutex, rfl, by simp [Progress.past]⟩
      · refine hkept (hmissed'.trans (unheard _ _)) le_rfl ((hstays (.inr hthread)).symm ▸ hwaits)
          ?_
        intro hlt condition hcond
        rw [hafter] at hcond
        cases hcond
        exact hfree hlt found hfound
    | wake condition unheard stays =>
      refine hkept (hmissed'.trans (unheard _ _)) le_rfl ((hstays (.inl stays)).symm ▸ hwaits) ?_
      intro hlt condition hcond hmem
      rw [hafter] at hcond
      cases hcond
      exact hfree hlt found hfound (List.mem_of_mem_filter hmem)
    | notify condition broadcast blocked call hnext heard fewer =>
      have hthread : thread ≠ action.thread := by
        rintro rfl
        rw [call] at hobserved
        cases hobserved
      refine hkept (hmissed'.trans (heard _ _)) (Nat.le_succ _)
        ((hstays (.inr hthread)).symm ▸ hwaits) ?_
      intro hlt condition hcond hmem
      rw [hafter] at hcond
      cases hcond
      exact hfree (by omega) found hfound (fewer thread hmem)
    | free condition unheard idle call =>
      have hcount := waits_of_waiters (hs.waiters id found hfound) hobserved
      omega

/-! ## The way back to the mutex -/

/-- While a mutex is free, some thread of its wait loop is awake. -/
structure QueueInvariant (s : System) : Prop where
  members : ∀ id mutex, s.mutexes id = some mutex → ∀ thread ∈ mutex.available,
    InLoop id (s.calls thread)
  awake : ∀ id mutex, s.mutexes id = some mutex → mutex.locked = false →
    (∃ thread, InLoop id (s.calls thread)) → ∃ thread, InLoop id (s.calls thread) ∧
      thread ∉ mutex.available

theorem System.Initial.queueInvariant (h : s.Initial) : QueueInvariant s where
  members := by
    intro id mutex hmutex thread hmem
    obtain ⟨owner, rfl⟩ := h.mutexes id mutex hmutex
    cases hmem
  awake := by
    rintro id mutex _ _ ⟨thread, hloop⟩
    rw [h.calls] at hloop
    cases hloop

section

variable {id thread : Nat} {calls : Nat → Option Progress} {after : Option Progress}
  {extra : List Occurrence} {mutex mutex' : Option Mutex}

variable {other : Nat}

theorem inLoop_update (hstays : InLoop id (calls thread) → InLoop id after)
    (h : InLoop id (calls other)) : InLoop id (Function.update calls thread after other) := by
  by_cases hother : other = thread
  · subst hother
    rw [update_self]
    exact hstays h
  · rwa [update_of_ne hother]

theorem inLoop_of_update (h : InLoop id (Function.update calls thread after other)) :
    InLoop id (calls other) ∨ other = thread ∧ InLoop id after := by
  by_cases hother : other = thread
  · subst hother
    rw [update_self] at h
    exact .inr ⟨rfl, h⟩
  · rw [update_of_ne hother] at h
    exact .inl h

theorem MutexStep.members (h : MutexStep id thread (calls thread) after extra mutex mutex')
    (hmembers : ∀ found, mutex = some found → ∀ other ∈ found.available, InLoop id (calls other)) :
    ∀ found, mutex' = some found → ∀ other ∈ found.available,
    InLoop id (Function.update calls thread after other) := by
  cases h with
  | same mutex silent looping =>
    intro found hfound other hmem
    exact inLoop_update looping.mpr (hmembers found hfound other hmem)
  | queue mutex available silent members blocks looping stays =>
    rintro _ ⟨rfl⟩ other hmem
    rcases members other hmem with hmem | rfl
    · exact inLoop_update (fun _ => stays) (hmembers mutex rfl other hmem)
    · exact inLoop_update (fun _ => stays) looping
  | block mutex silent locked between looping =>
    rintro _ ⟨rfl⟩ other hmem
    rcases List.mem_append.mp hmem with hmem | hmem
    · exact inLoop_update (fun _ => looping) (hmembers mutex rfl other hmem)
    · rw [List.mem_singleton.mp hmem, update_self]
      exact looping
  | take mutex free acquired awake after_role =>
    rintro _ ⟨rfl⟩ other hmem
    have hin := hmembers mutex rfl other hmem
    by_cases hother : other = thread
    · exact absurd (hother ▸ hmem) (awake (hother ▸ hin))
    · rwa [update_of_ne hother]
  | giveBack mutex available owned released fewer wakes call =>
    rintro _ ⟨rfl⟩ other hmem
    have hin := hmembers mutex rfl other (fewer other hmem)
    refine inLoop_update (fun hloop => ?_) hin
    rcases call with hcall | ⟨condition, observed, hcall⟩
    · rw [hcall, InLoop, role_of_none rfl] at hloop
      cases hloop
    · rw [hcall, InLoop, role_of_standing rfl, if_pos rfl] at hloop
      cases hloop
  | free mutex => rintro _ ⟨⟩

theorem MutexStep.awake (h : MutexStep id thread (calls thread) after extra mutex mutex')
    (hcount : ∀ found, mutex = some found → census (InLoop id) calls = found.waiters)
    (hmembers : ∀ found, mutex = some found → ∀ other ∈ found.available, InLoop id (calls other))
    (hawake : ∀ found, mutex = some found → found.locked = false →
      (∃ other, InLoop id (calls other)) →
      ∃ other, InLoop id (calls other) ∧ other ∉ found.available) :
    ∀ found, mutex' = some found → found.locked = false →
      (∃ other, InLoop id (Function.update calls thread after other)) →
      ∃ other, InLoop id (Function.update calls thread after other) ∧ other ∉ found.available := by
  cases h with
  | same mutex silent looping =>
    rintro found hfound hfree ⟨some, hsome⟩
    have hold : InLoop id (calls some) :=
      (inLoop_of_update hsome).elim (fun h => h) fun h => h.1 ▸ looping.mp h.2
    obtain ⟨other, hin, hout⟩ := hawake found hfound hfree ⟨some, hold⟩
    exact ⟨other, inLoop_update looping.mpr hin, hout⟩
  | queue mutex available silent members blocks looping stays =>
    rintro _ ⟨rfl⟩ hfree _
    rcases blocks with hlocked | hfewer
    · exact absurd (hlocked.symm.trans hfree) (by decide)
    · obtain ⟨other, hin, hout⟩ := hawake mutex rfl hfree ⟨thread, looping⟩
      exact ⟨other, inLoop_update (fun _ => stays) hin, fun hmem => hout (hfewer other hmem)⟩
  | block mutex silent locked =>
    rintro _ ⟨rfl⟩ hfree _
    exact absurd (locked.symm.trans hfree) (by decide)
  | take mutex =>
    rintro _ ⟨rfl⟩ hfree _
    cases hfree
  | giveBack mutex available owned released fewer wakes call after_role =>
    rintro _ ⟨rfl⟩ _ ⟨some, hsome⟩
    have hnot : ¬ InLoop id (calls thread) := by
      intro hloop
      rcases call with hcall | ⟨condition, observed, hcall⟩
      · rw [hcall, InLoop, role_of_none rfl] at hloop
        cases hloop
      · rw [hcall, InLoop, role_of_standing rfl, if_pos rfl] at hloop
        cases hloop
    have hold : InLoop id (calls some) := by
      rcases inLoop_of_update hsome with h | ⟨_, h⟩
      · exact h
      · rw [InLoop] at h
        rcases after_role with hafter | hafter <;> rw [hafter] at h <;> cases h
    -- a thread in the loop is counted, so the owner signals
    have hpos : 0 < mutex.waiters := by
      by_contra hnone
      have hcensus := hcount mutex rfl
      rw [show mutex.waiters = 0 by omega] at hcensus
      exact census_eq_zero.mp hcensus some hold
    rcases wakes hpos with hempty | ⟨other, hmem, hout⟩
    · refine ⟨some, hsome, fun hmem => ?_⟩
      have hblocked := fewer some hmem
      rw [hempty] at hblocked
      cases hblocked
    · exact ⟨other, inLoop_update (fun h => absurd h hnot) (hmembers mutex rfl other hmem), hout⟩
  | free mutex => rintro _ ⟨⟩

end

theorem QueueInvariant.step (hmutex : MutexInvariant s) (hs : QueueInvariant s)
    (h : s.step action = .ok s') : QueueInvariant s' := by
  obtain ⟨next, extra, hcalls, _, hstep⟩ := step_mutex hmutex.owning h
  refine ⟨fun id => ?_, fun id => ?_⟩
  · rw [hcalls]
    exact (hstep id).members (hs.members id)
  · rw [hcalls]
    exact (hstep id).awake (hmutex.waiters id) (hs.members id) (hs.awake id)

/-! ## Every reachable state -/

/-- What holds in every state of a run. -/
structure Invariant (s : System) : Prop where
  mutex : MutexInvariant s
  condition : ConditionInvariant s
  queue : QueueInvariant s

theorem Invariant.step (hs : Invariant s) (h : s.step action = .ok s') :
    Invariant s' :=
  ⟨hs.mutex.step h, hs.condition.step h, hs.queue.step hs.mutex h⟩

/-- By induction on the run. -/
theorem invariant_of_reachable (h : machine.Reachable s) : Invariant s :=
  h.invariant (fun _ hinit => ⟨hinit.invariant, hinit.conditionInvariant, hinit.queueInvariant⟩)
    fun _ _ _ hs h => hs.step h

/-! ## Wake-ups -/

/-- Until it calls again, a thread is not blocked on the condition, and if it is still
    to test the sequence it leaves the wait loop; as long as the number of the
    notifications it misses is one of `counts`. -/
def CannotStayBlocked (counts : Nat → Prop) (s : System) (id thread : Nat) : Prop :=
  ∀ actions s', (∀ call, .call thread call ∉ actions) → machine.exec s actions = .ok s' →
    counts (missed id thread s'.log) →
    (∀ condition, s'.conditions id = some condition → thread ∉ condition.condition) ∧
      ∀ mutex observed, s'.calls thread = some (.test id mutex observed) →
        ∃ s'', s'.step (.advance thread []) = .ok s'' ∧
          s''.calls thread = some (.acquire mutex (.wait id))

/-- Fewer notifications than the sequence tells apart. -/
def Countable (count : Nat) : Prop := count < 2 ^ 64

theorem Awake.cannotStayBlocked {id thread : Nat} (hs : ConditionInvariant s)
    (hawake : Awake id thread s) : CannotStayBlocked Countable s id thread := by
  intro actions s' hcalls hrun hcount
  induction actions generalizing s with
  | cons action rest ih =>
    unfold Machine.exec at hrun
    cases hstep : machine.step s action with
    | error refusal =>
      rw [hstep] at hrun
      cases hrun
    | ok s₁ =>
      rw [hstep] at hrun
      have hcall : ∀ call, action ≠ .call thread call := fun call heq =>
        hcalls call (heq ▸ List.mem_cons_self)
      exact ih (hs.step hstep) (hawake.step hs hcall hstep)
        (fun call hmem => hcalls call (List.mem_cons_of_mem _ hmem)) hrun
  | nil =>
    cases hrun
    rcases hawake with hpast | ⟨_, hpos, hfree⟩
    · -- out of the loop: neither blocked nor about to test
      have hnot : ∀ mutex observed, s'.calls thread ≠ some (.test id mutex observed) := by
        rintro mutex observed htest
        rcases hpast with hnone | ⟨progress, about, hprogress, hpast⟩
        · exact absurd (hnone.symm.trans htest) (by simp)
        · obtain rfl := Option.some.inj (hprogress.symm.trans htest)
          cases hpast
      refine ⟨fun condition hcondition hmem => ?_, fun mutex observed htest =>
        absurd htest (hnot mutex observed)⟩
      obtain ⟨mutex, observed, htest⟩ := hs.blocked id condition hcondition thread hmem
      exact hnot mutex observed htest
    · refine ⟨hfree hcount, fun mutex observed htest => ?_⟩
      obtain ⟨condition, hcondition, hsequence⟩ :=
        hs.sequence id thread observed (by rw [htest, waitsOn_test])
      have hchanged := sequence_changed hsequence hpos hcount
      have hout := hfree hcount condition hcondition
      refine ⟨(s'.setCondition id (some { condition with waiters := condition.waiters -
        1 })).setCall thread (some (.acquire mutex (.wait id))), ?_, by simp [System.setCall]⟩
      simp only [System.step, bind_eq_ok, require_eq_ok]
      refine ⟨_, htest, ?_⟩
      simp only [System.advance, bind_eq_ok, require_eq_ok, ensure_eq_ok]
      exact ⟨condition, hcondition, (), hout, if_neg hchanged⟩

/-- The wake-ups of conditions in one state of a run. -/
structure WakesUp (counts : Nat → Prop) (s : System) : Prop where
  /-- A signal or broadcast keeps one of the registered waiters from staying blocked. -/
  signal : ∀ id broadcast notifier woken s', s.calls notifier = some (.notify id broadcast) →
    s.step (.advance notifier woken) = .ok s' →
      (∃ thread mutex, Registered id mutex (s.calls thread)) →
    ∃ thread mutex, Registered id mutex (s.calls thread) ∧ CannotStayBlocked counts s' id thread
  /-- One that is still in the wait loop, if there is any. -/
  waiting : ∀ id broadcast notifier woken s', s.calls notifier = some (.notify id broadcast) →
    s.step (.advance notifier woken) = .ok s' → (∃ thread, Waits id (s.calls thread)) →
    ∃ thread, Waits id (s.calls thread) ∧ CannotStayBlocked counts s' id thread
  /-- A broadcast all of them. -/
  broadcast : ∀ id notifier woken s', s.calls notifier = some (.notify id true) →
    s.step (.advance notifier woken) = .ok s' → ∀ thread mutex, Registered id mutex
      (s.calls thread) →
    CannotStayBlocked counts s' id thread
  /-- And every one of either that has not blocked yet. -/
  beforeBlocking : ∀ id broadcast notifier woken s', s.calls notifier =
    some (.notify id broadcast) →
    s.step (.advance notifier woken) = .ok s' → ∀ thread mutex, Registered id mutex
      (s.calls thread) →
    (∀ condition, s.conditions id = some condition → thread ∉ condition.condition) →
    CannotStayBlocked counts s' id thread
  /-- A waiter returns true, and owning its mutex. -/
  returns : ∀ id mutex action s', Registered id mutex (s.calls action.thread) →
    s.step action = .ok s' →
    s'.calls action.thread = none →
    s'.log = s.log ++ [.waited action.thread id mutex, .returned action.thread .cleared] ∧
      holders mutex s'.log = [action.thread]
  /-- While a mutex is free, one of the threads that wait for it gets it with its next step. -/
  handsOn : ∀ id mutex, s.mutexes id = some mutex → mutex.locked = false →
    (∃ thread, InLoop id (s.calls thread)) →
    ∃ thread s', InLoop id (s.calls thread) ∧ s.step (.advance thread []) = .ok s' ∧
      holders id s'.log = [thread]

theorem registered_cases {id mutex : Nat} (h : Registered id mutex call) :
    Waits id call ∨ Past id call := by
  obtain ⟨progress, rfl, hreturns⟩ := h
  cases progress with
  | handOver condition about observed | test condition about observed =>
    simp only [Progress.returnsWith, Bool.and_eq_true, beq_iff_eq] at hreturns
    left
    rw [Waits, waitsOn, Option.bind_some, Progress.waitsOn, if_pos hreturns.1]
    rfl
  | lock | unlock | release | wait | register | acquire | acquireLoop | acquired | notify
      | releaseCondition =>
    exact .inr (.inr ⟨_, mutex, rfl, hreturns⟩)

theorem registered_of_waits {id : Nat} (h : Waits id call) :
    ∃ mutex, Registered id mutex call := by
  obtain ⟨observed, hobserved⟩ := Option.isSome_iff_exists.mp h
  obtain ⟨progress, rfl, hprogress⟩ := Option.bind_eq_some_iff.mp hobserved
  cases progress with
  | handOver condition about _ | test condition about _ =>
    have hid : condition = id := by
      by_contra hne
      simp [Progress.waitsOn, hne] at hprogress
    exact ⟨about, _, rfl, by simp [Progress.returnsWith, hid]⟩
  | lock | unlock | release | wait | register | acquire | acquireLoop | acquired | notify
      | releaseCondition =>
    cases hprogress

theorem notify_heard {id : Nat} (hs : ConditionInvariant s)
    (hcall : s.calls notifier = some (.notify id broadcast))
    (h : s.step (.advance notifier woken) = .ok s') (hwaits : ∃ thread, Waits id (s.calls thread)) :
    ∃ condition blocked, s.conditions id = some condition ∧
      (∀ thread ∈ blocked, thread ∈ condition.condition) ∧
      (condition.condition = [] ∨ ∃ thread ∈ condition.condition, thread ∉ blocked) ∧
      (broadcast = true → blocked = []) ∧
      ∀ thread, Waits id (s.calls thread) → thread ∉ blocked → Awake id thread s' := by
  obtain ⟨next, extra, hcalls, hlog, hstep⟩ := step_condition h
  have hstep := hstep id
  obtain ⟨first, hfirst⟩ := hwaits
  obtain ⟨observed, hobserved⟩ := Option.isSome_iff_exists.mp hfirst
  obtain ⟨found, hfound, _⟩ := hs.sequence id first observed hobserved
  have hpos := waits_of_waiters (hs.waiters id found hfound) hobserved
  have hne : ∀ thread, Waits id (s.calls thread) → thread ≠ notifier := by
    rintro thread hthread rfl
    rw [hcall] at hthread
    exact Bool.false_ne_true hthread
  -- the call did not return without notifying
  have hnotify : ∃ condition', found.notify broadcast woken = .ok condition' ∧
      s'.conditions id = some condition' ∧
      s'.log = s.log ++ [.notified notifier id, .returned notifier .cleared] := by
    simp only [System.step, bind_eq_ok, require_eq_ok] at h
    obtain ⟨progress, hprogress, h⟩ := h
    obtain rfl := Option.some.inj (hprogress.symm.trans hcall)
    simp only [System.advance, bind_eq_ok, require_eq_ok] at h
    obtain ⟨condition, hcondition, h⟩ := h
    obtain rfl := Option.some.inj (hcondition.symm.trans hfound)
    rw [if_pos hpos] at h
    simp only [bind_eq_ok] at h
    obtain ⟨condition', hnotify, h⟩ := h
    obtain rfl := Except.ok.inj h
    exact ⟨condition', hnotify,
      by simp [System.answer, System.record, System.setCall, System.setCondition],
      append_assoc _ _ _⟩
  obtain ⟨condition', hnotify, hafter, hlog'⟩ := hnotify
  obtain ⟨blocked, rfl, hfewer, hwakes, hall⟩ := notify_eq_ok hnotify
  refine ⟨found, blocked, hfound, hfewer, hwakes, hall,
    fun thread hthread hout => .inr ⟨?_, ?_, ?_⟩⟩
  · rw [hcalls, Action.thread, update_of_ne (hne thread hthread)]
    exact hthread
  · rw [hlog', missed_append]
    simp [missedAfter]
  · intro _ condition hcondition
    obtain rfl := Option.some.inj (hafter.symm.trans hcondition)
    exact hout

theorem past_notify {id thread : Nat} (hcall : s.calls notifier = some (.notify id broadcast))
    (h : s.step (.advance notifier woken) = .ok s')
    (hpast : Past id (s.calls thread)) : Past id (s'.calls thread) := by
  by_cases hthread : thread = notifier
  · subst hthread
    exact past_step (.advance thread woken) hpast (fun _ h => nomatch h) h
  · obtain ⟨next, extra, hcalls, _, _⟩ := step_condition h
    rw [hcalls, Action.thread, update_of_ne hthread]
    exact hpast

theorem acquireTest_calls (s : System) (thread id : Nat) (acquirer : Acquirer) (mutex : Mutex) :
    (s.acquireTest thread id acquirer mutex).calls thread ≠ none := by
  by_cases hlocked : mutex.locked = true
  · rw [System.acquireTest, tryAcquire_locked hlocked]
    simp [System.setCall]
  · rw [System.acquireTest, tryAcquire_free hlocked]
    simp [System.setCall]

theorem MutexInvariant.holders_of_owned (hs : MutexInvariant s) {id thread : Nat} (mutex : Mutex)
    (hmutex : s.mutexes id = some mutex)
    (howned : mutex.ownedBy thread = true) : holders id s.log = [thread] := by
  simp only [Mutex.ownedBy, Bool.and_eq_true, beq_iff_eq] at howned
  rw [hs.owners, hmutex, recordedOwner, if_pos howned.1, howned.2]

theorem MutexInvariant.returns {id mutex : Nat} (hs : MutexInvariant s)
    (hregistered : Registered id mutex (s.calls action.thread)) (h : s.step action = .ok s')
    (hreturned : s'.calls action.thread = none) :
    s'.log = s.log ++ [.waited action.thread id mutex, .returned action.thread .cleared] ∧
      holders mutex s'.log = [action.thread] := by
  obtain ⟨progress, hprogress, hreturns⟩ := hregistered
  have hbusy : s.calls action.thread ≠ none := by simp [hprogress]
  cases action with
  | acquire thread =>
    have hcall : s.calls thread = some progress := hprogress
    simp only [System.step, bind_eq_ok, hcall] at h
    obtain ⟨_, _, h⟩ := h
    split at h
    · next hnone => cases hnone
    · next about acquirer hacquired =>
      obtain rfl := Option.some.inj hacquired
      obtain rfl := Except.ok.inj h
      simp only [Progress.returnsWith, Progress.past, Bool.and_eq_true, beq_iff_eq] at hreturns
      obtain ⟨rfl, rfl⟩ := hreturns
      have hrole : role about (s.calls thread) = .owning := by
        rw [hcall, role_of_standing rfl, if_pos rfl]
      obtain ⟨found, hfound, howned⟩ := hs.owning about thread hrole
      refine ⟨append_assoc _ _ _, ?_⟩
      -- the two occurrences say nothing about the owner
      show holders about ((s.log ++ [.waited thread id about]) ++ [.returned thread .cleared]) =
        [thread]
      rw [holders_append, holders_append]
      exact hs.holders_of_owned found hfound howned
    · cases h
  | release thread | call thread call =>
    simp only [System.step, bind_eq_ok, ensure_eq_ok] at h
    obtain ⟨_, ⟨_, hidle⟩, _⟩ := h
    exact absurd hidle hbusy
  | advance thread woken =>
    simp only [System.step, bind_eq_ok, require_eq_ok] at h
    obtain ⟨found, hfound, h⟩ := h
    obtain rfl := Option.some.inj (hfound.symm.trans hprogress)
    have hstill : s'.calls thread ≠ none := by
      cases found with
      | handOver condition about observed =>
        simp only [System.advance, bind_eq_ok] at h
        obtain ⟨_, _, _, _, h⟩ := h
        obtain rfl := Except.ok.inj h
        simp [System.setCall]
      | test condition about observed =>
        simp only [System.advance, bind_eq_ok] at h
        obtain ⟨_, _, _, _, h⟩ := h
        split at h
        · obtain rfl := Except.ok.inj h
          exact hbusy
        · obtain rfl := Except.ok.inj h
          simp [System.setCall]
      | acquire about acquirer =>
        simp only [System.advance, bind_eq_ok] at h
        obtain ⟨_, _, h⟩ := h
        obtain rfl := Except.ok.inj h
        exact acquireTest_calls s thread about acquirer _
      | acquireLoop about acquirer =>
        simp only [System.advance, bind_eq_ok] at h
        obtain ⟨_, _, _, _, h⟩ := h
        obtain rfl := Except.ok.inj h
        exact acquireTest_calls s thread about acquirer _
      | acquired about acquirer => cases h
      | lock | unlock | release | wait | register | notify | releaseCondition => cases hreturns
    exact absurd hreturned hstill
  | wake thread =>
    simp only [System.step, bind_eq_ok, require_eq_ok] at h
    obtain ⟨found, _, h⟩ := h
    -- a thread that wakes up stays in its loop
    have hstill : s'.calls = s.calls := by
      unfold System.wake at h
      split at h
      · simp only [bind_eq_ok] at h
        obtain ⟨_, _, h⟩ := h
        obtain rfl := Except.ok.inj h
        rfl
      · simp only [bind_eq_ok] at h
        obtain ⟨_, _, h⟩ := h
        obtain rfl := Except.ok.inj h
        rfl
      · cases h
    exact absurd (hstill ▸ hreturned) hbusy

theorem MutexInvariant.getsMutex {id thread : Nat} {mutex : Mutex} (hs : MutexInvariant s)
    (hmutex : s.mutexes id = some mutex) (hfree : mutex.locked = false)
    (hloop : InLoop id (s.calls thread)) (hawake : thread ∉ mutex.available) :
    ∃ s', s.step (.advance thread []) = .ok s' ∧ holders id s'.log = [thread] := by
  obtain ⟨acquirer, hcall⟩ : ∃ acquirer, s.calls thread = some (.acquireLoop id acquirer) := by
    rw [InLoop] at hloop
    cases hprogress : s.calls thread with
    | none =>
      rw [hprogress] at hloop
      cases hloop
    | some progress =>
      rw [hprogress] at hloop
      cases progress with
      | acquireLoop about acquirer =>
        rw [role_of_standing rfl] at hloop
        split at hloop
        · next heq => exact ⟨acquirer, heq ▸ rfl⟩
        · cases hloop
      | lock | wait | register | handOver | acquired | test | acquire =>
        rw [role_of_standing rfl] at hloop
        split at hloop <;> cases hloop
      | unlock | release | notify | releaseCondition =>
        rw [role_of_none rfl] at hloop
        cases hloop
  have hstep : s.step (.advance thread []) = .ok (s.acquireTest thread id acquirer mutex) := by
    simp only [System.step, bind_eq_ok, require_eq_ok]
    refine ⟨_, hcall, ?_⟩
    simp only [System.advance, bind_eq_ok, require_eq_ok, ensure_eq_ok]
    exact ⟨mutex, hmutex, (), hawake, rfl⟩
  refine ⟨_, hstep, (hs.step hstep).holders_of_owned
    ({ mutex with waiters := mutex.waiters - 1 }.take thread)
    ?_ (by simp [Mutex.take, Mutex.ownedBy])⟩
  rw [System.acquireTest, tryAcquire_free (by simp [hfree])]
  simp [System.setCall, System.record, System.setMutex]

theorem Invariant.wakesUp (hs : Invariant s) : WakesUp Countable s := by
  -- a waiter that is not blocked hears the notification before it blocks
  have hbefore : ∀ id broadcast notifier woken s', s.calls notifier = some (.notify id broadcast) →
      s.step (.advance notifier woken) = .ok s' → ∀ thread mutex, Registered id mutex
        (s.calls thread) →
      (∀ condition, s.conditions id = some condition → thread ∈ condition.condition →
        broadcast = true) →
      CannotStayBlocked Countable s' id thread := by
    intro id broadcast notifier woken s' hcall h thread mutex hregistered hblocked
    have hs' := hs.step h
    rcases registered_cases hregistered with hwaits | hpast
    · obtain ⟨condition, blocked, hcondition, hfewer, _, hall, hheard⟩ :=
        notify_heard hs.condition hcall h ⟨thread, hwaits⟩
      refine (hheard thread hwaits fun hmem => ?_).cannotStayBlocked hs'.condition
      rw [hall (hblocked condition hcondition (hfewer thread hmem))] at hmem
      cases hmem
    · have hawake : Awake id thread s' := .inl (past_notify hcall h hpast)
      exact hawake.cannotStayBlocked hs'.condition
  have hwaiting : ∀ id broadcast notifier woken s', s.calls notifier = some (.notify id broadcast) →
      s.step (.advance notifier woken) = .ok s' → (∃ thread, Waits id (s.calls thread)) →
      ∃ thread, Waits id (s.calls thread) ∧ CannotStayBlocked Countable s' id thread := by
    intro id broadcast notifier woken s' hcall h hsome
    obtain ⟨condition, blocked, hcondition, hfewer, hwakes, _, hheard⟩ :=
      notify_heard hs.condition hcall h hsome
    obtain ⟨thread, hthread, hout⟩ : ∃ thread, Waits id (s.calls thread) ∧ thread ∉ blocked := by
      rcases hwakes with hempty | ⟨thread, hmem, hout⟩
      · obtain ⟨thread, hthread⟩ := hsome
        refine ⟨thread, hthread, fun hmem => ?_⟩
        have hin := hfewer thread hmem
        rw [hempty] at hin
        cases hin
      · obtain ⟨mutex, observed, htest⟩ := hs.condition.blocked id condition hcondition thread hmem
        exact ⟨thread, by rw [Waits, htest, waitsOn_test]; rfl, hout⟩
    exact ⟨thread, hthread, (hheard thread hthread hout).cannotStayBlocked (hs.step h).condition⟩
  constructor
  case waiting => exact hwaiting
  case beforeBlocking =>
    intro id broadcast notifier woken s' hcall h thread mutex hregistered hfree
    exact hbefore id broadcast notifier woken s' hcall h thread mutex hregistered
      fun condition hcondition hmem => absurd hmem (hfree condition hcondition)
  case broadcast =>
    intro id notifier woken s' hcall h thread mutex hregistered
    exact hbefore id true notifier woken s' hcall h thread mutex hregistered fun _ _ _ => rfl
  case signal =>
    rintro id broadcast notifier woken s' hcall h ⟨thread, mutex, hregistered⟩
    rcases registered_cases hregistered with hwaits | hpast
    · obtain ⟨other, hother, hcannot⟩ := hwaiting id broadcast notifier woken s' hcall h
        ⟨thread, hwaits⟩
      obtain ⟨about, habout⟩ := registered_of_waits hother
      exact ⟨other, about, habout, hcannot⟩
    · have hawake : Awake id thread s' := .inl (past_notify hcall h hpast)
      exact ⟨thread, mutex, hregistered, hawake.cannotStayBlocked (hs.step h).condition⟩
  case returns =>
    intro id mutex action s' hregistered h hreturned
    exact hs.mutex.returns hregistered h hreturned
  case handsOn =>
    intro id mutex hmutex hfree hloop
    obtain ⟨thread, hthread, hout⟩ := hs.queue.awake id mutex hmutex hfree hloop
    obtain ⟨s', hstep, hholders⟩ := hs.mutex.getsMutex hmutex hfree hthread hout
    exact ⟨thread, s', hthread, hstep, hholders⟩

/-- No wake-up is lost in any run: who was notified cannot stay blocked, unless it
    misses 2^64 notifications before its next test. -/
theorem conditions_lose_no_wakeUp {s : System} (h : machine.Reachable s) : WakesUp Countable s :=
  (invariant_of_reachable h).wakesUp

/-- The first thread waits on the condition, and is between the hand-over of its mutex
    and its first test. -/
def waitBeforeTest : List Action :=
  [.acquire 1, .call 1 (.lock (some 0)), .advance 1 [], .call 1 (.wait (some 0) (some 0)),
    .advance 1 [],
    .advance 1 [], .advance 1 [], .acquire 2]

/-- A mutex, a condition, and no thread in a call. -/
def oneCondition : System :=
  { oneMutex with conditions := fun id => if id = 0 then some .create else none }

theorem initial_oneCondition : oneCondition.Initial where
  mutexes := initial_oneMutex.mutexes
  conditions := by
    intro id condition hcondition
    simp only [oneCondition] at hcondition
    split at hcondition
    · exact (Option.some.inj hcondition).symm
    · cases hcondition
  calls := fun _ => rfl
  log := rfl

/-- The first thread is before its first test, and has missed `n` notifications. -/
structure Signalled (n : Nat) (s : System) : Prop where
  condition : s.conditions 0 = some ⟨[], BitVec.ofNat 64 n, 1⟩
  waiter : s.calls 1 = some (.test 0 0 0)
  others : ∀ thread ≠ 1, s.calls thread = none
  runtimeLock : s.runtimeLock = some 2

theorem waitBeforeTest_signalled : ∃ s, machine.exec oneCondition waitBeforeTest = .ok s ∧
    s.calls 1 = some (.test 0 0 0) ∧ Signalled 0 s := by
  refine ⟨_, rfl, rfl, rfl, rfl, fun thread hthread => ?_, rfl⟩
  simp [System.setCall, System.answer, System.record, System.setMutex, System.setCondition,
    System.gilRelease,
    System.start, update_of_ne hthread, oneCondition, oneMutex]

/-- The first thread is blocked on the condition when the second is about to signal
    it: the notification leaves it awake. -/
theorem blockedWait_wakesUp : ∃ s s',
    machine.exec oneCondition (waitBeforeTest ++ [.advance 1 [], .call 2 (.signal (some 0))]) =
      .ok s ∧
      s.calls 2 = some (.notify 0 false) ∧ s.conditions 0 = some ⟨[1], 0, 1⟩ ∧
      s.step (.advance 2 [1]) = .ok s' ∧ WakesUp Countable s ∧
      ∃ thread, Waits 0 (s.calls thread) ∧ CannotStayBlocked Countable s' 0 thread := by
  have hrun : machine.exec oneCondition
      (waitBeforeTest ++ [.advance 1 [], .call 2 (.signal (some 0))]) = .ok _ := rfl
  have hwakes := conditions_lose_no_wakeUp (.exec initial_oneCondition hrun)
  exact ⟨_, _, hrun, rfl, rfl, rfl, hwakes, hwakes.waiting 0 false 2 [1] _ rfl rfl ⟨1, rfl⟩⟩

/-! ## A sequence that comes round -/

theorem Signalled.signal (hs : Signalled n s) :
    ∃ s₁ s₂, machine.step s (.call 2 (.signal (some 0))) = .ok s₁ ∧
      machine.step s₁ (.advance 2 []) = .ok s₂ ∧
      s₁.calls 2 = some (.notify 0 false) ∧ (∀ thread ≠ 2, s₁.calls thread = s.calls thread) ∧
      Signalled (n + 1) s₂ := by
  have hcall : s.step (.call 2 (.signal (some 0))) =
      .ok (s.setCall 2 (some (.notify 0 false))) := by
    simp only [System.step, bind_eq_ok, ensure_eq_ok, pure_eq_ok]
    exact ⟨(), ⟨hs.runtimeLock, hs.others 2 (by decide)⟩, rfl⟩
  have hadvance : (s.setCall 2 (some (.notify 0 false))).step (.advance 2 []) =
      .ok ((((s.setCall 2 (some (.notify 0 false))).setCondition 0
        (some ⟨[], BitVec.ofNat 64 n + 1, 1⟩)).record (.notified 2 0)).answer 2 .cleared) := by
    simp only [System.step, bind_eq_ok, require_eq_ok]
    refine ⟨.notify 0 false, by simp [System.setCall], ?_⟩
    simp only [System.advance, bind_eq_ok, require_eq_ok]
    refine ⟨_, hs.condition, ?_⟩
    -- nobody is blocked, so nobody is woken
    simp [Condition.notify, wakeSome, bind_eq_ok]
  refine ⟨_, _, hcall, hadvance, by simp [System.setCall], fun thread hthread => ?_, ?_, ?_,
    fun thread hthread => ?_, ?_⟩
  · exact update_of_ne hthread _ _
  · simp [System.answer, System.record, System.setCall, System.setCondition, BitVec.ofNat_add]
  · simpa [System.answer, System.record, System.setCall, System.setCondition] using hs.waiter
  · by_cases htwo : thread = 2
    · simp [htwo, System.answer, System.setCall]
    · simpa [System.answer, System.record, System.setCall, System.setCondition,
        htwo] using hs.others thread hthread
  · exact hs.runtimeLock

theorem reachable_signalled (n : Nat) : ∃ s, machine.Reachable s ∧ Signalled n s := by
  induction n with
  | zero =>
    obtain ⟨s, hrun, _, hs⟩ := waitBeforeTest_signalled
    exact ⟨s, .exec initial_oneCondition hrun, hs⟩
  | succ n ih =>
    obtain ⟨s, hreachable, hs⟩ := ih
    obtain ⟨s₁, s₂, hcall, hadvance, _, _, hs₂⟩ := hs.signal
    exact ⟨s₂, (hreachable.step hcall).step hadvance, hs₂⟩

/-- After 2^64 signals a thread that was notified before its first test blocks. -/
theorem wrapped_sequence_blocks : ¬ ∀ s, machine.Reachable s → WakesUp (fun _ => True) s := by
  intro h
  obtain ⟨s, hreachable, hs⟩ := reachable_signalled (2 ^ 64 - 1)
  obtain ⟨s₁, s₂, hcall, hadvance, hnotifier, hothers, hs₂⟩ := hs.signal
  have hwakes := h s₁ (hreachable.step hcall)
  have hfirst : s₁.calls 1 = some (.test 0 0 0) := (hothers 1 (by decide)).trans hs.waiter
  have hwaits : Waits 0 (s₁.calls 1) := by
    rw [hfirst, Waits, waitsOn_test]
    rfl
  obtain ⟨thread, hthread, hcannot⟩ := hwakes.waiting 0 false 2 [] s₂ hnotifier hadvance ⟨1, hwaits⟩
  -- the first thread is the only waiter
  obtain rfl : thread = 1 := by
    by_contra hne
    rw [Waits] at hthread
    by_cases htwo : thread = 2
    · rw [htwo, hnotifier] at hthread
      cases hthread
    · rw [hothers thread htwo, hs.others thread hne] at hthread
      cases hthread
  obtain ⟨_, htest⟩ := hcannot [] s₂ (fun _ h => nomatch h) rfl trivial
  obtain ⟨s₃, hstep, hleft⟩ := htest 0 0 hs₂.waiter
  have hsequence : BitVec.ofNat 64 (2 ^ 64 - 1 + 1) = (0 : BitVec 64) := by decide
  simp only [System.step, bind_eq_ok, require_eq_ok] at hstep
  obtain ⟨progress, hprogress, hstep⟩ := hstep
  obtain rfl := Option.some.inj (hprogress.symm.trans hs₂.waiter)
  simp only [System.advance, bind_eq_ok, require_eq_ok] at hstep
  obtain ⟨condition, hcondition, _, _, hstep⟩ := hstep
  obtain rfl := Option.some.inj (hcondition.symm.trans hs₂.condition)
  rw [if_pos hsequence] at hstep
  obtain rfl := Except.ok.inj hstep
  -- it is still where it was
  have hstill : some (Progress.test 0 0 0) = some (.acquire 0 (.wait 0)) :=
    hs₂.waiter.symm.trans hleft
  cases hstill

end Cwhip.Runtime.Synchronization
