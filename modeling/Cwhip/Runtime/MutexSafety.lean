/-
  Cwhip.Runtime.MutexSafety

  What every interleaving keeps of the logical mutexes (`RuntimeThreads.c`): at
  most one thread owns a mutex, only its owner gives it back, and `waiters`
  counts the threads in the wait loop (`mutex_safe`).

  `step_mutex` says once what one step does to one mutex; every invariant is
  derived from it.  `cwhip_mutex_release` looks at `locked` and `waiters` alone,
  so it does not see a thread between two sections of its call that is neither:
  a mutex can be freed under such a thread (`release_frees_in_use`), and this is
  the only way.
-/

import Cwhip.Lib.Census
import Cwhip.Runtime.Synchronization

namespace Cwhip.Runtime.Synchronization

open Cwhip.Lib
open List (append_assoc append_nil foldl_cons)
open Function (update_eq_self update_of_ne update_self)

/-! ## Where a thread is -/

/-- How a thread stands to one mutex. -/
inductive Role where
  /-- In no lock or condition wait on it. -/
  | outside
  /-- In such a call, before its first section, and with the runtime lock. -/
  | entering
  /-- Between two sections, neither its owner nor counted as a waiter. -/
  | between
  /-- In the wait loop. -/
  | looping
  /-- In such a call, and its owner. -/
  | owning
  deriving DecidableEq, Repr

/-- The mutex that a lock or condition wait is about, and how its thread stands to it. -/
def Progress.standing : Progress → Option (Nat × Role)
  | .lock mutex | .wait _ mutex => some (mutex, .entering)
  | .register _ mutex | .handOver _ mutex _ | .acquired mutex _ => some (mutex, .owning)
  | .test _ mutex _ | .acquire mutex _ => some (mutex, .between)
  | .acquireLoop mutex _ => some (mutex, .looping)
  | .unlock _ | .release _ | .notify _ _ | .releaseCondition _ => none

def role (id : Nat) (call : Option Progress) : Role :=
  match call.bind Progress.standing with
  | some (mutex, role) => if mutex = id then role else .outside
  | none => .outside

/-- Inside a lock or condition wait on the mutex. -/
def Inside (id : Nat) (call : Option Progress) : Prop := role id call ≠ .outside

/-- Inside one, behind its first section. -/
def Using (id : Nat) (call : Option Progress) : Prop :=
  role id call = .between ∨ role id call = .looping ∨ role id call = .owning

/-- Inside its wait loop. -/
def InLoop (id : Nat) (call : Option Progress) : Prop := role id call = .looping

instance (id : Nat) (call : Option Progress) : Decidable (Inside id call) :=
  inferInstanceAs (Decidable (role id call ≠ .outside))

/-- The calls that keep the runtime lock until they return or give it up. -/
def Progress.keepsRuntimeLock : Progress → Bool
  | .lock _ | .unlock _ | .release _ | .wait _ _ | .register _ _ | .notify _ _ | .releaseCondition
      _ => true
  | _ => false

/-! ## Owners -/

def holdersAfter (id : Nat) (threads : List Nat) : Occurrence → List Nat
  | .acquired thread mutex => if mutex = id then thread :: threads else threads
  | .released thread mutex => if mutex = id then threads.erase thread else threads
  | _ => threads

/-- The threads that have acquired a mutex and have not given it back. -/
def holders (id : Nat) (log : List Occurrence) : List Nat := log.foldl (holdersAfter id) []

theorem holders_append (id : Nat) (log extra : List Occurrence) :
    holders id (log ++ extra) = extra.foldl (holdersAfter id) (holders id log) :=
  List.foldl_append

def recordedOwner : Option Mutex → List Nat
  | some mutex => if mutex.locked then [mutex.owner] else []
  | none => []

/-! ## One step -/

/-- The thread that takes the step, or is woken. -/
def Action.thread : Action → Nat
  | .acquire thread | .release thread | .call thread _ | .advance thread _ | .wake thread => thread

/-- The occurrences that a step adds say nothing about the owner of a mutex. -/
def Silent (id : Nat) (extra : List Occurrence) : Prop :=
  ∀ threads, extra.foldl (holdersAfter id) threads = threads

inductive MutexStep (id thread : Nat) (before after : Option Progress) (extra : List Occurrence) :
    Option Mutex → Option Mutex → Prop where
  /-- Nothing; who now has it had it before, or has tested that it does. -/
  | same (mutex : Option Mutex) (silent : Silent id extra)
      (looping : InLoop id after ↔ InLoop id before)
      (owning : role id after = .owning →
        role id before = .owning ∨ ∃ found, mutex = some found ∧ found.ownedBy thread = true)
      (inUse : Using id after → Using id before ∨ mutex.isSome = true) :
      MutexStep id thread before after extra mutex mutex
  /-- A thread of the wait loop blocks, or is woken. -/
  | queue (mutex : Mutex) (available : List Nat) (silent : Silent id extra)
      (members : ∀ other ∈ available, other ∈ mutex.available ∨ other = thread)
      (blocks : mutex.locked = true ∨ ∀ other ∈ available, other ∈ mutex.available)
      (looping : role id before = .looping) (stays : role id after = .looping) :
      MutexStep id thread before after extra (some mutex) (some { mutex with available })
  /-- The thread finds the mutex locked and enters the wait loop. -/
  | block (mutex : Mutex) (silent : Silent id extra) (locked : mutex.locked = true)
      (between : role id before = .between) (looping : role id after = .looping) :
      MutexStep id thread before after extra (some mutex)
        (some { mutex with waiters := mutex.waiters + 1, available := mutex.available ++ [thread] })
  /-- The thread finds the mutex free and takes it. -/
  | take (mutex : Mutex) (free : mutex.locked = false)
      (acquired : ∀ threads, extra.foldl (holdersAfter id) threads = thread :: threads)
      (awake : role id before = .looping → thread ∉ mutex.available)
      (after_role : role id after = .owning ∨ role id after = .outside) :
      MutexStep id thread before after extra (some mutex)
        (some ({ mutex with
          waiters := if role id before = Role.looping then mutex.waiters - 1
            else mutex.waiters }.take thread))
  /-- The owner gives the mutex back, in `unlock` or in a condition wait. -/
  | giveBack (mutex : Mutex) (available : List Nat) (owned : mutex.locked = true ∧
      mutex.owner = thread)
      (released : ∀ threads, extra.foldl (holdersAfter id) threads = threads.erase thread)
      (fewer : ∀ other ∈ available, other ∈ mutex.available)
      (wakes : 0 < mutex.waiters → mutex.available = [] ∨ ∃ other ∈ mutex.available,
        other ∉ available)
      (call : before = some (.unlock id) ∨ ∃ condition observed, before =
        some (.handOver condition id observed))
      (after_role : role id after = .outside ∨ role id after = .between) :
      MutexStep id thread before after extra (some mutex)
        (some { mutex with locked := false, available })
  | free (mutex : Mutex) (silent : Silent id extra) (idle : mutex.locked = false ∧
      mutex.waiters = 0)
      (call : before = some (.release id)) (after_role : role id after = .outside) :
      MutexStep id thread before after extra (some mutex) none

section

variable {id thread : Nat} {before after : Option Progress} {extra : List Occurrence}

/-- A thread outside the mutex changes nothing about it. -/
theorem MutexStep.elsewhere (mutex : Option Mutex) (silent : Silent id extra)
    (hbefore : role id before = .outside) (hafter : role id after = .outside) :
    MutexStep id thread before after extra mutex mutex := by
  refine .same mutex silent ?_ ?_ ?_
  · simp [InLoop, hbefore, hafter]
  · simp [hafter]
  · simp [Using, hafter]

theorem MutexStep.focus {mutexes : Nat → Option Mutex} {about : Nat} {mutex' : Option Mutex}
    (hon : MutexStep about thread before after extra (mutexes about) mutex')
    (hsilent : ∀ id ≠ about, Silent id extra) (hbefore : ∀ id ≠ about, role id before = .outside)
    (hafter : ∀ id ≠ about, role id after = .outside) (id : Nat) :
    MutexStep id thread before after extra (mutexes id)
    (Function.update mutexes about mutex' id) := by
  by_cases hid : id = about
  · subst hid
    simpa using hon
  · rw [update_of_ne hid]
    exact .elsewhere _ (hsilent id hid) (hbefore id hid) (hafter id hid)

end

variable {mutex : Mutex} {progress : Progress} {woken : List Nat} {s s' : System} {about : Nat}
  {action : Action} {mutex' : Option Mutex} {calls : Nat → Option Progress}

theorem role_of_standing {id mutex : Nat} {r : Role} (h : progress.standing = some (mutex, r)) :
    role id (some progress) = if mutex = id then r else .outside := by
  simp [role, h]

theorem role_of_none {id : Nat} (h : progress.standing = none) :
    role id (some progress) = .outside := by
  simp [role, h]

@[simp] theorem role_none (id : Nat) : role id none = .outside := rfl

theorem silent_acquired {id mutex : Nat} (hne : id ≠ mutex) (thread : Nat) (rest : List Occurrence)
    (hrest : Silent id rest) : Silent id (.acquired thread mutex :: rest) := by
  intro threads
  rw [foldl_cons, holdersAfter, if_neg (Ne.symm hne)]
  exact hrest threads

theorem silent_released {id mutex : Nat} (hne : id ≠ mutex) (thread : Nat) (rest : List Occurrence)
    (hrest : Silent id rest) : Silent id (.released thread mutex :: rest) := by
  intro threads
  rw [foldl_cons, holdersAfter, if_neg (Ne.symm hne)]
  exact hrest threads

theorem wakeSome_eq_ok {blocked rest : List Nat} (h : wakeSome blocked woken = .ok rest) :
    (∀ other ∈ rest, other ∈ blocked) ∧ (blocked = [] ∨ ∃ other ∈ blocked, other ∉ rest) := by
  unfold wakeSome at h
  split at h
  · next hwoken =>
    obtain rfl := Except.ok.inj h
    refine ⟨fun other hother => List.mem_of_mem_filter hother, hwoken.2.imp_right fun hsome => ?_⟩
    obtain ⟨other, hother⟩ := List.exists_mem_of_ne_nil woken hsome
    exact ⟨other, hwoken.1 other hother, by simp [hother]⟩
  · cases h

theorem releaseLockedGuard_eq_ok {mutex' : Mutex}
    (h : mutex.releaseLockedGuard woken = .ok mutex') :
    ∃ available, mutex' = { mutex with locked := false, available } ∧
      (∀ other ∈ available, other ∈ mutex.available) ∧
      (0 < mutex.waiters → mutex.available = [] ∨ ∃ other ∈ mutex.available,
          other ∉ available) := by
  unfold Mutex.releaseLockedGuard at h
  split at h
  · simp only [bind_eq_ok, pure_eq_ok] at h
    obtain ⟨available, hwake, rfl⟩ := h
    obtain ⟨hfewer, hwakes⟩ := wakeSome_eq_ok hwake
    exact ⟨available, rfl, hfewer, fun _ => hwakes⟩
  · next hnone =>
    obtain rfl := Except.ok.inj h
    exact ⟨mutex.available, rfl, fun _ h => h, fun hsome => absurd hsome hnone⟩

/-- What a step does to the calls, the log and one mutex. -/
def StepsMutex (s s' : System) (thread : Nat) : Prop :=
  ∃ next extra, s'.calls = Function.update s.calls thread next ∧ s'.log = s.log ++ extra ∧
    ∀ id, MutexStep id thread (s.calls thread) next extra (s.mutexes id) (s'.mutexes id)

theorem StepsMutex.quiet {thread : Nat} (next : Option Progress) (extra : List Occurrence)
    (hcalls : s'.calls = Function.update s.calls thread next) (hlog : s'.log = s.log ++ extra)
    (hmutexes : s'.mutexes = s.mutexes) (hsilent : ∀ id, Silent id extra)
    (hrole : ∀ id, role id next = .outside ∨ role id next = .entering ∨
      role id next = role id (s.calls thread))
    (hlooping : ∀ id, InLoop id (s.calls thread) → InLoop id next) : StepsMutex s s' thread := by
  refine ⟨next, extra, hcalls, hlog, fun id => ?_⟩
  rw [hmutexes]
  refine .same _ (hsilent id) ⟨fun h => ?_, hlooping id⟩ (fun h => ?_) fun h => ?_
  · rcases hrole id with hout | henter | hsame
    · rw [InLoop, hout] at h
      cases h
    · rw [InLoop, henter] at h
      cases h
    · rwa [InLoop, ← hsame]
  · rcases hrole id with hout | henter | hsame
    · rw [hout] at h
      cases h
    · rw [henter] at h
      cases h
    · exact .inl (hsame ▸ h)
  · rcases hrole id with hout | henter | hsame
    · simp [Using, hout] at h
    · simp [Using, henter] at h
    · left
      rwa [Using, ← hsame]

theorem stepsMutex_answer {thread : Nat} (hcall : s.calls thread = some progress)
    (hlooping : ∀ id, role id (some progress) ≠ .looping) (error : LastError) :
    StepsMutex s (s.answer thread error) thread := by
  refine .quiet none [.returned thread error] rfl rfl rfl (fun _ _ => rfl) (fun id => .inl rfl) ?_
  intro id h
  rw [InLoop, hcall] at h
  exact absurd h (hlooping id)

theorem tryAcquire_locked (h : mutex.locked = true) (thread : Nat) :
    mutex.tryAcquire thread = ({ mutex with available := mutex.available ++ [thread] }, false) :=
  if_pos h

theorem tryAcquire_free (h : ¬ mutex.locked = true) (thread : Nat) :
    mutex.tryAcquire thread = ({ mutex with waiters := mutex.waiters - 1 }.take thread, true) :=
  if_neg h

theorem stepsMutex_acquireTest {s : System} {thread about : Nat} {progress : Progress}
    {acquirer : Acquirer} {mutex entered : Mutex} (hcall : s.calls thread = some progress)
    (hmutex : s.mutexes about = some mutex)
    (hstanding : (progress.standing = some (about, .between) ∧
      entered = { mutex with waiters := mutex.waiters + 1 }) ∨
      (progress.standing = some (about, .looping) ∧ entered = mutex ∧ thread ∉ mutex.available)) :
    StepsMutex s (s.acquireTest thread about acquirer entered) thread := by
  have hbefore : ∀ id ≠ about, role id (s.calls thread) = .outside := by
    intro id hne
    rw [hcall]
    rcases hstanding with ⟨h, _⟩ | ⟨h, _⟩
    · rw [role_of_standing h, if_neg (Ne.symm hne)]
    · rw [role_of_standing h, if_neg (Ne.symm hne)]
  have hentered : entered.locked = mutex.locked := by
    rcases hstanding with ⟨_, rfl⟩ | ⟨_, rfl, _⟩ <;> rfl
  by_cases hlocked : entered.locked = true
  case pos =>
      -- blocked: from outside the loop the thread is counted, inside it already is
      rw [System.acquireTest, tryAcquire_locked hlocked]
      refine ⟨some (.acquireLoop about acquirer), [], rfl, (append_nil _).symm, ?_⟩
      refine MutexStep.focus ?_ (fun _ _ _ => rfl) hbefore fun id hne => ?_
      · rw [hmutex]
        have hafter : role about (some (.acquireLoop about acquirer)) = .looping := by
          simp [role, Progress.standing]
        show MutexStep about thread (s.calls thread) _ [] (some mutex)
          (some { entered with available := entered.available ++ [thread] })
        rcases hstanding with ⟨h, rfl⟩ | ⟨h, rfl, _⟩
        · have hbetween : role about (s.calls thread) = .between := by
            rw [hcall, role_of_standing h, if_pos rfl]
          exact .block mutex (fun _ => rfl) hlocked hbetween hafter
        · have hin : role about (s.calls thread) = .looping := by
            rw [hcall, role_of_standing h, if_pos rfl]
          exact .queue entered _ (fun _ => rfl) (fun other hother => by simpa using hother)
            (.inl hlocked) hin hafter
      · simp [role, Progress.standing, Ne.symm hne]
  case neg =>
      have hfree : mutex.locked = false := by rwa [hentered, Bool.not_eq_true] at hlocked
      rw [System.acquireTest, tryAcquire_free hlocked]
      refine ⟨some (.acquired about acquirer), [.acquired thread about], rfl, rfl, ?_⟩
      refine MutexStep.focus ?_ (fun id hne => silent_acquired hne _ [] fun _ => rfl) hbefore
        fun id hne => ?_
      · rw [hmutex]
        have hwaiters : entered.waiters - 1 =
            if role about (s.calls thread) = Role.looping then mutex.waiters - 1
                else mutex.waiters := by
          rcases hstanding with ⟨h, rfl⟩ | ⟨h, rfl, _⟩
          · rw [hcall, role_of_standing h, if_pos rfl, if_neg (by decide)]
            show mutex.waiters + 1 - 1 = mutex.waiters
            omega
          · rw [hcall, role_of_standing h, if_pos rfl, if_pos rfl]
        have hnew : ({ entered with waiters := entered.waiters - 1 }.take thread) =
            ({ mutex with waiters := if role about (s.calls thread) =
              Role.looping then mutex.waiters - 1
              else mutex.waiters }.take thread) := by
          rw [← hwaiters]
          rcases hstanding with ⟨_, rfl⟩ | ⟨_, rfl, _⟩ <;> rfl
        show MutexStep about thread _ _ _ (some mutex)
          (some ({ entered with waiters := entered.waiters - 1 }.take thread))
        rw [hnew]
        refine .take mutex hfree (fun threads => ?_) (fun hloop => ?_) (.inl ?_)
        · simp [holdersAfter]
        · rcases hstanding with ⟨h, _⟩ | ⟨_, _, hawake⟩
          · rw [hcall, role_of_standing h, if_pos rfl] at hloop
            cases hloop
          · exact hawake
        · simp [role, Progress.standing]
      · simp [role, Progress.standing, Ne.symm hne]

theorem stepsMutex_giveBack {thread : Nat} {mutex' : Mutex} {next : Option Progress}
    (rest : List Occurrence) (hcall : s.calls thread = some progress)
    (hmutex : s.mutexes about = some mutex) (howned : mutex.ownedBy thread = true)
    (hrelease : mutex.releaseLockedGuard woken = .ok mutex')
    (hkind : progress = .unlock about ∨ ∃ condition observed, progress =
    .handOver condition about observed)
    (hnext : next = none ∨ ∃ condition observed, progress = .handOver condition about observed ∧
      next = some (.test condition about observed)) (hrest : ∀ id, Silent id rest)
    (hcalls : s'.calls = Function.update s.calls thread next)
    (hlog : s'.log = s.log ++ (.released thread about :: rest))
    (hmutexes : s'.mutexes = Function.update s.mutexes about (some mutex')) :
    StepsMutex s s' thread := by
  obtain ⟨available, rfl, hfewer, hwakes⟩ := releaseLockedGuard_eq_ok hrelease
  refine ⟨next, _, hcalls, hlog, ?_⟩
  rw [hmutexes]
  refine MutexStep.focus ?_ (fun id hne => silent_released hne thread rest (hrest id))
    (fun id hne => ?_) fun id hne => ?_
  · rw [hmutex]
    refine .giveBack mutex available (by simpa [Mutex.ownedBy] using howned)
      (fun threads => ?_) hfewer hwakes ?_ ?_
    · rw [foldl_cons, holdersAfter, if_pos rfl]
      exact hrest about _
    · rw [hcall]
      rcases hkind with rfl | ⟨condition, observed, rfl⟩
      · exact .inl rfl
      · exact .inr ⟨condition, observed, rfl⟩
    · rcases hnext with rfl | ⟨condition, observed, _, rfl⟩
      · exact .inl rfl
      · exact .inr (by simp [role, Progress.standing])
  · rw [hcall]
    rcases hkind with rfl | ⟨condition, observed, rfl⟩
    · rfl
    · simp [role, Progress.standing, Ne.symm hne]
  · rcases hnext with rfl | ⟨condition, observed, _, rfl⟩
    · rfl
    · simp [role, Progress.standing, Ne.symm hne]

/-- What a running call does to each mutex. -/
theorem advance_stepsMutex {thread : Nat} (hcall : s.calls thread = some progress)
    (h : s.advance thread woken progress = .ok s')
    (howning : ∀ condition id observed, progress = .handOver condition id observed →
      ∀ mutex, s.mutexes id = some mutex → mutex.ownedBy thread = true) :
    StepsMutex s s' thread := by
  cases progress with
  | lock about =>
    simp only [System.advance, bind_eq_ok, require_eq_ok] at h
    obtain ⟨mutex, hmutex, h⟩ := h
    -- a thread that only asks for the mutex is not in its waiting loop
    have hloop : ∀ id, role id (some (.lock about)) ≠ .looping := by
      intro id
      rw [role_of_standing (r := .entering) rfl]
      split <;> decide
    split at h
    · obtain rfl := Except.ok.inj h
      exact stepsMutex_answer hcall hloop _
    · split at h
      · next _ hfree =>
        obtain rfl := Except.ok.inj h
        -- free: it is taken in this step, and no other mutex hears of it
        refine ⟨none, [.acquired thread about, .returned thread .cleared], rfl, ?_, ?_⟩
        · exact append_assoc _ _ _
        · refine MutexStep.focus ?_ (fun id hne => silent_acquired hne _ _ fun _ => rfl)
            (fun id hne => ?_) fun id hne => rfl
          · rw [hmutex]
            have hbefore : role about (s.calls thread) = .entering := by
              rw [hcall, role_of_standing (r := .entering) rfl, if_pos rfl]
            have htake := @MutexStep.take about thread (s.calls thread) none
              [.acquired thread about, .returned thread .cleared] mutex
              (by simpa using hfree) (fun threads => by simp [holdersAfter])
              (fun hloop => by rw [hbefore] at hloop; cases hloop) (.inr rfl)
            rwa [hbefore, if_neg (by decide)] at htake
          · rw [hcall, role_of_standing (r := .entering) rfl, if_neg (Ne.symm hne)]
      · -- contended: the thread waits without being counted yet
        obtain rfl := Except.ok.inj h
        refine ⟨some (.acquire about .lock), [], rfl, (append_nil _).symm, fun id => ?_⟩
        have hafter : role id (some (.acquire about .lock)) = if about = id then .between
            else .outside :=
          role_of_standing rfl
        refine .same _ (fun _ => rfl) ?_ (fun h => ?_) fun hin => ?_
        · rw [hcall, InLoop, InLoop, hafter, role_of_standing (r := .entering) rfl]
          split <;> simp
        · rw [hafter] at h
          split at h <;> cases h
        · by_cases heq : about = id
          · exact .inr (by rw [← heq, hmutex]; rfl)
          · simp [Using, hafter, heq] at hin
  | unlock about =>
    simp only [System.advance, bind_eq_ok, require_eq_ok] at h
    obtain ⟨mutex, hmutex, h⟩ := h
    split at h
    · next howned =>
      simp only [bind_eq_ok] at h
      obtain ⟨mutex', hrelease, h⟩ := h
      obtain rfl := Except.ok.inj h
      exact stepsMutex_giveBack [.returned thread .cleared] hcall hmutex howned hrelease (.inl rfl)
        (.inl rfl) (fun _ _ => rfl) rfl (append_assoc _ _ _) rfl
    · obtain rfl := Except.ok.inj h
      exact stepsMutex_answer hcall (fun id => by rw [role_of_none rfl]; decide) _
  | release about =>
    simp only [System.advance, bind_eq_ok, require_eq_ok] at h
    obtain ⟨mutex, hmutex, h⟩ := h
    split at h
    · obtain rfl := Except.ok.inj h
      exact stepsMutex_answer hcall (fun id => by rw [role_of_none rfl]; decide) _
    · next hidle =>
      obtain rfl := Except.ok.inj h
      have hout : ∀ id, role id (s.calls thread) = .outside :=
        fun id => by rw [hcall, role_of_none rfl]
      refine ⟨none, [.freed thread about, .returned thread .cleared], rfl, append_assoc _ _ _, ?_⟩
      refine MutexStep.focus ?_ (fun _ _ _ => rfl) (fun id _ => hout id) fun _ _ => rfl
      rw [hmutex]
      refine .free mutex (fun _ => rfl) ?_ hcall rfl
      simp only [Bool.or_eq_true, decide_eq_true_eq, not_or, Bool.not_eq_true] at hidle
      exact ⟨hidle.1, by omega⟩
  | wait condition about =>
    simp only [System.advance, bind_eq_ok, require_eq_ok] at h
    obtain ⟨mutex, hmutex, h⟩ := h
    have hentering : ∀ id, role id (s.calls thread) = if about = id then .entering
        else .outside := by
      intro id
      rw [hcall, role_of_standing rfl]
    split at h
    · next howned =>
      obtain rfl := Except.ok.inj h
      refine ⟨some (.register condition about), [], rfl, (append_nil _).symm, fun id => ?_⟩
      have hafter : role id (some (.register condition about)) = if about = id then .owning
          else .outside :=
        role_of_standing rfl
      refine .same _ (fun _ => rfl) ?_ (fun hown => ?_) fun hin => ?_
      · rw [InLoop, InLoop, hentering, hafter]
        split <;> simp
      · rw [hafter] at hown
        split at hown
        · next heq =>
          subst heq
          exact .inr ⟨mutex, hmutex, howned⟩
        · cases hown
      · by_cases heq : about = id
        · exact .inr (by rw [← heq, hmutex]; rfl)
        · simp [Using, hafter, heq] at hin
    · obtain rfl := Except.ok.inj h
      refine stepsMutex_answer hcall (fun id => ?_) _
      rw [← hcall, hentering]
      split <;> decide
  | register condition about =>
    simp only [System.advance, bind_eq_ok, require_eq_ok] at h
    obtain ⟨found, _, h⟩ := h
    obtain rfl := Except.ok.inj h
    refine .quiet (some (.handOver condition about found.sequence))
      [.registered thread condition] rfl rfl rfl (fun _ _ => rfl) (fun id => ?_) fun id hloop => ?_
    · right; right
      rw [hcall, role_of_standing rfl, role_of_standing rfl]
    · rwa [InLoop, hcall, role_of_standing rfl] at hloop
  | handOver condition about observed =>
    simp only [System.advance, bind_eq_ok, require_eq_ok] at h
    obtain ⟨mutex, hmutex, mutex', hrelease, h⟩ := h
    obtain rfl := Except.ok.inj h
    exact stepsMutex_giveBack [] hcall hmutex (howning condition about observed rfl mutex hmutex)
      hrelease
      (.inr ⟨condition, observed, rfl⟩) (.inr ⟨condition, observed, rfl, rfl⟩)
        (fun _ _ => rfl) rfl rfl rfl
  | test condition about observed =>
    simp only [System.advance, bind_eq_ok, require_eq_ok, ensure_eq_ok] at h
    obtain ⟨found, _, _, _, h⟩ := h
    split at h
    · obtain rfl := Except.ok.inj h
      refine .quiet (s.calls thread) [] (update_eq_self _ _).symm
        (append_nil _).symm rfl (fun _ _ => rfl) (fun id => .inr (.inr rfl)) fun id hloop => hloop
    · obtain rfl := Except.ok.inj h
      refine .quiet (some (.acquire about (.wait condition))) [] rfl
        (append_nil _).symm rfl (fun _ _ => rfl) (fun id => ?_) fun id hloop => ?_
      · right; right
        rw [hcall, role_of_standing rfl, role_of_standing rfl]
      · rwa [InLoop, hcall, role_of_standing rfl] at hloop
  | acquire about acquirer =>
    simp only [System.advance, bind_eq_ok, require_eq_ok] at h
    obtain ⟨mutex, hmutex, h⟩ := h
    obtain rfl := Except.ok.inj h
    exact stepsMutex_acquireTest hcall hmutex (.inl ⟨rfl, rfl⟩)
  | acquireLoop about acquirer =>
    simp only [System.advance, bind_eq_ok, require_eq_ok, ensure_eq_ok] at h
    obtain ⟨mutex, hmutex, _, hawake, h⟩ := h
    obtain rfl := Except.ok.inj h
    exact stepsMutex_acquireTest hcall hmutex (.inr ⟨rfl, rfl, hawake⟩)
  | notify condition broadcast =>
    simp only [System.advance, bind_eq_ok, require_eq_ok] at h
    obtain ⟨found, _, h⟩ := h
    have hout : ∀ id, role id (s.calls thread) = .outside :=
      fun id => by rw [hcall, role_of_none rfl]
    split at h
    · simp only [bind_eq_ok] at h
      obtain ⟨found', _, h⟩ := h
      obtain rfl := Except.ok.inj h
      refine .quiet none [.notified thread condition, .returned thread .cleared] rfl
        (append_assoc _ _ _) rfl (fun _ _ => rfl) (fun _ => .inl rfl) fun id hloop => ?_
      rw [InLoop, hout] at hloop
      cases hloop
    · obtain rfl := Except.ok.inj h
      exact stepsMutex_answer hcall (fun id => by rw [role_of_none rfl]; decide) _
  | releaseCondition condition =>
    simp only [System.advance, bind_eq_ok, require_eq_ok] at h
    obtain ⟨found, _, h⟩ := h
    have hout : ∀ id, role id (s.calls thread) = .outside :=
      fun id => by rw [hcall, role_of_none rfl]
    split at h
    · obtain rfl := Except.ok.inj h
      exact stepsMutex_answer hcall (fun id => by rw [role_of_none rfl]; decide) _
    · obtain rfl := Except.ok.inj h
      refine .quiet none [.conditionFreed thread condition, .returned thread .cleared] rfl
        (append_assoc _ _ _) rfl (fun _ _ => rfl) (fun _ => .inl rfl) fun id hloop => ?_
      rw [InLoop, hout] at hloop
      cases hloop
  | acquired about acquirer => cases h

/-- Every thread that is to hand a mutex over owns it. -/
def Owning (s : System) : Prop :=
  ∀ id thread, role id (s.calls thread) = .owning →
    ∃ mutex, s.mutexes id = some mutex ∧ mutex.ownedBy thread = true

/-- The step that begins a call. -/
theorem start_stepsMutex {thread : Nat} (hidle : s.calls thread = none) (call : Call) :
    StepsMutex s (s.start thread call) thread := by
  have hanswer : ∀ error, StepsMutex s (s.answer thread error) thread := fun error =>
    .quiet none [.returned thread error] rfl rfl rfl (fun _ _ => rfl)
        (fun _ => .inl rfl) fun id hloop => by
      rw [InLoop, hidle] at hloop
      cases hloop
  have hbegin : ∀ progress : Progress, (∀ id, role id (some progress) = .outside ∨
      role id (some progress) = .entering) →
      StepsMutex s (s.setCall thread (some progress)) thread := fun progress hrole =>
    .quiet _ [] rfl (append_nil _).symm rfl (fun _ _ => rfl)
      (fun id => (hrole id).imp_right .inl) fun id hloop => by
        rw [InLoop, hidle] at hloop
        cases hloop
  have hentering : ∀ {progress : Progress} {about : Nat}, progress.standing =
      some (about, .entering) →
      ∀ id, role id (some progress) = .outside ∨ role id (some progress) = .entering := by
    intro progress about h id
    rw [role_of_standing h]
    split
    · exact .inr rfl
    · exact .inl rfl
  unfold System.start
  split
  · exact hbegin _ (hentering rfl)
  · exact hbegin _ fun id => .inl (role_of_none rfl)
  · exact hbegin _ fun id => .inl (role_of_none rfl)
  · exact hbegin _ (hentering rfl)
  · exact hbegin _ fun id => .inl (role_of_none rfl)
  · exact hbegin _ fun id => .inl (role_of_none rfl)
  · exact hbegin _ fun id => .inl (role_of_none rfl)
  · exact hanswer _

/-- A thread that has the mutex, and the runtime lock again, returns. -/
theorem comeBack_stepsMutex {thread : Nat} {acquirer : Acquirer}
    (hcall : s.calls thread = some (.acquired about acquirer)) (hcalls : s'.calls = s.calls)
    (hlog : s'.log = s.log) (hmutexes : s'.mutexes = s.mutexes) :
    StepsMutex s (s'.comeBack thread about acquirer) thread := by
  have hnot : ∀ id, InLoop id (s.calls thread) → InLoop id none := by
    intro id hloop
    rw [hcall, InLoop, role_of_standing rfl] at hloop
    split at hloop <;> cases hloop
  cases acquirer with
  | lock =>
    refine .quiet none [.returned thread .cleared] ?_ ?_ hmutexes (fun _ _ => rfl)
      (fun _ => .inl rfl) hnot
    · rw [← hcalls]
      rfl
    · rw [← hlog]
      rfl
  | wait condition =>
    refine .quiet none [.waited thread condition about, .returned thread .cleared] ?_ ?_
      hmutexes (fun _ _ => rfl) (fun _ => .inl rfl) hnot
    · rw [← hcalls]
      rfl
    · rw [← hlog]
      exact append_assoc _ _ _

/-- A wake-up only takes the thread out of a queue. -/
theorem wake_stepsMutex {thread : Nat} (hcall : s.calls thread = some progress)
    (h : s.wake thread progress = .ok s') :
    StepsMutex s s' thread := by
  unfold System.wake at h
  split at h
  · simp only [bind_eq_ok, require_eq_ok] at h
    obtain ⟨found, _, h⟩ := h
    obtain rfl := Except.ok.inj h
    exact .quiet (s.calls thread) [] (update_eq_self _ _).symm
      (append_nil _).symm rfl (fun _ _ => rfl) (fun id => .inr (.inr rfl)) fun id hloop => hloop
  · next about acquirer =>
    simp only [bind_eq_ok, require_eq_ok] at h
    obtain ⟨mutex, hmutex, h⟩ := h
    obtain rfl := Except.ok.inj h
    have hrole : ∀ id, role id (s.calls thread) = if about = id then .looping else .outside := by
      intro id
      rw [hcall, role_of_standing rfl]
    refine ⟨s.calls thread, [], (update_eq_self _ _).symm, (append_nil _).symm, ?_⟩
    refine MutexStep.focus ?_ (fun _ _ _ => rfl) (fun id hne => ?_) fun id hne => ?_
    · rw [hmutex]
      have hfewer : ∀ other ∈ mutex.available.filter (· ≠ thread), other ∈ mutex.available :=
        fun other hother => List.mem_of_mem_filter hother
      exact .queue mutex _ (fun _ => rfl) (fun other hother => .inl (hfewer other hother))
        (.inr hfewer) (by rw [hrole, if_pos rfl]) (by rw [hrole, if_pos rfl])
    · rw [hrole, if_neg (Ne.symm hne)]
    · rw [hrole, if_neg (Ne.symm hne)]
  · cases h

/-- Every step is one of these for every mutex. -/
theorem step_mutex (howning : Owning s) (h : s.step action = .ok s') :
    StepsMutex s s' action.thread := by
  have hstill : ∀ {thread : Nat} {s' : System}, s'.calls = s.calls → s'.log = s.log →
      s'.mutexes = s.mutexes →
      StepsMutex s s' thread := fun {thread s'} hcalls hlog hmutexes =>
    .quiet (s.calls thread) [] (by rw [hcalls, update_eq_self])
      (by rw [hlog, append_nil]) hmutexes (fun _ _ => rfl)
        (fun id => .inr (.inr rfl)) fun id hloop => hloop
  cases action with
  | acquire thread =>
    simp only [System.step, bind_eq_ok] at h
    obtain ⟨_, _, h⟩ := h
    split at h
    · obtain rfl := Except.ok.inj h
      exact hstill rfl rfl rfl
    · next hcall =>
      obtain rfl := Except.ok.inj h
      exact comeBack_stepsMutex hcall rfl rfl rfl
    · cases h
  | release thread =>
    simp only [System.step, bind_eq_ok, pure_eq_ok] at h
    obtain ⟨_, _, rfl⟩ := h
    exact hstill rfl rfl rfl
  | call thread call =>
    simp only [System.step, bind_eq_ok, pure_eq_ok, ensure_eq_ok] at h
    obtain ⟨_, ⟨_, hidle⟩, rfl⟩ := h
    exact start_stepsMutex hidle call
  | advance thread woken =>
    simp only [System.step, bind_eq_ok, require_eq_ok] at h
    obtain ⟨progress, hcall, h⟩ := h
    refine advance_stepsMutex hcall h ?_
    rintro condition id observed rfl mutex hmutex
    obtain ⟨found, hfound, howned⟩ :=
      howning id thread (by rw [hcall, role_of_standing rfl, if_pos rfl])
    rw [hmutex] at hfound
    cases hfound
    exact howned
  | wake thread =>
    simp only [System.step, bind_eq_ok, require_eq_ok] at h
    obtain ⟨progress, hcall, h⟩ := h
    exact wake_stepsMutex hcall h

/-! ## The runtime lock -/

/-- A call that keeps the runtime lock has it. -/
def LockHeld (s : System) : Prop :=
  ∀ thread progress, s.calls thread = some progress → progress.keepsRuntimeLock = true →
    s.runtimeLock = some thread

/-- The runtime lock changes hands only where the thread that moves has it or takes it. -/
structure MovesLock (s s' : System) (thread : Nat) : Prop where
  others : ∀ other ≠ thread, s.runtimeLock = some other → s'.runtimeLock = some other
  own : ∀ progress, s'.calls thread = some progress → progress.keepsRuntimeLock = true →
    s'.runtimeLock = some thread

theorem MovesLock.held {thread : Nat} (h : s.runtimeLock = some thread)
    (hown : ∀ progress, s'.calls thread = some progress → progress.keepsRuntimeLock = true →
      s'.runtimeLock = some thread) : MovesLock s s' thread where
  others := by
    intro other hne hother
    rw [h] at hother
    exact absurd (Option.some.inj hother).symm hne
  own := hown

theorem MovesLock.without {thread : Nat} (next : Option Progress)
    (hlock : s'.runtimeLock = s.runtimeLock) (hcall : s'.calls thread = next)
    (hnext : ∀ progress, next = some progress → progress.keepsRuntimeLock = false) :
    MovesLock s s' thread where
  others := by
    intro other _ hother
    rwa [hlock]
  own := by
    intro progress hprogress hkeeps
    rw [hnext progress (hcall ▸ hprogress)] at hkeeps
    cases hkeeps

theorem answer_movesLock {thread : Nat} {error : LastError} (h : s.runtimeLock = some thread) :
    MovesLock s (s'.answer thread error) thread := by
  refine .held h fun progress hcall _ => ?_
  simp [System.answer, System.setCall] at hcall

theorem acquireTest_movesLock (s : System) (thread id : Nat) (acquirer : Acquirer) (mutex : Mutex) :
    MovesLock s (s.acquireTest thread id acquirer mutex) thread := by
  by_cases hlocked : mutex.locked = true
  · rw [System.acquireTest, tryAcquire_locked hlocked]
    refine .without (some (.acquireLoop id acquirer)) rfl ?_ ?_
    · simp [System.setCall]
    · rintro progress ⟨rfl⟩
      rfl
  · rw [System.acquireTest, tryAcquire_free hlocked]
    refine .without (some (.acquired id acquirer)) rfl ?_ ?_
    · simp [System.setCall, System.record]
    · rintro progress ⟨rfl⟩
      rfl

theorem advance_movesLock {thread : Nat}
    (hlock : progress.keepsRuntimeLock = true → s.runtimeLock = some thread)
    (hcall : s.calls thread = some progress) (h : s.advance thread woken progress = .ok s') :
    MovesLock s s' thread := by
  cases progress with
  | lock about =>
    simp only [System.advance, bind_eq_ok, require_eq_ok] at h
    obtain ⟨mutex, _, h⟩ := h
    split at h
    · obtain rfl := Except.ok.inj h
      exact answer_movesLock (hlock rfl)
    · split at h
      · obtain rfl := Except.ok.inj h
        exact answer_movesLock (hlock rfl)
      · obtain rfl := Except.ok.inj h
        refine .held (hlock rfl) fun next hnext hkeeps => ?_
        simp only [System.setCall, System.gilRelease, update_self, Option.some.injEq] at hnext
        rw [← hnext] at hkeeps
        cases hkeeps
  | unlock about =>
    simp only [System.advance, bind_eq_ok, require_eq_ok] at h
    obtain ⟨mutex, _, h⟩ := h
    split at h
    · simp only [bind_eq_ok] at h
      obtain ⟨_, _, h⟩ := h
      obtain rfl := Except.ok.inj h
      exact answer_movesLock (hlock rfl)
    · obtain rfl := Except.ok.inj h
      exact answer_movesLock (hlock rfl)
  | release about =>
    simp only [System.advance, bind_eq_ok, require_eq_ok] at h
    obtain ⟨mutex, _, h⟩ := h
    split at h
    all_goals
      obtain rfl := Except.ok.inj h
      exact answer_movesLock (hlock rfl)
  | wait condition about =>
    simp only [System.advance, bind_eq_ok, require_eq_ok] at h
    obtain ⟨mutex, _, h⟩ := h
    split at h
    · obtain rfl := Except.ok.inj h
      exact .held (hlock rfl) fun _ _ _ => hlock rfl
    · obtain rfl := Except.ok.inj h
      exact answer_movesLock (hlock rfl)
  | register condition about =>
    simp only [System.advance, bind_eq_ok, require_eq_ok] at h
    obtain ⟨found, _, h⟩ := h
    obtain rfl := Except.ok.inj h
    refine .held (hlock rfl) fun next hnext hkeeps => ?_
    simp only [System.setCall, System.gilRelease, System.record, update_self, Option.some.injEq]
      at hnext
    rw [← hnext] at hkeeps
    cases hkeeps
  | handOver condition about observed =>
    simp only [System.advance, bind_eq_ok, require_eq_ok] at h
    obtain ⟨_, _, _, _, h⟩ := h
    obtain rfl := Except.ok.inj h
    refine .without (some (.test condition about observed)) rfl ?_ ?_
    · simp [System.setCall]
    · rintro next ⟨rfl⟩
      rfl
  | test condition about observed =>
    simp only [System.advance, bind_eq_ok, require_eq_ok, ensure_eq_ok] at h
    obtain ⟨found, _, _, _, h⟩ := h
    split at h
    · obtain rfl := Except.ok.inj h
      refine .without (some (.test condition about observed)) rfl hcall ?_
      rintro next ⟨rfl⟩
      rfl
    · obtain rfl := Except.ok.inj h
      refine .without (some (.acquire about (.wait condition))) rfl ?_ ?_
      · simp [System.setCall]
      · rintro next ⟨rfl⟩
        rfl
  | acquire about acquirer =>
    simp only [System.advance, bind_eq_ok, require_eq_ok] at h
    obtain ⟨mutex, _, h⟩ := h
    obtain rfl := Except.ok.inj h
    exact acquireTest_movesLock _ _ _ _ _
  | acquireLoop about acquirer =>
    simp only [System.advance, bind_eq_ok, require_eq_ok] at h
    obtain ⟨mutex, _, _, _, h⟩ := h
    obtain rfl := Except.ok.inj h
    exact acquireTest_movesLock _ _ _ _ _
  | notify condition broadcast =>
    simp only [System.advance, bind_eq_ok, require_eq_ok] at h
    obtain ⟨found, _, h⟩ := h
    split at h
    · simp only [bind_eq_ok] at h
      obtain ⟨_, _, h⟩ := h
      obtain rfl := Except.ok.inj h
      exact answer_movesLock (hlock rfl)
    · obtain rfl := Except.ok.inj h
      exact answer_movesLock (hlock rfl)
  | releaseCondition condition =>
    simp only [System.advance, bind_eq_ok, require_eq_ok] at h
    obtain ⟨found, _, h⟩ := h
    split at h
    all_goals
      obtain rfl := Except.ok.inj h
      exact answer_movesLock (hlock rfl)
  | acquired about acquirer => cases h

/-- No step takes the runtime lock from another thread. -/
theorem step_movesLock (hs : LockHeld s) (h : s.step action = .ok s') :
    MovesLock s s' action.thread := by
  cases action with
  | acquire thread =>
    simp only [System.step, bind_eq_ok, ensure_eq_ok] at h
    obtain ⟨_, hfree, h⟩ := h
    have htaken : ∀ s' : System, s'.runtimeLock = some thread → MovesLock s s' thread := by
      intro s' hlock
      refine ⟨fun other _ hother => ?_, fun _ _ _ => hlock⟩
      rw [hfree] at hother
      cases hother
    split at h
    · obtain rfl := Except.ok.inj h
      exact htaken _ rfl
    · next acquirer _ =>
      obtain rfl := Except.ok.inj h
      cases acquirer <;> exact htaken _ rfl
    · cases h
  | release thread =>
    simp only [System.step, bind_eq_ok, pure_eq_ok, ensure_eq_ok] at h
    obtain ⟨_, ⟨hlock, hidle⟩, rfl⟩ := h
    refine .held hlock fun progress hcall _ => ?_
    have hbusy : s.calls thread = some progress := hcall
    rw [hidle] at hbusy
    cases hbusy
  | call thread call =>
    simp only [System.step, bind_eq_ok, pure_eq_ok, ensure_eq_ok] at h
    obtain ⟨_, ⟨hlock, _⟩, rfl⟩ := h
    have hkept : (s.start thread call).runtimeLock = s.runtimeLock := by
      unfold System.start
      split <;> rfl
    exact .held hlock fun _ _ _ => hkept.trans hlock
  | advance thread woken =>
    simp only [System.step, bind_eq_ok, require_eq_ok] at h
    obtain ⟨progress, hcall, h⟩ := h
    exact advance_movesLock (hs thread progress hcall) hcall h
  | wake thread =>
    simp only [System.step, bind_eq_ok, require_eq_ok] at h
    obtain ⟨progress, hcall, h⟩ := h
    have hkept : s'.runtimeLock = s.runtimeLock ∧ s'.calls = s.calls := by
      unfold System.wake at h
      split at h
      · simp only [bind_eq_ok] at h
        obtain ⟨_, _, h⟩ := h
        obtain rfl := Except.ok.inj h
        exact ⟨rfl, rfl⟩
      · simp only [bind_eq_ok] at h
        obtain ⟨_, _, h⟩ := h
        obtain rfl := Except.ok.inj h
        exact ⟨rfl, rfl⟩
      · cases h
    refine ⟨fun other _ hother => hkept.1 ▸ hother, fun next hnext hkeeps => ?_⟩
    rw [hkept.2] at hnext
    rw [hkept.1]
    exact hs thread next hnext hkeeps

theorem LockHeld.step {thread : Nat} {next : Option Progress} (hs : LockHeld s)
    (hmoves : MovesLock s s' thread)
    (hcalls : s'.calls = Function.update s.calls thread next) : LockHeld s' := by
  intro other progress hcall hkeeps
  by_cases hother : other = thread
  · subst hother
    exact hmoves.own progress hcall hkeeps
  · rw [hcalls, update_of_ne hother] at hcall
    exact hmoves.others other hother (hs other progress hcall hkeeps)

/-! ## The invariant -/

/-- What the mutexes, the calls and the log have in common. -/
structure MutexInvariant (s : System) : Prop where
  owners : ∀ id, holders id s.log = recordedOwner (s.mutexes id)
  waiters : ∀ id mutex, s.mutexes id = some mutex → census (InLoop id) s.calls = mutex.waiters
  owning : Owning s
  lockHeld : LockHeld s

theorem System.Initial.invariant (h : s.Initial) : MutexInvariant s where
  owners := by
    intro id
    rw [h.log]
    cases hmutex : s.mutexes id with
    | none => rfl
    | some mutex =>
      obtain ⟨owner, rfl⟩ := h.mutexes id mutex hmutex
      rfl
  waiters := by
    intro id mutex hmutex
    obtain ⟨owner, rfl⟩ := h.mutexes id mutex hmutex
    refine census_eq_zero.mpr fun thread hloop => ?_
    rw [h.calls, InLoop, role_none] at hloop
    cases hloop
  owning := by
    intro id thread howning
    rw [h.calls, role_none] at howning
    cases howning
  lockHeld := by
    intro thread progress hcall
    rw [h.calls] at hcall
    cases hcall

/-- The log names the owner that the mutex has. -/
theorem MutexStep.owners {id thread : Nat} {before after : Option Progress}
    {extra : List Occurrence} {mutex : Option Mutex}
    (h : MutexStep id thread before after extra mutex mutex') :
    extra.foldl (holdersAfter id) (recordedOwner mutex) = recordedOwner mutex' ∧
      (recordedOwner mutex' = recordedOwner mutex ∨
        recordedOwner mutex = [] ∧ recordedOwner mutex' = [thread] ∨
        recordedOwner mutex = [thread] ∧ recordedOwner mutex' = [] ∧
          (before = some (.unlock id) ∨ ∃ condition observed, before =
          some (.handOver condition id observed))) := by
  cases h with
  | same mutex silent | queue mutex available silent | block mutex silent =>
    exact ⟨silent _, .inl rfl⟩
  | take mutex free acquired =>
    have hbefore : recordedOwner (some mutex) = [] := if_neg (by rw [free]; decide)
    rw [hbefore, acquired]
    exact ⟨rfl, .inr (.inl ⟨rfl, rfl⟩)⟩
  | giveBack mutex available owned released fewer wakes call =>
    have hbefore : recordedOwner (some mutex) = [thread] := by
      rw [recordedOwner, if_pos owned.1, owned.2]
    rw [hbefore, released, List.erase_cons_head]
    exact ⟨rfl, .inr (.inr ⟨rfl, rfl, call⟩)⟩
  | free mutex silent idle =>
    have hbefore : recordedOwner (some mutex) = [] := if_neg (by rw [idle.1]; decide)
    rw [hbefore, silent]
    exact ⟨rfl, .inl rfl⟩

/-- The count is that of the threads on their way in. -/
theorem MutexStep.waiters {id thread : Nat} {after : Option Progress} {extra : List Occurrence}
    {mutex : Option Mutex} (h : MutexStep id thread (calls thread) after extra mutex mutex')
    (hcount : ∀ found, mutex = some found → census (InLoop id) calls = found.waiters) :
    ∀ found, mutex' = some found → census (InLoop id) (Function.update calls thread after) =
    found.waiters := by
  cases h with
  | same mutex silent looping =>
    intro found hfound
    rw [census_same looping]
    exact hcount found hfound
  | queue mutex available silent members blocks looping stays =>
    rintro found ⟨rfl⟩
    rw [census_same (show InLoop id after ↔ InLoop id (calls thread)
      from iff_of_true stays looping)]
    exact hcount mutex rfl
  | block mutex silent locked between looping =>
    rintro found ⟨rfl⟩
    have hout : ¬ InLoop id (calls thread) := by
      rw [InLoop, between]
      decide
    exact census_enter_eq (hcount mutex rfl) hout looping
  | take mutex free acquired awake after_role =>
    rintro found ⟨rfl⟩
    have hout : ¬ InLoop id after := by
      rw [InLoop]
      rcases after_role with h | h <;> rw [h] <;> decide
    by_cases hloop : role id (calls thread) = Role.looping
    · rw [if_pos hloop]
      exact (census_leave_eq (hcount mutex rfl) hloop hout).2
    · rw [if_neg hloop, census_same (iff_of_false hout hloop)]
      exact hcount mutex rfl
  | giveBack mutex available owned released fewer wakes call after_role =>
    rintro found ⟨rfl⟩
    have hout : ¬ InLoop id after := by
      rw [InLoop]
      rcases after_role with h | h <;> rw [h] <;> decide
    have hin : ¬ InLoop id (calls thread) := by
      rcases call with h | ⟨condition, observed, h⟩
      · rw [h, InLoop, role_of_none rfl]
        decide
      · rw [h, InLoop, role_of_standing rfl, if_pos rfl]
        decide
    rw [census_same (iff_of_false hout hin)]
    exact hcount mutex rfl
  | free mutex silent idle => rintro found ⟨⟩

theorem MutexStep.owning {id thread : Nat} {after : Option Progress} {extra : List Occurrence}
    {mutex : Option Mutex} (h : MutexStep id thread (calls thread) after extra mutex mutex')
    (howning : ∀ other, role id (calls other) = .owning →
      ∃ found, mutex = some found ∧ found.ownedBy other = true) :
    ∀ other, role id (Function.update calls thread after other) = .owning →
      ∃ found, mutex' = some found ∧ found.ownedBy other = true := by
  intro other hrole
  by_cases hother : other = thread
  · subst hother
    rw [update_self] at hrole
    cases h with
    | same mutex silent looping owning =>
      rcases owning hrole with hbefore | hfound
      · exact howning other hbefore
      · exact hfound
    | queue mutex available silent members blocks looping stays => rw [stays] at hrole; cases hrole
    | block mutex silent locked between looping => rw [looping] at hrole; cases hrole
    | take mutex free acquired awake after_role =>
      exact ⟨_, rfl, by simp [Mutex.take, Mutex.ownedBy]⟩
    | giveBack mutex available owned released fewer wakes call after_role =>
      rcases after_role with h | h <;> rw [h] at hrole <;> cases hrole
    | free mutex silent idle call after_role => rw [after_role] at hrole; cases hrole
  · rw [update_of_ne hother] at hrole
    obtain ⟨found, hfound, howned⟩ := howning other hrole
    have hlocked : found.locked = true ∧
      found.owner = other := by simpa [Mutex.ownedBy] using howned
    cases h with
    | same mutex => exact ⟨found, hfound, howned⟩
    | queue mutex available | block mutex =>
      cases hfound
      exact ⟨_, rfl, howned⟩
    | take mutex free =>
      cases hfound
      rw [free] at hlocked
      cases hlocked.1
    | giveBack mutex available owned =>
      -- the owner is the thread that moves
      cases hfound
      exact absurd (hlocked.2.symm.trans owned.2) hother
    | free mutex silent idle =>
      cases hfound
      rw [idle.1] at hlocked
      cases hlocked.1

/-- Every step keeps the invariant. -/
theorem MutexInvariant.step (hs : MutexInvariant s)
    (h : s.step action = .ok s') : MutexInvariant s' := by
  obtain ⟨next, extra, hcalls, hlog, hmutex⟩ := step_mutex hs.owning h
  refine ⟨fun id => ?_, fun id => ?_, fun id => ?_,
    hs.lockHeld.step (step_movesLock hs.lockHeld h) hcalls⟩
  · rw [hlog, holders_append, hs.owners]
    exact (hmutex id).owners.1
  · rw [hcalls]
    exact (hmutex id).waiters (hs.waiters id)
  · rw [hcalls]
    exact (hmutex id).owning (hs.owning id)

/-! ## Safety -/

/-- What holds of the mutexes in one state of a run. -/
structure MutexSafety (s : System) : Prop where
  /-- At most one thread has acquired a mutex and not given it back. -/
  atMostOne : ∀ id, (holders id s.log).length ≤ 1
  owners : ∀ id, holders id s.log = recordedOwner (s.mutexes id)
  waiters : ∀ id mutex, s.mutexes id = some mutex → census (InLoop id) s.calls = mutex.waiters
  /-- A step leaves the owner alone, or a thread takes the free mutex, or the owner
      gives it back: by `unlock`, or when it waits on a condition. -/
  changes : ∀ id action s', s.step action = .ok s' →
    holders id s'.log = holders id s.log ∨
      holders id s.log = [] ∧ holders id s'.log = [action.thread] ∨
      holders id s.log = [action.thread] ∧ holders id s'.log = [] ∧
        (s.calls action.thread = some (.unlock id) ∨
          ∃ condition observed, s.calls action.thread = some (.handOver condition id observed))

theorem MutexInvariant.safety (hs : MutexInvariant s) : MutexSafety s where
  atMostOne := by
    intro id
    rw [hs.owners]
    unfold recordedOwner
    split
    · split <;> simp
    · simp
  owners := hs.owners
  waiters := hs.waiters
  changes := by
    intro id action s' h
    obtain ⟨next, extra, hcalls, hlog, hmutex⟩ := step_mutex hs.owning h
    have howners := (hmutex id).owners
    have hafter : holders id s'.log = recordedOwner (s'.mutexes id) := (hs.step h).owners id
    rw [hs.owners, hafter]
    exact howners.2

/-! ## Release -/

/-- The step is a successful `cwhip_mutex_release`. -/
def Frees (s : System) (action : Action) (id : Nat) : Prop :=
  ∃ thread woken mutex, action = .advance thread woken ∧ s.calls thread = some (.release id) ∧
    s.mutexes id = some mutex ∧ mutex.locked = false ∧ mutex.waiters = 0

/-- A mutex is freed only when no other thread is inside a call on it. -/
def ReleasesIdle (s : System) (action : Action) : Prop :=
  ∀ id, Frees s action id → ∀ other ≠ action.thread, ¬ Inside id (s.calls other)

/-- A mutex is freed only when no thread has found it locked and not yet entered
    the wait loop, or has handed it over in a condition wait and not yet come back. -/
def OutsideWindows (s : System) (action : Action) : Prop :=
  ∀ id, Frees s action id → ∀ other, role id (s.calls other) ≠ .between

theorem keepsRuntimeLock_of_entering {id : Nat}
    (h : role id (some progress) = .entering) : progress.keepsRuntimeLock = true := by
  cases progress with
  | lock | unlock | release | wait | register | notify | releaseCondition => rfl
  | handOver | test | acquire | acquireLoop | acquired =>
    rw [role_of_standing rfl] at h
    split at h <;> cases h

/-- A release frees a mutex in use exactly inside a window. -/
theorem releasesIdle_iff (hs : MutexInvariant s) (action : Action) :
    ReleasesIdle s action ↔ OutsideWindows s action := by
  constructor
  · intro h id hfrees other hbetween
    refine h id hfrees other ?_ (by rw [Inside, hbetween]; decide)
    rintro rfl
    obtain ⟨thread, woken, mutex, rfl, hcall, _⟩ := hfrees
    rw [Action.thread, hcall, role_of_none rfl] at hbetween
    cases hbetween
  · intro h id hfrees other hother hinside
    have hbetween := h id hfrees other
    obtain ⟨thread, woken, mutex, rfl, hcall, hmutex, hfree, hnone⟩ := hfrees
    rw [Inside] at hinside
    cases hrole : role id (s.calls other) with
    | outside => exact hinside hrole
    | between => exact hbetween hrole
    | entering =>
      -- both threads would have the runtime lock
      have hmine := hs.lockHeld thread _ hcall rfl
      cases hprogress : s.calls other with
      | none =>
        rw [hprogress] at hrole
        cases hrole
      | some progress =>
        have hkeeps : progress.keepsRuntimeLock = true :=
          keepsRuntimeLock_of_entering (hprogress ▸ hrole)
        have hother' := hs.lockHeld other progress hprogress hkeeps
        rw [hmine] at hother'
        exact hother (Option.some.inj hother').symm
    | looping =>
      have hcount := hs.waiters id mutex hmutex
      rw [hnone] at hcount
      exact census_eq_zero.mp hcount other hrole
    | owning =>
      obtain ⟨found, hfound, howned⟩ := hs.owning id other hrole
      rw [hmutex] at hfound
      cases hfound
      simp [Mutex.ownedBy, hfree] at howned

/-- No thread is inside a call on a mutex that was freed. -/
def UsersSafe (s : System) : Prop := ∀ id thread, Using id (s.calls thread) →
    (s.mutexes id).isSome = true

theorem Using.inside {id : Nat} {call : Option Progress} (h : Using id call) : Inside id call := by
  intro hout
  simp [Using, hout] at h

theorem MutexStep.inUse {id thread : Nat} {after : Option Progress} {extra : List Occurrence}
    {mutex : Option Mutex} (h : MutexStep id thread (calls thread) after extra mutex mutex')
    (hsafe : ∀ other, Using id (calls other) → mutex.isSome = true) (other : Nat)
    (husing : Using id (Function.update calls thread after other)) :
    mutex'.isSome = true ∨ (other ≠ thread ∧ Using id (calls other) ∧
      calls thread = some (.release id) ∧
      ∃ found, mutex = some found ∧ found.locked = false ∧ found.waiters = 0) := by
  cases h with
  | same mutex silent looping owning inUse =>
    left
    by_cases hother : other = thread
    · subst hother
      rw [update_self] at husing
      exact (inUse husing).elim (hsafe other) fun hsome => hsome
    · rw [update_of_ne hother] at husing
      exact hsafe other husing
  | free mutex silent idle call after_role =>
    have hother : other ≠ thread := by
      rintro rfl
      rw [update_self] at husing
      exact husing.inside after_role
    rw [update_of_ne hother] at husing
    exact .inr ⟨hother, husing, call, mutex, rfl, idle⟩
  | queue | block | take | giveBack => exact .inl rfl

theorem advance_of_release {id : Nat} (h : s.step action = .ok s')
    (hcall : s.calls action.thread = some (.release id)) : ∃ woken, action =
    .advance action.thread woken := by
  cases action with
  | advance thread woken => exact ⟨woken, rfl⟩
  | acquire thread =>
    have hbusy : s.calls thread = some (.release id) := hcall
    simp only [System.step, bind_eq_ok, hbusy] at h
    obtain ⟨_, _, h⟩ := h
    cases h
  | release thread | call thread call =>
    simp only [System.step, bind_eq_ok, ensure_eq_ok] at h
    obtain ⟨_, ⟨_, hidle⟩, _⟩ := h
    exact absurd (hidle.symm.trans hcall) (by simp)
  | wake thread =>
    simp only [System.step, bind_eq_ok, require_eq_ok] at h
    obtain ⟨progress, hprogress, h⟩ := h
    obtain rfl := Option.some.inj (hprogress.symm.trans hcall)
    cases h

/-- Outside the windows no step frees what a thread uses. -/
theorem UsersSafe.step (hs : MutexInvariant s) (hsafe : UsersSafe s)
    (houtside : OutsideWindows s action) (h : s.step action = .ok s') : UsersSafe s' := by
  obtain ⟨next, extra, hcalls, hlog, hmutex⟩ := step_mutex hs.owning h
  intro id thread husing
  rw [hcalls] at husing
  rcases (hmutex id).inUse (hsafe id) thread husing with hsome | ⟨hother, husing, hcall, found,
    hfound, hidle⟩
  · exact hsome
  · obtain ⟨woken, haction⟩ := advance_of_release h hcall
    have hfrees : Frees s action id := ⟨_, woken, found, haction, hcall, hfound, hidle⟩
    exact absurd husing.inside ((releasesIdle_iff hs action).mpr houtside id hfrees thread hother)

/-- In every run at most one thread owns a mutex, only its owner gives it back, and
    the waiters are counted; and a mutex is freed only when no other thread is inside
    a call on it exactly if it is never freed in one of the windows, in which case no
    thread is left with a freed mutex. -/
theorem mutex_safe {s₀ s : System} {actions : List Action} (hinit : s₀.Initial)
    (hrun : machine.exec s₀ actions = .ok s) :
    MutexSafety s ∧ (machine.Along ReleasesIdle s₀ actions ↔
      machine.Along OutsideWindows s₀ actions) ∧
      (machine.Along OutsideWindows s₀ actions → UsersSafe s) := by
  have hstep : ∀ s a s', MutexInvariant s → machine.step s a = .ok s' → MutexInvariant s' :=
    fun _ _ _ hs h => hs.step h
  refine ⟨?_, ?_, fun houtside => ?_⟩
  · exact ((Machine.Reachable.exec hinit hrun).invariant (fun _ => System.Initial.invariant)
      hstep).safety
  · exact Machine.along_congr hstep (fun s a hs => releasesIdle_iff hs a) hinit.invariant
  · have hsafe : UsersSafe s₀ := by
      intro id thread husing
      rw [hinit.calls] at husing
      exact absurd rfl husing.inside
    exact (Machine.exec_invariant_along (I := fun s => MutexInvariant s ∧ UsersSafe s)
      (fun s a s' hs houtside h => ⟨hs.1.step h, hs.2.step hs.1 houtside h⟩)
      ⟨hinit.invariant, hsafe⟩ houtside hrun).2

/-! ## A mutex freed under a thread -/

/-- One mutex and no thread in a call. -/
def oneMutex : System :=
  ⟨fun id => if id = 0 then some (.create 0) else none, fun _ => none, none, fun _ => none, []⟩

theorem initial_oneMutex : oneMutex.Initial where
  mutexes := by
    intro id mutex hmutex
    simp only [oneMutex] at hmutex
    split at hmutex
    · exact ⟨0, (Option.some.inj hmutex).symm⟩
    · cases hmutex
  conditions := fun _ _ h => nomatch h
  calls := fun _ => rfl
  log := rfl

/-- The first thread locks the mutex, the second finds it locked, and the first
    unlocks it and is about to release it. -/
def contendedRelease : List Action :=
  [.acquire 1, .call 1 (.lock (some 0)), .advance 1 [], .release 1,
    .acquire 2, .call 2 (.lock (some 0)), .advance 2 [],
    .acquire 1, .call 1 (.unlock (some 0)), .advance 1 [], .call 1 (.release (some 0))]

theorem contendedRelease_state : ∃ s, machine.exec oneMutex contendedRelease = .ok s ∧
    s.calls 1 = some (.release 0) ∧ s.calls 2 = some (.acquire 0 .lock) ∧
    s.mutexes 0 = some ⟨[], 1, false, 0⟩ :=
  ⟨_, rfl, rfl, rfl, rfl⟩

theorem contendedRelease_frees : ∃ s,
    machine.exec oneMutex (contendedRelease ++ [.advance 1 []]) = .ok s ∧
      s.step (.advance 2 []) = .error .useAfterFree :=
  ⟨_, rfl, rfl⟩

/-- So a mutex can be freed while another thread is inside a call on it. -/
theorem release_frees_in_use : ¬ ∀ s₀ s : System, ∀ actions, s₀.Initial →
    machine.exec s₀ actions = .ok s → machine.Along ReleasesIdle s₀ actions := by
  intro h
  obtain ⟨s, hrun, hfirst, hsecond, hmutex⟩ := contendedRelease_state
  obtain ⟨s', hrun', _⟩ := contendedRelease_frees
  have hidle : ReleasesIdle s (.advance 1 []) := (h oneMutex s' _ initial_oneMutex hrun').last hrun
  refine hidle 0 ⟨1, [], _, rfl, hfirst, hmutex, rfl, rfl⟩ 2 (by decide) ?_
  rw [hsecond]
  decide

/-- The second thread waits for the mutex, so its release is refused; the first
    hands it on, and the second unlocks and releases it. -/
def handedOn : List Action :=
  [.acquire 1, .call 1 (.lock (some 0)), .advance 1 [], .release 1,
    .acquire 2, .call 2 (.lock (some 0)), .advance 2 [], .advance 2 [],
    .acquire 1, .call 1 (.release (some 0)), .advance 1 [],
    .call 1 (.unlock (some 0)), .advance 1 [2], .release 1,
    .advance 2 [], .acquire 2, .call 2 (.unlock (some 0)), .advance 2 [],
    .call 2 (.release (some 0)), .advance 2 []]

theorem outsideWindows_of_not_advance (h : ∀ thread woken, action ≠ .advance thread woken) :
    OutsideWindows s action := by
  rintro id ⟨thread, woken, _, haction, _⟩
  exact absurd haction (h thread woken)

theorem outsideWindows_of_not_release {thread : Nat} {woken : List Nat}
    (hcall : s.calls thread = some progress) (hother : ∀ id, progress ≠ .release id) :
    OutsideWindows s (.advance thread woken) := by
  rintro id ⟨thread, woken, mutex, haction, hrelease, _⟩
  cases haction
  exact absurd (Option.some.inj (hcall.symm.trans hrelease)) (hother id)

theorem handedOn_outsideWindows : machine.Along OutsideWindows oneMutex handedOn := by
  have hquiet : ∀ {s action}, (∀ thread woken, action ≠ .advance thread woken) →
      OutsideWindows s action := outsideWindows_of_not_advance
  -- both lock calls, up to the loop of the second
  refine ⟨hquiet nofun, hquiet nofun, outsideWindows_of_not_release rfl nofun, hquiet nofun, ?_⟩
  refine ⟨hquiet nofun, hquiet nofun, outsideWindows_of_not_release rfl nofun,
    outsideWindows_of_not_release rfl nofun, ?_⟩
  refine ⟨hquiet nofun, hquiet nofun, ?_, hquiet nofun, ?_⟩
  · -- the mutex is locked, so the release is refused
    rintro id ⟨thread, woken, mutex, haction, hcall, hmutex, hfree, _⟩
    cases haction
    cases hcall
    cases hmutex
    cases hfree
  refine ⟨outsideWindows_of_not_release rfl nofun, hquiet nofun,
    outsideWindows_of_not_release rfl nofun, hquiet nofun, hquiet nofun,
    outsideWindows_of_not_release rfl nofun, hquiet nofun, ?_, trivial⟩
  -- only the second thread is in a call
  rintro id ⟨thread, woken, mutex, haction, hcall, -⟩ other
  cases haction
  cases hcall
  by_cases htwo : other = 2
  · subst htwo
    decide
  · by_cases hone : other = 1
    · subst hone
      decide
    · simp [System.setCall, System.answer, System.record, System.setMutex, System.gilRelease,
        System.start, System.acquireTest, System.comeBack, Mutex.tryAcquire, Mutex.take,
        Mutex.create, oneMutex, htwo, hone, role]

theorem handedOn_safe : ∃ s, machine.exec oneMutex handedOn = .ok s ∧ s.mutexes 0 = none ∧
    MutexSafety s ∧ machine.Along ReleasesIdle oneMutex handedOn ∧ UsersSafe s := by
  have hrun : machine.exec oneMutex handedOn = .ok _ := rfl
  obtain ⟨hsafety, hiff, hsafe⟩ := mutex_safe initial_oneMutex hrun
  exact ⟨_, hrun, rfl, hsafety, hiff.mpr handedOn_outsideWindows, hsafe handedOn_outsideWindows⟩

end Cwhip.Runtime.Synchronization
