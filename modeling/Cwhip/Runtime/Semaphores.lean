/-
  Cwhip.Runtime.Semaphores

  Counting semaphores (`RuntimeThreads.c`): any number of threads that wait on
  and signal one semaphore.

  Every section under the semaphore's own mutex is one step, and so is giving
  up or acquiring the runtime lock.  A signal wakes at least one of the threads
  blocked on the condition variable, and a thread may be woken for no reason.
-/

import Mathlib.Algebra.Group.Int.Defs
import Mathlib.Data.List.Nodup
import Cwhip.Lib.Except
import Cwhip.Lib.Machine
import Cwhip.Lib.MachineInt

namespace Cwhip.Runtime.Semaphores

open Cwhip.Lib

/-- Why a step is not taken. -/
inductive Stop where
  /-- Not now. -/
  | refused
  /-- The C code calls `abort`. -/
  | aborted
  deriving DecidableEq, Repr

/-- A `CwhipSemaphoreObject` and the threads inside `cwhip_semaphore_wait`. -/
structure System where
  count : Int
  /-- The threads blocked on `cond`. -/
  cond : List Nat
  /-- The threads before a test of `count`. -/
  looping : List Nat
  /-- The threads behind the loop, until the runtime lock is acquired. -/
  passed : List Nat
  /-- The thread that holds the runtime lock. -/
  runtimeLock : Option Nat
  /-- How many signals there were. -/
  signals : Nat
  /-- How many waits have passed the loop. -/
  waits : Nat
  deriving DecidableEq, Repr

inductive Action where
  /-- A thread acquires the runtime lock; one behind the loop returns. -/
  | acquire (thread : Nat)
  | release (thread : Nat)
  /-- `cwhip_semaphore_wait` up to the loop. -/
  | wait (thread : Nat)
  /-- The next test of `count`. -/
  | test (thread : Nat)
  /-- A blocked thread is woken for no reason. -/
  | wake (thread : Nat)
  /-- `cwhip_semaphore_signal`; `pthread_cond_signal` wakes these. -/
  | signal (thread : Nat) (woken : List Nat)
  deriving DecidableEq, Repr

namespace System

/-- `cwhip_semaphore_create`. -/
def create (initialCount : Int) : Except Stop System := do
  ensure (0 ≤ initialCount) .aborted
  return ⟨initialCount, [], [], [], none, 0, 0⟩

/-- The threads inside `cwhip_semaphore_wait`. -/
def inside (s : System) : List Nat := s.cond ++ (s.looping ++ s.passed)

def step (s : System) : Action → Except Stop System
  | .acquire thread => do
    ensure (s.runtimeLock = none ∧ thread ∉ s.cond ∧ thread ∉ s.looping) .refused
    return { s with runtimeLock := some thread, passed := s.passed.erase thread }
  | .release thread => do
    ensure (s.runtimeLock = some thread) .refused
    return { s with runtimeLock := none }
  | .wait thread => do
    ensure (s.runtimeLock = some thread) .refused
    return { s with runtimeLock := none, looping := thread :: s.looping }
  | .test thread => do
    ensure (thread ∈ s.looping) .refused
    if s.count ≤ 0 then
      return { s with cond := thread :: s.cond, looping := s.looping.erase thread }
    else
      return { s with
        count := s.count - 1
        looping := s.looping.erase thread
        passed := thread :: s.passed
        waits := s.waits + 1 }
  | .wake thread => do
    ensure (thread ∈ s.cond) .refused
    return { s with cond := s.cond.erase thread, looping := thread :: s.looping }
  | .signal thread woken => do
    ensure (s.runtimeLock = some thread) .refused
    ensure (s.count ≠ int64Max) .aborted
    ensure ((∀ other ∈ woken, other ∈ s.cond) ∧ (s.cond = [] ∨ woken ≠ [])) .refused
    return { s with
      count := s.count + 1
      cond := s.cond.filter (fun other => other ∉ woken)
      looping := s.cond.filter (fun other => other ∈ woken) ++ s.looping
      signals := s.signals + 1 }

end System

/-- The threads on a semaphore created with a count. -/
def machine (initialCount : Int) : Machine System Action Stop :=
  ⟨fun s => initialCount ≤ int64Max ∧ System.create initialCount = .ok s, System.step⟩

/-! ## The invariant -/

/-- The permits add up, and while a thread is blocked there are at least as many
    others on their way to the permits that are left. -/
structure Conserved (initialCount : Int) (s : System) : Prop where
  permits : s.count + s.waits = initialCount + s.signals
  nonnegative : 0 ≤ s.count
  bounded : s.count ≤ int64Max
  once : s.inside.Nodup
  outside : ∀ thread, s.runtimeLock = some thread → thread ∉ s.inside
  served : s.cond ≠ [] → s.count ≤ s.looping.length

variable {initialCount : Int} {s s' : System}

/-- Moving the threads inside around is no matter to `once` and `outside`. -/
theorem Conserved.moved (hs : Conserved initialCount s) {inside : List Nat}
    (hperm : inside.Perm s.inside) :
    inside.Nodup ∧ ∀ thread, s.runtimeLock = some thread → thread ∉ inside := by
  refine ⟨hperm.nodup_iff.mpr hs.once, ?_⟩
  intro thread hthread hmem
  exact hs.outside thread hthread (hperm.subset hmem)

/-- The step lemma: one case for each section. -/
theorem conserved_step {action : Action} (hs : Conserved initialCount s)
    (h : s.step action = .ok s') : Conserved initialCount s' := by
  obtain ⟨hpermits, hnonnegative, hbounded, honce, houtside, hserved⟩ := id hs
  cases action with
  | acquire thread =>
    simp only [System.step, bind_eq_ok, pure_eq_ok, ensure_eq_ok] at h
    obtain ⟨_, ⟨_, hcond, hlooping⟩, rfl⟩ := h
    have honcePassed : s.passed.Nodup := honce.of_append_right.of_append_right
    have hsub : (s.cond ++ (s.looping ++ s.passed.erase thread)).Sublist s.inside :=
      List.Sublist.append_left (List.Sublist.append_left List.erase_sublist _) _
    refine ⟨hpermits, hnonnegative, hbounded, hsub.nodup honce, ?_, hserved⟩
    rintro other ⟨⟩ hmem
    -- a thread outside the loop has left `passed`
    rcases List.mem_append.mp hmem with hmem | hmem
    · exact hcond hmem
    · rcases List.mem_append.mp hmem with hmem | hmem
      · exact hlooping hmem
      · exact honcePassed.not_mem_erase hmem
  | release thread =>
    simp only [System.step, bind_eq_ok, pure_eq_ok] at h
    obtain ⟨_, -, rfl⟩ := h
    exact ⟨hpermits, hnonnegative, hbounded, honce, by rintro other ⟨⟩, hserved⟩
  | wait thread =>
    simp only [System.step, bind_eq_ok, pure_eq_ok, ensure_eq_ok] at h
    obtain ⟨_, hlock, rfl⟩ := h
    refine ⟨hpermits, hnonnegative, hbounded, ?_, by rintro other ⟨⟩, ?_⟩
    · have hperm : (s.cond ++ (thread :: s.looping ++ s.passed)).Perm (thread :: s.inside) :=
        List.perm_middle
      exact hperm.nodup_iff.mpr (List.nodup_cons.mpr ⟨houtside thread hlock, honce⟩)
    · intro hblocked
      have hbefore := hserved hblocked
      show s.count ≤ (thread :: s.looping).length
      rw [List.length_cons]
      omega
  | test thread =>
    simp only [System.step, bind_eq_ok, ensure_eq_ok] at h
    obtain ⟨_, hmem, h⟩ := h
    have hlength := List.length_erase_of_mem hmem
    have hpos := List.length_pos_of_mem hmem
    split at h
    · next hzero =>
      obtain rfl := pure_eq_ok.mp h
      have hperm : (thread :: s.cond ++ (s.looping.erase thread ++ s.passed)).Perm s.inside := by
        refine List.perm_middle.symm.trans (List.Perm.append_left _ ?_)
        exact (List.perm_cons_erase hmem).symm.append_right s.passed
      obtain ⟨honce', houtside'⟩ := hs.moved hperm
      refine ⟨hpermits, hnonnegative, hbounded, honce', houtside', ?_⟩
      intro _
      show s.count ≤ (s.looping.erase thread).length
      omega
    · next hpositive =>
      obtain rfl := pure_eq_ok.mp h
      have hperm : (s.cond ++ (s.looping.erase thread ++ thread :: s.passed)).Perm s.inside := by
        refine List.Perm.append_left _ (List.perm_middle.trans ?_)
        exact (List.perm_cons_erase hmem).symm.append_right s.passed
      obtain ⟨honce', houtside'⟩ := hs.moved hperm
      refine ⟨?_, ?_, ?_, honce', houtside', ?_⟩
      · show s.count - 1 + (s.waits + 1 : Nat) = initialCount + s.signals
        omega
      · show 0 ≤ s.count - 1
        omega
      · show s.count - 1 ≤ int64Max
        omega
      · intro hblocked
        have hbefore := hserved hblocked
        show s.count - 1 ≤ (s.looping.erase thread).length
        omega
  | wake thread =>
    simp only [System.step, bind_eq_ok, pure_eq_ok, ensure_eq_ok] at h
    obtain ⟨_, hmem, rfl⟩ := h
    have hperm : (s.cond.erase thread ++ (thread :: s.looping ++ s.passed)).Perm s.inside :=
      List.perm_middle.trans ((List.perm_cons_erase hmem).symm.append_right _)
    obtain ⟨honce', houtside'⟩ := hs.moved hperm
    refine ⟨hpermits, hnonnegative, hbounded, honce', houtside', ?_⟩
    intro _
    have hbefore := hserved (List.ne_nil_of_mem hmem)
    show s.count ≤ (thread :: s.looping).length
    rw [List.length_cons]
    omega
  | signal thread woken =>
    simp only [System.step, bind_eq_ok, pure_eq_ok, ensure_eq_ok] at h
    obtain ⟨_, hlock, _, hroom, _, ⟨hwoken, hsome⟩, rfl⟩ := h
    have hsplit : (s.cond.filter (fun other => other ∉ woken)
        ++ s.cond.filter (fun other => other ∈ woken)).Perm s.cond := by
      refine List.perm_append_comm.trans ?_
      simpa using List.filter_append_perm (fun other => decide (other ∈ woken)) s.cond
    have hperm : (s.cond.filter (fun other => other ∉ woken) ++
        (s.cond.filter (fun other => other ∈ woken) ++ s.looping ++ s.passed)).Perm s.inside := by
      rw [List.append_assoc, ← List.append_assoc]
      exact hsplit.append_right _
    obtain ⟨honce', houtside'⟩ := hs.moved hperm
    refine ⟨?_, ?_, ?_, honce', houtside', ?_⟩
    · show s.count + 1 + s.waits = initialCount + (s.signals + 1 : Nat)
      omega
    · show 0 ≤ s.count + 1
      omega
    · show s.count + 1 ≤ int64Max
      omega
    · -- some thread was blocked, so that one of them was woken
      intro hleft
      have hblocked : s.cond ≠ [] := fun hnil => hleft (by rw [hnil]; rfl)
      obtain ⟨first, hfirst⟩ := List.exists_mem_of_ne_nil woken (hsome.resolve_left hblocked)
      have hpos : 0 < (s.cond.filter (fun other => other ∈ woken)).length :=
        List.length_pos_of_mem (List.mem_filter.mpr ⟨hwoken first hfirst, by simpa using hfirst⟩)
      have hbefore := hserved hblocked
      show s.count + 1 ≤ (s.cond.filter (fun other => other ∈ woken) ++ s.looping).length
      rw [List.length_append]
      omega

/-! ## Over whole runs -/

/-- By induction on the run. -/
theorem conserved_of_reachable (h : (machine initialCount).Reachable s) :
    Conserved initialCount s := by
  refine h.invariant (I := Conserved initialCount) ?_ ?_
  · rintro s ⟨hfits, hcreate⟩
    simp only [System.create, bind_eq_ok, pure_eq_ok, ensure_eq_ok] at hcreate
    obtain ⟨_, hnonnegative, rfl⟩ := hcreate
    exact ⟨rfl, hnonnegative, hfits,
      List.nodup_nil, by rintro other ⟨⟩, fun hnil => absurd rfl hnil⟩
  · intro s action s' hs hstep
    exact conserved_step hs hstep

/-- In every interleaving, as many waits have passed as the count and the
    signals allow, and no wake-up is lost: a permit is never left over while all
    waiting threads are blocked, so that then each signal was used up by a wait. -/
theorem permits_conserved (h : (machine initialCount).Reachable s) :
    Conserved initialCount s ∧ (s.waits : Int) ≤ initialCount + s.signals ∧
    (s.cond ≠ [] → s.looping = [] → s.count = 0 ∧ (s.waits : Int) = initialCount + s.signals) ∧
    (s.cond ≠ [] → 0 < s.count → ∃ thread ∈ s.looping, ∃ s', s.step (.test thread) = .ok s' ∧
      s'.waits = s.waits + 1 ∧ thread ∈ s'.passed) := by
  have hs := conserved_of_reachable h
  have hpermits := hs.permits
  have hnonnegative := hs.nonnegative
  refine ⟨hs, by omega, ?_, ?_⟩
  · intro hblocked hnone
    have hserved := hs.served hblocked
    rw [hnone, List.length_nil] at hserved
    exact ⟨by omega, by omega⟩
  · intro hblocked hleft
    have hserved := hs.served hblocked
    have hlooping : s.looping ≠ [] := by
      intro hnone
      rw [hnone, List.length_nil] at hserved
      omega
    obtain ⟨thread, hthread⟩ := List.exists_mem_of_ne_nil s.looping hlooping
    refine ⟨thread, hthread, { s with
      count := s.count - 1
      looping := s.looping.erase thread
      passed := thread :: s.passed
      waits := s.waits + 1 }, ?_, rfl, List.mem_cons_self⟩
    show (ensure (thread ∈ s.looping) Stop.refused >>= _) = _
    rw [ensure_bind hthread, if_neg (by omega)]
    rfl

/-- Two threads block, and one signal wakes both of them. -/
theorem permits_conserved_pair : ∃ s, (machine 0).exec ⟨0, [], [], [], none, 0, 0⟩
      [.acquire 1, .wait 1, .test 1, .acquire 2, .wait 2, .test 2, .acquire 3, .signal 3 [1, 2],
        .test 2, .test 1] = .ok s ∧
    s.cond = [1] ∧ s.passed = [2] ∧ s.count = 0 ∧ (s.waits : Int) = 0 + s.signals := by
  have hrun : (machine 0).exec ⟨0, [], [], [], none, 0, 0⟩
      [.acquire 1, .wait 1, .test 1, .acquire 2, .wait 2, .test 2, .acquire 3, .signal 3 [1, 2],
        .test 2, .test 1] = .ok _ := rfl
  have hconserved := (permits_conserved (.exec ⟨by decide, rfl⟩ hrun)).2.2.1 (by decide) rfl
  exact ⟨_, rfl, rfl, rfl, hconserved.1, hconserved.2⟩

end Cwhip.Runtime.Semaphores
