/-
  Cwhip.Runtime.ProcessWaitRun

  Waiters of one process, in every run.

  A thread in the loop has reaped the child or finds it to be reaped, and has read
  what is missing of the output, as long as it is alone there
  (`waiters_share_process`).  Of two threads in the loop one has its `waitpid`
  refused; it closes the descriptors and fails (`second_waiter_fails`).
-/

import Cwhip.Runtime.ProcessWait

namespace Cwhip.Runtime.ProcessWait

open Cwhip.Lib
open ProcessAsync (Stream)
open Function (update_apply update_idem update_of_ne update_self)

/-! ## Draining -/

/-- While no read has failed, a stream is captured up to what is in its pipe, and its
    descriptor is only closed at the end. -/
def Process.Tracks (p : Process) (stream : Stream) (pipe : Pipe) : Prop :=
  p.outputError = none → (p.captures stream).error = none ∧
    (p.captures stream).bytes ++ pipe.pending = pipe.written ∧
      ((p.captures stream).fd = false → pipe.pending = [] ∧ pipe.writers = false)

/-- What reading one stream leaves as it was. -/
structure Drains (stream : Stream) (p p' : Process) (pipe pipe' : Pipe) : Prop where
  waited : p'.waited = p.waited
  status : p'.status = p.status
  failed : p'.outputError = none → p.outputError = none
  others : ∀ other, other ≠ stream → p'.captures other = p.captures other
  written : pipe'.written = pipe.written
  writers : pipe'.writers = pipe.writers

theorem Drains.refl (stream : Stream) (p : Process) (pipe : Pipe) : Drains stream p p pipe pipe :=
  ⟨rfl, rfl, id, fun _ _ => rfl, rfl, rfl⟩

theorem Drains.trans {stream : Stream} {p₁ p₂ p₃ : Process} {pipe₁ pipe₂ pipe₃ : Pipe}
    (h₁ : Drains stream p₁ p₂ pipe₁ pipe₂) (h₂ : Drains stream p₂ p₃ pipe₂ pipe₃) :
    Drains stream p₁ p₃ pipe₁ pipe₃ where
  waited := h₂.waited.trans h₁.waited
  status := h₂.status.trans h₁.status
  failed := fun h => h₁.failed (h₂.failed h)
  others := fun other hother => (h₂.others other hother).trans (h₁.others other hother)
  written := h₂.written.trans h₁.written
  writers := h₂.writers.trans h₁.writers

theorem setCapture_drains (stream : Stream) (p : Process) (capture : Capture) (pipe : Pipe) :
    Drains stream p (p.setCapture stream capture) pipe pipe :=
  ⟨rfl, rfl, id, fun _ hother => update_of_ne hother _ _, rfl, rfl⟩

theorem captures_setCapture (p : Process) (stream : Stream) (capture : Capture) :
    (p.setCapture stream capture).captures stream = capture := update_self ..

theorem appendOutput_ok {capture stored : Capture} {chunk : List UInt8} {memory : Bool}
    (h : appendOutput capture chunk memory = .ok stored) :
    stored.bytes = capture.bytes ++ chunk ∧ stored.fd = capture.fd ∧
    stored.error = capture.error := by
  unfold appendOutput at h
  split at h
  · cases h
  · dsimp only at h
    split at h
    · split at h
      · cases h
        exact ⟨rfl, rfl, rfl⟩
      · cases h
    · cases h
      exact ⟨rfl, rfl, rfl⟩

theorem store_spec (p : Process) (stream : Stream) (chunk : List UInt8) (memory : Bool)
    (pipe : Pipe) :
    Drains stream p (p.store stream chunk memory) pipe pipe ∧
      ((p.store stream chunk memory).captures stream).fd = (p.captures stream).fd ∧
      ((p.captures stream).error = none → (p.store stream chunk memory).outputError = none →
        ((p.store stream chunk memory).captures stream).error = none ∧
          ((p.store stream chunk memory).captures stream).bytes = (p.captures stream).bytes ++
          chunk) := by
  unfold Process.store
  dsimp only
  split
  · next herror =>
    refine ⟨.refl .., rfl, fun hnone => ?_⟩
    rw [hnone] at herror
    cases herror
  · split
    · next stored hstored =>
      obtain ⟨hbytes, hfd, herror⟩ := appendOutput_ok hstored
      refine ⟨setCapture_drains .., ?_, fun hnone _ => ?_⟩
      · rw [captures_setCapture, hfd]
      · rw [captures_setCapture]
        exact ⟨herror.trans hnone, hbytes⟩
    · next error _ =>
      -- the error of the stream is the error of the output, unless that had one
      have hfailed : (if p.outputError.isNone then some error else p.outputError) ≠ none := by
        cases p.outputError <;> simp
      refine ⟨⟨rfl, rfl, fun h => absurd h hfailed, fun _ hother => update_of_ne hother _ _, rfl,
        rfl⟩,
        ?_, fun _ h => absurd h hfailed⟩
      exact (congrArg Capture.fd (captures_setCapture p stream
        { p.captures stream with error := some error })).trans rfl

theorem drainPipe_spec {stream : Stream} {reads : List ReadResult} {p p' : Process}
    {pipe pipe' : Pipe}
    (h : drainPipe stream reads p pipe = .ok (p', pipe')) (hopen : (p.captures stream).fd = true)
    (htracks : p.Tracks stream pipe) : Drains stream p p' pipe pipe' ∧ p'.Tracks stream pipe' := by
  induction reads generalizing p pipe with
  | nil =>
    unfold drainPipe at h
    obtain ⟨_, hempty, hend⟩ := bind_eq_ok.mp h
    rw [ensure_eq_ok] at hempty
    simp only [pure_eq_ok, Prod.mk.injEq] at hend
    obtain ⟨rfl, rfl⟩ := hend
    by_cases hwriters : pipe.writers = true
    · rw [if_pos hwriters]
      exact ⟨.refl .., htracks⟩
    · -- the end of the stream
      rw [if_neg hwriters]
      refine ⟨setCapture_drains .., fun hnone => ?_⟩
      obtain ⟨herror, hbytes, _⟩ := htracks hnone
      rw [Process.closeFd, captures_setCapture]
      exact ⟨herror, hbytes, fun _ => ⟨hempty, by simpa using hwriters⟩⟩
  | cons read reads ih =>
    cases read with
    | chunk count memory =>
      unfold drainPipe at h
      obtain ⟨_, hcount, hrest⟩ := bind_eq_ok.mp h
      obtain ⟨hdrains, hfd, hstored⟩ :=
        store_spec p stream (pipe.pending.take count) memory pipe
      have hmiddle : (p.store stream (pipe.pending.take count) memory).Tracks stream
          { pipe with pending := pipe.pending.drop count } := by
        intro hnone
        obtain ⟨herror, hbytes, _⟩ := htracks (hdrains.failed hnone)
        obtain ⟨herror', hbytes'⟩ := hstored herror hnone
        refine ⟨herror', ?_, fun hclosed => ?_⟩
        · rw [hbytes', List.append_assoc, List.take_append_drop]
          exact hbytes
        · rw [hfd, hopen] at hclosed
          cases hclosed
      obtain ⟨hrestDrains, hrestTracks⟩ := ih hrest (hfd.trans hopen) hmiddle
      have hread : Drains stream p (p.store stream (pipe.pending.take count) memory) pipe
          { pipe with pending := pipe.pending.drop count } :=
        ⟨hdrains.waited, hdrains.status, hdrains.failed, hdrains.others, rfl, rfl⟩
      exact ⟨hread.trans hrestDrains, hrestTracks⟩
    | interrupted =>
      unfold drainPipe at h
      exact ih h hopen htracks
    | failed errorNumber =>
      cases h
      refine ⟨⟨rfl, rfl, fun h => ?_, fun _ hother => update_of_ne hother _ _, rfl, rfl⟩, fun h =>
        ?_⟩
      · cases h
      · cases h

/-! ## The invariant -/

/-- What sharing a process means. -/
structure Shared (s : System) : Prop where
  /-- A wait that returns returns the status of the child, with all of its output. -/
  returned : ∀ returned ∈ s.returned, returned.outputError = none → returned.ok = true ∧
    ∃ status, s.child = .reaped status ∧ returned.exitCode = status.code ∧
      ∀ stream, (s.pipes stream).writers = false ∧ returned.output stream = (s.pipes stream).written
  /-- Nobody is inside a wait when the record is freed. -/
  freed : s.process = none → ∀ thread, s.calls thread = none

/-- What the record says about the child. -/
structure Told (s : System) (p : Process) : Prop where
  tracks : ∀ stream, p.Tracks stream (s.pipes stream)
  waited : p.waited = true → (p.captures .stdout).fd = false ∧ (p.captures .stderr).fd = false ∧
    ∃ status, s.child = .reaped status ∧ p.status = status.code

/-- What a thread in the loop knows. -/
structure Inside (s : System) (p : Process) (waiting : Waiting) : Prop where
  waited : p.waited = false
  noError : waiting.waitError = none
  reaped : waiting.childReaped = true → s.child = .reaped waiting.waitStatus
  notReaped : waiting.childReaped = false → ∀ status, s.child ≠ .reaped status

/-- What holds of the process and its callers between two sections. -/
structure Invariant (s : System) : Prop where
  shared : Shared s
  alone : ∀ thread other, s.calls thread ≠ none → s.calls other ≠ none → thread = other
  told : ∀ p, s.process = some p → Told s p
  inside : ∀ p thread waiting, s.process = some p → s.calls thread = some waiting →
    Inside s p waiting
  /-- A child that nobody waits for is not reaped. -/
  idle : ∀ p, s.process = some p → p.waited = false → (∀ thread, s.calls thread = none) →
    ∀ status, s.child ≠ .reaped status

/-! ## The steps -/

/-- Nobody is inside. -/
def System.Idle (s : System) : Prop := ∀ thread, s.calls thread = none

/-- A wait enters before the process is closed and while no other thread is inside, and a
    close enters while no other thread is inside. -/
def EntersAlone (s : System) : Action → Prop
  | .wait _ => s.native = true ∧ s.Idle
  | .close _ => s.Idle
  | _ => True

theorem Shared.mono {s s' : System} (h : Shared s) (hreturned : s'.returned = s.returned)
    (hchild : ∀ status, s.child = .reaped status → s'.child = .reaped status)
    (hpipes : ∀ stream, (s.pipes stream).writers = false →
      (s'.pipes stream).writers = false ∧ (s'.pipes stream).written = (s.pipes stream).written)
    (hfreed : s'.process = none → s'.Idle) : Shared s' where
  returned := by
    intro returned hmem hnone
    rw [hreturned] at hmem
    obtain ⟨hok, status, hreaped, hcode, houtput⟩ := h.returned returned hmem hnone
    refine ⟨hok, status, hchild status hreaped, hcode, fun stream => ?_⟩
    obtain ⟨hwriters, hwritten⟩ := hpipes stream (houtput stream).1
    exact ⟨hwriters, hwritten ▸ (houtput stream).2⟩
  freed := hfreed

theorem Shared.returns {s : System} (h : Shared s) {thread : Nat} {error : Option Nat} {p : Process}
    (htold : Told s p) (hwaited : p.waited = true) :
    Shared (s.waitReturns thread true error p) where
  returned := by
    intro returned hmem hnone
    rcases List.mem_append.mp hmem with hold | hnew
    · exact h.returned returned hold hnone
    · cases List.mem_singleton.mp hnew
      obtain ⟨hstdout, hstderr, status, hreaped, hstatus⟩ := htold.waited hwaited
      refine ⟨rfl, status, hreaped, ?_, fun stream => ?_⟩
      · show p.exitCode = status.code
        rw [Process.exitCode, if_pos hwaited, hstatus]
      · have hclosed : (p.captures stream).fd = false := by
          cases stream with
          | stdout => exact hstdout
          | stderr => exact hstderr
        obtain ⟨_, hbytes, hend⟩ := htold.tracks stream hnone
        obtain ⟨hempty, hwriters⟩ := hend hclosed
        refine ⟨hwriters, ?_⟩
        show p.output stream = (s.pipes stream).written
        rw [Process.output, if_pos hwaited, ← hbytes, hempty, List.append_nil]
  freed := h.freed

theorem Invariant.outside {s s' : System} (h : Invariant s) (hprocess : s'.process = s.process)
    (hcalls : s'.calls = s.calls) (hreturned : s'.returned = s.returned)
    (hchild : ∀ status, s.child = .reaped status ↔ s'.child = .reaped status)
    (hpipes : ∀ stream, (s.pipes stream).writers = false → s'.pipes stream = s.pipes stream)
    (htracks : ∀ p stream, s.process = some p → p.Tracks stream (s.pipes stream) →
      p.Tracks stream (s'.pipes stream)) : Invariant s' := by
  have hidle : s'.Idle ↔ s.Idle := by
    unfold System.Idle
    rw [hcalls]
  refine ⟨h.shared.mono hreturned (fun status => (hchild status).mp) (fun stream hwriters => ?_)
      (fun hnone => hidle.mpr (h.shared.freed (hprocess ▸ hnone))), ?_, fun p hp => ?_,
        fun p thread waiting hp hcall => ?_,
    fun p hp hwaited hnobody status hreaped => ?_⟩
  · rw [hpipes stream hwriters]
    exact ⟨hwriters, rfl⟩
  · rw [hcalls]
    exact h.alone
  · rw [hprocess] at hp
    refine ⟨fun stream => htracks p stream hp ((h.told p hp).tracks stream), fun hwaited => ?_⟩
    obtain ⟨hstdout, hstderr, status, hreaped, hstatus⟩ := (h.told p hp).waited hwaited
    exact ⟨hstdout, hstderr, status, (hchild status).mp hreaped, hstatus⟩
  · rw [hprocess] at hp
    rw [hcalls] at hcall
    obtain ⟨hwaited, hnoError, hreaped, hnotReaped⟩ := h.inside p thread waiting hp hcall
    exact ⟨hwaited, hnoError, fun h => (hchild _).mp (hreaped h),
      fun h status hreaped => hnotReaped h status ((hchild status).mpr hreaped)⟩
  · rw [hprocess] at hp
    exact h.idle p hp hwaited (hidle.mp hnobody) status ((hchild status).mpr hreaped)

theorem Invariant.setPipe {s : System} {stream : Stream} {pipe : Pipe} (h : Invariant s)
    (hwriters : (s.pipes stream).writers = true)
    (htracks : ∀ p : Process, p.Tracks stream (s.pipes stream) → p.Tracks stream pipe) :
    Invariant (s.setPipe stream pipe) := by
  have hother : ∀ other, (s.pipes other).writers = false → other ≠ stream := by
    rintro other hclosed rfl
    rw [hwriters] at hclosed
    cases hclosed
  refine h.outside rfl rfl rfl (fun _ => Iff.rfl)
    (fun other hclosed => update_of_ne (hother other hclosed) _ _) fun p other _ htracked => ?_
  show p.Tracks other (Function.update s.pipes stream pipe other)
  by_cases heq : other = stream
  · subst heq
    rw [update_self]
    exact htracks p htracked
  · rwa [update_of_ne heq]

theorem Invariant.write {s s' : System} {stream : Stream} {bytes : List UInt8} (h : Invariant s)
    (hstep : s.step (.write stream bytes) = .ok s') : Invariant s' := by
  simp only [System.step, bind_eq_ok, ensure_eq_ok, pure_eq_ok] at hstep
  obtain ⟨_, hwriters, rfl⟩ := hstep
  refine h.setPipe hwriters fun p htracked hnone => ?_
  obtain ⟨herror, hbytes, hend⟩ := htracked hnone
  refine ⟨herror, ?_, fun hclosed => ?_⟩
  · show (p.captures stream).bytes ++ ((s.pipes stream).pending ++ bytes) =
      (s.pipes stream).written ++ bytes
    rw [← hbytes, List.append_assoc]
  · rw [(hend hclosed).2] at hwriters
    cases hwriters

theorem Invariant.hangUp {s s' : System} {stream : Stream} (h : Invariant s)
    (hstep : s.step (.hangUp stream) = .ok s') : Invariant s' := by
  simp only [System.step, bind_eq_ok, ensure_eq_ok, pure_eq_ok] at hstep
  obtain ⟨_, hwriters, rfl⟩ := hstep
  refine h.setPipe hwriters fun p htracked hnone => ?_
  obtain ⟨herror, hbytes, hend⟩ := htracked hnone
  exact ⟨herror, hbytes, fun hclosed => ⟨(hend hclosed).1, rfl⟩⟩

theorem Invariant.exit {s s' : System} {status : WaitStatus} (h : Invariant s)
    (hstep : s.step (.exit status) = .ok s') : Invariant s' := by
  simp only [System.step, bind_eq_ok, ensure_eq_ok, pure_eq_ok] at hstep
  obtain ⟨_, hrunning, rfl⟩ := hstep
  refine h.outside rfl rfl rfl (fun found => ?_) (fun _ _ => rfl) fun _ _ _ htracked => htracked
  rw [hrunning]
  constructor
  · intro hreaped
    cases hreaped
  · intro hreaped
    cases hreaped

theorem Invariant.enters {s : System} {thread : Nat} {p : Process} {closing : Bool}
    (h : Invariant s) (hidle : s.Idle) (hp : s.process = some p) (hwaited : p.waited = false) :
    Invariant (s.setCall thread (some ⟨closing, false, .exited 0, none⟩)) := by
  have hcall : ∀ {other waiting}, (s.setCall thread (some ⟨closing, false, .exited 0, none⟩)).calls
      other =
      some waiting → other = thread ∧ waiting = ⟨closing, false, .exited 0, none⟩ := by
    intro other waiting hother
    have hupdate : Function.update s.calls thread (some ⟨closing, false, .exited 0, none⟩) other =
        some waiting :=
      hother
    by_cases heq : other = thread
    · rw [heq, update_self] at hupdate
      exact ⟨heq, (Option.some.inj hupdate).symm⟩
    · rw [update_of_ne heq, hidle other] at hupdate
      cases hupdate
  refine ⟨h.shared.mono rfl (fun _ h => h) (fun _ h => ⟨h, rfl⟩) fun hnone => ?_,
    fun first second hfirst hsecond => ?_,
    fun other hother => ⟨(h.told other hother).tracks, (h.told other hother).waited⟩,
    fun other found waiting hother hfound => ?_, fun other _ _ hnobody => ?_⟩
  · rw [show s.process = none from hnone] at hp
    cases hp
  · obtain ⟨_, hfirst⟩ := Option.ne_none_iff_exists'.mp hfirst
    obtain ⟨_, hsecond⟩ := Option.ne_none_iff_exists'.mp hsecond
    rw [(hcall hfirst).1, (hcall hsecond).1]
  · obtain rfl : p = other := Option.some.inj (hp.symm.trans hother)
    rw [(hcall hfound).2]
    exact ⟨hwaited, rfl, fun h => (nomatch h), fun _ => h.idle p hp hwaited hidle⟩
  · have hself := hnobody thread
    have hupdate : Function.update s.calls thread (some ⟨closing, false, .exited 0, none⟩) thread =
      none := hself
    rw [update_self] at hupdate
    cases hupdate

theorem Invariant.freed {s : System} (h : Invariant s) (hidle : s.Idle) : Invariant s.freeProcess :=
  ⟨h.shared.mono rfl (fun _ h => h) (fun _ h => ⟨h, rfl⟩) fun _ => hidle, h.alone,
    fun _ h => (nomatch h),
    fun _ _ _ h => (nomatch h), fun _ h => nomatch h⟩

theorem Invariant.waitReturns {s : System} (h : Invariant s) {thread : Nat} {error : Option Nat}
    {p : Process}
    (hp : s.process = some p) (hwaited : p.waited = true) :
    Invariant (s.waitReturns thread true error p) :=
  ⟨h.shared.returns (h.told p hp) hwaited, h.alone, fun other hother =>
    ⟨(h.told other hother).tracks,
    (h.told other hother).waited⟩, fun other found waiting hother hfound =>
      let inside := h.inside other found waiting hother hfound
      ⟨inside.waited, inside.noError, inside.reaped, inside.notReaped⟩, h.idle⟩

theorem Invariant.wait {s s' : System} {thread : Nat} (h : Invariant s)
    (henters : EntersAlone s (.wait thread)) (hstep : s.step (.wait thread) = .ok s') :
    Invariant s' := by
  obtain ⟨hnative, hidle⟩ := henters
  simp only [System.step, System.wait, hnative, Bool.not_true, Bool.false_eq_true,
    if_false, bind_eq_ok,
    require_eq_ok] at hstep
  obtain ⟨_, _, p, hp, hrest⟩ := hstep
  split at hrest
  · next hwaited =>
    rw [pure_eq_ok] at hrest
    exact hrest ▸ h.waitReturns hp hwaited
  · next hwaited =>
    rw [pure_eq_ok] at hrest
    exact hrest ▸ h.enters hidle hp (by simpa using hwaited)

theorem Invariant.close {s s' : System} {thread : Nat} (h : Invariant s)
    (henters : EntersAlone s (.close thread)) (hstep : s.step (.close thread) = .ok s') :
    Invariant s' := by
  simp only [System.step, System.close, bind_eq_ok] at hstep
  obtain ⟨_, _, hrest⟩ := hstep
  split at hrest
  · -- it is closed already
    rw [pure_eq_ok] at hrest
    exact hrest ▸ h
  · simp only [bind_eq_ok, require_eq_ok] at hrest
    obtain ⟨p, hp, hrest⟩ := hrest
    split at hrest
    · rw [pure_eq_ok] at hrest
      exact hrest ▸ h.freed henters
    · next hwaited =>
      rw [pure_eq_ok] at hrest
      exact hrest ▸ h.enters henters hp (by simpa using hwaited)

/-! ### Iterations -/

/-- What draining leaves as it was. -/
structure Drained (p p' : Process) (s s' : System) : Prop where
  waited : p'.waited = p.waited
  child : s'.child = s.child
  calls : s'.calls = s.calls
  returned : s'.returned = s.returned
  pipes : ∀ stream, (s'.pipes stream).writers = (s.pipes stream).writers ∧
    (s'.pipes stream).written = (s.pipes stream).written
  tracks : ∀ stream, p'.Tracks stream (s'.pipes stream)

theorem drain_spec {s s' : System} {stream : Stream} {reads : List ReadResult} {p p' : Process}
    (h : s.drain stream reads p = .ok (p', s'))
    (htracks : ∀ stream, p.Tracks stream (s.pipes stream)) :
    Drained p p' s s' := by
  unfold System.drain at h
  split at h
  · cases h
    exact ⟨rfl, rfl, rfl, rfl, fun _ => ⟨rfl, rfl⟩, htracks⟩
  · next hopen =>
    simp only [bind_eq_ok, pure_eq_ok, Prod.mk.injEq, Prod.exists] at h
    obtain ⟨_, pipe, hdrain, rfl, rfl⟩ := h
    obtain ⟨hdrains, htracked⟩ := drainPipe_spec hdrain (by simpa using hopen) (htracks stream)
    have hpipe : ∀ other, (s.setPipe stream pipe).pipes other = if other = stream then pipe
        else s.pipes other := by
      intro other
      exact update_apply ..
    refine ⟨hdrains.waited, rfl, rfl, rfl, fun other => ?_, fun other => ?_⟩
    · rw [hpipe]
      split
      · next heq =>
        subst heq
        exact ⟨hdrains.writers, hdrains.written⟩
      · exact ⟨rfl, rfl⟩
    · rw [hpipe]
      split
      · next heq =>
        subst heq
        exact htracked
      · next hother =>
        -- the other stream is as it was
        intro hnone
        rw [hdrains.others other hother]
        exact htracks other (hdrains.failed hnone)

theorem reap_spec {s : System} {waiting : Waiting} {p : Process} (interrupted : Bool)
    (h : Inside s p waiting) :
    ∃ waiting' child, s.reap waiting interrupted p = (waiting', p, { s with child }) ∧
      Inside { s with child } p waiting' ∧ ∀ status, s.child = .reaped status →
      child = .reaped status := by
  unfold System.reap
  split
  · exact ⟨waiting, s.child, rfl, h, fun _ h => h⟩
  · next hnot =>
    have hnotReaped := h.notReaped (by simpa using hnot)
    unfold Child.waitpid
    cases interrupted with
    | true => exact ⟨waiting, s.child, rfl, h, fun _ h => h⟩
    | false =>
      cases hchild : s.child with
      | running =>
        refine ⟨waiting, .running, rfl, ⟨h.waited, h.noError, fun hreaped => absurd hreaped hnot,
          fun _ _ h => nomatch h⟩, fun _ h => h⟩
      | exited status =>
        exact ⟨{ waiting with childReaped := true, waitStatus := status }, .reaped status, rfl,
          ⟨h.waited, h.noError, fun _ => rfl, fun h => (nomatch h)⟩, fun _ h => nomatch h⟩
      | reaped status => exact absurd hchild (hnotReaped status)

theorem Invariant.poll {s s' : System} {thread : Nat} {reads : Stream → List ReadResult}
    {interrupted : Bool}
    (h : Invariant s) (hstep : s.step (.poll thread reads interrupted) = .ok s') :
    Invariant s' := by
  simp only [System.step, System.poll, bind_eq_ok, require_eq_ok, pure_eq_ok, Prod.exists] at hstep
  obtain ⟨waiting, hcall, p, hp, _, _, p₁, s₁, hstdout, p₂, s₂, hstderr, rfl⟩ := hstep
  have hinside := h.inside p thread waiting hp hcall
  have hdrained₁ := drain_spec hstdout (h.told p hp).tracks
  have hdrained₂ := drain_spec hstderr hdrained₁.tracks
  have hwaited : p₂.waited = false := by rw [hdrained₂.waited, hdrained₁.waited, hinside.waited]
  have hchild : s₂.child = s.child := hdrained₂.child.trans hdrained₁.child
  have hcalls : s₂.calls = s.calls := hdrained₂.calls.trans hdrained₁.calls
  obtain ⟨waiting', child, hreap, hinside', hmono⟩ := reap_spec interrupted
    (show Inside s₂ p₂ waiting from ⟨hwaited, hinside.noError,
      fun h => by rw [hchild]; exact hinside.reaped h,
      fun h => by rw [hchild]; exact hinside.notReaped h⟩)
  rw [hreap]
  have halone : ∀ {other waiting}, Function.update s₂.calls thread (some waiting') other =
      some waiting →
      other = thread ∧ waiting = waiting' := by
    intro other found hfound
    by_cases heq : other = thread
    · rw [heq, update_self] at hfound
      exact ⟨heq, (Option.some.inj hfound).symm⟩
    · rw [update_of_ne heq, hcalls] at hfound
      exact absurd (h.alone other thread (by simp [hfound]) (by simp [hcall])) heq
  refine ⟨h.shared.mono ?_ (fun status hreaped => ?_) (fun stream hwriters => ?_) (by rintro ⟨⟩),
    fun first second hfirst hsecond => ?_, fun other hother => ?_,
      fun other found waiting hother hfound => ?_,
    fun other hother _ hnobody => ?_⟩
  · exact hdrained₂.returned.trans hdrained₁.returned
  · exact hmono status (hchild.trans hreaped)
  · obtain ⟨hwriters₁, hwritten₁⟩ := hdrained₁.pipes stream
    obtain ⟨hwriters₂, hwritten₂⟩ := hdrained₂.pipes stream
    exact ⟨(hwriters₂.trans hwriters₁).trans hwriters, hwritten₂.trans hwritten₁⟩
  · obtain ⟨_, hfirst⟩ := Option.ne_none_iff_exists'.mp hfirst
    obtain ⟨_, hsecond⟩ := Option.ne_none_iff_exists'.mp hsecond
    rw [(halone hfirst).1, (halone hsecond).1]
  · obtain rfl : p₂ = other := Option.some.inj hother
    refine ⟨hdrained₂.tracks, fun h => ?_⟩
    rw [hwaited] at h
    cases h
  · obtain rfl : p₂ = other := Option.some.inj hother
    rw [(halone hfound).2]
    exact ⟨hinside'.waited, hinside'.noError, hinside'.reaped, hinside'.notReaped⟩
  · have hself : Function.update s₂.calls thread (some waiting') thread = none := hnobody thread
    rw [update_self] at hself
    cases hself

theorem Invariant.finish {s s' : System} {thread : Nat} (h : Invariant s)
    (hstep : s.step (.finish thread) = .ok s') : Invariant s' := by
  simp only [System.step, System.finish, bind_eq_ok, require_eq_ok, ensure_eq_ok, pure_eq_ok]
    at hstep
  obtain ⟨waiting, hcall, p, hp, _, hends, hrest⟩ := hstep
  obtain ⟨_, hnoError, hreaped, _⟩ := h.inside p thread waiting hp hcall
  simp only [System.goesOn, Bool.or_eq_false_iff, Bool.not_eq_false'] at hends
  obtain ⟨⟨hchildReaped, hstdout⟩, hstderr⟩ := hends
  have hchild := hreaped hchildReaped
  have hidle : ∀ other, Function.update s.calls thread none other = none := by
    intro other
    by_cases heq : other = thread
    · rw [heq, update_self]
    · rw [update_of_ne heq]
      by_contra hinside
      exact heq (h.alone other thread hinside (by simp [hcall]))
  -- the record holds the status, and nobody is in the loop
  have htold : Invariant ({ s with
      process := some { p with status := waiting.waitStatus.code, waited := true } }.setCall
          thread none) := by
    refine ⟨h.shared.mono rfl (fun _ h => h) (fun _ h => ⟨h, rfl⟩) (by rintro ⟨⟩),
      fun other _ hother => absurd (hidle other) hother, fun other hother => ?_,
      fun _ other _ _ hother => ?_, fun other hother hwaited => ?_⟩
    · cases hother
      exact ⟨(h.told p hp).tracks, fun _ => ⟨hstdout, hstderr, waiting.waitStatus, hchild, rfl⟩⟩
    · cases (hidle other).symm.trans hother
    · cases hother
      cases hwaited
  have hreturned := @Invariant.waitReturns _ htold thread p.outputError _ rfl rfl
  rw [hnoError] at hrest
  cases hclosing : waiting.closing with
  | true =>
    rw [hclosing] at hrest
    exact hrest ▸ hreturned.freed hidle
  | false =>
    rw [hclosing] at hrest
    exact hrest ▸ hreturned

/-- One step keeps it, where a call enters alone. -/
theorem Invariant.step {s s' : System} {action : Action} (h : Invariant s)
    (henters : EntersAlone s action)
    (hstep : machine.step s action = .ok s') : Invariant s' := by
  cases action with
  | wait thread => exact h.wait henters hstep
  | close thread => exact h.close henters hstep
  | poll thread reads interrupted => exact h.poll hstep
  | finish thread => exact h.finish hstep
  | write stream bytes => exact h.write hstep
  | hangUp stream => exact h.hangUp hstep
  | exit status => exact h.exit hstep

/-! ## Every run -/

theorem invariant_spawned : Invariant .spawned := by
  refine ⟨⟨fun _ h => (nomatch h), fun h => (nomatch h)⟩, fun _ _ h => absurd rfl h, fun p hp => ?_,
    fun _ _ _ _ h => (nomatch h), fun _ _ _ _ _ h => nomatch h⟩
  cases hp
  exact ⟨fun _ _ => ⟨rfl, rfl, fun h => nomatch h⟩, fun h => nomatch h⟩

/-- In every run in which waits and closes enter alone. -/
theorem waiters_share_process {actions : List Action} {s : System}
    (hrun : machine.exec .spawned actions = .ok s)
    (halong : machine.Along EntersAlone .spawned actions) :
    Shared s :=
  (Machine.exec_invariant_along (fun _ _ _ h henters hstep => h.step henters hstep)
    invariant_spawned halong hrun).shared

/-- A thread waits for a child that writes and ends, and then closes the process. -/
def oneWaiter : List Action :=
  [.wait 0, .write .stdout [104, 105], .exit (.exited 3), .hangUp .stdout, .hangUp .stderr,
    .poll 0 (fun | .stdout => [.chunk 2 true] | .stderr => []) false, .finish 0, .close 0]

theorem oneWaiter_shares : ∃ s, machine.exec .spawned oneWaiter = .ok s ∧
    (∃ returned, s.returned = [returned] ∧ returned.exitCode = 3 ∧ returned.output .stdout =
    [104, 105]) ∧
    Shared s := by
  have halong : machine.Along EntersAlone .spawned oneWaiter := by
    refine ⟨⟨rfl, fun _ => rfl⟩, trivial, trivial, trivial, trivial, trivial, trivial,
      fun thread => ?_, trivial⟩
    show Function.update (Function.update (Function.update (fun _ => none) 0 _) 0 _) 0 none
      thread = none
    rw [update_idem, update_idem, update_apply, ite_self]
  exact ⟨_, rfl, ⟨_, rfl, rfl, rfl⟩, waiters_share_process rfl halong⟩

/-! ## A second waiter -/

/-- Two threads wait for the same child, and the first of them reaps it. -/
def twoWaiters : List Action :=
  [.wait 0, .wait 1, .exit (.exited 3), .poll 0 (fun _ => []) false, .poll 1 (fun _ => []) false,
    .write .stdout [104, 105], .finish 0, .finish 1]

theorem twoWaiters_returned : ∃ s first second, machine.exec .spawned twoWaiters = .ok s ∧
    s.returned = [first, second] ∧ (s.pipes .stdout).written = [104, 105] ∧
    first.ok = true ∧ first.output .stdout = [] ∧ first.outputError = none ∧
    second.ok = false ∧ second.error = some ECHILD ∧ second.outputError = none :=
  ⟨_, _, _, rfl, rfl, rfl, rfl, rfl, rfl, rfl, rfl, rfl⟩

theorem second_waiter_fails : ¬ ∀ actions s, machine.exec .spawned actions = .ok s → Shared s := by
  intro h
  obtain ⟨s, first, second, hrun, hreturned, _, _, _, _, hfails, _, hnoError⟩ := twoWaiters_returned
  have hok := ((h _ s hrun).returned second (by simp [hreturned]) hnoError).1
  rw [hfails] at hok
  cases hok

end Cwhip.Runtime.ProcessWait
