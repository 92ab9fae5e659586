/-
  Cwhip.Gtk.DirectoryDelivery

  Directory scans keep to the protocol, in every run.

  What a scan has done leads to a view that fits its job, its worker and its
  dispatch (`Tracked`): the references of the job are those of its owner, its
  worker and its dispatch, and the registration is there until the job is closed
  and no callback runs.  One lemma for each operation on one scan; the operations
  of the owner thread leave the other scans alone.
-/

import Cwhip.Gtk.DirectoryProtocol

namespace Cwhip.Gtk

open Cwhip.Lib
open Function (update_eq_self update_of_ne update_self)

/-! ## One scan -/

/-- The entries of a batch that the callback was given and the position does not count yet. -/
def inDelivery : List Point → Nat
  | [.delivering count] => count
  | _ => 0

/-- Where the dispatch of a job is; it is dispatched once at a time. -/
def Placed (job : Job) (v : View) : List Point → Prop
  | [] => v.inFlight = false
  | [.preparing count] => v.inFlight = false ∧ v.ended = false ∧ 0 < count ∧ count ≤ 64 ∧
    job.position + count ≤ job.entries.length
  | [.delivering _] => v.inFlight = true ∧ v.ended = false
  | [.preparingEnd] => v.inFlight = false ∧ v.ended = false ∧ job.position = job.entries.length
  | [.deliveringEnd] => v.inFlight = true
  | _ => False

/-- What the worker has left to do. -/
def Worked (job : Job) (v : View) : Option Worker → Prop
  | none | some .leaving => v.scanned.isSome = true ∧ job.done = true
  | some .finishing => v.scanned.isSome = true ∧ job.done = false
  | _ => v.scanned = none ∧ v.found = job.entries ∧ job.done = false

/-- A job that is not freed; `extra` references are held besides, and `ending` if the end
    was delivered and the job is about to be closed. -/
structure Alive (extra : Nat) (ending : Bool) (job : Job) (worker : Option Worker)
    (points : List Point) (v : View) :
    Prop where
  notFreed : v.freed = false
  closed : v.closed = job.closed
  released : v.released = !job.context
  left : v.left = worker.isNone
  refs : job.refs = (!job.closed).toNat + worker.isSome.toNat + points.length + extra
  positive : 0 < job.refs
  active : job.active = v.inFlight.toNat
  context : job.context = (!job.closed || v.inFlight)
  worked : Worked job v worker
  placed : Placed job v points
  remaining : ∀ rest error, v.scanned = some (rest, error) →
    rest = job.entries.drop (job.position + inDelivery points) ∧ error = job.error
  untouched : job.done = false → points = [] ∧ job.position = 0
  ended : v.ended = true → ending = true ∨ job.closed = true ∨ points = [.deliveringEnd]

/-- The view of a scan. -/
inductive Tracked (extra : Nat) (ending : Bool) (scan : Scan) (points : List Point)
    (listed : Prop) : Prop where
  | alive (v : View) (job : Job) (job_eq : scan.job = some job)
    (accepts : View.initial.Accepts scan.events v)
    (alive : Alive extra ending job scan.worker points v) (listed_iff : listed ↔ job.closed = false)
    (source : scan.source = !job.closed)
  | gone (v : View) (job_eq : scan.job = none) (accepts : View.initial.Accepts scan.events v)
    (freed : v.freed = true)
    (noExtra : extra = 0) (worker : scan.worker = none) (points_eq : points = [])
      (unlisted : ¬ listed)
    (source : scan.source = false)

/-- A scan is dispatched at most once at a time. -/
theorem Placed.length_le {job : Job} {v : View} {points : List Point} (h : Placed job v points) :
    points.length ≤ 1 := by
  match points with
  | [] => exact Nat.zero_le _
  | [_] => exact Nat.le_refl _
  | first :: second :: rest => cases first <;> exact h.elim

/-- Giving a reference back keeps the scan tracked; the last one frees the job. -/
theorem unref_spec (scan : Scan) (job : Job) (v : View) {extra : Nat} {ending : Bool}
    {points : List Point}
    {listed : Prop} (hjob : scan.job = some job) (haccepts : View.initial.Accepts scan.events v)
    (halive : Alive (extra + 1) ending job scan.worker points v)
    (hlisted : listed ↔ job.closed = false)
    (hsource : scan.source = !job.closed) :
    ∃ scan', scan.unref = .ok scan' ∧ scan'.worker = scan.worker ∧
    Tracked extra ending scan' points listed := by
  rw [Scan.unref, hjob, require_bind]
  have hrefs := halive.refs
  by_cases hlast : job.refs = 1
  · -- nobody else holds the job
    have hclosed : job.closed = true := by
      cases hclosed : job.closed with
      | true => rfl
      | false => simp [hclosed] at hrefs; omega
    have hworker : scan.worker = none := by
      cases hworker : scan.worker with
      | none => rfl
      | some worker => simp [hworker] at hrefs; omega
    have hpoints : points = [] := List.eq_nil_of_length_eq_zero (by omega)
    have hidle : v.inFlight = false := by
      have hplaced := halive.placed
      rw [hpoints] at hplaced
      exact hplaced
    have hreleased : v.released = true := by
      rw [halive.released, halive.context, hclosed, hidle]
      rfl
    have hleft : v.left = true := by
      rw [halive.left, hworker]
      rfl
    have hstep : v.step .freed = some { v with freed := true } := by
      simp [View.step, halive.closed, hclosed, hleft, hreleased, halive.notFreed]
    refine ⟨{ scan with job := none }.record .freed, if_pos hlast, rfl, ?_⟩
    exact .gone _ rfl (haccepts.append hstep) rfl (by omega) hworker hpoints
      (fun h => by rw [hlisted, hclosed] at h; cases h) (by rw [Scan.record, hsource, hclosed]; rfl)
  · refine ⟨scan.setJob { job with refs := job.refs - 1 }, if_neg hlast, rfl, ?_⟩
    refine .alive v { job with refs := job.refs - 1 } rfl haccepts ?_ hlisted hsource
    have hrefs' : job.refs - 1 = (!job.closed).toNat + scan.worker.isSome.toNat + points.length +
      extra := by omega
    have hpositive : 0 < job.refs - 1 := by
      have := halive.positive
      omega
    exact { halive with refs := hrefs', positive := hpositive }

/-- The callback's context is released, unless a callback is running. -/
theorem release_spec (scan : Scan) (job : Job) (v : View) (hjob : scan.job = some job)
    (haccepts : View.initial.Accepts scan.events v) (hnotFreed : v.freed = false)
    (hclosed : v.closed = true)
    (hreleased : v.released = false) (hcontext : job.context = true)
    (hactive : job.active = v.inFlight.toNat) :
    ∃ events, scan.release =
    .ok { scan with job := some { job with context := v.inFlight }, events } ∧
      View.initial.Accepts events { v with released := !v.inFlight } := by
  rw [Scan.release, hjob, require_bind]
  by_cases hflight : v.inFlight = true
  · -- the callback is running
    have hv : { v with released := !v.inFlight } = v := by
      cases v
      simp_all
    refine ⟨scan.events, ?_, hv ▸ haccepts⟩
    rw [hflight] at hactive
    rw [if_pos (by simp [hactive]), hflight, ← hcontext, ← hjob]
    rfl
  · have hidle : v.inFlight = false := by simpa using hflight
    have hstep : v.step .contextReleased = some { v with released := !v.inFlight } := by
      simp [View.step, hclosed, hidle, hreleased, hnotFreed]
    refine ⟨_, ?_, haccepts.append hstep⟩
    rw [hidle] at hactive
    rw [if_neg (by simp [hactive, hcontext]), hidle]
    rfl

/-- Closing cancels the worker and takes the scan off the list. -/
theorem close_spec {scan : Scan} {job : Job} {v : View} {extra : Nat} {ending : Bool}
    {points : List Point}
    (hjob : scan.job = some job) (haccepts : View.initial.Accepts scan.events v)
    (halive : Alive extra ending job scan.worker points v) (hopen : job.closed = false) :
    ∃ scan', scan.close = .ok scan' ∧ Tracked extra false scan' points False := by
  have hstep : v.step .closed = some { v with closed := true } := by
    simp [View.step, halive.closed, hopen, halive.notFreed]
  have hcontext : job.context = true := by
    rw [halive.context, hopen]
    rfl
  obtain ⟨events, hrelease, hevents⟩ := release_spec
    (({ scan with source := false }.setJob
      { job with closed := true, cancelled := true }).record .closed)
    { job with closed := true, cancelled := true } { v with closed := true } rfl
      (haccepts.append hstep)
    halive.notFreed rfl (by rw [halive.released, hcontext]; rfl) hcontext halive.active
  have halive' : Alive (extra + 1) false { job with closed := true, cancelled := true, context :=
    v.inFlight }
      scan.worker points { v with closed := true, released := !v.inFlight } := by
    refine ⟨halive.notFreed, rfl, rfl, halive.left, ?_, halive.positive, halive.active, rfl,
      halive.worked, halive.placed,
      halive.remaining, halive.untouched, fun _ => .inr (.inl rfl)⟩
    have hrefs := halive.refs
    rw [hopen] at hrefs
    show job.refs = 0 + scan.worker.isSome.toNat + points.length + (extra + 1)
    simp at hrefs
    omega
  obtain ⟨scan', hunref, _, htracked⟩ := unref_spec
    { scan with
      source := false, job := some { job with closed := true, cancelled := true, context :=
        v.inFlight }, events }
    _ _ rfl hevents halive' (show False ↔ true = false by simp) rfl
  exact ⟨scan', bind_eq_ok.mpr ⟨job, require_eq_ok.mpr hjob, bind_eq_ok.mpr ⟨_, hrelease, hunref⟩⟩,
    htracked⟩

/-- A callback that returns ends the delivery it was called for. -/
theorem endDelivery_spec {scan : Scan} {job : Job} {v : View} {point : Point}
    (hjob : scan.job = some job)
    (haccepts : View.initial.Accepts scan.events v)
    (halive : Alive 0 false job scan.worker [point] v)
    (hflight : v.inFlight = true) :
    ∃ events, System.endDelivery scan =
        .ok { scan with
          job := some { job with active := job.active - 1, context := !job.closed }, events } ∧
      View.initial.Accepts events { v with inFlight := false, released := job.closed } := by
  have hstep : v.step .returned = some { v with inFlight := false } := by
    simp [View.step, hflight, halive.notFreed]
  have hactive : job.active - 1 = 0 := by
    rw [halive.active, hflight]
    rfl
  have hcontext : job.context = true := by
    rw [halive.context, hflight, Bool.or_true]
  have hreleased : v.released = false := by
    rw [halive.released, hcontext]
    rfl
  rw [System.endDelivery, hjob, require_bind]
  by_cases hclosed : job.closed = true
  · obtain ⟨events, hrelease, hevents⟩ := release_spec
      ((scan.setJob { job with active := job.active - 1 }).record .returned)
        { job with active := job.active - 1 }
      { v with inFlight := false } rfl (haccepts.append hstep) halive.notFreed
        (halive.closed.trans hclosed) hreleased
      hcontext hactive
    refine ⟨events, ?_, ?_⟩
    · rw [if_pos hclosed, hrelease, hclosed]
      rfl
    · rw [hclosed]
      exact hevents
  · have hopen : job.closed = false := by simpa using hclosed
    have hevents : View.initial.Accepts (scan.events ++ [.returned])
        { v with inFlight := false, released := job.closed } := by
      rw [hopen.trans hreleased.symm]
      exact haccepts.append hstep
    refine ⟨scan.events ++ [.returned], ?_, hevents⟩
    dsimp only
    rw [if_neg hclosed, hopen, Bool.not_false, ← hcontext]
    rfl

theorem Alive.returned {job : Job} {worker : Option Worker} {point : Point} {v : View}
    (h : Alive 0 false job worker [point] v) (hflight : v.inFlight = true) :
    Alive 1 (decide (point = .deliveringEnd)) { job with
        active := job.active - 1, context := !job.closed, position :=
        job.position + inDelivery [point] }
      worker [] { v with inFlight := false, released := job.closed } := by
  have hdone : job.done = true := by
    by_contra hnot
    exact absurd (h.untouched (by simpa using hnot)).1 (List.cons_ne_nil _ _)
  refine ⟨h.notFreed, h.closed, (Bool.not_not _).symm, h.left, h.refs, h.positive, ?_,
    (Bool.or_false _).symm, ?_, rfl,
    h.remaining,
    fun hnot => absurd (hdone.symm.trans hnot) Bool.true_eq_false.mp, fun hended => ?_⟩
  · show job.active - 1 = 0
    rw [h.active, hflight]
    rfl
  · have hworked := h.worked
    match worker with
    | none | some .leaving | some .finishing => exact hworked
    | some .opening | some .enumerating | some (.closing _) | some (.settling _) => exact hworked
  · rcases h.ended hended with hfalse | hclosed | hpoint
    · cases hfalse
    · exact .inr (.inl hclosed)
    · exact .inl (decide_eq_true (List.singleton_inj.mp hpoint))

/-! ## The worker -/

theorem Alive.setWorker {extra : Nat} {ending : Bool} {job : Job} {worker worker' : Worker}
    {points : List Point}
    {v : View} (h : Alive extra ending job (some worker) points v)
    (hworked : Worked job v (some worker')) :
    Alive extra ending job (some worker') points v :=
  { h with left := h.left, refs := h.refs, worked := hworked }

theorem Placed.congr {job job' : Job} {v v' : View} {points : List Point} (h : Placed job v points)
    (hflight : v'.inFlight = v.inFlight) (hended : v'.ended = v.ended)
    (hposition : job'.position = job.position)
    (hentries : job'.entries = job.entries) : Placed job' v' points := by
  unfold Placed at h ⊢
  rw [hflight, hended, hposition, hentries]
  exact h

theorem tracked_found {scan : Scan} {job : Job} {v : View} {points : List Point} {listed : Prop}
    (haccepts : View.initial.Accepts scan.events v)
    (halive : Alive 0 false job scan.worker points v)
    (hworker : scan.worker = some .enumerating)
    (hlisted : listed ↔ job.closed = false) (hsource : scan.source = !job.closed) (entry : Entry) :
    Tracked 0 false ((scan.setJob { job with entries := job.entries ++ [entry] }).record
      (.found entry)) points listed := by
  obtain ⟨hscanned, hfound, hdone⟩ : Worked job v (some .enumerating) := hworker ▸ halive.worked
  obtain ⟨rfl, hposition⟩ := halive.untouched hdone
  have hstep : v.step (.found entry) = some { v with found := v.found ++ [entry] } := by
    simp [View.step, hscanned, halive.notFreed]
  refine .alive { v with found := v.found ++ [entry] } _ rfl (haccepts.append hstep) ?_
    hlisted hsource
  refine { halive with worked := ?_, placed := halive.placed, remaining := fun rest error hsome =>
    ?_ }
  · show Worked _ _ scan.worker
    rw [hworker]
    exact ⟨hscanned, congrArg (· ++ [entry]) hfound, hdone⟩
  · rw [show v.scanned = some (rest, error) from hsome] at hscanned
    cases hscanned

theorem tracked_settled {scan : Scan} {job : Job} {v : View} {points : List Point} {listed : Prop}
    {error : Option String} (haccepts : View.initial.Accepts scan.events v)
    (halive : Alive 0 false job scan.worker points v)
    (hworker : scan.worker = some (.settling error))
    (hlisted : listed ↔ job.closed = false) (hsource : scan.source = !job.closed) :
    Tracked 0 false (((scan.setJob { job with
        entries := if error.isSome then [] else sortEntries job.entries, error }).setWorker
          (some .finishing)).record (.settled error)) points listed := by
  obtain ⟨hscanned, hfound, hdone⟩ : Worked job v (some (.settling error)) :=
    hworker ▸ halive.worked
  obtain ⟨rfl, hposition⟩ := halive.untouched hdone
  have hstep : v.step (.settled error) =
      some { v with scanned := some (if error.isSome then [] else sortEntries job.entries,
          error) } := by
    simp [View.step, hscanned, halive.notFreed, hfound]
  refine .alive { v with scanned := some (if error.isSome then [] else sortEntries job.entries,
    error) } _ rfl (haccepts.append hstep) ?_ hlisted hsource
  refine { halive with
    left := ?_, refs := ?_, worked := ⟨rfl, hdone⟩, placed := halive.placed
    remaining := fun rest found hsome => ?_ }
  · exact halive.left.trans (by rw [hworker]; rfl)
  · exact halive.refs.trans (by rw [hworker]; rfl)
  · -- nothing is delivered yet
    obtain ⟨rfl, rfl⟩ := Prod.mk.inj (Option.some.inj hsome)
    refine ⟨?_, rfl⟩
    show _ = List.drop (job.position + 0) _
    rw [hposition, List.drop_zero]

/-- A step of the worker keeps its scan tracked, or is none the worker can take. -/
theorem workerStep_spec (glib : GLib) {scan : Scan} {job : Job} {v : View} {points : List Point}
    {listed : Prop} (hjob : scan.job = some job) (haccepts : View.initial.Accepts scan.events v)
    (halive : Alive 0 false job scan.worker points v) (hlisted : listed ↔ job.closed = false)
    (hsource : scan.source = !job.closed) (answer : Scan.Answer) :
    (∃ scan', scan.workerStep glib answer = .ok scan' ∧ Tracked 0 false scan' points listed) ∨
      scan.workerStep glib answer = .error .refused := by
  unfold Scan.workerStep
  cases hworker : scan.worker with
  | none => exact .inr rfl
  | some worker =>
    left
    rw [hworker] at halive
    have hgoes : ∀ worker', Worked job v (some worker') →
        Tracked 0 false (scan.setWorker (some worker')) points listed := fun worker' hworked =>
      .alive v job hjob haccepts (halive.setWorker hworked) hlisted hsource
    rw [require_bind, hjob, require_bind]
    cases worker with
    | opening =>
      cases answer with
      | failed message | done | child info => exact ⟨_, rfl, hgoes _ halive.worked⟩
    | enumerating =>
      dsimp only
      split
      · exact ⟨_, rfl, hgoes _ halive.worked⟩
      · cases answer with
        | failed message | done => exact ⟨_, rfl, hgoes _ halive.worked⟩
        | child info =>
          dsimp only
          split
          · exact ⟨_, rfl, .alive v job hjob haccepts (hworker ▸ halive) hlisted hsource⟩
          · next entry _ =>
            exact ⟨_, rfl, tracked_found haccepts (hworker ▸ halive) hworker hlisted hsource entry⟩
          · exact ⟨_, rfl, hgoes _ halive.worked⟩
    | closing error =>
      cases answer with
      | failed message | done | child info => exact ⟨_, rfl, hgoes _ halive.worked⟩
    | settling error =>
      exact ⟨_, rfl, tracked_settled haccepts (hworker ▸ halive) hworker hlisted hsource⟩
    | finishing =>
      obtain ⟨hscanned, hdone⟩ := halive.worked
      obtain ⟨hpoints, _⟩ := halive.untouched hdone
      refine ⟨_, rfl, .alive v { job with done := true } rfl haccepts ?_ hlisted hsource⟩
      exact { halive with
        left := halive.left, refs := halive.refs, worked := ⟨hscanned, rfl⟩, untouched :=
          fun h => nomatch h
        placed := by rw [hpoints]; exact hpoints ▸ halive.placed }
    | leaving =>
      obtain ⟨hscanned, hdone⟩ := halive.worked
      have hstep : v.step .workerLeft = some { v with left := true } := by
        simp [View.step, hscanned, halive.left, halive.notFreed]
      have halive' : Alive 1 false job none points { v with left := true } := by
        refine ⟨halive.notFreed, halive.closed, halive.released, rfl, ?_, halive.positive,
          halive.active,
          halive.context, ⟨hscanned, hdone⟩, ?_, halive.remaining, halive.untouched, halive.ended⟩
        · have hrefs := halive.refs
          simp only [Option.isSome_some, Option.isSome_none, Bool.toNat_true, Bool.toNat_false]
            at hrefs ⊢
          omega
        · exact halive.placed.congr rfl rfl rfl rfl
      obtain ⟨scan', hunref, _, htracked⟩ :=
        unref_spec ((scan.setWorker none).record .workerLeft) job
        { v with left := true } hjob (haccepts.append hstep) halive' hlisted hsource
      exact ⟨scan', hunref, htracked⟩

/-! ## The calls of a callback -/

theorem Alive.done_of_dispatched {extra : Nat} {ending : Bool} {job : Job} {worker : Option Worker}
    {point : Point} {v : View} (h : Alive extra ending job worker [point] v) : job.done = true := by
  by_contra hnot
  exact absurd (h.untouched (by simpa using hnot)).1 (List.cons_ne_nil _ _)

theorem Alive.scanned {extra : Nat} {ending : Bool} {job : Job} {worker : Option Worker}
    {points : List Point}
    {v : View} (h : Alive extra ending job worker points v) (hdone : job.done = true) :
    v.scanned = some (job.entries.drop (job.position + inDelivery points), job.error) := by
  have hscanned : v.scanned.isSome = true := by
    have hworked := h.worked
    match worker with
    | none | some .leaving => exact hworked.1
    | some .finishing => exact absurd (hdone.symm.trans hworked.2) Bool.true_eq_false.mp
    | some .opening | some .enumerating | some (.closing _) | some (.settling _) =>
      exact absurd (hdone.symm.trans hworked.2.2) Bool.true_eq_false.mp
  obtain ⟨⟨rest, error⟩, hsome⟩ := Option.isSome_iff_exists.mp hscanned
  obtain ⟨rfl, rfl⟩ := h.remaining rest error hsome
  exact hsome

theorem Worked.congr {job job' : Job} {v v' : View} {worker : Option Worker}
    (h : Worked job v worker)
    (hdone : job.done = true) (hdone' : job'.done = true) (hscanned : v.scanned.isSome = true →
    v'.scanned.isSome = true) :
    Worked job' v' worker := by
  match worker with
  | none | some .leaving => exact ⟨hscanned h.1, hdone'⟩
  | some .finishing => exact absurd (hdone.symm.trans h.2) Bool.true_eq_false.mp
  | some .opening | some .enumerating | some (.closing _) | some (.settling _) =>
    exact absurd (hdone.symm.trans h.2.2) Bool.true_eq_false.mp

theorem Alive.open_of_context {extra : Nat} {ending : Bool} {job : Job} {worker : Option Worker}
    {points : List Point}
    {v : View} (h : Alive extra ending job worker points v) (hcontext : job.context = true)
    (hidle : v.inFlight = false) : job.closed = false := by
  rw [h.context, hidle, Bool.or_false] at hcontext
  simpa using hcontext

/-- A batch is the next part of the entries, in their order. -/
theorem batch_spec {scan : Scan} {job : Job} {v : View} {count : Nat}
    (haccepts : View.initial.Accepts scan.events v)
    (halive : Alive 0 false job scan.worker [.preparing count] v)
    (hcontext : job.context = true) :
    ∃ v', View.initial.Accepts (scan.events ++
    [.batch ((job.entries.drop job.position).take count)]) v' ∧
      Alive 0 false { job with active := job.active + 1 } scan.worker [.delivering count] v' := by
  obtain ⟨hidle, hended, hpos, hcount, hfits⟩ := halive.placed
  have hdone := halive.done_of_dispatched
  have hscanned : v.scanned = some (job.entries.drop job.position, job.error) :=
    halive.scanned hdone
  have hopen := halive.open_of_context hcontext hidle
  have hlength : ((job.entries.drop job.position).take count).length = count := by
    rw [List.length_take, List.length_drop]
    omega
  have hne : (job.entries.drop job.position).take count ≠ [] := by
    rw [ne_eq, ← List.length_eq_zero_iff, hlength]
    omega
  have hready : v.ready = true := by
    simp [View.ready, halive.closed, hopen, hended, hidle, halive.notFreed]
  have hstep : v.step (.batch ((job.entries.drop job.position).take count)) =
      some { v with scanned := some (job.entries.drop (job.position + count),
          job.error), inFlight := true } := by
    rw [View.step, hscanned]
    dsimp only
    rw [if_pos ⟨hready, hne, by omega, List.take_prefix _ _⟩, hlength, List.drop_drop]
  refine ⟨_, haccepts.append hstep, ?_⟩
  refine { halive with
    active := ?_, context := ?_, worked := halive.worked.congr hdone hdone fun _ => rfl, placed :=
      ⟨rfl, hended⟩
    remaining := fun rest error hsome => ?_, untouched := fun hnot =>
      absurd (hdone.symm.trans hnot) Bool.true_eq_false.mp
    ended := fun h => absurd (hended.symm.trans h) Bool.false_eq_true.mp }
  · show job.active + 1 = 1
    rw [halive.active, hidle]
    rfl
  · show job.context = (!job.closed || true)
    rw [hcontext, Bool.or_true]
  · obtain ⟨rfl, rfl⟩ := Prod.mk.inj (Option.some.inj hsome)
    exact ⟨rfl, rfl⟩

/-- The terminal call comes after every entry was delivered. -/
theorem terminal_spec {scan : Scan} {job : Job}
    {v : View} (haccepts : View.initial.Accepts scan.events v)
    (halive : Alive 0 false job scan.worker [.preparingEnd] v) (hcontext : job.context = true) :
    ∃ v', View.initial.Accepts (scan.events ++ [.terminal (job.error.getD "")]) v' ∧
      Alive 0 false { job with active := job.active + 1 } scan.worker [.deliveringEnd] v' := by
  obtain ⟨hidle, hended, hposition⟩ := halive.placed
  have hdone := halive.done_of_dispatched
  have hscanned : v.scanned = some ([], job.error) := by
    have hrest := halive.scanned hdone
    rw [hposition] at hrest
    simpa [inDelivery] using hrest
  have hopen := halive.open_of_context hcontext hidle
  have hready : v.ready = true := by
    simp [View.ready, halive.closed, hopen, hended, hidle, halive.notFreed]
  have hstep : v.step (.terminal (job.error.getD "")) =
      some { v with inFlight := true, ended := true } := by
    rw [View.step, hscanned]
    exact if_pos ⟨hready, rfl, rfl⟩
  refine ⟨_, haccepts.append hstep, ?_⟩
  refine { halive with
    active := ?_, context := ?_, worked := halive.worked.congr hdone hdone id, placed := rfl
    remaining := halive.remaining, untouched := fun hnot =>
      absurd (hdone.symm.trans hnot) Bool.true_eq_false.mp
    ended := fun _ => .inr (.inr rfl) }
  · show job.active + 1 = 1
    rw [halive.active, hidle]
    rfl
  · show job.context = (!job.closed || true)
    rw [hcontext, Bool.or_true]

/-! ## All scans -/

/-- The dispatch of a job, on the stack of the owner thread. -/
def pointsIn (stack : List Frame) (token : Nat) : List Point :=
  (stack.filter (·.job == token)).map Frame.point

theorem pointsIn_cons_self (token : Nat) (point : Point) (stack : List Frame) :
    pointsIn (⟨token, point⟩ :: stack) token = point :: pointsIn stack token := by
  simp [pointsIn]

theorem pointsIn_cons_of_ne {frame : Frame} {token : Nat} (h : token ≠ frame.job)
    (stack : List Frame) :
    pointsIn (frame :: stack) token = pointsIn stack token := by
  simp [pointsIn, h.symm]

/-- The scans, the list and the stack fit; references are held by the owner thread
    besides, and ends that were delivered are about to close their job. -/
structure Invariant (extra : Nat → Nat) (ending : Nat → Bool) (s : System) : Prop where
  tracked : ∀ token scan, s.scans token = some scan →
    Tracked (extra token) (ending token) scan (pointsIn s.stack token) (token ∈ s.directoryJobs)
  known : ∀ token, token ∈ s.directoryJobs ∨ pointsIn s.stack token ≠ [] →
    (s.scans token).isSome = true
  nodup : s.directoryJobs.Nodup
  fresh : ∀ token, (s.scans token).isSome = true → token ≤ s.lastToken

/-- A step of one scan keeps the invariant of all others. -/
theorem Invariant.update {extra extra' : Nat → Nat} {ending ending' : Nat → Bool} {s s' : System}
    {token : Nat}
    {scan' : Scan} (h : Invariant extra ending s)
    (hscans : s'.scans = Function.update s.scans token (some scan'))
    (htracked : Tracked (extra' token) (ending' token) scan' (pointsIn s'.stack token)
    (token ∈ s'.directoryJobs))
    (hstack : ∀ other, other ≠ token → pointsIn s'.stack other = pointsIn s.stack other)
    (hlisted : ∀ other, other ≠ token → (other ∈ s'.directoryJobs ↔ other ∈ s.directoryJobs))
    (hextra : ∀ other, other ≠ token → extra' other = extra other)
    (hending : ∀ other, other ≠ token → ending' other = ending other)
    (hnodup : s'.directoryJobs.Nodup)
    (hlast : s.lastToken ≤ s'.lastToken) (htoken : token ≤ s'.lastToken) :
    Invariant extra' ending' s' where
  tracked := by
    intro other scan hother
    rw [hscans] at hother
    by_cases heq : other = token
    · subst heq
      rw [update_self] at hother
      cases hother
      exact htracked
    · rw [update_of_ne heq] at hother
      rw [hextra other heq, hending other heq, hstack other heq, propext (hlisted other heq)]
      exact h.tracked other scan hother
  known := by
    intro other hother
    rw [hscans]
    by_cases heq : other = token
    · rw [heq, update_self]
      rfl
    · rw [update_of_ne heq]
      rw [hstack other heq, hlisted other heq] at hother
      exact h.known other hother
  nodup := hnodup
  fresh := by
    intro other hother
    rw [hscans] at hother
    by_cases heq : other = token
    · exact heq ▸ htoken
    · rw [update_of_ne heq] at hother
      exact Nat.le_trans (h.fresh other hother) hlast

theorem jobOf_eq {s : System} {token : Nat} {scan : Scan} {job : Job}
    (hscan : s.scans token = some scan)
    (hjob : scan.job = some job) : s.jobOf token = .ok job := by
  rw [System.jobOf, System.scanOf, hscan, require_bind, hjob]
  rfl

theorem Invariant.listed {extra : Nat → Nat} {ending : Nat → Bool} {s : System}
    (h : Invariant extra ending s)
    {token : Nat} (hlisted : token ∈ s.directoryJobs) :
    ∃ scan job, s.scans token = some scan ∧ scan.job = some job ∧ job.closed = false := by
  obtain ⟨scan, hscan⟩ := Option.isSome_iff_exists.mp (h.known token (.inl hlisted))
  cases h.tracked token scan hscan with
  | alive v job hjob haccepts halive hiff hsource => exact ⟨scan, job, hscan, hjob, hiff.mp hlisted⟩
  | gone v hjob haccepts hfreed hextra hworker hpoints hunlisted hsource =>
    exact absurd hlisted hunlisted

/-- An open scan is on the list, where closing finds it. -/
theorem Invariant.unlinkFrom {extra : Nat → Nat} {ending : Nat → Bool} {s : System}
    (h : Invariant extra ending s)
    {token : Nat} {tokens : List Nat} (hin : token ∈ tokens)
    (hsub : ∀ other ∈ tokens, other ∈ s.directoryJobs) :
    s.unlinkFrom token tokens = .ok (tokens.erase token) := by
  induction tokens with
  | nil => cases hin
  | cons other rest ih =>
    unfold System.unlinkFrom
    by_cases heq : other = token
    · rw [if_pos heq, heq, List.erase_cons_head]
    · -- the link of the other job is read
      obtain ⟨scan, job, hscan, hjob, _⟩ := h.listed (hsub other List.mem_cons_self)
      rw [if_neg heq, jobOf_eq hscan hjob]
      have hrest := ih ((List.mem_cons.mp hin).resolve_left (Ne.symm heq)) fun other hother =>
        hsub other (List.mem_cons_of_mem _ hother)
      rw [List.erase_cons_tail (by simpa using heq)]
      show (System.unlinkFrom s token rest >>= fun list => pure (other :: list)) = _
      rw [hrest]
      rfl

/-- Closing a scan keeps the invariant, whoever holds a reference. -/
theorem Invariant.directoryClose {extra : Nat → Nat} {ending : Nat → Bool} {s : System}
    (h : Invariant extra ending s) {token : Nat} {scan : Scan} {job : Job}
    (hscan : s.scans token = some scan)
    (hjob : scan.job = some job) :
    ∃ s', s.directoryClose token = .ok s' ∧
      Invariant extra (Function.update ending token false) s' ∧
      (s'.scans token).isSome = true ∧ s'.directoryJobs = s.directoryJobs.erase token := by
  have htoken : token ≤ s.lastToken := h.fresh token (by rw [hscan]; rfl)
  have htracked := h.tracked token scan hscan
  rw [System.directoryClose, System.scanOf, hscan, require_bind, hjob, require_bind]
  cases htracked with
  | gone v hnone => exact absurd (hjob.symm.trans hnone) nofun
  | alive v job' hjob' haccepts halive hlisted hsource =>
    obtain rfl : job = job' := Option.some.inj (hjob.symm.trans hjob')
    by_cases hclosed : job.closed = true
    · -- it is closed already
      have hnot : token ∉ s.directoryJobs := fun hin => by
        rw [hlisted, hclosed] at hin
        cases hin
      refine ⟨s, if_pos hclosed, ?_, by rw [hscan]; rfl, (List.erase_of_not_mem hnot).symm⟩
      refine h.update (Function.update_eq_self_iff.mpr hscan.symm).symm ?_ (fun _ _ => rfl)
        (fun _ _ => Iff.rfl)
        (fun _ _ => rfl) (fun _ hne => update_of_ne hne _ _) h.nodup (Nat.le_refl _) htoken
      rw [update_self]
      exact .alive v job hjob haccepts { halive with ended := fun _ => .inr (.inl hclosed) }
        hlisted hsource
    · have hopen : job.closed = false := by simpa using hclosed
      have hin : token ∈ s.directoryJobs := hlisted.mpr hopen
      obtain ⟨scan', hclose, htracked'⟩ := close_spec hjob haccepts halive hopen
      refine ⟨{ s with directoryJobs := s.directoryJobs.erase token }.setScan token scan',
        ?_, ?_, ?_, rfl⟩
      · rw [if_neg hclosed, h.unlinkFrom hin fun _ hother => hother]
        show (scan.close >>= fun scan => pure _) = _
        rw [hclose]
        rfl
      · refine h.update rfl ?_ (fun _ _ => rfl) (fun other hne => List.mem_erase_of_ne hne)
          (fun _ _ => rfl)
          (fun _ hne => update_of_ne hne _ _) (h.nodup.erase token) (Nat.le_refl _) htoken
        rw [update_self]
        have hnot : (token ∈ s.directoryJobs.erase token) = False :=
          eq_false fun hin => (h.nodup.mem_erase_iff.mp hin).1 rfl
        show Tracked _ _ _ _ (token ∈ s.directoryJobs.erase token)
        rw [hnot]
        exact htracked'
      · exact congrArg Option.isSome (update_self token _ s.scans)

/-! ## The actions -/

/-- Between two steps nothing is held besides. -/
abbrev Settled (s : System) : Prop := Invariant (fun _ => 0) (fun _ => false) s

theorem Settled.directoryClose {s : System} (h : Settled s) {token : Nat}
    (hin : token ∈ s.directoryJobs) :
    ∃ s', s.directoryClose token = .ok s' ∧ Settled s' ∧
    s'.directoryJobs = s.directoryJobs.erase token := by
  obtain ⟨scan, job, hscan, hjob, _⟩ := Invariant.listed h hin
  obtain ⟨s', hclose, hinv, _, hlist⟩ := Invariant.directoryClose h hscan hjob
  rw [update_eq_self] at hinv
  exact ⟨s', hclose, hinv, hlist⟩

theorem Settled.cancel {s : System} (h : Settled s) (token : Nat) {tokens : List Nat}
    (hsub : ∀ other ∈ tokens, other ∈ s.directoryJobs) :
    ∃ s', s.cancelFrom token tokens = .ok s' ∧ Settled s' := by
  induction tokens with
  | nil => exact ⟨s, rfl, h⟩
  | cons other rest ih =>
    unfold System.cancelFrom
    obtain ⟨scan, job, hscan, hjob, _⟩ := Invariant.listed h (hsub other List.mem_cons_self)
    rw [jobOf_eq hscan hjob]
    by_cases heq : other = token
    · obtain ⟨s', hclose, hinv, _⟩ := h.directoryClose (hsub other List.mem_cons_self)
      exact ⟨s', (if_pos heq).trans hclose, hinv⟩
    · obtain ⟨s', hrest, hinv⟩ := ih fun other hother => hsub other (List.mem_cons_of_mem _ hother)
      exact ⟨s', (if_neg heq).trans hrest, hinv⟩

/-- Cancelling all scans of an owner closes each of them once. -/
theorem Settled.cancelOwner {s : System} (h : Settled s) (owner : Option Nat) {tokens : List Nat}
    (hsub : ∀ other ∈ tokens, other ∈ s.directoryJobs) (hnodup : tokens.Nodup) :
    ∃ s', System.cancelOwnerFrom owner tokens s = .ok s' ∧ Settled s' := by
  induction tokens generalizing s with
  | nil => exact ⟨s, rfl, h⟩
  | cons token rest ih =>
    obtain ⟨hnotin, hrest⟩ := List.nodup_cons.mp hnodup
    obtain ⟨scan, job, hscan, hjob, _⟩ := Invariant.listed h (hsub token List.mem_cons_self)
    unfold System.cancelOwnerFrom
    rw [jobOf_eq hscan hjob]
    by_cases howner : owner.all (· == job.owner) = true
    · obtain ⟨s₁, hclose, hinv, hlist⟩ := h.directoryClose (hsub token List.mem_cons_self)
      -- the jobs that follow are still on the list
      have hsub₁ : ∀ other ∈ rest, other ∈ s₁.directoryJobs := by
        intro other hother
        have hne : other ≠ token := by
          rintro rfl
          exact hnotin hother
        rw [hlist]
        exact (List.mem_erase_of_ne hne).mpr (hsub other (List.mem_cons_of_mem _ hother))
      obtain ⟨s', hloop, hinv'⟩ := ih hinv hsub₁ hrest
      refine ⟨s', ?_, hinv'⟩
      show ((if owner.all (· == job.owner) then s.directoryClose token else .ok s) >>= _) = _
      rw [if_pos howner, hclose]
      exact hloop
    · obtain ⟨s', hloop, hinv'⟩ :=
        ih h (fun other hother => hsub other (List.mem_cons_of_mem _ hother)) hrest
      refine ⟨s', ?_, hinv'⟩
      show ((if owner.all (· == job.owner) then s.directoryClose token else .ok s) >>= _) = _
      rw [if_neg howner]
      exact hloop

theorem Settled.start {s : System} (h : Settled s) (owner : Nat) (path : List UInt8) (hidden : Bool)
    (root excludes : Option (List UInt8)) :
    Settled (s.directoryStart owner path hidden root excludes) := by
  have hfresh : s.scans (s.lastToken + 1) = none := by
    by_contra hsome
    exact absurd (h.fresh _ (Option.isSome_iff_ne_none.mpr hsome)) (Nat.not_succ_le_self _)
  have hunknown : s.lastToken + 1 ∉ s.directoryJobs ∧ pointsIn s.stack (s.lastToken + 1) = [] := by
    constructor
    · intro hin
      have hsome := h.known _ (.inl hin)
      rw [hfresh] at hsome
      cases hsome
    · by_contra hne
      have hsome := h.known _ (.inr hne)
      rw [hfresh] at hsome
      cases hsome
  refine h.update rfl ?_ (fun _ _ => rfl) (fun other hne => ⟨fun hin => ?_, List.mem_cons_of_mem _⟩)
    (fun _ _ => rfl)
    (fun _ _ => rfl) (List.nodup_cons.mpr ⟨hunknown.1, h.nodup⟩) (Nat.le_succ _) (Nat.le_refl _)
  · refine .alive .initial _ rfl (View.Accepts.nil _) ?_ ⟨fun _ => rfl, fun _ =>
      List.mem_cons_self⟩ rfl
    show Alive _ _ _ _ (pointsIn s.stack (s.lastToken + 1)) _
    rw [hunknown.2]
    exact ⟨rfl, rfl, rfl, rfl, rfl, Nat.zero_lt_two, rfl, rfl, ⟨rfl, rfl, rfl⟩, rfl,
      fun _ _ h => (nomatch h),
      fun _ => ⟨rfl, rfl⟩, fun h => (nomatch h)⟩
  · exact (List.mem_cons.mp hin).resolve_left hne

theorem Settled.worker {s : System} (h : Settled s) (glib : GLib) (token : Nat)
    (answer : Scan.Answer) :
    (∃ s', s.step glib (.worker token answer) = .ok s' ∧ Settled s') ∨
      s.step glib (.worker token answer) = .error .refused := by
  rw [System.step]
  cases hscan : s.scans token with
  | none => exact .inr rfl
  | some scan =>
    rw [require_bind]
    cases h.tracked token scan hscan with
    | gone v hjob haccepts hfreed hextra hworker hpoints hunlisted hsource =>
      -- the worker has ended
      right
      unfold Scan.workerStep
      rw [hworker]
      rfl
    | alive v job hjob haccepts halive hlisted hsource =>
      rcases workerStep_spec glib hjob haccepts halive hlisted hsource answer with
        ⟨scan', hstep, htracked⟩ | hrefused
      · left
        refine ⟨s.setScan token scan', ?_, ?_⟩
        · rw [hstep]
          rfl
        · exact h.update rfl htracked (fun _ _ => rfl) (fun _ _ => Iff.rfl) (fun _ _ => rfl)
            (fun _ _ => rfl) h.nodup (Nat.le_refl _) (h.fresh token (by rw [hscan]; rfl))
      · right
        rw [hrefused]
        rfl

/-! ### Dispatches -/

/-- The owner thread holds a reference of one job besides. -/
def holding (token : Nat) : Nat → Nat := Function.update (fun _ => 0) token 1

@[simp] theorem holding_self (token : Nat) : holding token token = 1 := update_self ..

theorem holding_of_ne {token other : Nat} (h : other ≠ token) : holding token other = 0 :=
  update_of_ne h _ _

theorem Invariant.held {ending : Nat → Bool} {s : System} {token : Nat}
    (h : Invariant (holding token) ending s)
    (hfound : (s.scans token).isSome = true) : ∃ scan job, s.scans token = some scan ∧
    scan.job = some job := by
  obtain ⟨scan, hscan⟩ := Option.isSome_iff_exists.mp hfound
  cases h.tracked token scan hscan with
  | alive v job hjob => exact ⟨scan, job, hscan, hjob⟩
  | gone v hjob haccepts hfreed hextra =>
    rw [holding_self] at hextra
    cases hextra

theorem Invariant.leaveDispatch {s : System} {token : Nat} {scan : Scan} {job : Job}
    (h : Invariant (holding token) (fun _ => false) s) (hscan : s.scans token = some scan)
    (hjob : scan.job = some job) : ∃ s', s.leaveDispatch token = .ok s' ∧ Settled s' := by
  rw [System.leaveDispatch, System.scanOf, hscan, require_bind]
  cases h.tracked token scan hscan with
  | gone v hnone => exact absurd (hjob.symm.trans hnone) nofun
  | alive v job' hjob' haccepts halive hlisted hsource =>
    rw [holding_self] at halive
    obtain ⟨scan', hunref, _, htracked⟩ :=
      unref_spec scan job' v hjob' haccepts halive hlisted hsource
    refine ⟨s.setScan token scan', ?_, ?_⟩
    · rw [hunref]
      rfl
    · exact h.update rfl htracked (fun _ _ => rfl) (fun _ _ => Iff.rfl)
        (fun _ hne => (holding_of_ne hne).symm)
        (fun _ _ => rfl) h.nodup (Nat.le_refl _) (h.fresh token (by rw [hscan]; rfl))

theorem Invariant.push {s : System} {token : Nat} {scan : Scan} {job : Job} {point : Point}
    (h : Invariant (holding token) (fun _ => false) s) (hscan : s.scans token = some scan)
    (hjob : scan.job = some job) (hnone : pointsIn s.stack token = []) (hdone : job.done = true)
    (hpoint : inDelivery [point] = 0)
    (hplaced : ∀ v, View.initial.Accepts scan.events v → Alive 1 false job scan.worker [] v →
    Placed job v [point]) :
    Settled (s.push token point) := by
  have htoken : token ≤ s.lastToken := h.fresh token (by rw [hscan]; rfl)
  have hself : pointsIn (s.push token point).stack token = [point] := by
    show pointsIn (⟨token, point⟩ :: s.stack) token = [point]
    rw [pointsIn_cons_self, hnone]
  refine h.update (Function.update_eq_self_iff.mpr hscan.symm).symm ?_
    (fun other hne => pointsIn_cons_of_ne hne s.stack) (fun _ _ => Iff.rfl)
      (fun _ hne => (holding_of_ne hne).symm)
    (fun _ _ => rfl) h.nodup (Nat.le_refl _) htoken
  rw [hself]
  cases h.tracked token scan hscan with
  | gone v hgone => exact absurd (hjob.symm.trans hgone) nofun
  | alive v job' hjob' haccepts halive hlisted hsource =>
    obtain rfl : job = job' := Option.some.inj (hjob.symm.trans hjob')
    rw [holding_self, hnone] at halive
    refine .alive v job hjob haccepts ?_ hlisted hsource
    refine { halive with
      refs := halive.refs, placed := hplaced v haccepts halive
      remaining := fun rest error hsome => ?_
      untouched := fun hnot => absurd (hdone.symm.trans hnot) Bool.true_eq_false.mp
      ended := fun hended => ?_ }
    · rw [hpoint]
      exact halive.remaining rest error hsome
    · rcases halive.ended hended with hfalse | hclosed | hpoints
      · cases hfalse
      · exact .inr (.inl hclosed)
      · cases hpoints

theorem Invariant.dispatchEnd {s : System} {token : Nat} {scan : Scan} {job : Job}
    (h : Invariant (holding token) (fun _ => false) s) (hscan : s.scans token = some scan)
    (hjob : scan.job = some job) (hnone : pointsIn s.stack token = []) (hdone : job.done = true) :
    ∃ s', s.dispatchEnd token = .ok s' ∧ Settled s' := by
  rw [System.dispatchEnd, jobOf_eq hscan hjob]
  by_cases hends : (!job.closed && job.position == job.entries.length) = true
  · simp only [Bool.and_eq_true, Bool.not_eq_true', beq_iff_eq] at hends
    refine ⟨s.push token .preparingEnd, ?_, ?_⟩
    · show (if (!job.closed && job.position == job.entries.length) = true then _ else _) = _
      rw [if_pos (by simp [hends])]
      rfl
    · refine h.push hscan hjob hnone hdone rfl fun v _ halive => ⟨halive.placed, ?_, hends.2⟩
      -- the end was not delivered, as the job is open
      by_contra hended
      rcases halive.ended (by simpa using hended) with hfalse | hclosed | hpoints
      · cases hfalse
      · rw [hends.1] at hclosed
        cases hclosed
      · cases hpoints
  · obtain ⟨s', hleave, hsettled⟩ := h.leaveDispatch hscan hjob
    refine ⟨s', ?_, hsettled⟩
    show (if (!job.closed && job.position == job.entries.length) = true then _ else _) = _
    rw [if_neg hends]
    exact hleave

theorem mem_pointsIn {stack : List Frame} {token : Nat} {point : Point} :
    point ∈ pointsIn stack token ↔ ⟨token, point⟩ ∈ stack := by
  simp only [pointsIn, List.mem_map, List.mem_filter, beq_iff_eq]
  constructor
  · rintro ⟨frame, ⟨hin, rfl⟩, rfl⟩
    exact hin
  · exact fun hin => ⟨_, ⟨hin, rfl⟩, rfl⟩

theorem pointsIn_eq_nil {stack : List Frame} {token : Nat}
    (h : ∀ frame ∈ stack, frame.job ≠ token) :
    pointsIn stack token = [] := by
  rw [pointsIn, List.map_eq_nil_iff, List.filter_eq_nil_iff]
  intro frame hframe
  simpa using h frame hframe

/-- Dispatching keeps the invariant, or there is no source to dispatch. -/
theorem Settled.dispatch {s : System} (h : Settled s) (token : Nat) :
    (∃ s', s.dispatch token = .ok s' ∧ Settled s') ∨ s.dispatch token = .error .refused := by
  rw [System.dispatch]
  cases hscan : s.scans token with
  | none => exact .inr rfl
  | some scan =>
    rw [require_bind]
    by_cases hguard : scan.source = true ∧ ∀ frame ∈ s.stack, frame.job ≠ token
    · left
      rw [ensure_bind hguard]
      obtain ⟨hattached, hidle⟩ := hguard
      have hnone := pointsIn_eq_nil hidle
      have htoken : token ≤ s.lastToken := h.fresh token (by rw [hscan]; rfl)
      cases h.tracked token scan hscan with
      | gone v hjob haccepts hfreed hextra hworker hpoints hunlisted hsource =>
        -- the timer of a job that is freed is not attached
        rw [hsource] at hattached
        cases hattached
      | alive v job hjob haccepts halive hlisted hsource =>
        rw [hjob, require_bind]
        by_cases hdone : job.done = true
        · have hheld : Invariant (holding token) (fun _ => false)
              (s.setScan token (scan.setJob { job with refs := job.refs + 1 })) := by
            refine h.update rfl ?_ (fun _ _ => rfl) (fun _ _ => Iff.rfl)
              (fun _ hne => holding_of_ne hne)
              (fun _ _ => rfl) h.nodup (Nat.le_refl _) htoken
            rw [holding_self]
            refine .alive v _ rfl haccepts ?_ hlisted hsource
            exact { halive with refs := congrArg (· + 1) halive.refs, positive := Nat.succ_pos _ }
          have hfound : (s.setScan token (scan.setJob { job with refs := job.refs + 1 })).scans
              token =
              some (scan.setJob { job with refs := job.refs + 1 }) := update_self ..
          have hnotDone : (!job.done) = false := by rw [hdone]; rfl
          rw [if_neg (by simp [hnotDone])]
          by_cases hmore : job.position < job.entries.length
          · refine ⟨_, if_pos hmore, hheld.push hfound rfl hnone hdone rfl fun v _ halive =>
              ⟨halive.placed, ?_, ?_⟩⟩
            · -- the end was not delivered, as the job is open
              by_contra hended
              rcases halive.ended (by simpa using hended) with hfalse | hclosed | hpoints
              · cases hfalse
              · rw [hsource, show job.closed = true from hclosed] at hattached
                cases hattached
              · cases hpoints
            · show 0 < min 64 (job.entries.length - job.position) ∧ _ ≤ 64 ∧
                job.position + _ ≤ job.entries.length
              omega
          · obtain ⟨s', hend, hsettled⟩ := hheld.dispatchEnd hfound rfl hnone hdone
            exact ⟨s', (if_neg hmore).trans hend, hsettled⟩
        · exact ⟨s, if_pos (by simpa using hdone), h⟩
    · right
      rw [ensure, if_neg hguard]
      rfl

theorem Invariant.top {extra : Nat → Nat} {ending : Nat → Bool} {s : System}
    (h : Invariant extra ending s)
    {token : Nat} {point : Point} {stack : List Frame}
    (hstack : s.stack = ⟨token, point⟩ :: stack) :
    ∃ scan job v, s.scans token = some scan ∧ scan.job = some job ∧
      View.initial.Accepts scan.events v ∧
      Alive (extra token) (ending token) job scan.worker [point] v ∧
      (token ∈ s.directoryJobs ↔ job.closed = false) ∧ scan.source = !job.closed ∧
      pointsIn stack token = [] := by
  have hpoints : pointsIn s.stack token = point :: pointsIn stack token := by
    rw [hstack, pointsIn_cons_self]
  obtain ⟨scan, hscan⟩ := Option.isSome_iff_exists.mp
    (h.known token (.inr (by rw [hpoints]; exact List.cons_ne_nil _ _)))
  cases h.tracked token scan hscan with
  | gone v hjob haccepts hfreed hextra hworker hnone =>
    rw [hpoints] at hnone
    cases hnone
  | alive v job hjob haccepts halive hlisted hsource =>
    have hrest : pointsIn stack token = [] := by
      have hlength := halive.placed.length_le
      rw [hpoints, List.length_cons] at hlength
      exact List.eq_nil_of_length_eq_zero (by omega)
    rw [hpoints, hrest] at halive
    exact ⟨scan, job, v, hscan, hjob, haccepts, halive, hlisted, hsource, hrest⟩

/-- The text of a call is being allocated. -/
def Point.isPreparing : Point → Bool
  | .preparing _ | .preparingEnd => true
  | _ => false

theorem Placed.idle {job : Job} {v : View} {points : List Point} (h : Placed job v points)
    (hpreparing : ∀ point ∈ points, point.isPreparing = true) : v.inFlight = false := by
  match points with
  | [] => exact h
  | [.preparing _] | [.preparingEnd] => exact h.1
  | [.delivering _] | [.deliveringEnd] => exact absurd (hpreparing _ List.mem_cons_self) nofun
  | first :: second :: rest => cases first <;> exact h.elim

/-- A step keeps the scans, unless the finalizers of the allocation of a text have closed
    the scan that is about to call back. -/
def Proceeds (s : System) : Except Refusal System → Prop
  | .ok s' => Settled s'
  | .error .refused => True
  | .error .fatal => ∃ token point stack scan, s.stack = ⟨token, point⟩ :: stack ∧
    point.isPreparing = true ∧
    s.scans token = some scan ∧ .closed ∈ scan.events
  | .error .invalid => False

theorem Proceeds.of_ok {s s' : System} {x : Except Refusal System} (hx : x = .ok s')
    (h : Settled s') : Proceeds s x := by
  rw [hx]
  exact h

theorem Proceeds.of_refused {s : System} {x : Except Refusal System} (hx : x = .error .refused) :
    Proceeds s x := by
  rw [hx]
  trivial

/-- Calling back moves the dispatch on top of the stack into its delivery. -/
theorem Settled.call {s : System} (h : Settled s) {token : Nat} {point : Point} {stack : List Frame}
    (hstack : s.stack = ⟨token, point⟩ :: stack) (hpreparing : point.isPreparing = true)
    (point' : Point)
    (event : Job → Event)
    (hspec : ∀ (scan : Scan) (job : Job) (v : View), View.initial.Accepts scan.events v →
      Alive 0 false job scan.worker [point] v → job.context = true →
      ∃ v', View.initial.Accepts (scan.events ++ [event job]) v' ∧
        Alive 0 false { job with active := job.active + 1 } scan.worker [point'] v') :
    Proceeds s (s.call ⟨token, point⟩ stack point' event) := by
  obtain ⟨scan, job, v, hscan, hjob, haccepts, halive, hlisted, hsource, hrest⟩ :=
    Invariant.top h hstack
  have hcall : s.call ⟨token, point⟩ stack point' event = (do
      ensure (job.context = true) .fatal
      let scan := (scan.setJob { job with active := job.active + 1 }).record (event job)
      return { s with stack := ⟨token, point'⟩ :: stack }.setScan token scan) := by
    rw [System.call, System.scanOf, hscan, require_bind, hjob, require_bind]
  rw [hcall]
  by_cases hcontext : job.context = true
  · obtain ⟨v', haccepts', halive'⟩ := hspec scan job v haccepts halive hcontext
    rw [ensure_bind hcontext]
    refine h.update rfl ?_ (fun other hne => ?_) (fun _ _ => Iff.rfl) (fun _ _ => rfl)
      (fun _ _ => rfl) h.nodup (Nat.le_refl _) (h.fresh token (by rw [hscan]; rfl))
    · show Tracked 0 false _ (pointsIn (⟨token, point'⟩ :: stack) token) _
      rw [pointsIn_cons_self, hrest]
      exact .alive v' _ rfl haccepts' halive' hlisted hsource
    · show pointsIn (⟨token, point'⟩ :: stack) other = pointsIn s.stack other
      rw [hstack, pointsIn_cons_of_ne hne, pointsIn_cons_of_ne hne]
  · -- the job is closed, and no callback runs
    rw [ensure, if_neg hcontext]
    have hidle : v.inFlight = false := halive.placed.idle (by simpa using hpreparing)
    have hclosed : v.closed = true := by
      rw [halive.context, hidle, Bool.or_false] at hcontext
      rw [halive.closed]
      simpa using hcontext
    exact ⟨token, point, stack, scan, hstack, hpreparing, hscan, haccepts.agrees.closed.mp hclosed⟩

theorem Settled.invoke {s : System} (h : Settled s) : Proceeds s s.invoke := by
  rw [System.invoke]
  cases hstack : s.stack with
  | nil => trivial
  | cons frame stack =>
    obtain ⟨token, point⟩ := frame
    cases point with
    | preparing count => exact h.call hstack rfl _ _ fun _ _ _ => batch_spec
    | preparingEnd => exact h.call hstack rfl _ _ fun _ _ _ => terminal_spec
    | delivering count => trivial
    | deliveringEnd => trivial

theorem Settled.endDelivery {s : System} (h : Settled s) {token : Nat} {point : Point}
    {stack : List Frame}
    (hstack : s.stack = ⟨token, point⟩ :: stack) (hdelivering : point.isPreparing = false) :
    ∃ scan scan' job', s.scans token = some scan ∧ System.endDelivery scan = .ok scan' ∧
      scan'.job = some job' ∧
      job'.done = true ∧ pointsIn stack token = [] ∧
      ∀ s', s'.stack = stack → s'.directoryJobs = s.directoryJobs → s'.lastToken = s.lastToken →
        s'.scans = Function.update s.scans token
          (some (scan'.setJob { job' with position := job'.position + inDelivery [point] })) →
        Invariant (holding token)
            (Function.update (fun _ => false) token (decide (point = .deliveringEnd))) s' := by
  obtain ⟨scan, job, v, hscan, hjob, haccepts, halive, hlisted, hsource, hrest⟩ :=
    Invariant.top h hstack
  have hflight : v.inFlight = true := by
    have hplaced := halive.placed
    cases point with
    | preparing count | preparingEnd => cases hdelivering
    | delivering count => exact hplaced.1
    | deliveringEnd => exact hplaced
  obtain ⟨events, hend, hevents⟩ := endDelivery_spec hjob haccepts halive hflight
  refine ⟨scan, _, _, hscan, hend, rfl, halive.done_of_dispatched, hrest,
    fun s' hs' hlist hlast hscans => ?_⟩
  refine h.update hscans ?_ (fun other hne => ?_) (fun other _ => by rw [hlist])
    (fun _ hne => holding_of_ne hne)
    (fun _ hne => update_of_ne hne _ _) (hlist ▸ h.nodup) (Nat.le_of_eq hlast.symm)
    (hlast ▸ h.fresh token (by rw [hscan]; rfl))
  · rw [holding_self, update_self, hs', hrest, hlist]
    exact .alive _ _ rfl hevents (halive.returned hflight) hlisted hsource
  · rw [hs', hstack, pointsIn_cons_of_ne hne]

/-- A callback that returns keeps the invariant, also where the dispatch ends. -/
theorem Settled.callbackReturned {s : System} (h : Settled s) : Proceeds s s.callbackReturned := by
  rw [System.callbackReturned]
  cases hstack : s.stack with
  | nil => trivial
  | cons frame stack =>
    obtain ⟨token, point⟩ := frame
    cases point with
    | preparing count => trivial
    | preparingEnd => trivial
    | delivering count =>
      obtain ⟨scan, scan', job', hscan, hend, hjob', hdone, hrest, hheld⟩ :=
        h.endDelivery hstack rfl
      have hheld' := hheld ({ s with stack }.setScan token
        (scan'.setJob { job' with position := job'.position + count })) rfl rfl rfl rfl
      rw [decide_eq_false nofun, update_eq_self] at hheld'
      obtain ⟨s', hdispatch, hsettled⟩ := hheld'.dispatchEnd (update_self ..) rfl hrest hdone
      refine .of_ok ?_ hsettled
      show (s.scanOf token >>= _) = _
      rw [System.scanOf, hscan, require_bind, hend]
      show (require scan'.job _ >>= _) = _
      rw [hjob']
      exact hdispatch
    | deliveringEnd =>
      obtain ⟨scan, scan', job', hscan, hend, hjob', hdone, hrest, hheld⟩ :=
        h.endDelivery hstack rfl
      have hheld' := hheld ({ s with stack }.setScan token scan') rfl rfl rfl
        (congrArg (fun scan => Function.update s.scans token (some scan)) (by
          show scan' = scan'.setJob job'
          rw [Scan.setJob, ← hjob']))
      obtain ⟨s₁, hclose, hinv, hfound, _⟩ := hheld'.directoryClose (update_self ..) hjob'
      rw [Function.update_idem, update_eq_self] at hinv
      obtain ⟨scan₁, job₁, hscan₁, hjob₁⟩ := hinv.held hfound
      obtain ⟨s', hleave, hsettled⟩ := hinv.leaveDispatch hscan₁ hjob₁
      refine .of_ok ?_ hsettled
      show (s.scanOf token >>= _) = _
      rw [System.scanOf, hscan, require_bind, hend]
      show (System.directoryClose _ token >>= _) = _
      rw [hclose]
      exact hleave

/-- Every action keeps the invariant, or is none the program can take. -/
theorem Settled.step {s : System} (h : Settled s) (glib : GLib) (action : Action) :
    Proceeds s (s.step glib action) := by
  cases action with
  | start owner path hidden root excludes => exact h.start owner path hidden root excludes
  | worker token answer =>
    rcases h.worker glib token answer with ⟨s', hstep, hsettled⟩ | hrefused
    · exact .of_ok hstep hsettled
    · exact .of_refused hrefused
  | dispatch token =>
    rcases h.dispatch token with ⟨s', hstep, hsettled⟩ | hrefused
    · exact .of_ok hstep hsettled
    · exact .of_refused hrefused
  | invoke => exact h.invoke
  | returned => exact h.callbackReturned
  | cancel token =>
    obtain ⟨s', hstep, hsettled⟩ := h.cancel token fun _ hother => hother
    exact .of_ok hstep hsettled
  | cancelOwner owner =>
    obtain ⟨s', hstep, hsettled⟩ := h.cancelOwner owner (fun _ hother => hother) h.nodup
    exact .of_ok hstep hsettled

/-! ## Every run -/

theorem settled_initial : Settled .initial :=
  ⟨fun _ _ h => (nomatch h), fun _ h => (nomatch h), List.nodup_nil, fun _ h => nomatch h⟩

/-- The invariant holds after every run. -/
theorem settled_of_reachable {glib : GLib} {s : System} (h : (machine glib).Reachable s) :
    Settled s :=
  h.invariant (fun _ hinit => hinit ▸ settled_initial) fun s action s' hs hstep => by
    have hproceeds := hs.step glib action
    rw [show s.step glib action = .ok s' from hstep] at hproceeds
    exact hproceeds

/-- The scans in one state of a run. -/
structure Delivering (glib : GLib) (s : System) : Prop where
  delivery : ∀ token scan, s.scans token = some scan → Delivery scan.events
  /-- The callback of a closed scan is let go, unless it is running. -/
  released : ∀ token scan, s.scans token = some scan → .closed ∈ scan.events →
    (∀ frame ∈ s.stack, frame.job = token → frame.point.isPreparing = true) →
      .contextReleased ∈ scan.events
  /-- The job of a scan is freed when owner and worker have let it go, unless it is dispatched. -/
  freed : ∀ token scan, s.scans token = some scan → .closed ∈ scan.events →
    .workerLeft ∈ scan.events →
    (∀ frame ∈ s.stack, frame.job ≠ token) → .freed ∈ scan.events
  /-- No step reads a job that was freed, or runs off the list. -/
  sound : ∀ action, s.step glib action ≠ .error .invalid
  /-- The program only ends in a call back of a scan that was closed while its text was allocated.
      -/
  fatal : ∀ action, s.step glib action = .error .fatal → ∃ token point stack scan,
    s.stack = ⟨token, point⟩ :: stack ∧ point.isPreparing = true ∧ s.scans token = some scan ∧
      .closed ∈ scan.events

/-- What each owner has seen is a delivery, in every reachable state. -/
theorem scans_deliver {glib : GLib} {s : System} (h : (machine glib).Reachable s) :
    Delivering glib s := by
  have hs := settled_of_reachable h
  constructor
  case delivery =>
    intro token scan hscan
    cases hs.tracked token scan hscan with
    | alive v job hjob haccepts | gone v hjob haccepts => exact View.delivery_of_accepts haccepts
  case released =>
    intro token scan hscan hclosed hpreparing
    cases hs.tracked token scan hscan with
    | gone v hjob haccepts hfreed =>
      obtain ⟨before, after, heq⟩ := List.append_of_mem (haccepts.agrees.freed.mp hfreed)
      have hreleased := ((View.delivery_of_accepts haccepts).freed before after heq).2.2.1
      rw [heq]
      exact List.mem_append_left _ hreleased
    | alive v job hjob haccepts halive hlisted hsource =>
      have hidle : v.inFlight = false :=
        halive.placed.idle fun point hpoint => hpreparing _ (mem_pointsIn.mp hpoint) rfl
      rw [← haccepts.agrees.closed, halive.closed] at hclosed
      rw [← haccepts.agrees.released, halive.released, halive.context, hclosed, hidle]
      rfl
  case freed =>
    intro token scan hscan hclosed hleft hidle
    cases hs.tracked token scan hscan with
    | gone v hjob haccepts hfreed => exact haccepts.agrees.freed.mp hfreed
    | alive v job hjob haccepts halive hlisted hsource =>
      -- nobody holds a reference
      rw [← haccepts.agrees.closed, halive.closed] at hclosed
      rw [← haccepts.agrees.left, halive.left, Option.isNone_iff_eq_none] at hleft
      have hrefs := halive.refs
      rw [hclosed, hleft, pointsIn_eq_nil hidle] at hrefs
      exact absurd halive.positive (by rw [hrefs]; decide)
  case sound =>
    intro action hinvalid
    have hproceeds := hs.step glib action
    rw [hinvalid] at hproceeds
    exact hproceeds
  case fatal =>
    intro action hfatal
    have hproceeds := hs.step glib action
    rw [hfatal] at hproceeds
    exact hproceeds

/-- GLib on names of one letter, and patterns without wildcards. -/
def plainGLib : GLib where
  buildFilename := fun path name => path ++ [slash] ++ name
  patternMatchSimple := fun pattern text => pattern == text
  utf8Validate := fun text => text.all (· < 128)

/-- A directory with the file `a`, the hidden `.c` and the directory `b` is scanned. -/
def oneScan : List Action :=
  [.start 7 [46] false none none, .worker 1 .done, .worker 1 (.child ⟨some [97], .regular⟩),
    .worker 1 (.child ⟨some [46, 99], .regular⟩), .dispatch 1,
      .worker 1 (.child ⟨some [98], .directory⟩),
    .worker 1 .done, .worker 1 .done, .worker 1 .done, .worker 1 .done, .dispatch 1, .invoke,
      .worker 1 .done, .returned,
    .invoke, .cancelOwner (some 7), .returned]

theorem oneScan_events : ∃ s scan, (machine plainGLib).exec .initial oneScan = .ok s ∧
    s.scans 1 = some scan ∧
    scan.events = [.found ⟨[46, 47, 97], [97], 0⟩, .found ⟨[46, 47, 98], [98], 1⟩, .settled none,
      .batch [⟨[46, 47, 98], [98], 1⟩, ⟨[46, 47, 97], [97], 0⟩], .workerLeft, .returned,
      .terminal "", .closed,
      .returned, .contextReleased, .freed] :=
  ⟨_, _, rfl, rfl, rfl⟩

theorem oneScan_delivers : ∃ s, (machine plainGLib).exec .initial oneScan = .ok s ∧
    Delivering plainGLib s := by
  obtain ⟨s, _, hrun, _⟩ := oneScan_events
  exact ⟨s, hrun, scans_deliver (.exec rfl hrun)⟩

end Cwhip.Gtk
