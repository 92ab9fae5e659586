/-
  Cwhip.CodeGen.ThreadStart

  The method that starting a thread runs (`RuntimeThreads.c`).

  `find_run_method` takes the first entry called `run` of the method table of
  the object's class and calls it without arguments.  The table has the slots
  that the bases declare before those of the class, whatever their parameters,
  and its thunks search the subobjects in the order they are listed.
-/

import Cwhip.CodeGen.Overriders

namespace Cwhip.CodeGen

open Cwhip.Lib
open Cwhip.Inheritance (AccessLevel BaseInfo)
open List (find?_append find?_map map_append nil_append)

/-! ## The runtime -/

@[irreducible] def runName : Text := "run".toList

@[irreducible] def threadName : Text := "Thread".toList

/-- An entry of a method table; `code` is what the thunk calls, if it was
    emitted. -/
structure CwhipMethodMeta where
  name : Text
  code : Option Implementation

/-- The method table of a view in `emitClassTypesAndMetadata`. -/
def methodTable (p : Program) (owner : ClassDeclaration) (view : List Text × ClassDeclaration) :
    List CwhipMethodMeta :=
  (methodSlots view.2).map fun slot => ⟨slot.name, implementation p owner view slot⟩

/-- `find_run_method`. -/
def findRunMethod (methods : List CwhipMethodMeta) : Option Implementation :=
  (methods.find? fun candidate => candidate.name == runName).bind CwhipMethodMeta.code

/-- `cwhip_thread_start` on an object of the class: whatever view it is called
    on, the table is that of the whole object.  Without a method it aborts. -/
def threadStart (p : Program) (owner : ClassDeclaration) : Option Implementation :=
  findRunMethod (methodTable p owner ([], owner))

/-! ## What is to run -/

/-- `run()` -/
def runKey : SlotKey := (runName, [])

/-- A `run()` of the `Thread` at a spot: one that a class derived from it
    declares, or that overrides the one `Thread` has. -/
def ThreadRun (owner : ClassDeclaration) (thread spot : Spot) : Prop :=
  DeclaresAt owner runKey spot ∧
    (Leads owner spot thread ∨ Overrides owner runKey thread spot)

/-- The one that has all others as bases. -/
def FinalRun (owner : ClassDeclaration) (thread spot : Spot) : Prop :=
  ThreadRun owner thread spot ∧ ∀ other, ThreadRun owner thread other → Leads owner spot other

/-- Starting an object calls the `run()` of the subobject at a spot. -/
def Starts (p : Program) (owner : ClassDeclaration) (spot : Spot) : Prop :=
  ∃ impl, threadStart p owner = some impl ∧ slotKey impl.method = runKey ∧
    impl.method ∈ impl.owner.label.ordinaryMethods ∧
    walk owner whole impl.path = some (impl.owner, spot)

/-- For each `Thread` in an object of the class, starting the object calls the
    final overrider of its `run()`. -/
def StartsFinalRun (p : Program) (owner : ClassDeclaration) : Prop :=
  ∀ path u thread, walk owner whole path = some (u, thread) → u.label.name = threadName →
    ∃ final, FinalRun owner thread final ∧ Starts p owner final

mutual

/-- The methods of a class, behind those of its bases. -/
def declaredMethods : ClassDeclaration → List MethodDeclaration
  | .node info bases => declaredBases bases ++ info.ordinaryMethods

def declaredBases : Edges ClassInfo BaseInfo → List MethodDeclaration
  | .nil => []
  | .cons _ base rest => declaredMethods base ++ declaredBases rest

end

/-- The first `run` that a class inherits or declares takes no parameters. -/
def FirstRunPlain (owner : ClassDeclaration) : Prop :=
  ∃ method, (declaredMethods owner).find? (fun method => method.name == runName) = some method ∧
    method.parameters = []

/-- No subobject that is listed before the one at the spot declares `run()`. -/
def ListedFirst (owner : ClassDeclaration) (spot : Spot) : Prop :=
  ∃ before path u after, subobjects owner = before ++ (path, u) :: after ∧
    walk owner whole path = some (u, spot) ∧ ∀ entry ∈ before, ¬ Declares runKey entry.2

/-- For each `Thread` in an object, its `run()` has a final overrider, and no
    other `run` comes before it. -/
def FinalRunFirst (owner : ClassDeclaration) : Prop :=
  ∀ path u thread, walk owner whole path = some (u, thread) → u.label.name = threadName →
    ∃ final, FinalRun owner thread final ∧ FirstRunPlain owner ∧ ListedFirst owner final

/-! ## The first slot of a name -/

theorem addSlot_find (q : SlotKey → Bool) (slots : List MethodDeclaration)
    (method : MethodDeclaration) :
    ((addSlot slots method).map slotKey).find? q
      = ((slots ++ [method]).map slotKey).find? q := by
  obtain ⟨index, hindex, hkey, hset⟩ | ⟨_, happend⟩ := addSlot_cases slots method
  · rw [hset, set_slot_keys hindex hkey, map_append, find?_append]
    cases hfirst : (slots.map slotKey).find? q with
    | some key => rfl
    | none =>
      -- the slot that is overridden is not of the kind either
      have hmem : slotKey method ∈ slots.map slotKey := by
        rw [← hkey]
        exact List.mem_map_of_mem (List.getElem_mem hindex)
      have hnot := List.find?_eq_none.mp hfirst _ hmem
      rw [List.map_singleton, List.find?_cons_of_neg hnot]
      rfl
  · rw [happend]

theorem foldl_addSlot_find (q : SlotKey → Bool) (methods slots : List MethodDeclaration) :
    ((methods.foldl addSlot slots).map slotKey).find? q
      = ((slots ++ methods).map slotKey).find? q := by
  induction methods generalizing slots with
  | nil => rw [List.foldl_nil, List.append_nil]
  | cons method methods ih =>
    rw [List.foldl_cons, ih, map_append, find?_append, addSlot_find,
      ← find?_append, ← map_append, List.append_assoc]
    rfl

mutual

theorem slotsFrom_find (q : SlotKey → Bool) (c : ClassDeclaration)
    (slots : List MethodDeclaration) :
    ((slotsFrom c slots).map slotKey).find? q
      = ((slots ++ declaredMethods c).map slotKey).find? q := by
  match c with
  | .node info bases =>
    rw [slotsFrom, foldl_addSlot_find, map_append, find?_append,
      slotsBases_find q bases slots, ← find?_append, ← map_append, List.append_assoc]
    rfl

theorem slotsBases_find (q : SlotKey → Bool) (bases : Edges ClassInfo BaseInfo)
    (slots : List MethodDeclaration) :
    ((slotsBases bases slots).map slotKey).find? q
      = ((slots ++ declaredBases bases).map slotKey).find? q := by
  match bases with
  | .nil => rw [slotsBases, declaredBases, List.append_nil]
  | .cons edge base rest =>
    rw [slotsBases, slotsBases_find q rest, map_append, find?_append,
      slotsFrom_find q base slots, ← find?_append, ← map_append, List.append_assoc]
    rfl

end

theorem methodSlots_find (c : ClassDeclaration) (name : Text) :
    ((methodSlots c).find? fun slot => slot.name == name).map slotKey
      = ((declaredMethods c).find? fun method => method.name == name).map slotKey := by
  have h := slotsFrom_find (fun key => key.1 == name) c []
  rw [nil_append, find?_map, find?_map] at h
  exact h

/-! ## The thunk of the whole object -/

theorem candidates_whole (p : Program) {owner : ClassDeclaration}
    (hdistinct : DistinctBases owner) :
    candidates p owner ([], owner) = subobjects owner := by
  cases owner with
  | node info bases =>
    have hbases : ∀ base ∈ bases.toList, DistinctBases base.2 := fun base hbase =>
      hdistinct.subtree (Tree.mem_subtrees_edge hbase)
    -- only the whole object is listed without a path
    have hbelow : ∀ entry ∈ (subobjectsBases bases [] []).1, entry.1 ≠ [] := by
      intro entry hentry
      obtain ⟨base, _, rest, hpath, _⟩ := subobjectsBases_walk hbases hentry
      rw [hpath]
      exact List.cons_ne_nil _ _
    have hlisted : subobjects (.node info bases)
        = ([], .node info bases) :: (subobjectsBases bases [] []).1 := rfl
    rw [candidates, pathCandidates, nil_append, hlisted]
    simp only [nil_append, List.map_id_fun', id_eq]
    rw [List.filter_cons_of_neg (by simp), List.filter_eq_self.mpr]
    intro entry hentry
    exact decide_eq_true (hbelow entry hentry)

variable {p : Program} {owner : ClassDeclaration}

theorem threadStart_eq (howner : owner ∈ p.classes) :
    threadStart p owner = ((methodSlots owner).find? fun slot => slot.name == runName).bind
      fun slot => firstImplementation slot (subobjects owner) := by
  rw [threadStart, findRunMethod, methodTable, find?_map, Option.bind_map]
  simp only [Function.comp_def, implementation, candidates_whole p (p.distinctBases howner)]

theorem runKey_iff {method : MethodDeclaration} :
    slotKey method = runKey ↔ method.name = runName ∧ method.parameters = [] := by
  rw [slotKey, runKey, Prod.mk.injEq]

theorem firstRunPlain_iff (owner : ClassDeclaration) :
    FirstRunPlain owner ↔
      ∃ slot, (methodSlots owner).find? (fun slot => slot.name == runName) = some slot ∧
        slotKey slot = runKey := by
  have hkeys := methodSlots_find owner runName
  constructor
  · rintro ⟨method, hmethod, hplain⟩
    rw [hmethod, Option.map_some, Option.map_eq_some_iff] at hkeys
    obtain ⟨slot, hslot, hkey⟩ := hkeys
    have hname : method.name = runName := by simpa using List.find?_some hmethod
    exact ⟨slot, hslot, hkey.trans (runKey_iff.mpr ⟨hname, hplain⟩)⟩
  · rintro ⟨slot, hslot, hkey⟩
    rw [hslot, Option.map_some, eq_comm, Option.map_eq_some_iff] at hkeys
    obtain ⟨method, hmethod, hsame⟩ := hkeys
    exact ⟨method, hmethod, (runKey_iff.mp (hsame.trans hkey)).2⟩

theorem Starts.first (howner : owner ∈ p.classes) {final : Spot} (h : Starts p owner final) :
    FirstRunPlain owner ∧ ListedFirst owner final := by
  obtain ⟨impl, hstart, hkey, _, hwalk⟩ := h
  rw [threadStart_eq howner, Option.bind_eq_some_iff] at hstart
  obtain ⟨slot, hslot, hfirst⟩ := hstart
  obtain ⟨himplementing, before, after, hsplit, hbefore⟩ := firstImplementation_eq_some hfirst
  have hsame := sameSlot_iff.mp (implementing_eq_some himplementing).2
  have hslotKey : slotKey slot = runKey := hsame.symm.trans hkey
  refine ⟨(firstRunPlain_iff owner).mpr ⟨slot, hslot, hslotKey⟩, before, _, _, after, hsplit, hwalk,
    ?_⟩
  intro entry hentry hdeclares
  apply hbefore entry hentry
  rw [implements_iff, hslotKey]
  exact hdeclares

theorem ListedFirst.starts (howner : owner ∈ p.classes) {final : Spot}
    (hdeclared : DeclaresAt owner runKey final) (hplain : FirstRunPlain owner)
    (h : ListedFirst owner final) : Starts p owner final := by
  obtain ⟨slot, hslot, hkey⟩ := (firstRunPlain_iff owner).mp hplain
  obtain ⟨before, path, u, after, hsplit, hwalk, hbefore⟩ := h
  have himplements : Implements slot u := by
    rw [implements_iff, hkey]
    exact hdeclared.declares (p.coherent howner) hwalk
  obtain ⟨method, hmethod⟩ := implementing_isSome.mpr himplements
  obtain ⟨hmem, hsame⟩ := implementing_eq_some hmethod
  have hfirst : firstImplementation slot (subobjects owner) = some ⟨u, method, path⟩ := by
    refine List.findSome?_eq_some_iff.mpr ⟨before, (path, u), after, hsplit, ?_, ?_⟩
    · show (implementing slot u).map _ = _
      rw [hmethod, Option.map_some]
    · intro entry hentry
      rw [Option.map_eq_none_iff, ← Option.not_isSome_iff_eq_none, Option.isSome_iff_exists,
        implementing_isSome, implements_iff, hkey]
      exact hbefore entry hentry
  refine ⟨⟨u, method, path⟩, ?_, (sameSlot_iff.mp hsame).trans hkey, hmem, hwalk⟩
  rw [threadStart_eq howner, hslot]
  exact hfirst

/-- For every accepted hierarchy: starting an object calls the final overrider
    of the `run()` of each `Thread` in it, exactly if that overrider exists and
    stands before every other `run`. -/
theorem thread_start_iff (p : Program) {owner : ClassDeclaration} (howner : owner ∈ p.classes) :
    StartsFinalRun p owner ↔ FinalRunFirst owner := by
  constructor
  · intro h path u thread hwalk hname
    obtain ⟨final, hfinal, hstarts⟩ := h path u thread hwalk hname
    exact ⟨final, hfinal, hstarts.first howner⟩
  · intro h path u thread hwalk hname
    obtain ⟨final, hfinal, hplain, hlisted⟩ := h path u thread hwalk hname
    exact ⟨final, hfinal, hlisted.starts howner hfinal.1.1 hplain⟩

/-! ## A class with its own `run()` -/

theorem finalRun_whole (hdeclares : Declares runKey owner) {path : List Text} {u : ClassDeclaration}
    {thread : Spot} (hwalk : walk owner whole path = some (u, thread)) :
    FinalRun owner thread whole := by
  refine ⟨⟨⟨[], owner, rfl, hdeclares⟩, .inl (.from_whole hwalk)⟩, ?_⟩
  rintro other ⟨⟨_, _, hother, _⟩, _⟩
  exact .from_whole hother

theorem listedFirst_whole (owner : ClassDeclaration) : ListedFirst owner whole := by
  cases owner with
  | node info bases =>
    exact ⟨[], [], _, _, rfl, rfl, fun _ hentry => absurd hentry List.not_mem_nil⟩

theorem finalRunFirst_own (hdeclares : Declares runKey owner) (hplain : FirstRunPlain owner) :
    FinalRunFirst owner := by
  intro path u thread hwalk _
  exact ⟨whole, finalRun_whole hdeclares hwalk, hplain, listedFirst_whole owner⟩

/-! ## A thread with an overload -/

/-- `class Thread { handle launch() void run() }` -/
def plainThread : ClassDeclaration :=
  .node (plainClass "Thread" [plainMethod "launch" "handle", plainMethod "run" "void"]) .nil

/-- `class Jobs { void run(int count) }` -/
def jobs : ClassDeclaration :=
  .node (plainClass "Jobs"
    [⟨"run".toList, "void".toList, ["int".toList], .publicAccess, false, false⟩]) .nil

/-- `class Worker : Thread { void run() }` -/
def worker : ClassDeclaration :=
  .node (plainClass "Worker" [plainMethod "run" "void"])
    (.cons ⟨.publicAccess, false⟩ plainThread .nil)

/-- `class JobWorker : Jobs, Thread { void run() }` -/
def jobWorker : ClassDeclaration :=
  .node (plainClass "JobWorker" [plainMethod "run" "void"])
    (.cons ⟨.publicAccess, false⟩ jobs (.cons ⟨.publicAccess, false⟩ plainThread .nil))

def threadClasses : List ClassDeclaration := [plainThread, jobs, worker, jobWorker]

theorem threadClasses_builtin : ∀ c ∈ threadClasses, ∀ method ∈ c.label.methods,
    ∀ type ∈ method.parameters, type ∈ builtinTypes := by decide +kernel

def threadProgram : Program where
  classes := threadClasses
  resolved := by decide +kernel
  distinct := by decide +kernel
  qualified := by decide +kernel
  separate := by decide +kernel
  builtinBases := by decide +kernel
  directBases := by decide +kernel
  methodNames := by decide +kernel
  destructors := by decide +kernel
  plainDestructors := by decide +kernel
  methods := by decide +kernel
  types := fun c hc method hmethod type htype =>
    .builtin (threadClasses_builtin c hc method hmethod type htype)
  overrides := by decide +kernel

theorem thread_start_worker : worker ∈ threadProgram.classes ∧
    StartsFinalRun threadProgram worker := by
  have hworker : worker ∈ threadProgram.classes := by decide +kernel
  have hdeclares : Declares runKey worker :=
    ⟨plainMethod "run" "void", by decide +kernel, by decide +kernel⟩
  have hplain : FirstRunPlain worker := ⟨plainMethod "run" "void", by decide +kernel, rfl⟩
  exact ⟨hworker, (thread_start_iff threadProgram hworker).mpr (finalRunFirst_own hdeclares hplain)⟩

/-- Starting a `JobWorker` calls `run(int)`, which its first base declares. -/
theorem jobWorker_runs_overload :
    (∀ path u thread, walk jobWorker whole path = some (u, thread) →
      FinalRun jobWorker thread whole) ∧
      ¬ ∀ p : Program, ∀ owner ∈ p.classes, StartsFinalRun p owner := by
  have hworker : jobWorker ∈ threadProgram.classes := by decide +kernel
  constructor
  · intro path u thread hwalk
    exact finalRun_whole ⟨plainMethod "run" "void", by decide +kernel, by decide +kernel⟩ hwalk
  · intro h
    have hthread : walk jobWorker whole ["Thread".toList]
        = some (plainThread, ⟨none, ["Thread".toList]⟩) := by decide +kernel
    obtain ⟨final, _, hstarts⟩ := h threadProgram jobWorker hworker _ _ _ hthread
      (by decide +kernel)
    obtain ⟨method, hmethod, hplain⟩ := (hstarts.first hworker).1
    have hoverload : (declaredMethods jobWorker).find? (fun method => method.name == runName)
        = some ⟨"run".toList, "void".toList, ["int".toList], .publicAccess, false, false⟩ := by
      decide +kernel
    obtain rfl := Option.some.inj (hoverload.symm.trans hmethod)
    cases hplain

end Cwhip.CodeGen
