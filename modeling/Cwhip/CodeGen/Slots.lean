/-
  Cwhip.CodeGen.Slots

  The dispatch slots of a class, and the implementation that the table of a view
  holds for a slot (`CodeGeneratorDispatch.cpp`, and the thunks of
  `CodeGeneratorModule.cpp`).

  A slot is named by the method that declared it last; what identifies it is the
  method's name and parameter types.
-/

import Cwhip.CodeGen.Subobjects

namespace Cwhip.CodeGen

open Cwhip.Lib
open Cwhip.Inheritance (AccessLevel BaseInfo)
open List (map_cons mem_cons_of_mem mem_cons_self)

/-! ## Slots -/

/-- A method takes over the slot of the method it overrides, or a new one. -/
def addSlot (slots : List MethodDeclaration) (method : MethodDeclaration) :
    List MethodDeclaration :=
  match slots.findIdx? (fun candidate =>
      candidate.name == method.name && sameParameterTypes candidate method) with
  | some index => slots.set index method
  | none => slots ++ [method]

mutual

/-- The recursion of `methodSlots`, on the slots found so far. -/
def slotsFrom : ClassDeclaration → List MethodDeclaration → List MethodDeclaration
  | .node info bases, slots => info.ordinaryMethods.foldl addSlot (slotsBases bases slots)

def slotsBases : Edges ClassInfo BaseInfo → List MethodDeclaration → List MethodDeclaration
  | .nil, slots => slots
  | .cons _ base rest, slots => slotsBases rest (slotsFrom base slots)

end

/-- `CodeGenerator::methodSlots`. -/
def methodSlots (owner : ClassDeclaration) : List MethodDeclaration := slotsFrom owner []

/-! ## Implementations -/

/-- The method that a thunk calls, its class and the path to the subobject it
    is called on. -/
structure Implementation where
  owner : ClassDeclaration
  method : MethodDeclaration
  path : List Text
  deriving DecidableEq

/-- The classes on a path behind a prefix of it, each with the path to it. -/
def pathCandidates (p : Program) : List Text → List Text → List (List Text × ClassDeclaration)
  | _, [] => []
  | before, name :: rest =>
    match p.find name with
    | none => []
    | some base => (before ++ [name], base) :: pathCandidates p (before ++ [name]) rest

/-- The candidates for the slots of a view: the dynamic class, the classes on the
    path to the view, and the bases of the view. -/
def candidates (p : Program) (dynamicOwner : ClassDeclaration)
    (view : List Text × ClassDeclaration) :
    List (List Text × ClassDeclaration) :=
  ([], dynamicOwner) :: (pathCandidates p [] view.1 ++
    ((subobjects view.2).map fun nested => (view.1 ++ nested.1, nested.2)).filter fun candidate =>
      candidate.1 ≠ [])

def implementing (slot : MethodDeclaration) (declaration : ClassDeclaration) :
    Option MethodDeclaration :=
  declaration.label.methods.find? fun method =>
    method.name == slot.name && sameParameterTypes method slot && method.ordinary

def firstImplementation (slot : MethodDeclaration) (entries : List (List Text × ClassDeclaration)) :
    Option Implementation :=
  entries.findSome? fun entry =>
    (implementing slot entry.2).map fun method => ⟨entry.2, method, entry.1⟩

/-- The search for the implementation in `emitClassMethods`. -/
def implementation (p : Program) (dynamicOwner : ClassDeclaration)
    (view : List Text × ClassDeclaration) (slot : MethodDeclaration) : Option Implementation :=
  firstImplementation slot (candidates p dynamicOwner view)

/-! ## Which slots a class has -/

/-- What identifies a slot. -/
def slotKey (method : MethodDeclaration) : Text × List Text := (method.name, method.parameters)

variable {method slot : MethodDeclaration} {slots methods : List MethodDeclaration}
  {c u owner : ClassDeclaration} {entries : List (List Text × ClassDeclaration)} {p : Program}
  {spot : Spot}

theorem sameSlot_iff {other : MethodDeclaration} :
    SameSlot method other ↔ slotKey method = slotKey other := by
  rw [SameSlot, slotKey, slotKey, Prod.mk.injEq]

theorem addSlot_test {candidate : MethodDeclaration} :
    (candidate.name == method.name && sameParameterTypes candidate method) = true ↔
      slotKey candidate = slotKey method := by
  rw [← sameSlot_iff, SameSlot, Bool.and_eq_true, beq_iff_eq, sameParameterTypes, beq_iff_eq]

/-- A method replaces the slot of its signature or opens a new one. -/
theorem addSlot_cases (slots : List MethodDeclaration) (method : MethodDeclaration) :
    (∃ (index : Nat) (h : index < slots.length), slotKey slots[index] = slotKey method ∧
      addSlot slots method = slots.set index method) ∨
    ((∀ slot ∈ slots, slotKey slot ≠ slotKey method) ∧ addSlot slots method = slots ++
    [method]) := by
  rw [addSlot]
  split
  · next index hindex =>
    obtain ⟨h, htest, _⟩ := List.findIdx?_eq_some_iff_getElem.mp hindex
    exact .inl ⟨index, h, addSlot_test.mp htest, rfl⟩
  · next hnone =>
    refine .inr ⟨?_, rfl⟩
    intro slot hslot hkey
    exact absurd (addSlot_test.mpr hkey)
      (by simpa using List.findIdx?_eq_none_iff.mp hnone slot hslot)

theorem set_slot_keys {index : Nat} (h : index < slots.length)
    (hkey : slotKey slots[index] = slotKey method) :
    (slots.set index method).map slotKey = slots.map slotKey := by
  have hmap : index < (slots.map slotKey).length := by rwa [List.length_map]
  have hsame : (slots.map slotKey)[index] = slotKey method := by rw [List.getElem_map, hkey]
  rw [List.map_set, ← hsame]
  exact List.set_getElem_self _

variable {key : Text × List Text} {name signature : Text} {impl : Implementation} {path : List Text}
  {view : List Text × ClassDeclaration}

/-- No slot is lost and only the method's is added. -/
theorem addSlot_keys :
    key ∈ (addSlot slots method).map slotKey ↔ key ∈ slots.map slotKey ∨ slotKey method = key := by
  obtain ⟨index, h, hkey, hset⟩ | ⟨_, happend⟩ := addSlot_cases slots method
  · rw [hset, set_slot_keys h hkey]
    refine ⟨.inl, fun hor => hor.elim id ?_⟩
    rintro rfl
    rw [← hkey]
    exact List.mem_map_of_mem (List.getElem_mem h)
  · rw [happend, List.map_append, List.mem_append]
    simp [eq_comm]

theorem mem_addSlot (h : slot ∈ addSlot slots method) : slot ∈ slots ∨ slot = method := by
  obtain ⟨index, _, _, hset⟩ | ⟨_, happend⟩ := addSlot_cases slots method
  · rw [hset] at h
    exact List.mem_or_eq_of_mem_set h
  · rw [happend, List.mem_append, List.mem_singleton] at h
    exact h

theorem mem_addSlot_self (slots : List MethodDeclaration) (method : MethodDeclaration) :
    method ∈ addSlot slots method := by
  obtain ⟨index, h, _, hset⟩ | ⟨_, happend⟩ := addSlot_cases slots method
  · rw [hset]
    exact List.mem_of_getElem (List.getElem_set_self (by simpa using h))
  · rw [happend]
    exact List.mem_append_right _ mem_cons_self

theorem mem_addSlot_of_ne (h : slot ∈ slots)
    (hne : slotKey slot ≠ slotKey method) : slot ∈ addSlot slots method := by
  obtain ⟨index, hindex, hkey, hset⟩ | ⟨_, happend⟩ := addSlot_cases slots method
  · obtain ⟨j, hj, rfl⟩ := List.getElem_of_mem h
    have hother : index ≠ j := by
      rintro rfl
      exact hne hkey
    rw [hset]
    refine List.mem_of_getElem (i := j) (h := by simpa using hj) ?_
    exact List.getElem_set_ne hother _
  · rw [happend]
    exact List.mem_append_left _ h

theorem mem_foldl_addSlot
    (h : slot ∈ methods.foldl addSlot slots) : slot ∈ slots ∨ slot ∈ methods := by
  induction methods generalizing slots with
  | nil => exact .inl h
  | cons method methods ih =>
    rcases ih h with h | h
    · rcases mem_addSlot h with h | rfl
      · exact .inl h
      · exact .inr mem_cons_self
    · exact .inr (mem_cons_of_mem _ h)

theorem foldl_addSlot_keys :
    key ∈ (methods.foldl addSlot slots).map slotKey ↔
      key ∈ slots.map slotKey ∨ ∃ method ∈ methods, slotKey method = key := by
  induction methods generalizing slots with
  | nil => simp
  | cons method methods ih =>
    rw [List.foldl_cons, ih, addSlot_keys]
    simp only [List.mem_cons, exists_eq_or_imp, or_assoc]

/-- The methods added stay, and so do the slots of other signatures. -/
theorem mem_foldl_addSlot_of_mem (hdistinct : (methods.map slotKey).Nodup)
    (h : slot ∈ methods ∨ (slot ∈ slots ∧ slotKey slot ∉ methods.map slotKey)) :
    slot ∈ methods.foldl addSlot slots := by
  induction methods generalizing slots with
  | nil => simpa using h
  | cons method methods ih =>
    rw [map_cons, List.nodup_cons] at hdistinct
    apply ih hdistinct.2
    rcases h with h | ⟨hmem, hnew⟩
    · rcases List.mem_cons.mp h with rfl | h
      · exact .inr ⟨mem_addSlot_self _ _, hdistinct.1⟩
      · exact .inl h
    · rw [map_cons, List.mem_cons, not_or] at hnew
      exact .inr ⟨mem_addSlot_of_ne hmem hnew.1, hnew.2⟩

mutual

/-- Every slot is a method of the class or of one of its bases. -/
theorem mem_slotsFrom {c : ClassDeclaration} {slots : List MethodDeclaration}
    {slot : MethodDeclaration} (h : slot ∈ slotsFrom c slots) :
    slot ∈ slots ∨ ∃ u ∈ c.subtrees, slot ∈ u.label.ordinaryMethods := by
  match c with
  | .node info bases =>
    rw [slotsFrom] at h
    rcases mem_foldl_addSlot h with h | h
    · refine (mem_slotsBases h).imp_right ?_
      rintro ⟨base, hbase, u, hu, hslot⟩
      exact ⟨u, Tree.mem_subtrees.mpr (.inr ⟨base, hbase, hu⟩), hslot⟩
    · exact .inr ⟨_, Tree.mem_subtrees_self _, h⟩

theorem mem_slotsBases {bases : Edges ClassInfo BaseInfo} {slots : List MethodDeclaration}
    {slot : MethodDeclaration} (h : slot ∈ slotsBases bases slots) :
    slot ∈ slots ∨ ∃ base ∈ bases.toList, ∃ u ∈ base.2.subtrees,
    slot ∈ u.label.ordinaryMethods := by
  match bases with
  | .nil => exact .inl h
  | .cons edge base rest =>
    rw [slotsBases] at h
    rcases mem_slotsBases h with h | ⟨base', hbase', hslot⟩
    · refine (mem_slotsFrom h).imp_right ?_
      exact fun hu => ⟨(edge, base), mem_cons_self, hu⟩
    · exact .inr ⟨base', mem_cons_of_mem _ hbase', hslot⟩

end

theorem mem_methodSlots (h : slot ∈ methodSlots c) :
    ∃ u ∈ c.subtrees, slot ∈ u.label.ordinaryMethods :=
  (mem_slotsFrom h).resolve_left List.not_mem_nil

mutual

/-- Every method of the hierarchy has its slot. -/
theorem slotsFrom_keys {c : ClassDeclaration} {slots : List MethodDeclaration}
    {key : Text × List Text} (h : key ∈ slots.map slotKey ∨
      ∃ u ∈ c.subtrees, ∃ method ∈ u.label.ordinaryMethods, slotKey method = key) :
    key ∈ (slotsFrom c slots).map slotKey := by
  match c with
  | .node info bases =>
    rw [slotsFrom, foldl_addSlot_keys]
    rcases h with h | ⟨u, hu, hmethod⟩
    · exact .inl (slotsBases_keys (.inl h))
    · rcases Tree.mem_subtrees.mp hu with rfl | ⟨base, hbase, hu⟩
      · exact .inr hmethod
      · exact .inl (slotsBases_keys (.inr ⟨base, hbase, u, hu, hmethod⟩))

theorem slotsBases_keys {bases : Edges ClassInfo BaseInfo} {slots : List MethodDeclaration}
    {key : Text × List Text} (h : key ∈ slots.map slotKey ∨
      ∃ base ∈ bases.toList, ∃ u ∈ base.2.subtrees, ∃ method ∈ u.label.ordinaryMethods,
        slotKey method = key) :
    key ∈ (slotsBases bases slots).map slotKey := by
  match bases with
  | .nil =>
    rw [slotsBases]
    refine h.resolve_right ?_
    rintro ⟨_, hbase, _⟩
    cases hbase
  | .cons edge base rest =>
    rw [slotsBases]
    rcases h with h | ⟨base', hbase', hmethod⟩
    · exact slotsBases_keys (.inl (slotsFrom_keys (.inl h)))
    · rcases List.mem_cons.mp hbase' with rfl | hbase'
      · exact slotsBases_keys (.inl (slotsFrom_keys (.inr hmethod)))
      · exact slotsBases_keys (.inr ⟨base', hbase', hmethod⟩)

end

/-- Every method of the hierarchy has a slot of its signature. -/
theorem methodSlots_key (hu : u ∈ c.subtrees)
    (h : method ∈ u.label.ordinaryMethods) : ∃ slot ∈ methodSlots c, SameSlot slot method := by
  obtain ⟨slot, hslot, hkey⟩ := List.mem_map.mp (slotsFrom_keys (.inr ⟨u, hu, method, h, rfl⟩))
  exact ⟨slot, hslot, sameSlot_iff.mpr hkey⟩

theorem mem_ordinaryMethods {info : ClassInfo} :
    method ∈ info.ordinaryMethods ↔ method ∈ info.methods ∧ method.ordinary = true :=
    List.mem_filter

/-- The methods of the class itself are in their slots. -/
theorem Program.own_slot (p : Program) (hc : c ∈ p.classes)
    (h : method ∈ c.label.ordinaryMethods) : method ∈ methodSlots c := by
  have hdistinct : (c.label.ordinaryMethods.map slotKey).Nodup :=
    (p.methods c hc).sublist (List.filter_sublist.map _)
  cases c with
  | node info bases =>
    rw [methodSlots, slotsFrom]
    exact mem_foldl_addSlot_of_mem hdistinct (.inl h)

/-! ## The implementation a thunk calls -/

def Implements (slot : MethodDeclaration) (c : ClassDeclaration) : Prop :=
  ∃ method ∈ c.label.ordinaryMethods, SameSlot method slot

theorem implementing_test :
    (method.name == slot.name && sameParameterTypes method slot && method.ordinary) = true ↔
      SameSlot method slot ∧ method.ordinary = true := by
  rw [Bool.and_eq_true, addSlot_test, ← sameSlot_iff]

theorem implementing_eq_some (h : implementing slot c = some method) :
    method ∈ c.label.ordinaryMethods ∧ SameSlot method slot := by
  have htest := List.find?_some h
  obtain ⟨hsame, hordinary⟩ := implementing_test.mp htest
  exact ⟨mem_ordinaryMethods.mpr ⟨List.mem_of_find?_eq_some h, hordinary⟩, hsame⟩

theorem implementing_isSome :
    (∃ method, implementing slot c = some method) ↔ Implements slot c := by
  constructor
  · rintro ⟨method, h⟩
    exact ⟨method, implementing_eq_some h⟩
  · rintro ⟨method, hmethod, hsame⟩
    obtain ⟨hmem, hordinary⟩ := mem_ordinaryMethods.mp hmethod
    apply Option.isSome_iff_exists.mp
    rw [implementing, List.find?_isSome]
    exact ⟨method, hmem, implementing_test.mpr ⟨hsame, hordinary⟩⟩

/-- A signature has one method in a class. -/
theorem Program.implementing_own (p : Program) (hc : c ∈ p.classes)
    (h : method ∈ c.label.ordinaryMethods) (hsame : SameSlot method slot) :
    implementing slot c = some method := by
  obtain ⟨found, hfound⟩ := implementing_isSome.mpr ⟨method, h, hsame⟩
  obtain ⟨hown, hsame'⟩ := implementing_eq_some hfound
  rw [hfound, p.method_unique hc (mem_ordinaryMethods.mp hown).1 (mem_ordinaryMethods.mp h).1
    (hsame'.trans hsame.symm)]

/-- The first candidate that implements the slot is taken. -/
theorem firstImplementation_eq_some (h : firstImplementation slot entries = some impl) :
    implementing slot impl.owner = some impl.method ∧ ∃ before after,
      entries = before ++ (impl.path, impl.owner) :: after ∧
        ∀ entry ∈ before, ¬ Implements slot entry.2 := by
  obtain ⟨before, entry, after, hsplit, himpl, hnone⟩ := List.findSome?_eq_some_iff.mp h
  obtain ⟨method, hmethod, rfl⟩ := Option.map_eq_some_iff.mp himpl
  refine ⟨hmethod, before, after, hsplit, ?_⟩
  intro other hother himplements
  obtain ⟨found, hfound⟩ := implementing_isSome.mpr himplements
  have := hnone other hother
  rw [hfound] at this
  cases this

theorem firstImplementation_isSome {e : List Text × ClassDeclaration} (hentry : e ∈ entries)
    (h : Implements slot e.2) :
    ∃ impl, firstImplementation slot entries = some impl := by
  obtain ⟨method, hmethod⟩ := implementing_isSome.mpr h
  apply Option.isSome_iff_exists.mp
  rw [firstImplementation, List.findSome?_isSome_iff]
  exact ⟨e, hentry, by rw [hmethod]; rfl⟩

theorem firstImplementation_shift
    (h : ∀ entry ∈ entries, path ++ entry.1 = [] → ¬ Implements slot entry.2) :
    firstImplementation slot ((entries.map fun nested => (path ++ nested.1, nested.2)).filter
        fun candidate => candidate.1 ≠ [])
      = (firstImplementation slot entries).map fun impl =>
      { impl with path := path ++ impl.path } := by
  induction entries with
  | nil => rfl
  | cons entry entries ih =>
    obtain ⟨hentry, hrest⟩ := List.forall_mem_cons.mp h
    have ih := ih hrest
    rw [firstImplementation] at ih ⊢
    rw [firstImplementation] at ih ⊢
    rw [map_cons, List.findSome?_cons]
    by_cases hempty : path ++ entry.1 = []
    · have hnone : implementing slot entry.2 = none := by
        match hfound : implementing slot entry.2 with
        | none => rfl
        | some method => exact absurd (implementing_isSome.mp ⟨method, hfound⟩) (hentry hempty)
      rw [List.filter_cons_of_neg (by simp [hempty]), hnone]
      exact ih
    · rw [List.filter_cons, if_pos (decide_eq_true hempty), List.findSome?_cons]
      match implementing slot entry.2 with
      | none => exact ih
      | some method => rfl

/-! ### Candidates on the path -/

/-- `classes_` finds what the class inherits. -/
def FindsBases (p : Program) (c : ClassDeclaration) : Prop :=
  ∀ base ∈ c.edges, ∀ u ∈ base.2.subtrees, p.find u.label.name = some u

theorem Program.findsBases (p : Program) (hc : c ∈ p.classes) :
    FindsBases p c := fun _ hbase _ hu =>
  p.find_subtree hc (Tree.mem_subtrees_trans _ (Tree.mem_subtrees_edge hbase) hu)

theorem FindsBases.edge {base : BaseInfo × ClassDeclaration} (h : FindsBases p c)
    (hbase : base ∈ c.edges) :
    p.find base.2.label.name = some base.2 ∧ FindsBases p base.2 := by
  refine ⟨h base hbase base.2 (Tree.mem_subtrees_self _), ?_⟩
  intro inner hinner v hv
  exact h base hbase v (Tree.mem_subtrees_trans _ (Tree.mem_subtrees_edge hinner) hv)

/-- The candidates on a path are the subobjects it goes through. -/
theorem pathCandidates_split (hfinds : FindsBases p c) {reached : ClassDeclaration × Spot}
    (h : walk c spot path = some reached) {start q : List Text}
    {before after : List (List Text × ClassDeclaration)}
    (hsplit : pathCandidates p start path = before ++ (q, u) :: after) :
    ∃ taken rest spot', path = taken ++ rest ∧ q = start ++ taken ∧
      walk c spot taken = some (u, spot') ∧
      ∀ first last v s, taken = first ++ last → first ≠ [] → last ≠ [] →
        walk c spot first = some (v, s) → ∃ q', (q', v) ∈ before := by
  induction path generalizing c spot start before with
  | nil =>
    rw [pathCandidates] at hsplit
    exact absurd hsplit.symm (List.append_ne_nil_of_right_ne_nil _ (List.cons_ne_nil _ _))
  | cons name path ih =>
    obtain ⟨base, hbase, hrest⟩ := walk_cons.mp h
    obtain ⟨hmem, hname⟩ := find_edge hbase
    obtain ⟨hfind, hbelow⟩ := hfinds.edge hmem
    rw [hname] at hfind
    rw [pathCandidates, hfind] at hsplit
    cases before with
    | nil =>
      obtain ⟨hentry, _⟩ := List.cons.inj hsplit
      obtain ⟨rfl, rfl⟩ := Prod.mk.inj hentry
      refine ⟨[name], path, _, rfl, rfl, walk_cons.mpr ⟨base, hbase, rfl⟩, ?_⟩
      intro first last v s hcut hfirst hlast _
      have hlength := congrArg List.length hcut
      rw [List.length_append, List.length_singleton] at hlength
      have := List.length_pos_iff.mpr hfirst
      have := List.length_pos_iff.mpr hlast
      omega
    | cons entry before =>
      obtain ⟨hentry, hsplit⟩ := List.cons.inj hsplit
      obtain ⟨taken, rest, spot', hpath, hq, hwalk, hbefore⟩ := ih hbelow hrest hsplit
      refine ⟨name :: taken, rest, spot', by rw [hpath]; rfl, by rw [hq]; simp,
        walk_cons.mpr ⟨base, hbase, hwalk⟩, ?_⟩
      intro first last v s hcut hfirst hlast hv
      obtain ⟨other, first, rfl⟩ := List.exists_cons_of_ne_nil hfirst
      obtain ⟨rfl, hinner⟩ := List.cons.inj hcut
      obtain ⟨base', hbase', hv⟩ := walk_cons.mp hv
      obtain rfl : base = base' := Option.some.inj (hbase.symm.trans hbase')
      by_cases hnil : first = []
      · rw [hnil] at hv
        obtain ⟨rfl, _⟩ := Prod.mk.inj (Option.some.inj hv)
        rw [← hentry]
        exact ⟨_, mem_cons_self⟩
      · obtain ⟨q', hq'⟩ := hbefore first last v s hinner hnil hlast hv
        exact ⟨q', mem_cons_of_mem _ hq'⟩

/-- Every subobject on the path is a candidate. -/
theorem mem_pathCandidates (hfinds : FindsBases p c) {spot' : Spot} {taken rest : List Text}
    (htaken : taken ≠ []) (h : walk c spot taken = some (u, spot')) (start : List Text) :
    (start ++ taken, u) ∈ pathCandidates p start (taken ++ rest) := by
  induction taken generalizing c spot start with
  | nil => exact absurd rfl htaken
  | cons name taken ih =>
    obtain ⟨base, hbase, hrest⟩ := walk_cons.mp h
    obtain ⟨hmem, hname⟩ := find_edge hbase
    obtain ⟨hfind, hbelow⟩ := hfinds.edge hmem
    rw [hname] at hfind
    rw [List.cons_append, pathCandidates, hfind]
    by_cases hnil : taken = []
    · rw [hnil] at hrest ⊢
      obtain ⟨rfl, _⟩ := Prod.mk.inj (Option.some.inj hrest)
      exact mem_cons_self
    · have hlater := ih hbelow hnil hrest (start ++ [name])
      rw [List.append_assoc] at hlater
      exact mem_cons_of_mem _ hlater

/-- The path to a view passes no class, up to it, that implements the slot. -/
def Unimplemented (slot : MethodDeclaration) (owner : ClassDeclaration) (path : List Text) : Prop :=
  ∀ taken rest u spot, path = taken ++ rest → walk owner whole taken = some (u, spot) →
    ¬ Implements slot u

/-- Where the implementation of a slot stands. -/
inductive Chosen (slot : MethodDeclaration) (owner : ClassDeclaration)
    (view : List Text × ClassDeclaration) (impl : Implementation) : Prop where
  /-- It is the first on the path to the view. -/
  | onPath (rest : List Text) (spot : Spot) (path : view.1 = impl.path ++ rest)
      (reached : walk owner whole impl.path = some (impl.owner, spot))
      (first : ∀ taken rest u s, impl.path = taken ++ rest → rest ≠ [] →
        walk owner whole taken = some (u, s) → ¬ Implements slot u)
  /-- It is the first among the bases of the view. -/
  | below (none : Unimplemented slot owner view.1) (rest : List Text)
      (path : impl.path = view.1 ++ rest)
      (first : firstImplementation slot (subobjects view.2) = some ⟨impl.owner, impl.method, rest⟩)

/-- The implementation found is the one the thunk calls. -/
theorem implementation_chosen (hfinds : FindsBases p owner) (hdistinct : DistinctBases owner)
    (hview : walk owner whole view.1 = some (view.2, spot))
    (h : implementation p owner view slot = some impl) :
    Chosen slot owner view impl := by
  rw [implementation, candidates, ← List.cons_append, firstImplementation, List.findSome?_append,
    Option.or_eq_some_iff] at h
  rcases h with h | ⟨hfront, h⟩
  · -- a class on the path implements the slot
    obtain ⟨_, before, after, hsplit, hbefore⟩ := firstImplementation_eq_some h
    cases before with
    | nil =>
      obtain ⟨hentry, _⟩ := List.cons.inj hsplit
      obtain ⟨hpath, howner⟩ := Prod.mk.inj hentry
      refine .onPath view.1 whole (by rw [← hpath]; rfl) (by rw [← hpath, ← howner]; rfl) ?_
      intro taken rest u s hcut hrest _
      rw [← hpath] at hcut
      exact absurd (List.append_eq_nil_iff.mp hcut.symm).2 hrest
    | cons entry before =>
      obtain ⟨hentry, hsplit⟩ := List.cons.inj hsplit
      obtain ⟨taken, rest, spot', hpath, hq, hwalk, hearlier⟩ :=
        pathCandidates_split hfinds hview hsplit
      obtain rfl : impl.path = taken := hq
      refine .onPath rest spot' hpath hwalk ?_
      intro first last u s hcut hlast hu
      by_cases hfirst : first = []
      · rw [hfirst] at hu
        obtain ⟨rfl, _⟩ := Prod.mk.inj (Option.some.inj hu)
        rw [← hentry] at hbefore
        exact hbefore _ mem_cons_self
      · obtain ⟨q', hq'⟩ := hearlier first last u s hcut hfirst hlast hu
        exact hbefore _ (mem_cons_of_mem _ hq')
  · -- the front holds all classes on the path
    have hunimplemented : Unimplemented slot owner view.1 := by
      intro taken rest u s hcut hu himplements
      have hmem : (taken, u) ∈ ([], owner) :: pathCandidates p [] view.1 := by
        by_cases hnil : taken = []
        · rw [hnil] at hu ⊢
          obtain ⟨rfl, _⟩ := Prod.mk.inj (Option.some.inj hu)
          exact mem_cons_self
        · rw [hcut]
          exact mem_cons_of_mem _ (mem_pathCandidates hfinds hnil hu [])
      obtain ⟨found, hfound⟩ := firstImplementation_isSome hmem himplements
      rw [firstImplementation, hfront] at hfound
      cases hfound
    have hself : ∀ entry ∈ subobjects view.2, view.1 ++ entry.1 = [] →
        ¬ Implements slot entry.2 := by
      intro entry hentry hnil
      obtain ⟨hpath, hnested⟩ := List.append_eq_nil_iff.mp hnil
      have hinner : DistinctBases view.2 := hdistinct.subtree (walk_mem hview)
      obtain ⟨_, hwalk⟩ := subobjects_walk hinner hentry whole
      rw [hnested] at hwalk
      rw [hpath] at hview
      obtain ⟨hentryOwner, _⟩ := Prod.mk.inj (Option.some.inj hwalk)
      obtain ⟨howner, _⟩ := Prod.mk.inj (Option.some.inj hview)
      rw [← hentryOwner, ← howner]
      exact hunimplemented [] _ _ _ rfl rfl
    have hshift := firstImplementation_shift hself
    rw [firstImplementation, h, eq_comm, Option.map_eq_some_iff] at hshift
    obtain ⟨nested, hnested, rfl⟩ := hshift
    exact .below hunimplemented nested.path rfl hnested

/-- A slot that a class below the view implements has an implementation. -/
theorem implementation_exists (p : Program) (hdistinct : DistinctBases view.2)
    (hcoherent : Coherent view.2) (hview : walk owner whole view.1 = some (view.2, spot))
    (hu : u ∈ view.2.subtrees) (h : Implements slot u) :
    ∃ impl, implementation p owner view slot = some impl := by
  obtain ⟨nested, hnested⟩ := mem_subobjects hdistinct hcoherent hu
  by_cases hnil : view.1 ++ nested = []
  · -- the view is the class itself, and the subobject the whole object
    obtain ⟨hpath, hinner⟩ := List.append_eq_nil_iff.mp hnil
    obtain ⟨_, hwalk⟩ := subobjects_walk hdistinct hnested whole
    rw [hinner] at hwalk
    rw [hpath] at hview
    obtain ⟨hclass, _⟩ := Prod.mk.inj (Option.some.inj hwalk)
    obtain ⟨howner, _⟩ := Prod.mk.inj (Option.some.inj hview)
    rw [← hclass, ← howner] at h
    exact firstImplementation_isSome (e := ([], owner)) mem_cons_self h
  · refine firstImplementation_isSome (e := (view.1 ++ nested, u)) ?_ h
    refine mem_cons_of_mem _ (List.mem_append_right _ (List.mem_filter.mpr ⟨?_, ?_⟩))
    · exact List.mem_map.mpr ⟨(nested, u), hnested, rfl⟩
    · exact decide_eq_true hnil

end Cwhip.CodeGen
