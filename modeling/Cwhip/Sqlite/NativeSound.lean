/-
  Cwhip.Sqlite.NativeSound

  One lemma for each native function of the `sqlite` package (`native/sqlite.c`):
  between two calls the state is consistent, and from there a function uses no
  freed record and no closed database, ends in a consistent state, and acts on the
  transactions of one database.
-/

import Cwhip.Sqlite.References

namespace Cwhip.Sqlite

open Cwhip.Lib
open Function (update_of_ne update_self)

/-- A `Connection` object with a native connection owns it, alone, and has not been
    destroyed. -/
structure Owned (s : System) : Prop where
  native : ∀ object this id, s.connectionObjects object = some this → this.native = some id →
    this.destroyed = false ∧ ∃ connection, s.connections id = some connection ∧
      connection.ownerOpen = true
  unique : ∀ object object' this this' id, s.connectionObjects object = some this →
    s.connectionObjects object' = some this' → this.native = some id → this'.native = some id →
      object = object'

/-- The state between two calls. -/
structure Consistent (s : System) : Prop extends Running none s where
  owned : Owned s

/-- The native functions leave the objects of the language alone. -/
structure SameObjects (s s' : System) : Prop where
  connectionObjects : s'.connectionObjects = s.connectionObjects
  statementObjects : s'.statementObjects = s.statementObjects
  transactionObjects : s'.transactionObjects = s.transactionObjects

theorem SameObjects.refl (s : System) : SameObjects s s := ⟨rfl, rfl, rfl⟩

variable {s₁ s₂ s₃ : System} {registry : RecordList ρ} {owner : ρ → Nat} {entry : ρ}

theorem SameObjects.trans (h : SameObjects s₁ s₂) (h' : SameObjects s₂ s₃) :
    SameObjects s₁ s₃ :=
  ⟨h'.1.trans h.1, h'.2.trans h.2, h'.3.trans h.3⟩

variable {s s' : System} {handle id object address target : Nat} {database : Database}
  {held native : Option Nat} {connection : Connection} {ρ : Type} {statement : Statement}
  {transaction : Transaction}

theorem Frame.sameObjects (h : Frame s s') : SameObjects s s' :=
  ⟨h.connectionObjects, h.statementObjects, h.transactionObjects⟩

/-- The counts and the registries are as they were. -/
structure Untouched (s s' : System) : Prop where
  connections : s'.connections = s.connections
  statementRegistry : s'.statementRegistry = s.statementRegistry
  transactionRegistry : s'.transactionRegistry = s.transactionRegistry

theorem Untouched.refl (s : System) : Untouched s s := ⟨rfl, rfl, rfl⟩

/-- Ownership is about the program's objects and the connections still open. -/
theorem Owned.congr (h : Owned s) (hobjects : s'.connectionObjects = s.connectionObjects)
    (hopen : ∀ id connection, s.connections id = some connection → connection.ownerOpen = true →
      ∃ connection', s'.connections id = some connection' ∧ connection'.ownerOpen = true) :
      Owned s' where
  native := by
    intro object this id hobject hnative
    rw [hobjects] at hobject
    obtain ⟨hlive, connection, hconnection, howner⟩ := h.native object this id hobject hnative
    exact ⟨hlive, hopen id connection hconnection howner⟩
  unique := by
    intro object object' this this' id hobject hobject'
    rw [hobjects] at hobject hobject'
    exact h.unique object object' this this' id hobject hobject'

/-! ## SQL text -/

/-- What SQL text leaves: the database is still open. -/
structure Ran (handle : Nat) (s s' : System) : Prop where
  consistent : Consistent s'
  untouched : Untouched s s'
  objects : SameObjects s s'
  isOpen : (s'.databases handle).isSome = true
  acts : Acts .sql handle s s'

/-- What runs inside one database keeps the whole store consistent. -/
theorem Consistent.inDatabase (h : Consistent s) (hframe : Frame s s')
    (hconnections : s'.connections = s.connections)
    (hdatabases : ∀ handle, (s'.databases handle).isSome = (s.databases handle).isSome)
    (hopened : s'.opened = s.opened)
    (hopen : ∀ handle, s'.log.count (.opened handle) = s.log.count (.opened handle))
    (hclose : ∀ handle, s'.log.count (.closed handle) = s.log.count (.closed handle)) :
    Consistent s' where
  registered := h.registered.frame hframe
  counted := h.counted.shift hconnections fun id => by rw [shares_frame hframe]
  handles := h.handles.congr (fun id => by rw [hconnections]) hdatabases hopened hopen hclose
  owned := h.owned.congr hframe.connectionObjects fun id connection hid howner =>
    ⟨connection, by rw [hconnections]; exact hid, howner⟩

theorem isSome_setDatabase (hopen : (s.databases handle).isSome = true) (other : Nat) :
    (Function.update s.databases handle (some database) other).isSome =
    (s.databases other).isSome := by
  by_cases hother : other = handle
  · rw [hother, update_self, hopen]
    rfl
  · rw [update_of_ne hother]

theorem Consistent.begin (h : Consistent s) (hinside : s.databases handle = some ⟨none⟩) :
    Consistent (s.afterBegin handle) := by
  refine h.inDatabase ⟨rfl, rfl, rfl, rfl, rfl⟩ rfl (isSome_setDatabase (by rw [hinside]; rfl)) rfl
    (fun other => ?_) fun other => ?_
  · exact (List.count_append ..).trans (by simp; rfl)
  · exact (List.count_append ..).trans (by simp; rfl)

theorem Consistent.end {transaction : Nat} (h : Consistent s)
    (hinside : s.databases handle = some ⟨some transaction⟩) (ender : Ender) :
    Consistent (s.afterEnd handle transaction ender) := by
  refine h.inDatabase ⟨rfl, rfl, rfl, rfl, rfl⟩ rfl (isSome_setDatabase (by rw [hinside]; rfl)) rfl
    (fun other => ?_) fun other => ?_
  · exact (List.count_append ..).trans (by simp; rfl)
  · exact (List.count_append ..).trans (by simp; rfl)

/-- `BEGIN` in an open database keeps the store consistent, or is refused. -/
theorem beginIn_ends (h : Consistent s) (hopen : (s.databases handle).isSome = true) :
    Ends .refused (s.beginIn handle) fun s' => Ran handle s s' := by
  obtain ⟨⟨transaction⟩, hdatabase⟩ := Option.isSome_iff_exists.mp hopen
  refine .bind_ok (require_eq_ok.mpr hdatabase) ((Ends.ensure _).bind fun _ hauto => .pure ?_)
  obtain rfl : transaction = none := Option.isNone_iff_eq_none.mp hauto
  refine ⟨h.begin hdatabase, ⟨rfl, rfl, rfl⟩, ⟨rfl, rfl, rfl⟩, ?_, .begins s rfl hdatabase⟩
  show (Function.update s.databases handle _ handle).isSome = true
  rw [update_self]
  rfl

theorem endIn_eq {transaction : Nat} (hinside : s.databases handle = some ⟨some transaction⟩)
    (ender : Ender) :
    s.endIn handle ender = .ok (s.afterEnd handle transaction ender) := by
  rw [System.endIn, hinside]
  rfl

theorem endIn_ends (h : Consistent s) (hopen : (s.databases handle).isSome = true) :
    Ends .refused (s.endIn handle .sql) fun s' => Ran handle s s' := by
  obtain ⟨⟨transaction⟩, hdatabase⟩ := Option.isSome_iff_exists.mp hopen
  cases transaction with
  | none =>
    rw [System.endIn, hdatabase]
    rfl
  | some transaction =>
    refine .of_eq (endIn_eq hdatabase .sql) ⟨h.end hdatabase .sql, ⟨rfl, rfl, rfl⟩, ⟨rfl, rfl, rfl⟩,
      ?_,
      .ends s transaction hdatabase⟩
    show (Function.update s.databases handle _ handle).isSome = true
    rw [update_self]
    rfl

theorem Ran.trans (h : Ran handle s₁ s₂) (h' : Ran handle s₂ s₃) :
    Ran handle s₁ s₃ where
  consistent := h'.consistent
  untouched := ⟨h'.untouched.1.trans h.untouched.1, h'.untouched.2.trans h.untouched.2,
    h'.untouched.3.trans h.untouched.3⟩
  objects := h.objects.trans h'.objects
  isOpen := h'.isOpen
  acts := h.acts.trans h'.acts

/-- A text of SQL keeps the store consistent, whatever it begins and ends. -/
theorem runSql_ends (h : Consistent s) (hopen : (s.databases handle).isSome = true)
    (effects : List Effect) : Ends .refused (s.runSql handle effects) fun s' =>
    Ran handle s s' := by
  induction effects generalizing s with
  | nil =>
    obtain ⟨database, hdatabase⟩ := Option.isSome_iff_exists.mp hopen
    exact .bind_ok (require_eq_ok.mpr hdatabase) (.pure ⟨h, .refl s, .refl s, hopen, .refl s⟩)
  | cons effect rest ih =>
    cases effect with
    | begins =>
      exact (beginIn_ends h hopen).bind fun s' hran =>
        (ih hran.consistent hran.isOpen).mono fun _ hrest => hran.trans hrest
    | ends =>
      exact (endIn_ends h hopen).bind fun s' hran =>
        (ih hran.consistent hran.isOpen).mono fun _ hrest => hran.trans hrest

/-! ## Connections -/

/-- The connection of a handle is there. -/
def Live (s : System) (native : Option Nat) : Prop := ∀ id, native = some id →
    (s.connections id).isSome = true

/-- A native handle is no connection or an open one with its database. -/
theorem live_cases (h : Running held s) (hlive : Live s native) :
    (native = none ∧ s.live native = .ok none) ∨ ∃ id connection handle database, native = some id ∧
      s.Connected id connection handle database ∧ s.live native = .ok (some (id, handle)) := by
  cases native with
  | none => exact .inl ⟨rfl, rfl⟩
  | some id =>
    obtain ⟨connection, handle, database, hconnected⟩ := h.connected (hlive id rfl)
    refine .inr ⟨id, connection, handle, database, rfl, hconnected, ?_⟩
    rw [System.live, hconnected.found]
    show Except.ok (connection.database.map fun database => (id, database)) = _
    rw [hconnected.handle_eq]
    rfl

/-- What a native function of a connection or statement leaves. -/
structure Kept (s s' : System) : Prop where
  consistent : Consistent s'
  objects : SameObjects s s'
  acts : ∃ handle, Acts .sql handle s s'

theorem Kept.refl (h : Consistent s) : Kept s s := ⟨h, .refl s, 0, .refl s⟩

theorem Ran.kept (h : Ran handle s s') : Kept s s' :=
  ⟨h.consistent, h.objects, handle, h.acts⟩

theorem sqliteExecute_ends (h : Consistent s) (hlive : Live s native)
    (ran : Option (Bool × List Effect)) :
    Ends .refused (s.sqliteExecute native ran) fun result => Kept s result.2 ∧
    Untouched s result.2 := by
  rw [System.sqliteExecute]
  rcases live_cases h.toRunning hlive with ⟨_, heq⟩ | ⟨id, connection, handle, database, _,
    hconnected, heq⟩
  · rw [heq]
    exact .ok ⟨.refl h, .refl s⟩
  · rw [heq]
    cases ran with
    | none => exact .ok ⟨.refl h, .refl s⟩
    | some run =>
      obtain ⟨ok, effects⟩ := run
      have hopen : (s.databases handle).isSome = true := by
        rw [hconnected.isOpen]
        rfl
      exact (runSql_ends h hopen effects).bind fun s' hran => .pure ⟨hran.kept, hran.untouched⟩

theorem sqliteBusyTimeout_ends (h : Consistent s) (hlive : Live s native)
    (ok : Bool) : Ends .refused (s.sqliteBusyTimeout native ok) fun result => result.2 = s := by
  rw [System.sqliteBusyTimeout]
  rcases live_cases h.toRunning hlive with ⟨_, heq⟩ | ⟨id, connection, handle, database, _,
    hconnected, heq⟩
  · exact .bind_ok heq (.pure rfl)
  · exact .bind_ok heq (.bind_ok (require_eq_ok.mpr hconnected.isOpen) (.pure rfl))

theorem sqliteConnectionError_ends (h : Consistent s) (hlive : Live s native) :
    Ends .refused (s.sqliteConnectionError native) fun _ => True := by
  rw [System.sqliteConnectionError]
  rcases live_cases h.toRunning hlive with ⟨_, heq⟩ | ⟨id, connection, handle, database, _,
    hconnected, heq⟩
  · exact .bind_ok heq (.pure trivial)
  · exact .bind_ok heq (.bind_ok (require_eq_ok.mpr hconnected.isOpen) (.pure trivial))

/-- What `cwhip_sqlite_open` leaves: the connections that were there, and perhaps a new one. -/
structure Opened (native : Option Nat) (s s' : System) : Prop where
  running : Running none s'
  objects : SameObjects s s'
  acts : ∃ handle, Acts .sql handle s s'
  others : ∀ id connection, s.connections id = some connection → s'.connections id = some connection
  failed : native = none → Untouched s s'
  connection : ∀ id, native = some id →
    s.connections id = none ∧ ∃ connection, s'.connections id = some connection ∧
      connection.ownerOpen = true

/-- Opening adds a connection with one reference, or nothing at all. -/
theorem sqliteOpen_ends (h : Consistent s) (opening : Opening) :
    Ends .refused (s.sqliteOpen opening) fun result => Opened result.1 s result.2 := by
  cases opening with
  | refused =>
    exact .ok ⟨h.toRunning, .refl s, ⟨0, .refl s⟩, fun _ _ hid => hid, fun _ => .refl s,
      fun _ h => nomatch h⟩
  | failed =>
    have hopen : s.openDatabase.databases s.opened = some ⟨none⟩ := update_self _ _ _
    refine .bind_ok (System.closeDatabase_eq hopen .sql) (.pure ?_)
    have hconnections : (s.openDatabase.closed s.opened ⟨none⟩ .sql).connections = s.connections :=
      closed_connections _ _ _ _
    have hframe : Frame s (s.openDatabase.closed s.opened ⟨none⟩ .sql) :=
      (Frame.mk rfl rfl rfl rfl rfl : Frame s s.openDatabase).trans (frame_closed _ _ _ _)
    exact ⟨⟨h.registered.frame hframe,
        h.counted.shift hconnections fun id => by rw [shares_frame hframe],
        h.handles.openFailed⟩, hframe.sameObjects,
      ⟨s.opened, (Acts.opens s rfl).trans (.closes s.openDatabase ⟨none⟩ hopen)⟩,
      fun id connection hid => by rw [hconnections]; exact hid,
      fun _ => ⟨hconnections, hframe.statementRegistry, hframe.transactionRegistry⟩,
        fun _ h => nomatch h⟩
  | opened id =>
    refine (Ends.ensure _).bind fun _ hfresh => .pure ?_
    have hconnections : (s.openDatabase.setConnection id
        (some ⟨some s.opened, 1, true⟩)).connections =
        Function.update s.connections id (some ⟨some s.opened, 1, true⟩) := rfl
    have hnobody : s.shares id = 0 := by
      by_contra hne
      have hsome := h.counted.present id (by rw [extra_none]; omega)
      rw [hfresh] at hsome
      cases hsome
    have hcounted : Counted none (s.openDatabase.setConnection id
        (some ⟨some s.opened, 1, true⟩)) := by
      refine h.counted.setConnection (fun _ => rfl) hconnections (fun _ _ => rfl) ?_ Nat.one_pos
      rw [hnobody, extra_none]
      rfl
    refine ⟨⟨h.registered.frame ⟨rfl, rfl, rfl, rfl, rfl⟩, hcounted,
      h.handles.openConnection hfresh⟩,
      ⟨rfl, rfl, rfl⟩, ⟨s.opened, (Acts.opens s rfl).trans (.same rfl rfl rfl rfl)⟩,
        fun other found hfound => ?_,
      fun h => (nomatch h), fun other hother => ?_⟩
    · have hne : other ≠ id := by
        rintro rfl
        exact Option.some_ne_none _ (hfound.symm.trans hfresh)
      rw [hconnections, update_of_ne hne]
      exact hfound
    · obtain rfl := Option.some.inj hother
      exact ⟨hfresh, _, by rw [hconnections, update_self], rfl⟩

/-- What is left when the owner of a connection lets it go. -/
structure LetGo (id : Nat) (s s' : System) : Prop where
  running : Running none s'
  frame : Frame s s'
  acts : ∃ handle, Acts .sql handle s s'
  others : ∀ other connection, other ≠ id → s.connections other = some connection →
    s'.connections other = some connection

/-- Letting go of an open connection gives back the one reference of its owner. -/
theorem letGo_of_open (h : Running none s) (hid : s.Connected id connection handle database)
    (howner : connection.ownerOpen = true) :
    (s.setConnection id (some { connection with ownerOpen := false })).release id .sql =
        .ok ((s.setConnection id (some { connection with ownerOpen := false })).released id
          { connection with ownerOpen := false } handle database .sql) ∧
      LetGo id s ((s.setConnection id (some { connection with ownerOpen := false })).released id
        { connection with ownerOpen := false } handle database .sql) := by
  have hrunning : Running (some id)
      (s.setConnection id (some { connection with ownerOpen := false })) :=
    ⟨h.registered.frame (frame_setConnection s id _), h.counted.abandon hid.found howner,
      h.handles.setConnection hid.found rfl⟩
  have hconnected : (s.setConnection id (some { connection with ownerOpen := false })).Connected id
      { connection with ownerOpen := false } handle database :=
    ⟨update_self _ _ _, hid.handle_eq, hid.isOpen⟩
  obtain ⟨hrelease, hafter⟩ := hrunning.release hconnected .sql
  have hfirst : Acts .sql handle s
      (s.setConnection id (some { connection with ownerOpen := false })) :=
    .same rfl rfl rfl rfl
  refine ⟨hrelease, hafter, (frame_setConnection s id _).trans (frame_released _ _ _ _ _ _),
    ⟨handle, hfirst.trans (acts_released hconnected .sql)⟩, ?_⟩
  intro other found hother hfound
  unfold System.released
  split
  · show Function.update (System.closed _ handle database .sql).connections id none other =
      some found
    rw [update_of_ne hother, closed_connections]
    exact (update_of_ne hother _ _).trans hfound
  · show Function.update (Function.update s.connections id _) id _ other = some found
    rw [update_of_ne hother, update_of_ne hother]
    exact hfound

theorem sqliteReleaseConnection_eq (h : Running none s) (hid : s.connections id = some connection)
    (howner : connection.ownerOpen = true) :
    ∃ s', s.sqliteReleaseConnection (some id) = .ok s' ∧ LetGo id s s' := by
  obtain ⟨handle, database, hconnected⟩ := h.handles.isOpen id connection hid
  obtain ⟨hrelease, hletGo⟩ := letGo_of_open h hconnected howner
  refine ⟨_, ?_, hletGo⟩
  rw [System.sqliteReleaseConnection, hid]
  show (if !connection.ownerOpen then pure s
    else (s.setConnection id (some { connection with ownerOpen := false })).release id .sql) = _
  rw [howner]
  exact hrelease

/-- A refused close changes nothing; one that succeeds lets go. -/
theorem sqliteClose_cases (h : Running none s) (hid : s.connections id = some connection)
    (howner : connection.ownerOpen = true) (ok : Bool) :
    s.sqliteClose (some id) ok = .ok (false, s) ∨
      ∃ s', s.sqliteClose (some id) ok = .ok (true, s') ∧ LetGo id s s' := by
  obtain ⟨handle, database, hconnected⟩ := h.handles.isOpen id connection hid
  obtain ⟨_, hletGo⟩ := letGo_of_open h hconnected howner
  obtain ⟨handle', references, ownerOpen⟩ := connection
  obtain rfl : handle' = some handle := hconnected.handle_eq
  obtain rfl : ownerOpen = true := howner
  have hread : require (s.connections id) Refusal.useAfterFree = .ok ⟨some handle,
      references, true⟩ :=
    require_eq_ok.mpr hid
  simp only [System.sqliteClose, hread, bind, Except.bind, pure, Except.pure, Bool.not_true,
    Bool.false_eq_true,
    ↓reduceIte]
  by_cases hone : references = 1
  · subst hone
    cases ok with
    | false => exact .inl rfl
    | true =>
      -- the database goes first, and the record with the reference of the owner
      refine .inr ⟨_, ?_, hletGo⟩
      simp only [ne_eq, not_true_eq_false, ↓reduceIte, Bool.not_true, Bool.false_eq_true, require,
        System.closeDatabase_eq hconnected.isOpen, System.release, System.setConnection,
          update_self,
        bind, Except.bind, pure, Except.pure]
      unfold System.released System.closed
      cases database.transaction <;> simp [System.setConnection, System.setDatabase, System.record]
  · left
    rw [if_pos hone]

/-! ## Statements -/

/-- The registry finds the one record of an owner. -/
theorem find_owner (h : registry.WellFormed) (howners : (registry.entries.map owner).Nodup)
    (hentry : entry ∈ registry.entries) :
    ∃ address, registry.find (owner · == owner entry) = some (some address) ∧
      registry.memory address = some entry := by
  rcases h.find (owner · == owner entry) with ⟨_, hall⟩ | ⟨address, found, hfind, _, hread, hwanted⟩
  · exact absurd (hall entry hentry) (by simp)
  · have hfound : found ∈ registry.entries := h.mem_entries.mpr ⟨address, hread⟩
    obtain rfl := List.inj_on_of_nodup_map howners hfound hentry (beq_iff_eq.mp hwanted)
    exact ⟨address, hfind, hread⟩

theorem find_none (h : registry.WellFormed)
    (hobject : ∀ entry ∈ registry.entries, owner entry ≠ object) :
    registry.find (owner · == object) = some none := by
  rcases h.find (owner · == object) with ⟨hnone, _⟩ | ⟨address, found, _, _, hread, hwanted⟩
  · exact hnone
  · exact absurd (beq_iff_eq.mp hwanted) (hobject found (h.mem_entries.mpr ⟨address, hread⟩))

theorem Running.statement_connected (h : Running held s)
    (hentry : statement ∈ s.statementRegistry.entries) :
    ∃ connection handle database, s.Connected statement.connection connection handle database := by
  refine h.connected (h.counted.present _ ?_)
  have hpos : 0 < s.statementRegistry.entries.countP (·.connection == statement.connection) :=
    List.countP_pos_iff.mpr ⟨statement, hentry, by simp⟩
  unfold System.shares
  omega

theorem Running.transaction_connected (h : Running held s)
    (hentry : transaction ∈ s.transactionRegistry.entries) :
    ∃ connection handle database, s.Connected transaction.connection connection handle
    database := by
  refine h.connected (h.counted.present _ ?_)
  have hpos : 0 < s.transactionRegistry.entries.countP (·.connection == transaction.connection) :=
    List.countP_pos_iff.mpr ⟨transaction, hentry, by simp⟩
  unfold System.shares
  omega

theorem statement_cases (s : System) (object : Nat) :
    (∀ statement ∈ s.statementRegistry.entries, statement.ownerObject ≠ object) ∨
      ∃ statement ∈ s.statementRegistry.entries, statement.ownerObject = object := by
  by_cases h : ∃ statement ∈ s.statementRegistry.entries, statement.ownerObject = object
  · exact .inr h
  · exact .inl fun statement hmem heq => h ⟨statement, hmem, heq⟩

theorem transaction_cases (s : System) (object : Nat) :
    (∀ transaction ∈ s.transactionRegistry.entries, transaction.ownerObject ≠ object) ∨
      ∃ transaction ∈ s.transactionRegistry.entries, transaction.ownerObject = object := by
  by_cases h : ∃ transaction ∈ s.transactionRegistry.entries, transaction.ownerObject = object
  · exact .inr h
  · exact .inl fun transaction hmem heq => h ⟨transaction, hmem, heq⟩

theorem findStatement_none (h : Registered s)
    (hobject : ∀ statement ∈ s.statementRegistry.entries, statement.ownerObject ≠ object) :
    s.findStatement object = .ok none :=
  require_eq_ok.mpr (find_none h.statements hobject)

theorem findStatement_some (h : Registered s) (hentry : statement ∈ s.statementRegistry.entries) :
    ∃ address, s.findStatement statement.ownerObject = .ok (some address) ∧
      s.statementRegistry.memory address = some statement := by
  obtain ⟨address, hfind, hread⟩ := find_owner h.statements h.statementOwners hentry
  exact ⟨address, require_eq_ok.mpr hfind, hread⟩

/-- A statement still registered belongs to an open database. -/
theorem statementOf_ends (h : Consistent s) (object : Nat) :
    Ends .refused (s.statementOf object) fun found =>
      ∀ statement handle, found = some (statement, handle) →
      (s.databases handle).isSome = true := by
  rw [System.statementOf]
  rcases statement_cases s object with hnone | ⟨statement, hentry, rfl⟩
  · exact .bind_ok (findStatement_none h.registered hnone) (.pure fun _ _ h => nomatch h)
  · obtain ⟨address, hfind, hread⟩ := findStatement_some h.registered hentry
    obtain ⟨connection, handle, database, hconnected⟩ := h.statement_connected hentry
    refine .bind_ok hfind (.bind_ok (require_eq_ok.mpr hread)
      (.bind_ok (require_eq_ok.mpr hconnected.found)
      (.bind_ok (require_eq_ok.mpr hconnected.handle_eq)
        (.bind_ok (require_eq_ok.mpr hconnected.isOpen) (.pure ?_)))))
    rintro found handle' heq
    obtain ⟨rfl, rfl⟩ := Prod.mk.inj (Option.some.inj heq)
    rw [hconnected.isOpen]
    rfl

theorem sqliteStatementError_ends (h : Consistent s) (object : Nat) :
    Ends .refused (s.sqliteStatementError object) fun _ => True := by
  rw [System.sqliteStatementError]
  exact (statementOf_ends h object).bind fun _ _ => .pure trivial

theorem sqliteStatementExists_ends (h : Consistent s) (object : Nat) :
    Ends .refused (s.sqliteStatementExists object) fun _ => True := by
  rw [System.sqliteStatementExists]
  rcases statement_cases s object with hnone | ⟨statement, hentry, rfl⟩
  · exact .bind_ok (findStatement_none h.registered hnone) (.pure trivial)
  · obtain ⟨address, hfind, _⟩ := findStatement_some h.registered hentry
    exact .bind_ok hfind (.pure trivial)

/-- The SQL text may end transactions; the registries stay as they are. -/
theorem sqliteStep_ends (h : Consistent s) (object : Nat) (step : Step) (effects : List Effect) :
    Ends .refused (s.sqliteStep object step effects) fun result => Kept s result.2 ∧
    Untouched s result.2 := by
  rw [System.sqliteStep]
  refine (statementOf_ends h object).bind fun found hfound => ?_
  cases found with
  | none => exact .pure ⟨.refl h, .refl s⟩
  | some found =>
    obtain ⟨statement, handle⟩ := found
    exact (runSql_ends h (hfound statement handle rfl) effects).bind fun s' hran =>
      .pure ⟨hran.kept, hran.untouched⟩

theorem sqliteBind_ends (h : Consistent s) (object : Nat) (ok : Bool) :
    Ends .refused (s.sqliteBind object ok) fun _ => True := by
  rw [System.sqliteBind]
  refine (statementOf_ends h object).bind fun found _ => ?_
  cases found with
  | none | some found => exact .pure trivial

/-- Retaining adds one reference, or fails and changes nothing. -/
theorem retain_ends (h : Consistent s) (hid : s.Connected id connection handle database) :
    Ends .refused (s.retain id) fun result => (result = (false, s)) ∨
      (result.1 = true ∧ result.2 = s.retained id connection ∧ Running (some id) result.2) := by
  refine .bind_ok (require_eq_ok.mpr hid.found) (Ends.ite (fun _ => .pure (.inl rfl)) fun _ =>
    .pure (.inr ⟨rfl, rfl, ?_⟩))
  exact ⟨h.registered.frame (frame_setConnection s id _), h.counted.retain hid.found,
    h.handles.setConnection hid.found rfl⟩

theorem Owned.setConnection {connection' : Connection} (h : Owned s)
    (hid : s.connections id = some connection)
    (howner : connection'.ownerOpen = connection.ownerOpen) :
    Owned (s.setConnection id (some connection')) := by
  refine h.congr rfl fun other found hfound hopen => ?_
  by_cases hother : other = id
  · subst hother
    obtain rfl := Option.some.inj (hfound.symm.trans hid)
    exact ⟨connection', update_self _ _ _, howner.trans hopen⟩
  · exact ⟨found, (update_of_ne hother _ _).trans hfound, hopen⟩

theorem countP_cons_beq (owner : Nat) (connection : ρ → Nat) (entry : ρ) (entries : List ρ) :
    (entry :: entries).countP (connection · == owner) =
      entries.countP (connection · == owner) + extra (some (connection entry)) owner := by
  rw [List.countP_cons]
  by_cases heq : connection entry = owner
  · rw [heq, extra_self]
    simp
  · rw [extra_of_ne (Ne.symm heq)]
    simp [heq]

/-- Linking a statement makes up for the reference its connection was given. -/
theorem Running.linkStatement {object : StatementObject} (h : Running (some id) s)
    (hfresh : s.statementRegistry.memory address = none)
    (howner : ∀ statement ∈ s.statementRegistry.entries, statement.ownerObject ≠ target)
    (hobject : s.statementObjects target = some object) (hlive : object.destroyed = false) :
    Running none { s with statementRegistry := s.statementRegistry.link address ⟨id, target⟩ } := by
  have hentries := h.registered.statements.entries_link hfresh (Statement.mk id target)
  refine ⟨⟨h.registered.statements.link hfresh _, h.registered.transactions, ?_,
    h.registered.transactionOwners, ?_,
    h.registered.transactionObjects⟩, h.counted.shift rfl fun other => ?_,
    h.handles.congr (fun _ => rfl) (fun _ => rfl) rfl (fun _ => rfl) fun _ => rfl⟩
  · show ((s.statementRegistry.link address ⟨id, target⟩).entries.map Statement.ownerObject).Nodup
    rw [hentries, List.map_cons, List.nodup_cons]
    refine ⟨fun hmem => ?_, h.registered.statementOwners⟩
    obtain ⟨statement, hentry, heq⟩ := List.mem_map.mp hmem
    exact howner statement hentry heq
  · intro statement hmem
    have hcons : statement ∈ Statement.mk id target :: s.statementRegistry.entries := by
      rw [← hentries]
      exact hmem
    rcases List.mem_cons.mp hcons with rfl | hold
    · exact ⟨object, hobject, hlive⟩
    · exact h.registered.statementObjects statement hold
  · show (s.statementRegistry.link address ⟨id, target⟩).entries.countP _ +
      s.transactionRegistry.entries.countP _ + 0 =
      s.statementRegistry.entries.countP _ + s.transactionRegistry.entries.countP _ +
        extra (some id) other
    rw [hentries, countP_cons_beq]
    show _ + extra (some id) other + _ + 0 = _
    omega

/-- A statement that is not prepared leaves the objects untouched. -/
theorem sqlitePrepare_ends {object : StatementObject} (h : Consistent s) (hlive : Live s native)
    (hobject : s.statementObjects target = some object) (hdestroyed : object.destroyed = false)
    (prepared : Option Nat) :
    Ends .refused (s.sqlitePrepare native target prepared) fun result =>
      Kept s result.2 ∧ (result.1 = false → Untouched s result.2) := by
  have hsame : Kept s s ∧ (false = false → Untouched s s) := ⟨.refl h, fun _ => .refl s⟩
  rw [System.sqlitePrepare]
  rcases live_cases h.toRunning hlive with ⟨_, heq⟩ | ⟨id, connection, handle, database, _,
    hconnected, heq⟩
  · exact .bind_ok heq (.pure hsame)
  · refine .bind_ok heq ?_
    rcases statement_cases s target with hnone | ⟨statement, hentry, rfl⟩
    case inr =>
      obtain ⟨address, hfind, _⟩ := findStatement_some h.registered hentry
      exact .bind_ok hfind (.pure hsame)
    case inl =>
      refine .bind_ok (findStatement_none h.registered hnone)
        (.bind_ok (require_eq_ok.mpr hconnected.isOpen) ?_)
      cases prepared with
      | none => exact .pure hsame
      | some address =>
        refine (Ends.ensure _).bind fun _ hfresh =>
          (retain_ends h hconnected).bind fun result hresult => ?_
        rcases hresult with rfl | ⟨hretained, hstate, hrunning⟩
        · exact .pure hsame
        · obtain ⟨retained, s'⟩ := result
          obtain rfl : retained = true := hretained
          obtain rfl : s' = _ := hstate
          refine .pure ⟨⟨⟨hrunning.linkStatement hfresh hnone hobject hdestroyed, ?_⟩,
            ⟨rfl, rfl, rfl⟩, handle,
            .same rfl rfl rfl rfl⟩, fun h => nomatch h⟩
          have howned : Owned (s.retained id connection) :=
            h.owned.setConnection hconnected.found rfl
          exact howned.congr rfl fun other found hfound hopen => ⟨found, hfound, hopen⟩

/-- Removing a record leaves one reference of its connection to be given back. -/
theorem Running.removeStatement (h : Running none s)
    (hread : s.statementRegistry.memory address = some statement) :
    Running (some statement.connection) (s.withoutStatement address) := by
  have hperm := h.registered.statements.entries_remove hread
  have hmem : ∀ other ∈ (s.statementRegistry.remove address).entries,
      other ∈ s.statementRegistry.entries :=
    fun other hother => hperm.mem_iff.mpr (List.mem_cons_of_mem _ hother)
  refine ⟨⟨h.registered.statements.remove address, h.registered.transactions, ?_,
    h.registered.transactionOwners,
    fun other hother => h.registered.statementObjects other (hmem other hother),
      h.registered.transactionObjects⟩,
    h.counted.shift rfl fun other => ?_, h.handles.congr (fun _ => rfl)
      (fun _ => rfl) rfl (fun _ => rfl) fun _ => rfl⟩
  · have hnodup := (hperm.map Statement.ownerObject).nodup_iff.mp h.registered.statementOwners
    exact (List.nodup_cons.mp hnodup).2
  · show (s.statementRegistry.remove address).entries.countP _ +
        s.transactionRegistry.entries.countP _ +
        extra (some statement.connection) other =
      s.statementRegistry.entries.countP _ + s.transactionRegistry.entries.countP _ + 0
    rw [hperm.countP_eq, countP_cons_beq]
    omega

theorem unlink_entry (h : registry.WellFormed) (hread : registry.memory address = some entry) :
    ∃ rest, registry.unlink address = some rest ∧ rest.memory address = some entry ∧
      rest.free address = registry.remove address :=
  ⟨_, h.unlink address, hread, rfl⟩

theorem Owned.released (h : Owned s) (hcounted : Counted (some id) s)
    (hid : s.Connected id connection handle database) (ender : Ender) :
    Owned (s.released id connection handle database ender) :=
  h.congr (frame_released _ _ _ _ _ _).connectionObjects fun _ _ hfound hopen =>
    released_connections hcounted hid ender hfound hopen

theorem released_statementRegistry (s : System) (registry : RecordList Statement) (id : Nat)
    (connection : Connection) (handle : Nat) (database : Database) (ender : Ender) :
    { s.released id connection handle database ender with statementRegistry := registry } =
      System.released { s with statementRegistry := registry } id connection handle
          database ender := by
  unfold System.released System.closed
  split
  · cases database.transaction <;> rfl
  · rfl

theorem released_transactionRegistry (s : System) (registry : RecordList Transaction) (id : Nat)
    (connection : Connection) (handle : Nat) (database : Database) (ender : Ender) :
    { s.released id connection handle database ender with transactionRegistry := registry } =
      System.released { s with transactionRegistry := registry } id connection handle
          database ender := by
  unfold System.released System.closed
  split
  · cases database.transaction <;> rfl
  · rfl

/-- Finalizing leaves no record of the object. -/
theorem sqliteFinalize_ends (h : Consistent s) (object : Nat) (ok : Bool) :
    Ends .refused (s.sqliteFinalize object ok) fun result => Kept s result.2 ∧
      ∀ statement ∈ result.2.statementRegistry.entries, statement.ownerObject ≠ object := by
  rw [System.sqliteFinalize]
  rcases statement_cases s object with hnone | ⟨statement, hentry, rfl⟩
  · exact .bind_ok (findStatement_none h.registered hnone) (.pure ⟨.refl h, hnone⟩)
  · obtain ⟨address, hfind, hread⟩ := findStatement_some h.registered hentry
    obtain ⟨rest, hunlink, hrest, hfree⟩ := unlink_entry h.registered.statements hread
    obtain ⟨connection, handle, database, hconnected⟩ := h.statement_connected hentry
    have hrunning := h.removeStatement hread
    have hunlinked : System.Connected { s with statementRegistry := rest } statement.connection
        connection handle database := ⟨hconnected.found, hconnected.handle_eq, hconnected.isOpen⟩
    have hpos := h.counted.positive _ connection hconnected.found
    refine .bind_ok hfind (.bind_ok (require_eq_ok.mpr hunlink) (.bind_ok (require_eq_ok.mpr hrest)
      (.bind_ok (System.release_eq hunlinked hpos .sql) (.pure ?_))))
    have hremoved : (s.withoutStatement address).Connected statement.connection connection
        handle database :=
      ⟨hconnected.found, hconnected.handle_eq, hconnected.isOpen⟩
    -- the record is freed after the release, which does not look at it
    have hstate : { System.released { s with statementRegistry := rest } statement.connection
          connection handle database .sql with
        statementRegistry := (System.released { s with statementRegistry := rest }
          statement.connection connection
          handle database .sql).statementRegistry.free address } =
        (s.withoutStatement address).released statement.connection connection handle
            database .sql := by
      rw [(frame_released _ _ _ _ _ _).statementRegistry, released_statementRegistry, hfree]
      rfl
    rw [hstate]
    obtain ⟨_, hafter⟩ := hrunning.release hremoved .sql
    have hframe := frame_released (s.withoutStatement address) statement.connection connection
      handle database .sql
    have howned : Owned (s.withoutStatement address) :=
      h.owned.congr rfl fun other found hfound hopen => ⟨found, hfound, hopen⟩
    have hobjects : SameObjects s (s.withoutStatement address) := ⟨rfl, rfl, rfl⟩
    have hfirst : Acts .sql handle s (s.withoutStatement address) := .same rfl rfl rfl rfl
    refine ⟨⟨⟨hafter, howned.released hrunning.counted hremoved .sql⟩,
      hobjects.trans hframe.sameObjects, handle,
      hfirst.trans (acts_released hremoved .sql)⟩, fun other hother heq => ?_⟩
    rw [hframe.statementRegistry] at hother
    -- its owner had one entry only
    have hperm := h.registered.statements.entries_remove hread
    have hnodup := (hperm.map Statement.ownerObject).nodup_iff.mp h.registered.statementOwners
    exact (List.nodup_cons.mp hnodup).1 (List.mem_map.mpr ⟨other, hother, heq⟩)

/-! ## Transactions -/

theorem findTransaction_none (h : Registered s)
    (hobject : ∀ transaction ∈ s.transactionRegistry.entries, transaction.ownerObject ≠ object) :
    s.findTransaction object = .ok none :=
  require_eq_ok.mpr (find_none h.transactions hobject)

theorem findTransaction_some (h : Registered s)
    (hentry : transaction ∈ s.transactionRegistry.entries) :
    ∃ address, s.findTransaction transaction.ownerObject = .ok (some address) ∧
      s.transactionRegistry.memory address = some transaction := by
  obtain ⟨address, hfind, hread⟩ := find_owner h.transactions h.transactionOwners hentry
  exact ⟨address, require_eq_ok.mpr hfind, hread⟩

theorem transactionOf_none (h : Registered s)
    (hobject : ∀ transaction ∈ s.transactionRegistry.entries, transaction.ownerObject ≠ object) :
    s.transactionOf object = .ok none := by
  rw [System.transactionOf, findTransaction_none h hobject]
  rfl

theorem transactionOf_some (h : Running held s)
    (hentry : transaction ∈ s.transactionRegistry.entries)
    (hconnected : s.Connected transaction.connection connection handle database) :
    ∃ address, s.transactionRegistry.memory address = some transaction ∧
      s.transactionOf transaction.ownerObject =
      .ok (some (address, transaction, some (handle, database))) := by
  obtain ⟨address, hfind, hread⟩ := findTransaction_some h.registered hentry
  refine ⟨address, hread, ?_⟩
  simp only [System.transactionOf, bind_eq_ok]
  refine ⟨some address, hfind, ?_⟩
  simp only [bind_eq_ok, require_eq_ok]
  refine ⟨transaction, hread, connection, hconnected.found, ?_⟩
  rw [hconnected.handle_eq]
  exact bind_eq_ok.mpr ⟨database, require_eq_ok.mpr hconnected.isOpen, rfl⟩

/-- What a function of the object of a transaction leaves. -/
structure Asked (transaction : Transaction) (handle : Nat) (s s' : System) : Prop where
  consistent : Consistent s'
  objects : SameObjects s s'
  acts : Acts (.object transaction.begun) handle s s'

/-- A commit or rollback, refused or not, leaves the objects untouched. -/
theorem transactionFinish_ends (h : Consistent s)
    (hentry : transaction ∈ s.transactionRegistry.entries)
    (hconnected : s.Connected transaction.connection connection handle database) (finish : Finish) :
    Ends .refused (s.transactionFinish transaction.ownerObject finish) fun result =>
      Asked transaction handle s result.2 ∧ Untouched s result.2 ∧
      (result.2.databases handle).isSome = true := by
  have hopen : (s.databases handle).isSome = true := by
    rw [hconnected.isOpen]
    rfl
  have hsame : Asked transaction handle s s ∧ Untouched s s ∧ (s.databases handle).isSome = true :=
    ⟨⟨h, .refl s, .refl s⟩, .refl s, hopen⟩
  obtain ⟨address, _, hof⟩ := transactionOf_some h.toRunning hentry hconnected
  rw [System.transactionFinish]
  refine .bind_ok hof ?_
  show Ends _ (if database.autocommit then _ else _) _
  refine Ends.ite (fun _ => .pure hsame) fun hauto => ?_
  cases finish with
  | kept => exact .pure hsame
  | ended ok =>
    obtain ⟨number, hnumber⟩ : ∃ number, database.transaction = some number := by
      unfold Database.autocommit at hauto
      cases htransaction : database.transaction with
      | none => exact absurd (by rw [htransaction]; rfl) hauto
      | some number => exact ⟨number, rfl⟩
    have hinside : s.databases handle = some ⟨some number⟩ := by
      rw [hconnected.isOpen, ← hnumber]
    refine .bind_ok (endIn_eq hinside _) (.pure ?_)
    refine ⟨⟨h.end hinside _, ⟨rfl, rfl, rfl⟩, .ends s number hinside⟩, ⟨rfl, rfl, rfl⟩, ?_⟩
    show (Function.update s.databases handle _ handle).isSome = true
    rw [update_self]
    rfl

theorem sqliteTransactionActive_some (h : Consistent s)
    (hentry : transaction ∈ s.transactionRegistry.entries)
    (hconnected : s.Connected transaction.connection connection handle database) :
    s.sqliteTransactionActive transaction.ownerObject = .ok (!database.autocommit) := by
  obtain ⟨address, _, hof⟩ := transactionOf_some h.toRunning hentry hconnected
  rw [System.sqliteTransactionActive, hof]
  rfl

theorem Running.removeTransaction (h : Running none s)
    (hread : s.transactionRegistry.memory address = some transaction) :
    Running (some transaction.connection) (s.withoutTransaction address) := by
  have hperm := h.registered.transactions.entries_remove hread
  have hmem : ∀ other ∈ (s.transactionRegistry.remove address).entries,
      other ∈ s.transactionRegistry.entries :=
    fun other hother => hperm.mem_iff.mpr (List.mem_cons_of_mem _ hother)
  refine ⟨⟨h.registered.statements, h.registered.transactions.remove address,
    h.registered.statementOwners, ?_,
    h.registered.statementObjects, fun other hother => h.registered.transactionObjects other
      (hmem other hother)⟩,
    h.counted.shift rfl fun other => ?_, h.handles.congr (fun _ => rfl)
      (fun _ => rfl) rfl (fun _ => rfl) fun _ => rfl⟩
  · have hnodup := (hperm.map Transaction.ownerObject).nodup_iff.mp h.registered.transactionOwners
    exact (List.nodup_cons.mp hnodup).2
  · show s.statementRegistry.entries.countP _ +
        (s.transactionRegistry.remove address).entries.countP _ +
        extra (some transaction.connection) other =
      s.statementRegistry.entries.countP _ + s.transactionRegistry.entries.countP _ + 0
    rw [hperm.countP_eq, countP_cons_beq]
    omega

theorem Running.linkTransaction {begun : Nat} {object : TransactionObject} (h : Running (some id) s)
    (hfresh : s.transactionRegistry.memory address = none)
    (howner : ∀ transaction ∈ s.transactionRegistry.entries, transaction.ownerObject ≠ target)
    (hobject : s.transactionObjects target = some object) (hlive : object.destroyed = false) :
    Running none { s with transactionRegistry := s.transactionRegistry.link address ⟨id, target,
    begun⟩ } := by
  have hentries := h.registered.transactions.entries_link hfresh (Transaction.mk id target begun)
  refine ⟨⟨h.registered.statements, h.registered.transactions.link hfresh _,
    h.registered.statementOwners, ?_,
    h.registered.statementObjects, ?_⟩, h.counted.shift rfl fun other => ?_,
    h.handles.congr (fun _ => rfl) (fun _ => rfl) rfl (fun _ => rfl) fun _ => rfl⟩
  · show ((s.transactionRegistry.link address ⟨id, target, begun⟩).entries.map
      Transaction.ownerObject).Nodup
    rw [hentries, List.map_cons, List.nodup_cons]
    refine ⟨fun hmem => ?_, h.registered.transactionOwners⟩
    obtain ⟨transaction, hentry, heq⟩ := List.mem_map.mp hmem
    exact howner transaction hentry heq
  · intro transaction hmem
    have hcons : transaction ∈ Transaction.mk id target begun :: s.transactionRegistry.entries := by
      rw [← hentries]
      exact hmem
    rcases List.mem_cons.mp hcons with rfl | hold
    · exact ⟨object, hobject, hlive⟩
    · exact h.registered.transactionObjects transaction hold
  · show s.statementRegistry.entries.countP _ + (s.transactionRegistry.link address ⟨id, target,
        begun⟩).entries.countP _ +
        0 = s.statementRegistry.entries.countP _ + s.transactionRegistry.entries.countP _ +
          extra (some id) other
    rw [hentries, countP_cons_beq]
    show _ + (_ + extra (some id) other) + 0 = _
    omega

/-- Closing leaves no record of the transaction's object. -/
theorem sqliteTransactionClose_ends (h : Consistent s)
    (hentry : transaction ∈ s.transactionRegistry.entries)
    (hconnected : s.Connected transaction.connection connection handle database) (finish : Finish) :
    Ends .refused (s.sqliteTransactionClose transaction.ownerObject finish) fun result =>
      Asked transaction handle s result.2 ∧
        ∀ other ∈ result.2.transactionRegistry.entries, other.ownerObject ≠
        transaction.ownerObject := by
  obtain ⟨address, hread, hof⟩ := transactionOf_some h.toRunning hentry hconnected
  rw [System.sqliteTransactionClose]
  refine .bind_ok hof ?_
  have hfinished : Ends .refused (if !database.autocommit then s.transactionFinish
    transaction.ownerObject finish
      else .ok (true, s)) fun result => Asked transaction handle s result.2 ∧ Untouched s result.2 ∧
        (result.2.databases handle).isSome = true := by
    refine Ends.ite (fun _ => transactionFinish_ends h hentry hconnected finish) fun _ =>
      .ok ⟨⟨h, .refl s, .refl s⟩,
      .refl s, ?_⟩
    rw [hconnected.isOpen]
    rfl
  refine hfinished.bind fun result hresult => ?_
  obtain ⟨ok, s₁⟩ := result
  obtain ⟨hasked, huntouched, hopen⟩ := hresult
  have h₁ : Consistent s₁ := hasked.consistent
  have hread₁ : s₁.transactionRegistry.memory address = some transaction := by
    rw [huntouched.transactionRegistry]
    exact hread
  obtain ⟨database₁, hdatabase₁⟩ := Option.isSome_iff_exists.mp hopen
  have hconnected₁ : s₁.Connected transaction.connection connection handle database₁ :=
    ⟨by rw [huntouched.connections]; exact hconnected.found, hconnected.handle_eq, hdatabase₁⟩
  -- the record is taken out, then its reference is given back
  obtain ⟨rest, hunlink, hrest, hfree⟩ := unlink_entry h₁.registered.transactions hread₁
  have hrunning := h₁.removeTransaction hread₁
  have hunlinked : System.Connected { s₁ with transactionRegistry := rest } transaction.connection
      connection handle database₁ := ⟨hconnected₁.found, hconnected₁.handle_eq, hconnected₁.isOpen⟩
  have hpos := h₁.counted.positive _ connection hconnected₁.found
  refine .bind_ok (require_eq_ok.mpr hunlink) (.bind_ok (require_eq_ok.mpr hrest)
    (.bind_ok (System.release_eq hunlinked hpos _) (.pure ?_)))
  have hremoved : (s₁.withoutTransaction address).Connected transaction.connection connection
      handle database₁ :=
    ⟨hconnected₁.found, hconnected₁.handle_eq, hconnected₁.isOpen⟩
  have hstate : { System.released { s₁ with transactionRegistry := rest } transaction.connection
        connection handle database₁ (.object transaction.begun) with
      transactionRegistry := (System.released { s₁ with transactionRegistry := rest }
        transaction.connection
        connection handle database₁ (.object transaction.begun)).transactionRegistry.free address }
          =
      (s₁.withoutTransaction address).released transaction.connection connection handle database₁
        (.object transaction.begun) := by
    rw [(frame_released _ _ _ _ _ _).transactionRegistry, released_transactionRegistry, hfree]
    rfl
  rw [hstate]
  obtain ⟨_, hafter⟩ := hrunning.release hremoved (.object transaction.begun)
  have hframe := frame_released (s₁.withoutTransaction address) transaction.connection connection
    handle database₁ (.object transaction.begun)
  have howned : Owned (s₁.withoutTransaction address) :=
    h₁.owned.congr rfl fun other found hfound hopen => ⟨found, hfound, hopen⟩
  have hobjects : SameObjects s₁ (s₁.withoutTransaction address) := ⟨rfl, rfl, rfl⟩
  have hperm := h₁.registered.transactions.entries_remove hread₁
  have hremove : Acts (.object transaction.begun) handle s₁ (s₁.withoutTransaction address) :=
    .quiet rfl rfl rfl fun other hother => .inl (hperm.mem_iff.mpr (List.mem_cons_of_mem _ hother))
  refine ⟨⟨⟨hafter, howned.released hrunning.counted hremoved _⟩,
    hasked.objects.trans (hobjects.trans hframe.sameObjects),
    hasked.acts.trans (hremove.trans (acts_released hremoved _))⟩, fun other hother heq => ?_⟩
  rw [hframe.transactionRegistry] at hother
  have hnodup := (hperm.map Transaction.ownerObject).nodup_iff.mp h₁.registered.transactionOwners
  exact (List.nodup_cons.mp hnodup).1 (List.mem_map.mpr ⟨other, hother, heq⟩)

theorem released_retained (hid : s.connections id = some connection)
    (hpos : 0 < connection.references) (ender : Ender) :
    (s.retained id connection).released id { connection with references := connection.references +
      1 } handle database ender = s := by
  have hmore : ¬ connection.references + 1 = 1 := by omega
  unfold System.released
  rw [if_neg hmore]
  show { s with
    connections := Function.update (Function.update s.connections id _) id (some connection) } = s
  rw [Function.update_idem, ← hid, Function.update_eq_self]

theorem beginIn_eq (hinside : s.databases handle = some ⟨none⟩) :
    s.beginIn handle = .ok (s.afterBegin handle) := by
  rw [System.beginIn, hinside]
  rfl

/-- A transaction that began is registered with a reference of its own. -/
theorem begin_registered {object : TransactionObject} (h : Consistent s)
    (hrunning : Running (some id) (s.retained id connection))
    (hid : s.connections id = some connection) (hopen : s.databases handle = some ⟨none⟩)
    (hfresh : s.transactionRegistry.memory address = none)
    (hnone : ∀ transaction ∈ s.transactionRegistry.entries, transaction.ownerObject ≠ target)
    (hobject : s.transactionObjects target = some object) (hdestroyed : object.destroyed = false) :
    Kept s { (s.retained id connection).afterBegin handle with
      transactionRegistry := s.transactionRegistry.link address ⟨id, target, s.begun⟩ } := by
  have howned : Owned (s.retained id connection) := h.owned.setConnection hid rfl
  have hlinked : Consistent { s.retained id connection with
      transactionRegistry := s.transactionRegistry.link address ⟨id, target, s.begun⟩ } :=
    ⟨hrunning.linkTransaction hfresh hnone hobject hdestroyed,
      howned.congr rfl fun other found hfound hopen => ⟨found, hfound, hopen⟩⟩
  have hretain : Acts .sql handle s (s.retained id connection) := .same rfl rfl rfl rfl
  have hregister : Acts .sql handle ((s.retained id connection).afterBegin handle)
      { (s.retained id connection).afterBegin handle with
        transactionRegistry := s.transactionRegistry.link address ⟨id, target, s.begun⟩ } := by
    refine .quiet rfl rfl rfl fun transaction hmem => ?_
    have hcons : transaction ∈ Transaction.mk id target s.begun ::
        s.transactionRegistry.entries := by
      rw [← h.registered.transactions.entries_link hfresh]
      exact hmem
    rcases List.mem_cons.mp hcons with rfl | hold
    · exact .inr (Nat.lt_succ_self _)
    · exact .inl hold
  have hbegin : Acts .sql handle (s.retained id connection)
      ((s.retained id connection).afterBegin handle) :=
    .begins (s.retained id connection) rfl hopen
  exact ⟨hlinked.begin hopen, ⟨rfl, rfl, rfl⟩, handle, hretain.trans (hbegin.trans hregister)⟩

/-- A transaction that does not begin leaves the store as it was. -/
theorem sqliteBeginTransaction_ends {object : TransactionObject} (h : Consistent s)
    (hlive : Live s native) (hobject : s.transactionObjects target = some object)
    (hdestroyed : object.destroyed = false) (began : Option (Nat × Bool)) :
    Ends .refused (s.sqliteBeginTransaction native target began) fun result =>
      Kept s result.2 ∧ (result.1 = false → result.2 = s) := by
  have hsame : Kept s s ∧ (false = false → s = s) := ⟨.refl h, fun _ => rfl⟩
  rw [System.sqliteBeginTransaction]
  rcases live_cases h.toRunning hlive with ⟨_, heq⟩ | ⟨id, connection, handle, database, _,
    hconnected, heq⟩
  · exact .bind_ok heq (.pure hsame)
  · refine .bind_ok heq ?_
    rcases transaction_cases s target with hnone | ⟨transaction, hentry, rfl⟩
    case inr =>
      obtain ⟨address, hfind, _⟩ := findTransaction_some h.registered hentry
      exact .bind_ok hfind (.pure hsame)
    case inl =>
      refine .bind_ok (findTransaction_none h.registered hnone) ?_
      cases began with
      | none => exact .pure hsame
      | some began =>
        obtain ⟨address, ok⟩ := began
        refine (Ends.ensure _).bind fun _ hfresh =>
          (retain_ends h hconnected).bind fun result hresult => ?_
        rcases hresult with rfl | ⟨hretained, hstate, hrunning⟩
        · exact .pure hsame
        · obtain ⟨retained, s'⟩ := result
          obtain rfl : retained = true := hretained
          obtain rfl : s' = _ := hstate
          have hconnected' : (s.retained id connection).Connected id
              { connection with references := connection.references + 1 } handle database :=
            ⟨update_self _ _ _, hconnected.handle_eq, hconnected.isOpen⟩
          refine .bind_ok (require_eq_ok.mpr hconnected'.isOpen)
            (Ends.ite (fun hbegins => ?_) fun _ => ?_)
          · obtain ⟨hauto, _⟩ := Bool.and_eq_true_iff.mp hbegins
            obtain ⟨number⟩ := database
            obtain rfl : number = none := Option.isNone_iff_eq_none.mp hauto
            exact .bind_ok (beginIn_eq hconnected'.isOpen)
              (.pure ⟨begin_registered h hrunning hconnected.found
              hconnected.isOpen hfresh hnone hobject hdestroyed, fun h => nomatch h⟩)
          · -- BEGIN has failed: the reference goes back
            obtain ⟨hrelease, _⟩ := hrunning.release hconnected' .sql
            rw [released_retained hconnected.found
              (h.counted.positive id connection hconnected.found)] at hrelease
            exact .bind_ok hrelease (.pure hsame)

/-! ## Objects -/

theorem Running.setObjects (h : Running held s) (hconnections : s'.connections = s.connections)
    (hstatements : s'.statementRegistry = s.statementRegistry)
    (htransactions : s'.transactionRegistry = s.transactionRegistry)
    (hdatabases : s'.databases = s.databases) (hopened : s'.opened = s.opened)
    (hopen : ∀ handle, s'.log.count (.opened handle) = s.log.count (.opened handle))
    (hclose : ∀ handle, s'.log.count (.closed handle) = s.log.count (.closed handle))
    (hstatement : ∀ statement ∈ s.statementRegistry.entries,
      ∃ object, s'.statementObjects statement.ownerObject = some object ∧ object.destroyed = false)
    (htransaction : ∀ transaction ∈ s.transactionRegistry.entries,
      ∃ object, s'.transactionObjects transaction.ownerObject = some object ∧
      object.destroyed = false) :
    Running held s' where
  registered := by
    refine ⟨?_, ?_, ?_, ?_, ?_, ?_⟩
    · rw [hstatements]
      exact h.registered.statements
    · rw [htransactions]
      exact h.registered.transactions
    · rw [hstatements]
      exact h.registered.statementOwners
    · rw [htransactions]
      exact h.registered.transactionOwners
    · rw [hstatements]
      exact hstatement
    · rw [htransactions]
      exact htransaction
  counted := by
    refine h.counted.shift hconnections fun id => ?_
    unfold System.shares
    rw [hstatements, htransactions]
  handles := h.handles.congr (fun id => by rw [hconnections])
    (fun handle => by rw [hdatabases]) hopened hopen hclose

end Cwhip.Sqlite
