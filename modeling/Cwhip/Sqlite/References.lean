/-
  Cwhip.Sqlite.References

  The reference counts of the connections, their databases and the two registries
  (`native/sqlite.c`), and what each part of the native functions does to them.

  Inside a function a reference may be held that nobody has yet, or any more:
  `Counted` counts it, so that retaining, linking, unlinking and releasing are
  four small steps between such states.
-/

import Cwhip.Sqlite.Objects

namespace Cwhip.Sqlite

open Cwhip.Lib
open Function (update_of_ne update_self)

namespace System

/-! ## What is shared -/

/-- The statements and transactions of a connection. -/
def shares (s : System) (id : Nat) : Nat :=
  s.statementRegistry.entries.countP (·.connection == id) +
    s.transactionRegistry.entries.countP (·.connection == id)

structure Connected (s : System) (id : Nat) (connection : Connection) (handle : Nat)
    (database : Database) :
    Prop where
  found : s.connections id = some connection
  handle_eq : connection.database = some handle
  isOpen : s.databases handle = some database

/-- After `closeDatabase`. -/
def closed (s : System) (id : Nat) (database : Database) (ender : Ender) : System :=
  ((match database.transaction with
    | some transaction => s.record (.ended transaction ender)
    | none => s).setDatabase id none).record (.closed id)

theorem closeDatabase_eq {s : System} {id : Nat} {database : Database}
    (h : s.databases id = some database)
    (ender : Ender) : s.closeDatabase id ender = .ok (s.closed id database ender) := by
  rw [closeDatabase, h]
  rfl

/-- After `release`. -/
def released (s : System) (id : Nat) (connection : Connection) (handle : Nat) (database : Database)
    (ender : Ender) : System :=
  if connection.references = 1 then (s.closed handle database ender).setConnection id none
  else s.setConnection id (some { connection with references := connection.references - 1 })

/-- Giving back a reference closes the database with the last one. -/
theorem release_eq {s : System} {id handle : Nat} {connection : Connection} {database : Database}
    (h : s.Connected id connection handle database) (hpos : 0 < connection.references)
    (ender : Ender) :
    s.release id ender = .ok (s.released id connection handle database ender) := by
  obtain ⟨handle', references, ownerOpen⟩ := connection
  obtain rfl : handle' = some handle := h.handle_eq
  have hread : require (s.connections id) Refusal.useAfterFree = .ok ⟨some handle, references,
      ownerOpen⟩ :=
    require_eq_ok.mpr h.found
  have hopen : (s.setConnection id (some ⟨some handle, references - 1, ownerOpen⟩)).databases handle
      = some database :=
    h.isOpen
  rw [release, hread]
  simp only [Bind.bind, Except.bind, Pure.pure, Except.pure, released]
  rw [if_neg (Nat.ne_of_gt hpos)]
  by_cases hone : references = 1
  · -- the database is open when its last reference goes
    subst hone
    rw [if_pos rfl, if_pos rfl, closeDatabase_eq hopen]
    unfold closed
    cases database.transaction <;> simp [setConnection, setDatabase, record]
  · have hpos' : 0 < references := hpos
    rw [if_neg (by omega), if_neg hone]

/-- After `retain`. -/
def retained (s : System) (id : Nat) (connection : Connection) : System :=
  s.setConnection id (some { connection with references := connection.references + 1 })

/-- After `beginIn`. -/
def afterBegin (s : System) (handle : Nat) : System :=
  { s.setDatabase handle (some ⟨some s.begun⟩) with begun := s.begun + 1 }.record (.began s.begun)

/-- After `endIn`. -/
def afterEnd (s : System) (handle transaction : Nat) (ender : Ender) : System :=
  (s.setDatabase handle (some ⟨none⟩)).record (.ended transaction ender)

/-- After the record at an address is unlinked and freed. -/
def withoutStatement (s : System) (address : Nat) : System :=
  { s with statementRegistry := s.statementRegistry.remove address }

def withoutTransaction (s : System) (address : Nat) : System :=
  { s with transactionRegistry := s.transactionRegistry.remove address }

end System

/-- What stays when only connections, databases and the log change. -/
structure Frame (s s' : System) : Prop where
  statementRegistry : s'.statementRegistry = s.statementRegistry
  transactionRegistry : s'.transactionRegistry = s.transactionRegistry
  connectionObjects : s'.connectionObjects = s.connectionObjects
  statementObjects : s'.statementObjects = s.statementObjects
  transactionObjects : s'.transactionObjects = s.transactionObjects

/-- Frames compose: neither step touches a registry. -/
theorem Frame.trans {s₁ s₂ s₃ : System} (h : Frame s₁ s₂) (h' : Frame s₂ s₃) : Frame s₁ s₃ :=
  ⟨h'.1.trans h.1, h'.2.trans h.2, h'.3.trans h.3, h'.4.trans h.4, h'.5.trans h.5⟩

theorem frame_setConnection (s : System) (id : Nat) (connection : Option Connection) :
    Frame s (s.setConnection id connection) :=
  ⟨rfl, rfl, rfl, rfl, rfl⟩

theorem frame_closed (s : System) (id : Nat) (database : Database) (ender : Ender) :
    Frame s (s.closed id database ender) := by
  unfold System.closed
  cases database.transaction <;> exact ⟨rfl, rfl, rfl, rfl, rfl⟩

theorem frame_released (s : System) (id : Nat) (connection : Connection) (handle : Nat)
    (database : Database)
    (ender : Ender) : Frame s (s.released id connection handle database ender) := by
  unfold System.released
  split
  · exact (frame_closed s handle database ender).trans (frame_setConnection _ id none)
  · exact frame_setConnection s id _

/-! ## The registries -/

/-- In both registries an owner has at most one entry, and is an object that is there
    and whose destructor has not run. -/
structure Registered (s : System) : Prop where
  statements : s.statementRegistry.WellFormed
  transactions : s.transactionRegistry.WellFormed
  statementOwners : (s.statementRegistry.entries.map Statement.ownerObject).Nodup
  transactionOwners : (s.transactionRegistry.entries.map Transaction.ownerObject).Nodup
  statementObjects : ∀ statement ∈ s.statementRegistry.entries,
    ∃ object, s.statementObjects statement.ownerObject = some object ∧ object.destroyed = false
  transactionObjects : ∀ transaction ∈ s.transactionRegistry.entries,
    ∃ object, s.transactionObjects transaction.ownerObject = some object ∧ object.destroyed = false

variable {s' : System} {held : Option Nat} {handle : Nat} {database : Database}

theorem Registered.frame {s : System} (h : Registered s) (hframe : Frame s s') : Registered s' := by
  refine ⟨?_, ?_, ?_, ?_, ?_, ?_⟩
  · rw [hframe.statementRegistry]
    exact h.statements
  · rw [hframe.transactionRegistry]
    exact h.transactions
  · rw [hframe.statementRegistry]
    exact h.statementOwners
  · rw [hframe.transactionRegistry]
    exact h.transactionOwners
  · rw [hframe.statementRegistry, hframe.statementObjects]
    exact h.statementObjects
  · rw [hframe.transactionRegistry, hframe.transactionObjects]
    exact h.transactionObjects

/-! ## The counts -/

/-- One, for the connection of the reference that is held. -/
def extra (held : Option Nat) (id : Nat) : Nat := if held = some id then 1 else 0

/-- The reference count of a connection is that of its owner, its statements and its
    transactions, and of the reference that the running function holds. -/
structure Counted (held : Option Nat) (s : System) : Prop where
  references : ∀ id connection, s.connections id = some connection →
    connection.references = (if connection.ownerOpen then 1 else 0) + s.shares id + extra held id
  positive : ∀ id connection, s.connections id = some connection → 0 < connection.references
  present : ∀ id, 0 < s.shares id + extra held id → (s.connections id).isSome = true

/-- Counts stay right where the shares move with the reference in hand. -/
theorem Counted.shift {s : System} {held' : Option Nat} (h : Counted held s)
    (hconnections : s'.connections = s.connections)
    (hshift : ∀ id, s'.shares id + extra held' id = s.shares id + extra held id) :
    Counted held' s' where
  references := by
    intro id connection hid
    rw [hconnections] at hid
    have hcount := h.references id connection hid
    have hsame := hshift id
    omega
  positive := by
    intro id connection hid
    rw [hconnections] at hid
    exact h.positive id connection hid
  present := by
    intro id hpos
    rw [hconnections]
    exact h.present id (by rw [← hshift id]; exact hpos)

theorem shares_frame {s : System} (hframe : Frame s s')
    (id : Nat) : s'.shares id = s.shares id := by
  unfold System.shares
  rw [hframe.statementRegistry, hframe.transactionRegistry]

theorem Counted.setConnection {s : System} {held' : Option Nat} {id : Nat} {connection : Connection}
    (h : Counted held s) (hshares : ∀ other, s'.shares other = s.shares other)
    (hconnections : s'.connections = Function.update s.connections id (some connection))
    (hothers : ∀ other ≠ id, extra held' other = extra held other)
    (hcount : connection.references = (if connection.ownerOpen then 1 else 0) + s.shares id +
    extra held' id)
    (hpos : 0 < connection.references) : Counted held' s' where
  references := by
    intro other found hfound
    rw [hconnections] at hfound
    rw [hshares]
    by_cases hother : other = id
    · subst hother
      rw [update_self] at hfound
      obtain rfl := Option.some.inj hfound
      exact hcount
    · rw [update_of_ne hother] at hfound
      rw [hothers other hother]
      exact h.references other found hfound
  positive := by
    intro other found hfound
    rw [hconnections] at hfound
    by_cases hother : other = id
    · subst hother
      rw [update_self] at hfound
      obtain rfl := Option.some.inj hfound
      exact hpos
    · rw [update_of_ne hother] at hfound
      exact h.positive other found hfound
  present := by
    intro other hpos
    rw [hconnections]
    by_cases hother : other = id
    · subst hother
      rw [update_self]
      rfl
    · rw [update_of_ne hother]
      rw [hshares, hothers other hother] at hpos
      exact h.present other hpos

theorem extra_none (id : Nat) : extra none id = 0 := rfl

theorem extra_self (id : Nat) : extra (some id) id = 1 := if_pos rfl

theorem extra_of_ne {id other : Nat} (h : other ≠ id) : extra (some id) other = 0 :=
  if_neg fun heq => h (Option.some.inj heq).symm

section

variable {s : System} {id : Nat} {connection : Connection}

/-- The reference in hand is the one just added. -/
theorem Counted.retain (h : Counted none s) (hid : s.connections id = some connection) :
    Counted (some id) (s.retained id connection) := by
  refine h.setConnection (fun _ => rfl) rfl (fun other hother => extra_of_ne hother) ?_
    (Nat.succ_pos _)
  have hcount := h.references id connection hid
  rw [extra_none] at hcount
  rw [extra_self]
  show connection.references + 1 = (if connection.ownerOpen then 1 else 0) + s.shares id + 1
  omega

/-- A closed owner leaves its reference in hand. -/
theorem Counted.abandon (h : Counted none s) (hid : s.connections id = some connection)
    (howner : connection.ownerOpen = true) :
    Counted (some id) (s.setConnection id (some { connection with ownerOpen := false })) := by
  refine h.setConnection (fun _ => rfl) rfl (fun other hother => extra_of_ne hother) ?_
    (h.positive id connection hid)
  have hcount := h.references id connection hid
  rw [extra_none, howner] at hcount
  rw [extra_self]
  show connection.references = 0 + s.shares id + 1
  simp only [↓reduceIte] at hcount
  omega

/-- The reference in hand is given back. -/
theorem Counted.release {handle : Nat} {database : Database} (h : Counted (some id) s)
    (hid : s.Connected id connection handle database) (ender : Ender) :
    Counted none (s.released id connection handle database ender) := by
  have hcount := h.references id connection hid.found
  rw [extra_self] at hcount
  unfold System.released
  split
  · next hone =>
    -- nobody else has a reference
    have hshares : s.shares id = 0 := by omega
    have hframe : Frame s ((s.closed handle database ender).setConnection id none) :=
      (frame_closed s handle database ender).trans (frame_setConnection _ id none)
    have hconnections : ((s.closed handle database ender).setConnection id none).connections =
        Function.update s.connections id none := by
      unfold System.closed
      cases database.transaction <;> rfl
    have hother : ∀ {other found}, Function.update s.connections id none other = some found →
        other ≠ id ∧ s.connections other = some found := by
      intro other found hfound
      by_cases hother : other = id
      · rw [hother, update_self] at hfound
        cases hfound
      · rw [update_of_ne hother] at hfound
        exact ⟨hother, hfound⟩
    refine ⟨fun other found hfound => ?_, fun other found hfound => ?_, fun other hpos => ?_⟩
    · rw [hconnections] at hfound
      obtain ⟨hne, hfound⟩ := hother hfound
      have hold := h.references other found hfound
      rw [extra_of_ne hne] at hold
      rw [shares_frame hframe, extra_none]
      exact hold
    · rw [hconnections] at hfound
      exact h.positive other found (hother hfound).2
    · rw [shares_frame hframe, extra_none] at hpos
      have hne : other ≠ id := by
        rintro rfl
        omega
      rw [hconnections, update_of_ne hne]
      exact h.present other (by omega)
  · next hmore =>
    have hpos := h.positive id connection hid.found
    refine h.setConnection (fun _ => rfl) rfl (fun other hother => (extra_of_ne hother).symm) ?_ ?_
    · rw [extra_none]
      show connection.references - 1 = (if connection.ownerOpen then 1 else 0) + s.shares id + 0
      omega
    · show 0 < connection.references - 1
      omega

end

/-! ## The databases -/

/-- Every connection has a database that is open, of its own, and every database that is
    open is that of a connection; each was opened once, and closed once if it is not open. -/
structure Handles (s : System) : Prop where
  isOpen : ∀ id connection, s.connections id = some connection →
    ∃ handle database, s.Connected id connection handle database
  own : ∀ id id' connection connection' handle, s.connections id = some connection →
    s.connections id' = some connection' → connection.database = some handle →
    connection'.database = some handle → id = id'
  owned : ∀ handle, (s.databases handle).isSome = true →
    ∃ id connection, s.connections id = some connection ∧ connection.database = some handle
  numbered : ∀ handle, (s.databases handle).isSome = true → handle < s.opened
  openedOnce : ∀ handle, s.log.count (.opened handle) = if handle < s.opened then 1 else 0
  closedOnce : ∀ handle, s.log.count (.closed handle) =
    if handle < s.opened ∧ s.databases handle = none then 1 else 0

theorem Handles.congr {s s' : System} (h : Handles s)
    (hconnections : ∀ id, (s'.connections id).map Connection.database =
    (s.connections id).map Connection.database)
    (hdatabases : ∀ handle, (s'.databases handle).isSome = (s.databases handle).isSome)
    (hopened : s'.opened = s.opened) (hopen : ∀ handle, s'.log.count (.opened handle) = s.log.count
    (.opened handle))
    (hclose : ∀ handle, s'.log.count (.closed handle) = s.log.count (.closed handle)) :
    Handles s' := by
  -- the connection as it was
  have hold : ∀ {id connection}, s'.connections id = some connection →
      ∃ connection', s.connections id = some connection' ∧ connection'.database =
          connection.database := by
    intro id connection hid
    have hmap := hconnections id
    rw [hid] at hmap
    obtain ⟨connection', hid', hsame⟩ := Option.map_eq_some_iff.mp hmap.symm
    exact ⟨connection', hid', hsame⟩
  refine ⟨fun id connection hid => ?_,
    fun id id' connection connection' handle hid hid' hhandle hhandle' => ?_,
    fun handle hsome => ?_, fun handle hsome => ?_, fun handle => ?_, fun handle => ?_⟩
  · obtain ⟨was, hwas, hsame⟩ := hold hid
    obtain ⟨handle, database, hconnected⟩ := h.isOpen id was hwas
    have hsome : (s'.databases handle).isSome = true := by
      rw [hdatabases, hconnected.isOpen]
      rfl
    obtain ⟨database', hdatabase'⟩ := Option.isSome_iff_exists.mp hsome
    exact ⟨handle, database', hid, hsame.symm.trans hconnected.handle_eq, hdatabase'⟩
  · obtain ⟨was, hwas, hsame⟩ := hold hid
    obtain ⟨was', hwas', hsame'⟩ := hold hid'
    exact h.own id id' was was' handle hwas hwas' (hsame.trans hhandle) (hsame'.trans hhandle')
  · rw [hdatabases] at hsome
    obtain ⟨id, connection, hid, hhandle⟩ := h.owned handle hsome
    have hmap := hconnections id
    rw [hid] at hmap
    obtain ⟨connection', hid', hsame⟩ := Option.map_eq_some_iff.mp hmap
    exact ⟨id, connection', hid', hsame.trans hhandle⟩
  · rw [hdatabases] at hsome
    rw [hopened]
    exact h.numbered handle hsome
  · rw [hopen, hopened]
    exact h.openedOnce handle
  · have hnone : s'.databases handle = none ↔ s.databases handle = none := by
      rw [← Option.not_isSome_iff_eq_none, ← Option.not_isSome_iff_eq_none, hdatabases]
    rw [hclose, hopened, h.closedOnce]
    simp only [hnone]

theorem Handles.setConnection {s : System} {id : Nat} {connection connection' : Connection}
    (h : Handles s)
    (hid : s.connections id = some connection)
    (hsame : connection'.database = connection.database) :
    Handles (s.setConnection id (some connection')) := by
  refine h.congr (fun other => ?_) (fun _ => rfl) rfl (fun _ => rfl) fun _ => rfl
  show (Function.update s.connections id (some connection') other).map Connection.database = _
  by_cases hother : other = id
  · subst hother
    rw [update_self, hid, Option.map_some, Option.map_some, hsame]
  · rw [update_of_ne hother]

/-- Closing a database ends its transaction first. -/
theorem closed_log (s : System) (id : Nat) (database : Database) (ender : Ender) :
    ∃ ended, (s.closed id database ender).log = s.log ++ ended ++ [.closed id] ∧
      (database.transaction = none → ended = []) ∧
      ∀ transaction, database.transaction = some transaction →
      ended = [.ended transaction ender] := by
  unfold System.closed
  cases database.transaction with
  | none =>
    exact ⟨[], by simp [System.record, System.setDatabase], fun _ => rfl, fun _ h => nomatch h⟩
  | some transaction =>
    refine ⟨[.ended transaction ender], rfl, fun h => (nomatch h), fun other h => ?_⟩
    rw [Option.some.inj h]

theorem closed_connections (s : System) (id : Nat) (database : Database) (ender : Ender) :
    (s.closed id database ender).connections = s.connections := by
  unfold System.closed
  cases database.transaction <;> rfl

theorem closed_databases (s : System) (id : Nat) (database : Database) (ender : Ender) :
    (s.closed id database ender).databases = Function.update s.databases id none := by
  unfold System.closed
  cases database.transaction <;> rfl

theorem closed_opened (s : System) (id : Nat) (database : Database) (ender : Ender) :
    (s.closed id database ender).opened = s.opened := by
  unfold System.closed
  cases database.transaction <;> rfl

theorem closed_count_opened (s : System) (id : Nat) (database : Database) (ender : Ender)
    (handle : Nat) :
    (s.closed id database ender).log.count (.opened handle) = s.log.count (.opened handle) := by
  obtain ⟨ended, hlog, hnone, hsome⟩ := closed_log s id database ender
  rw [hlog, List.count_append, List.count_append]
  cases htransaction : database.transaction with
  | none => simp [hnone htransaction]
  | some transaction => simp [hsome transaction htransaction]

theorem closed_count_closed (s : System) (id : Nat) (database : Database) (ender : Ender)
    (handle : Nat) :
    (s.closed id database ender).log.count (.closed handle) =
      s.log.count (.closed handle) + if handle = id then 1 else 0 := by
  obtain ⟨ended, hlog, hnone, hsome⟩ := closed_log s id database ender
  have hcount : List.count (.closed handle) [Occurrence.closed id] = if handle = id then 1
      else 0 := by
    by_cases heq : handle = id
    · simp [heq]
    · simp [heq, Ne.symm heq]
  rw [hlog, List.count_append, List.count_append, hcount]
  cases htransaction : database.transaction with
  | none => simp [hnone htransaction]
  | some transaction => simp [hsome transaction htransaction]

/-- A closed database is open no more, and its connection is gone. -/
theorem Handles.close {s : System} {id : Nat} {connection : Connection} (h : Handles s)
    (hid : s.Connected id connection handle database) (ender : Ender) :
    Handles ((s.closed handle database ender).setConnection id none) := by
  have hconnections : ((s.closed handle database ender).setConnection id none).connections =
      Function.update s.connections id none :=
    congrArg (fun connections : Nat → Option Connection => Function.update connections id none)
      (closed_connections s handle database ender)
  have hdatabases : ((s.closed handle database ender).setConnection id none).databases =
      Function.update s.databases handle none := closed_databases s handle database ender
  have hopened : ((s.closed handle database ender).setConnection id none).opened = s.opened :=
    closed_opened s handle database ender
  -- the other connections
  have hold : ∀ {other found}, Function.update s.connections id none other = some found →
      other ≠ id ∧ s.connections other = some found := by
    intro other found hfound
    by_cases hother : other = id
    · rw [hother, update_self] at hfound
      cases hfound
    · rw [update_of_ne hother] at hfound
      exact ⟨hother, hfound⟩
  have hstill : ∀ {other : Nat}, (Function.update s.databases handle none other).isSome = true →
      other ≠ handle ∧ (s.databases other).isSome = true := by
    intro other hsome
    by_cases hother : other = handle
    · rw [hother, update_self] at hsome
      cases hsome
    · rw [update_of_ne hother] at hsome
      exact ⟨hother, hsome⟩
  have hlt : handle < s.opened := h.numbered handle (by rw [hid.isOpen]; rfl)
  refine ⟨fun other found hfound => ?_,
    fun other other' found found' about hfound hfound' habout habout' => ?_,
    fun other hsome => ?_, fun other hsome => ?_, fun other => ?_, fun other => ?_⟩
  · rw [hconnections] at hfound
    obtain ⟨hne, hwas⟩ := hold hfound
    obtain ⟨about, database', hconnected⟩ := h.isOpen other found hwas
    have hapart : about ≠ handle := by
      rintro rfl
      exact hne (h.own other id found connection about hwas hid.found hconnected.handle_eq
        hid.handle_eq)
    refine ⟨about, database', by rw [hconnections]; exact hfound, hconnected.handle_eq, ?_⟩
    rw [hdatabases, update_of_ne hapart]
    exact hconnected.isOpen
  · rw [hconnections] at hfound hfound'
    exact h.own other other' found found' about (hold hfound).2 (hold hfound').2 habout habout'
  · rw [hdatabases] at hsome
    obtain ⟨hne, hsome⟩ := hstill hsome
    obtain ⟨about, found, habout, hhandle⟩ := h.owned other hsome
    refine ⟨about, found, ?_, hhandle⟩
    have hapart : about ≠ id := by
      rintro rfl
      obtain rfl := Option.some.inj (habout.symm.trans hid.found)
      exact hne (Option.some.inj (hhandle.symm.trans hid.handle_eq))
    rw [hconnections, update_of_ne hapart]
    exact habout
  · rw [hdatabases] at hsome
    rw [hopened]
    exact h.numbered other (hstill hsome).2
  · rw [hopened]
    exact (closed_count_opened s handle database ender other).trans (h.openedOnce other)
  · rw [hopened, hdatabases]
    refine (closed_count_closed s handle database ender other).trans ?_
    rw [h.closedOnce]
    by_cases hother : other = handle
    · subst hother
      rw [update_self, if_neg (by rw [hid.isOpen]; simp), if_pos rfl, if_pos ⟨hlt, rfl⟩]
    · rw [update_of_ne hother, if_neg hother]
      rfl

theorem Handles.released {s : System} {id : Nat} {connection : Connection} (h : Handles s)
    (hid : s.Connected id connection handle database) (ender : Ender) :
    Handles (s.released id connection handle database ender) := by
  unfold System.released
  split
  · exact h.close hid ender
  · refine h.setConnection hid.found ?_
    rfl

/-- The next handle is new. -/
theorem Handles.fresh {s : System} (h : Handles s) : s.databases s.opened = none := by
  cases hsome : s.databases s.opened with
  | none => rfl
  | some database =>
    have hlt := h.numbered s.opened (by rw [hsome]; rfl)
    omega

theorem count_opened_openDatabase (s : System) (handle : Nat) :
    s.openDatabase.log.count (.opened handle) =
      s.log.count (.opened handle) + if handle = s.opened then 1 else 0 := by
  show (s.log ++ [Occurrence.opened s.opened]).count (Occurrence.opened handle) = _
  rw [List.count_append]
  by_cases heq : handle = s.opened
  · simp [heq]
  · simp [heq, Ne.symm heq]

theorem count_closed_openDatabase (s : System) (handle : Nat) :
    s.openDatabase.log.count (.closed handle) = s.log.count (.closed handle) := by
  show (s.log ++ [Occurrence.opened s.opened]).count (Occurrence.closed handle) = _
  simp [List.count_append]

/-- A new connection has a database of its own. -/
theorem Handles.openConnection {s : System} {id : Nat} (h : Handles s)
    (hfresh : s.connections id = none) :
    Handles (s.openDatabase.setConnection id (some ⟨some s.opened, 1, true⟩)) := by
  have hnew : ∀ {other found}, Function.update s.connections id (some ⟨some s.opened, 1, true⟩)
      other = some found →
      (other = id ∧ found = ⟨some s.opened, 1, true⟩) ∨
          (other ≠ id ∧ s.connections other = some found) := by
    intro other found hfound
    by_cases hother : other = id
    · rw [hother, update_self] at hfound
      exact .inl ⟨hother, (Option.some.inj hfound).symm⟩
    · rw [update_of_ne hother] at hfound
      exact .inr ⟨hother, hfound⟩
  -- a connection that was there has another database
  have hapart : ∀ {other found about}, s.connections other = some found →
      found.database = some about →
      about ≠ s.opened := by
    rintro other found about hfound habout rfl
    obtain ⟨handle, database, hconnected⟩ := h.isOpen other found hfound
    obtain rfl := Option.some.inj (hconnected.handle_eq.symm.trans habout)
    exact Option.some_ne_none _ (hconnected.isOpen.symm.trans h.fresh)
  refine ⟨fun other found hfound => ?_,
    fun other other' found found' about hfound hfound' habout habout' => ?_,
    fun other hsome => ?_, fun other hsome => ?_, fun other => ?_, fun other => ?_⟩
  · rcases hnew hfound with ⟨rfl, rfl⟩ | ⟨hne, hwas⟩
    · exact ⟨s.opened, ⟨none⟩, hfound, rfl, update_self _ _ _⟩
    · obtain ⟨about, database, hconnected⟩ := h.isOpen other found hwas
      refine ⟨about, database, hfound, hconnected.handle_eq, ?_⟩
      show Function.update s.databases s.opened _ about = _
      rw [update_of_ne (hapart hwas hconnected.handle_eq)]
      exact hconnected.isOpen
  · rcases hnew hfound with ⟨rfl, rfl⟩ | ⟨_, hwas⟩
    · rcases hnew hfound' with ⟨rfl, _⟩ | ⟨_, hwas'⟩
      · rfl
      · exact absurd (Option.some.inj habout).symm (hapart hwas' habout')
    · rcases hnew hfound' with ⟨_, rfl⟩ | ⟨_, hwas'⟩
      · exact absurd (Option.some.inj habout').symm (hapart hwas habout)
      · exact h.own other other' found found' about hwas hwas' habout habout'
  · by_cases hother : other = s.opened
    · exact ⟨id, _, update_self _ _ _, by rw [hother]⟩
    · have hwas : (s.databases other).isSome = true := by
        have hupdate : Function.update s.databases s.opened (some ⟨none⟩) other =
            s.databases other :=
          update_of_ne hother _ _
        rw [← hupdate]
        exact hsome
      obtain ⟨about, found, hfound, hhandle⟩ := h.owned other hwas
      have hne : about ≠ id := by
        rintro rfl
        exact Option.some_ne_none _ (hfound.symm.trans hfresh)
      exact ⟨about, found, (update_of_ne hne _ _).trans hfound, hhandle⟩
  · show other < s.opened + 1
    by_cases hother : other = s.opened
    · omega
    · have hupdate : Function.update s.databases s.opened (some ⟨none⟩) other = s.databases other :=
        update_of_ne hother _ _
      have hlt := h.numbered other (by rw [← hupdate]; exact hsome)
      omega
  · show s.openDatabase.log.count (.opened other) = if other < s.opened + 1 then 1 else 0
    rw [count_opened_openDatabase, h.openedOnce]
    split <;> split <;> split <;> omega
  · show s.openDatabase.log.count (.closed other) =
      if other < s.opened + 1 ∧ Function.update s.databases s.opened (some ⟨none⟩) other =
        none then 1 else 0
    rw [count_closed_openDatabase, h.closedOnce]
    by_cases hother : other = s.opened
    · rw [hother, update_self, if_neg (by omega), if_neg (by simp)]
    · rw [update_of_ne hother]
      have hiff : other < s.opened ↔ other < s.opened + 1 := by omega
      simp only [hiff]

/-- A database that could not be opened is closed again. -/
theorem Handles.openFailed {s : System} (h : Handles s) :
    Handles (s.openDatabase.closed s.opened ⟨none⟩ .sql) := by
  have hdatabases : (s.openDatabase.closed s.opened ⟨none⟩ .sql).databases = s.databases := by
    rw [closed_databases]
    show Function.update (Function.update s.databases s.opened (some ⟨none⟩)) s.opened none =
      s.databases
    rw [Function.update_idem, ← h.fresh, Function.update_eq_self]
  have hconnections : (s.openDatabase.closed s.opened ⟨none⟩ .sql).connections = s.connections :=
    closed_connections _ _ _ _
  have hopened : (s.openDatabase.closed s.opened ⟨none⟩ .sql).opened = s.opened + 1 :=
    closed_opened _ _ _ _
  refine ⟨fun other found hfound => ?_,
    fun other other' found found' about hfound hfound' habout habout' => ?_,
    fun other hsome => ?_, fun other hsome => ?_, fun other => ?_, fun other => ?_⟩
  · rw [hconnections] at hfound
    obtain ⟨about, database, hconnected⟩ := h.isOpen other found hfound
    exact ⟨about, database, by rw [hconnections]; exact hfound, hconnected.handle_eq,
      by rw [hdatabases]; exact hconnected.isOpen⟩
  · rw [hconnections] at hfound hfound'
    exact h.own other other' found found' about hfound hfound' habout habout'
  · rw [hdatabases] at hsome
    rw [hconnections]
    exact h.owned other hsome
  · rw [hdatabases] at hsome
    rw [hopened]
    have hlt := h.numbered other hsome
    omega
  · rw [closed_count_opened, count_opened_openDatabase, h.openedOnce, hopened]
    split <;> split <;> split <;> omega
  · rw [closed_count_closed, count_closed_openDatabase, h.closedOnce, hopened, hdatabases]
    by_cases hother : other = s.opened
    · rw [hother, h.fresh, if_neg (by omega), if_pos rfl, if_pos ⟨by omega, rfl⟩]
    · have hiff : other < s.opened ↔ other < s.opened + 1 := by omega
      simp only [hother, hiff, ↓reduceIte, Nat.add_zero]

/-! ## The transactions of a database -/

/-- What a native function does to the transactions: it begins and ends those of one
    database, and ends them for `ender`; a record that it registers is about one of them. -/
inductive Acts (ender : Ender) (handle : Nat) : System → System → Prop where
  | quiet {s s' : System} (databases : s'.databases = s.databases) (begun : s'.begun = s.begun)
      (log : s'.log = s.log)
      (entries : ∀ transaction ∈ s'.transactionRegistry.entries,
        transaction ∈ s.transactionRegistry.entries ∨ transaction.begun < s.begun) :
          Acts ender handle s s'
  | opens (s : System) (fresh : handle = s.opened) : Acts ender handle s s.openDatabase
  | begins (s : System) (own : ender = .sql) (inside : s.databases handle = some ⟨none⟩) :
      Acts ender handle s (s.afterBegin handle)
  | ends (s : System) (transaction : Nat) (inside : s.databases handle = some ⟨some transaction⟩) :
      Acts ender handle s (s.afterEnd handle transaction ender)
  | closes (s : System) (database : Database) (isOpen : s.databases handle = some database) :
      Acts ender handle s (s.closed handle database ender)
  /-- The object that began a transaction reports what its connection is inside. -/
  | reports (s : System) (begun : Nat) (database : Database) (own : ender = .object begun)
      (isOpen : s.databases handle = some database) :
      Acts ender handle s (s.record (.reported begun !database.autocommit))
  | trans {s₁ s₂ s₃ : System} : Acts ender handle s₁ s₂ → Acts ender handle s₂ s₃ →
      Acts ender handle s₁ s₃

theorem Acts.same {ender : Ender} {s : System} (hdatabases : s'.databases = s.databases)
    (hbegun : s'.begun = s.begun) (hlog : s'.log = s.log)
    (hregistry : s'.transactionRegistry = s.transactionRegistry) : Acts ender handle s s' := by
  refine .quiet hdatabases hbegun hlog fun transaction hmem => ?_
  rw [hregistry] at hmem
  exact .inl hmem

theorem Acts.refl {ender : Ender} (s : System) : Acts ender handle s s := .same rfl rfl rfl rfl

/-- Releasing touches a transaction only where it closes the database. -/
theorem acts_released {s : System} {id : Nat} {connection : Connection}
    (hid : s.Connected id connection handle database) (ender : Ender) :
    Acts ender handle s (s.released id connection handle database ender) := by
  unfold System.released
  split
  · exact (Acts.closes s database hid.isOpen).trans (.same rfl rfl rfl rfl)
  · exact .same rfl rfl rfl rfl

/-! ## The parts of a native function -/

/-- The state inside a native function, with the reference that it holds. -/
structure Running (held : Option Nat) (s : System) : Prop where
  registered : Registered s
  counted : Counted held s
  handles : Handles s

theorem Running.connected {s : System} {id : Nat} (h : Running held s)
    (hid : (s.connections id).isSome = true) :
    ∃ connection handle database, s.Connected id connection handle database := by
  obtain ⟨connection, hconnection⟩ := Option.isSome_iff_exists.mp hid
  obtain ⟨handle, database, hconnected⟩ := h.handles.isOpen id connection hconnection
  exact ⟨connection, handle, database, hconnected⟩

/-- Releasing the reference in hand succeeds. -/
theorem Running.release {s : System} {id : Nat} {connection : Connection} (h : Running (some id) s)
    (hid : s.Connected id connection handle database) (ender : Ender) :
    s.release id ender = .ok (s.released id connection handle database ender) ∧
      Running none (s.released id connection handle database ender) :=
  ⟨System.release_eq hid (h.counted.positive id connection hid.found) ender,
    h.registered.frame (frame_released s id connection handle database ender),
      h.counted.release hid ender,
    h.handles.released hid ender⟩

theorem released_connections {s : System} {id : Nat} {connection : Connection}
    (hcounted : Counted (some id) s) (hid : s.Connected id connection handle database)
    (ender : Ender) {other : Nat} {found : Connection} (hfound : s.connections other = some found)
    (hopen : found.ownerOpen = true) : ∃ found',
      (s.released id connection handle database ender).connections other = some found' ∧
        found'.ownerOpen = true := by
  have hcount := hcounted.references id connection hid.found
  rw [extra_self] at hcount
  unfold System.released
  by_cases hother : other = id
  · -- its owner still has a reference
    subst hother
    obtain rfl := Option.some.inj (hfound.symm.trans hid.found)
    rw [hopen] at hcount
    simp only [↓reduceIte] at hcount
    rw [if_neg (by omega)]
    exact ⟨_, update_self _ _ _, hopen⟩
  · split
    · refine ⟨found, ?_, hopen⟩
      show Function.update (s.closed handle database ender).connections id none other = some found
      rw [update_of_ne hother, closed_connections]
      exact hfound
    · exact ⟨found, (update_of_ne hother _ _).trans hfound, hopen⟩

end Cwhip.Sqlite
