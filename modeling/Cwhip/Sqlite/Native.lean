/-
  Cwhip.Sqlite.Native

  The native functions of the `sqlite` package (`native/sqlite.c`): connections
  with a reference count, and the registries that find a statement or a
  transaction by the object that owns it.

  SQLite itself is what it answers.  A database is in autocommit mode or inside
  one transaction, and the text of an SQL statement is the transactions it begins
  and ends.  The transactions are numbered as they begin; the numbers are not in
  the source, and no decision looks at them.  Error messages, SQLite's own
  statements and the values that are bound or read are left out.
-/

import Mathlib.Algebra.Group.Nat.Defs
import Cwhip.Lib.Except
import Cwhip.Lib.RecordList

namespace Cwhip.Sqlite

open Cwhip.Lib

/-! ## Records -/

/-- A `CwhipSqliteConnection`. -/
structure Connection where
  database : Option Nat
  /-- A `uint64_t`. -/
  references : Nat
  ownerOpen : Bool
  deriving DecidableEq, Repr

/-- A `CwhipSqliteStatement`. -/
structure Statement where
  connection : Nat
  ownerObject : Nat
  deriving DecidableEq, Repr

/-- A `CwhipSqliteTransaction`. -/
structure Transaction where
  connection : Nat
  ownerObject : Nat
  /-- The number of the transaction that its object began. -/
  begun : Nat
  deriving DecidableEq, Repr

/-- A database that SQLite has open. -/
structure Database where
  /-- The transaction it is inside, unless it is in autocommit mode. -/
  transaction : Option Nat
  deriving DecidableEq, Repr

/-- `sqlite3_get_autocommit`. -/
def Database.autocommit (database : Database) : Bool := database.transaction.isNone

/-- The largest `uint64_t`. -/
def uint64Max : Nat := 2 ^ 64 - 1

/-! ## Objects of the language -/

/-- A `Connection` object: its `_native`, and whether its destructor has run. -/
structure ConnectionObject where
  native : Option Nat
  destroyed : Bool
  deriving DecidableEq, Repr

/-- A `Statement` object. -/
structure StatementObject where
  hasRow : Bool
  done : Bool
  failed : Bool
  hasStepped : Bool
  destroyed : Bool
  deriving DecidableEq, Repr

/-- A `Transaction` object. -/
structure TransactionObject where
  active : Bool
  destroyed : Bool
  deriving DecidableEq, Repr

/-! ## The system -/

/-- Who ends a transaction: SQL text or SQLite itself, or the object that began
    the transaction of this number. -/
inductive Ender where
  | sql
  | object (begun : Nat)
  deriving DecidableEq, Repr

inductive Occurrence where
  /-- SQLite opens and closes a database. -/
  | opened (database : Nat)
  | closed (database : Nat)
  | began (transaction : Nat)
  | ended (transaction : Nat) (ender : Ender)
  /-- The object that began a transaction reports whether it is active. -/
  | reported (begun : Nat) (active : Bool)
  deriving DecidableEq, Repr

inductive Refusal where
  /-- Not now, or not what SQLite does. -/
  | refused
  /-- A record is used that was freed. -/
  | useAfterFree
  /-- A database is used that was closed. -/
  | useAfterClose
  deriving DecidableEq, Repr

structure System where
  connections : Nat → Option Connection
  statementRegistry : RecordList Statement
  transactionRegistry : RecordList Transaction
  databases : Nat → Option Database
  /-- The databases opened, and the transactions begun, so far. -/
  opened : Nat
  begun : Nat
  connectionObjects : Nat → Option ConnectionObject
  statementObjects : Nat → Option StatementObject
  transactionObjects : Nat → Option TransactionObject
  log : List Occurrence

/-- How `cwhip_sqlite_open` goes. -/
inductive Opening where
  /-- The path is refused, or SQLite has no handle for it. -/
  | refused
  /-- SQLite fails with a handle, or there is no memory for the record: it is closed again. -/
  | failed
  | opened (connection : Nat)
  deriving DecidableEq, Repr

/-- The answer of `sqlite3_step`. -/
inductive Step where
  | row
  | done
  | failed
  deriving DecidableEq, Repr

/-- What an SQL text does to the transactions of its database. -/
inductive Effect where
  | begins
  | ends
  deriving DecidableEq, Repr

/-- What `COMMIT` or `ROLLBACK` does; it may fail and end the transaction all the same. -/
inductive Finish where
  | ended (ok : Bool)
  | kept
  deriving DecidableEq, Repr

namespace System

def record (s : System) (occurrence : Occurrence) : System :=
    { s with log := s.log ++ [occurrence] }

def setConnection (s : System) (id : Nat) (connection : Option Connection) : System :=
  { s with connections := Function.update s.connections id connection }

def setDatabase (s : System) (id : Nat) (database : Option Database) : System :=
  { s with databases := Function.update s.databases id database }

/-! ## SQLite -/

/-- `sqlite3_open_v2`. -/
def openDatabase (s : System) : System :=
  { s.setDatabase s.opened (some ⟨none⟩) with opened := s.opened + 1 }.record (.opened s.opened)

/-- A transaction begins; there is none yet. -/
def beginIn (s : System) (id : Nat) : Except Refusal System := do
  let database ← require (s.databases id) .useAfterClose
  ensure (database.autocommit = true) .refused
  return { s.setDatabase id (some ⟨some s.begun⟩) with begun := s.begun + 1 }.record
    (.began s.begun)

/-- The transaction ends. -/
def endIn (s : System) (id : Nat) (ender : Ender) : Except Refusal System := do
  let database ← require (s.databases id) .useAfterClose
  let transaction ← require database.transaction .refused
  return (s.setDatabase id (some ⟨none⟩)).record (.ended transaction ender)

/-- SQL text is run, as far as it goes. -/
def runSql (s : System) (id : Nat) : List Effect → Except Refusal System
  | [] => do
    let _ ← require (s.databases id) .useAfterClose
    return s
  | .begins :: rest => do (← s.beginIn id).runSql id rest
  | .ends :: rest => do (← s.endIn id .sql).runSql id rest

/-- `sqlite3_close` when it succeeds, and `sqlite3_close_v2`: an open transaction is rolled back. -/
def closeDatabase (s : System) (id : Nat) (ender : Ender) : Except Refusal System := do
  let database ← require (s.databases id) .useAfterClose
  let s := match database.transaction with
    | some transaction => s.record (.ended transaction ender)
    | none => s
  return (s.setDatabase id none).record (.closed id)

/-! ## Connections -/

/-- `connection_retain`, of a connection that is not null. -/
def retain (s : System) (id : Nat) : Except Refusal (Bool × System) := do
  let connection ← require (s.connections id) .useAfterFree
  if connection.database = none ∨ connection.references = uint64Max then return (false, s)
  else return (true, s.setConnection id
    (some { connection with references := connection.references + 1 }))

/-- `connection_release`. -/
def release (s : System) (id : Nat) (ender : Ender) : Except Refusal System := do
  let connection ← require (s.connections id) .useAfterFree
  if connection.references = 0 then return s
  let connection := { connection with references := connection.references - 1 }
  let s := s.setConnection id (some connection)
  if connection.references = 0 then
    -- the last reference closes the database, unless `close` has
    let s ← (match connection.database with
      | some database => s.closeDatabase database ender
      | none => .ok s)
    return s.setConnection id none
  else return s

/-- `connection_live`: the connection of a handle and its database. -/
def live (s : System) : Option Nat → Except Refusal (Option (Nat × Nat))
  | none => .ok none
  | some id => do
    let connection ← require (s.connections id) .useAfterFree
    return connection.database.map fun database => (id, database)

/-- `cwhip_sqlite_open`. -/
def sqliteOpen (s : System) : Opening → Except Refusal (Option Nat × System)
  | .refused => .ok (none, s)
  | .failed => do
    let s' := s.openDatabase
    return (none, ← s'.closeDatabase s.opened .sql)
  | .opened id => do
    ensure (s.connections id = none) .refused
    return (some id, s.openDatabase.setConnection id (some ⟨some s.opened, 1, true⟩))

/-- `cwhip_sqlite_close`; `ok` is the answer of `sqlite3_close`. -/
def sqliteClose (s : System) (handle : Option Nat) (ok : Bool) : Except Refusal (Bool × System) :=
  match handle with
  | none => .ok (true, s)
  | some id => do
    let owner ← require (s.connections id) .useAfterFree
    if !owner.ownerOpen then return (true, s)
    if owner.references ≠ 1 then return (false, s)
    if !ok then return (false, s)
    let database ← require owner.database .useAfterClose
    let s ← s.closeDatabase database .sql
    let s := s.setConnection id (some { owner with database := none, ownerOpen := false })
    return (true, ← s.release id .sql)

/-- `cwhip_sqlite_release_connection`. -/
def sqliteReleaseConnection (s : System) (handle : Option Nat) : Except Refusal System :=
  match handle with
  | none => .ok s
  | some id => do
    let owner ← require (s.connections id) .useAfterFree
    if !owner.ownerOpen then return s
    (s.setConnection id (some { owner with ownerOpen := false })).release id .sql

/-- `cwhip_sqlite_execute`: SQLite runs the text, or it is refused before. -/
def sqliteExecute (s : System) (handle : Option Nat) (ran : Option (Bool × List Effect)) :
    Except Refusal (Bool × System) := do
  match ← s.live handle, ran with
  | some (_, database), some (ok, effects) => return (ok, ← s.runSql database effects)
  | _, _ => return (false, s)

/-- `cwhip_sqlite_busy_timeout`; `ok` tells whether the number and SQLite allow it. -/
def sqliteBusyTimeout (s : System) (handle : Option Nat) (ok : Bool) :
    Except Refusal (Bool × System) := do
  match ← s.live handle with
  | some (_, database) =>
    let _ ← require (s.databases database) .useAfterClose
    return (ok, s)
  | none => return (false, s)

/-- `cwhip_sqlite_connection_error`: the message may come from SQLite. -/
def sqliteConnectionError (s : System) (handle : Option Nat) : Except Refusal Unit := do
  match ← s.live handle with
  | some (_, database) =>
    let _ ← require (s.databases database) .useAfterClose
    return ()
  | none => return ()

/-! ## Statements -/

/-- `find_statement`. -/
def findStatement (s : System) (owner : Nat) : Except Refusal (Option Nat) :=
  require (s.statementRegistry.find (·.ownerObject == owner)) .useAfterFree

/-- The record of an object, and its connection and database, as an error text is asked for. -/
def statementOf (s : System) (owner : Nat) : Except Refusal (Option (Statement × Nat)) := do
  match ← s.findStatement owner with
  | none => return none
  | some address =>
    let statement ← require (s.statementRegistry.memory address) .useAfterFree
    let connection ← require (s.connections statement.connection) .useAfterFree
    let database ← require connection.database .useAfterClose
    let _ ← require (s.databases database) .useAfterClose
    return some (statement, database)

/-- `cwhip_sqlite_prepare`; `prepared` is the address of the new record, unless the text is
    refused, SQLite fails or there is no memory. -/
def sqlitePrepare (s : System) (handle : Option Nat) (target : Nat) (prepared : Option Nat) :
    Except Refusal (Bool × System) := do
  match ← s.live handle with
  | none => return (false, s)
  | some (owner, database) =>
    if (← s.findStatement target).isSome then return (false, s)
    let _ ← require (s.databases database) .useAfterClose
    match prepared with
    | none => return (false, s)
    | some address =>
      ensure (s.statementRegistry.memory address = none) .refused
      let (retained, s) ← s.retain owner
      if !retained then return (false, s)
      return (true, { s with statementRegistry := s.statementRegistry.link address ⟨owner,
        target⟩ })

/-- `cwhip_sqlite_statement_exists`. -/
def sqliteStatementExists (s : System) (self : Nat) : Except Refusal Bool := do
  return (← s.findStatement self).isSome

/-- `cwhip_sqlite_finalize`; `ok` is the answer of `sqlite3_finalize`. -/
def sqliteFinalize (s : System) (self : Nat) (ok : Bool) : Except Refusal (Bool × System) := do
  match ← s.findStatement self with
  | none => return (true, s)
  | some address =>
    let registry ← require (s.statementRegistry.unlink address) .useAfterFree
    let wrapped ← require (registry.memory address) .useAfterFree
    -- the statement is gone whatever SQLite answers
    let s ← { s with statementRegistry := registry }.release wrapped.connection .sql
    return (ok, { s with statementRegistry := s.statementRegistry.free address })

/-- `cwhip_sqlite_step`; the effects are those of the SQL text. -/
def sqliteStep (s : System) (self : Nat) (step : Step) (effects : List Effect) :
    Except Refusal (Step × System) := do
  match ← s.statementOf self with
  | none => return (.failed, s)
  | some (_, database) => return (step, ← s.runSql database effects)

/-- `cwhip_sqlite_statement_error`: the message may come from SQLite. -/
def sqliteStatementError (s : System) (self : Nat) : Except Refusal Unit := do
  let _ ← s.statementOf self
  return ()

/-- `cwhip_sqlite_bind_*`: `ok` tells whether the index, the value and SQLite allow it. -/
def sqliteBind (s : System) (self : Nat) (ok : Bool) : Except Refusal Bool := do
  match ← s.statementOf self with
  | none => return false
  | some _ => return ok

/-! ## Transactions -/

/-- `find_transaction`. -/
def findTransaction (s : System) (owner : Nat) : Except Refusal (Option Nat) :=
  require (s.transactionRegistry.find (·.ownerObject == owner)) .useAfterFree

/-- The record of an object, and its database if the connection has one. -/
def transactionOf (s : System) (owner : Nat) :
    Except Refusal (Option (Nat × Transaction × Option (Nat × Database))) := do
  match ← s.findTransaction owner with
  | none => return none
  | some address =>
    let transaction ← require (s.transactionRegistry.memory address) .useAfterFree
    let connection ← require (s.connections transaction.connection) .useAfterFree
    match connection.database with
    | none => return some (address, transaction, none)
    | some id =>
      let database ← require (s.databases id) .useAfterClose
      return some (address, transaction, some (id, database))

/-- `cwhip_sqlite_begin_transaction`; `began` is the address of the new record, if there is
    memory for it, and the answer to `BEGIN IMMEDIATE` in autocommit mode. -/
def sqliteBeginTransaction (s : System) (handle : Option Nat) (target : Nat)
    (began : Option (Nat × Bool)) :
    Except Refusal (Bool × System) := do
  match ← s.live handle with
  | none => return (false, s)
  | some (owner, id) =>
    if (← s.findTransaction target).isSome then return (false, s)
    match began with
    | none => return (false, s)
    | some (address, ok) =>
      ensure (s.transactionRegistry.memory address = none) .refused
      let (retained, s) ← s.retain owner
      if !retained then return (false, s)
      let database ← require (s.databases id) .useAfterClose
      if database.autocommit && ok then
        let transaction : Transaction := ⟨owner, target, s.begun⟩
        let s ← s.beginIn id
        return (true, { s with transactionRegistry :=
          s.transactionRegistry.link address transaction })
      else return (false, ← s.release owner .sql)

/-- `cwhip_sqlite_transaction_active`. -/
def sqliteTransactionActive (s : System) (self : Nat) : Except Refusal Bool := do
  match ← s.transactionOf self with
  | some (_, _, some (_, database)) => return !database.autocommit
  | _ => return false

/-- `transaction_finish`: `COMMIT` or `ROLLBACK`, if the connection is inside a transaction. -/
def transactionFinish (s : System) (self : Nat) (finish : Finish) :
    Except Refusal (Bool × System) := do
  match ← s.transactionOf self with
  | some (_, transaction, some (id, database)) =>
    if database.autocommit then return (false, s)
    match finish with
    | .ended ok => return (ok, ← s.endIn id (.object transaction.begun))
    | .kept => return (false, s)
  | _ => return (false, s)

/-- `cwhip_sqlite_transaction_commit`. -/
def sqliteTransactionCommit (s : System) (self : Nat) (finish : Finish) :
    Except Refusal (Bool × System) :=
  s.transactionFinish self finish

/-- `cwhip_sqlite_transaction_rollback`. -/
def sqliteTransactionRollback (s : System) (self : Nat) (finish : Finish) :
    Except Refusal (Bool × System) :=
  s.transactionFinish self finish

/-- `cwhip_sqlite_transaction_close`. -/
def sqliteTransactionClose (s : System) (self : Nat) (finish : Finish) :
    Except Refusal (Bool × System) := do
  match ← s.transactionOf self with
  | none => return (true, s)
  | some (address, transaction, database) =>
    let inside := match database with
      | some (_, database) => !database.autocommit
      | none => false
    let (result, s) ← (if inside then s.transactionFinish self finish else .ok (true, s))
    let registry ← require (s.transactionRegistry.unlink address) .useAfterFree
    let wrapper ← require (registry.memory address) .useAfterFree
    -- also when the ROLLBACK has failed
    let s ← { s with transactionRegistry := registry }.release wrapper.connection
      (.object transaction.begun)
    return (result, { s with transactionRegistry := s.transactionRegistry.free address })

end System

end Cwhip.Sqlite
