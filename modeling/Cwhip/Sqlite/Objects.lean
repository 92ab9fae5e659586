/-
  Cwhip.Sqlite.Objects

  The classes of the `sqlite` package (`sqlite.cw`) over their native functions,
  and every sequence of calls of their methods.

  Managed code is run by one thread at a time.  A collection, and the destructors
  it runs, can come between two calls and in the constructions of `prepare` and
  `beginTransaction`, which are two steps each for that; the other methods
  construct nothing before they are done with SQLite.  Destructors run in any
  order, and the memory of an object is free for another one after that.
-/

import Cwhip.Lib.Machine
import Cwhip.Sqlite.Native

namespace Cwhip.Sqlite

open Cwhip.Lib

/-- How a call ends. -/
inductive Answer where
  | returned (ok : Bool)
  | raised
  deriving DecidableEq, Repr

namespace System

def setConnectionObject (s : System) (object : Nat) (state : Option ConnectionObject) : System :=
  { s with connectionObjects := Function.update s.connectionObjects object state }

def setStatementObject (s : System) (object : Nat) (state : Option StatementObject) : System :=
  { s with statementObjects := Function.update s.statementObjects object state }

def setTransactionObject (s : System) (object : Nat) (state : Option TransactionObject) : System :=
  { s with transactionObjects := Function.update s.transactionObjects object state }

/-! ## `Connection` -/

/-- The constructor `Connection`. -/
def newConnection (s : System) (object : Nat) (opening : Opening) :
    Except Refusal (Answer × System) := do
  ensure (s.connectionObjects object = none) .refused
  let (native, s) ← s.sqliteOpen opening
  return (.returned native.isSome, s.setConnectionObject object (some ⟨native, false⟩))

/-- The constructor `Statement`. -/
def newStatement (s : System) (object : Nat) : Except Refusal System := do
  ensure (s.statementObjects object = none) .refused
  return s.setStatementObject object (some ⟨false, false, false, false, false⟩)

/-- The constructor `Transaction`. -/
def newTransaction (s : System) (object : Nat) : Except Refusal System := do
  ensure (s.transactionObjects object = none) .refused
  return s.setTransactionObject object (some ⟨false, false⟩)

/-- `Connection.error`. -/
def connectionError (s : System) (object : Nat) : Except Refusal (Answer × System) := do
  let this ← require (s.connectionObjects object) .refused
  if this.destroyed then return (.raised, s)
  s.sqliteConnectionError this.native
  return (.returned true, s)

/-- `Connection.execute`. -/
def execute (s : System) (object : Nat) (ran : Option (Bool × List Effect)) :
    Except Refusal (Answer × System) := do
  let this ← require (s.connectionObjects object) .refused
  if this.destroyed || this.native.isNone then return (.raised, s)
  let (ok, s) ← s.sqliteExecute this.native ran
  return (.returned ok, s)

/-- `Connection.setBusyTimeout`. -/
def setBusyTimeout (s : System) (object : Nat) (ok : Bool) : Except Refusal (Answer × System) := do
  let this ← require (s.connectionObjects object) .refused
  if this.destroyed || this.native.isNone then return (.raised, s)
  let (ok, s) ← s.sqliteBusyTimeout this.native ok
  return (.returned ok, s)

/-- `Connection.prepare`, until the statement object is constructed. -/
def startPrepare (s : System) (object target : Nat) : Except Refusal (Answer × System) := do
  let this ← require (s.connectionObjects object) .refused
  if this.destroyed || this.native.isNone then return (.raised, s)
  return (.returned true, ← s.newStatement target)

/-- The rest of it; `_native` may be null by now. -/
def prepare (s : System) (object target : Nat) (prepared : Option Nat) :
    Except Refusal (Answer × System) := do
  let this ← require (s.connectionObjects object) .refused
  let result ← require (s.statementObjects target) .refused
  ensure (result.destroyed = false) .refused
  let (ok, s) ← s.sqlitePrepare this.native target prepared
  return (.returned ok, s)

/-- `Connection.beginTransaction`, until the transaction object is constructed. -/
def startTransaction (s : System) (object target : Nat) : Except Refusal (Answer × System) := do
  let this ← require (s.connectionObjects object) .refused
  if this.destroyed || this.native.isNone then return (.raised, s)
  return (.returned true, ← s.newTransaction target)

/-- The rest of it. -/
def beginTransaction (s : System) (object target : Nat) (began : Option (Nat × Bool)) :
    Except Refusal (Answer × System) := do
  let this ← require (s.connectionObjects object) .refused
  let transaction ← require (s.transactionObjects target) .refused
  ensure (transaction.destroyed = false) .refused
  let (ok, s) ← s.sqliteBeginTransaction this.native target began
  if ok then return (.returned true, s)
  s.sqliteConnectionError this.native
  return (.raised, s)

/-- `Connection.close`. -/
def closeConnection (s : System) (object : Nat) (ok : Bool) : Except Refusal (Answer × System) := do
  let this ← require (s.connectionObjects object) .refused
  if this.destroyed then return (.raised, s)
  if this.native.isNone then return (.returned true, s)
  let (closed, s) ← s.sqliteClose this.native ok
  if closed then return (.returned true,
    s.setConnectionObject object (some { this with native := none }))
  return (.returned false, s)

/-- The destructor of a `Connection`, called explicitly or in a collection. -/
def destroyConnection (s : System) (object : Nat) : Except Refusal (Answer × System) := do
  let this ← require (s.connectionObjects object) .refused
  if this.destroyed then return (.raised, s)
  let s ← (if this.native.isSome then s.sqliteReleaseConnection this.native else .ok s)
  return (.returned true, s.setConnectionObject object (some ⟨none, true⟩))

/-! ## `Statement` -/

/-- `Statement.error`. -/
def statementError (s : System) (object : Nat) : Except Refusal (Answer × System) := do
  let this ← require (s.statementObjects object) .refused
  if this.destroyed then return (.raised, s)
  s.sqliteStatementError object
  return (.returned true, s)

/-- `Statement.bind`. -/
def bind (s : System) (object : Nat) (ok : Bool) : Except Refusal (Answer × System) := do
  let this ← require (s.statementObjects object) .refused
  if this.destroyed || !(← s.sqliteStatementExists object) || this.hasStepped then return (.raised,
    s)
  return (.returned (← s.sqliteBind object ok), s)

/-- `Statement.step`. -/
def step (s : System) (object : Nat) (answer : Step) (effects : List Effect) :
    Except Refusal (Answer × System) := do
  let this ← require (s.statementObjects object) .refused
  if this.destroyed || !(← s.sqliteStatementExists object) then return (.raised, s)
  if this.done || this.failed then return (.returned false, s)
  let (status, s) ← s.sqliteStep object answer effects
  let this := { this with
    hasStepped := true
    hasRow := status == .row
    done := status == .done
    failed := status == .failed }
  return (.returned this.hasRow, s.setStatementObject object (some this))

/-- `Statement.value`, with `cwhip_sqlite_column_*`. -/
def value (s : System) (object : Nat) (ok : Bool) : Except Refusal (Answer × System) := do
  let this ← require (s.statementObjects object) .refused
  if this.destroyed || !(← s.sqliteStatementExists object) || !this.hasRow then return (.raised, s)
  let _ ← s.statementOf object
  return (if ok then .returned true else .raised, s)

/-- The body of `Statement.close`. -/
def finalizeStatement (s : System) (object : Nat) (this : StatementObject) (ok : Bool) :
    Except Refusal (Answer × System) := do
  let (finalized, s) ← s.sqliteFinalize object ok
  return (.returned finalized,
    s.setStatementObject object (some { this with hasRow := false, done := true }))

/-- `Statement.close`. -/
def closeStatement (s : System) (object : Nat) (ok : Bool) : Except Refusal (Answer × System) := do
  let this ← require (s.statementObjects object) .refused
  if this.destroyed then return (.raised, s)
  s.finalizeStatement object this ok

/-- The destructor of a `Statement`. -/
def destroyStatement (s : System) (object : Nat) (ok : Bool) : Except Refusal (Answer × System) :=
    do
  let this ← require (s.statementObjects object) .refused
  if this.destroyed then return (.raised, s)
  s.finalizeStatement object { this with destroyed := true } ok

/-! ## `Transaction` -/

/-- `Transaction.isActive`. -/
def isActive (s : System) (object : Nat) (finish : Finish) : Except Refusal (Bool × System) := do
  match ← s.transactionOf object with
  | none => return (false, s)
  | some (_, transaction, _) =>
    let active ← s.sqliteTransactionActive object
    let this ← require (s.transactionObjects object) .refused
    let s := s.setTransactionObject object (some { this with active })
    let s := s.record (.reported transaction.begun active)
    if active then return (true, s)
    -- nothing to roll back, but the connection is let go
    let (_, s) ← s.sqliteTransactionClose object finish
    return (false, s)

/-- The body that `commit` and `rollback` share. -/
def finishWith (native : System → Nat → Finish → Except Refusal (Bool × System)) (s : System)
    (object : Nat) (finish : Finish) : Except Refusal (Answer × System) := do
  let this ← require (s.transactionObjects object) .refused
  if this.destroyed then return (.raised, s)
  let (active, s) ← s.isActive object finish
  if !active then return (.returned false, s)
  let (finished, s) ← native s object finish
  if !finished then return (.returned false, s)
  let s := s.setTransactionObject object (some { this with active := false })
  let (_, s) ← s.sqliteTransactionClose object finish
  return (.returned true, s)

/-- `Transaction.commit`. -/
def commit (s : System) (object : Nat) (finish : Finish) : Except Refusal (Answer × System) :=
  s.finishWith sqliteTransactionCommit object finish

/-- `Transaction.rollback`. -/
def rollback (s : System) (object : Nat) (finish : Finish) : Except Refusal (Answer × System) :=
  s.finishWith sqliteTransactionRollback object finish

/-- The body of `Transaction.close`. -/
def closeNative (s : System) (object : Nat) (this : TransactionObject) (finish : Finish) :
    Except Refusal (Answer × System) := do
  let (closed, s) ← s.sqliteTransactionClose object finish
  return (.returned closed, s.setTransactionObject object (some { this with active := false }))

/-- `Transaction.close`. -/
def closeTransaction (s : System) (object : Nat) (finish : Finish) :
    Except Refusal (Answer × System) := do
  let this ← require (s.transactionObjects object) .refused
  if this.destroyed then return (.raised, s)
  s.closeNative object this finish

/-- The destructor of a `Transaction`. -/
def destroyTransaction (s : System) (object : Nat) (finish : Finish) :
    Except Refusal (Answer × System) := do
  let this ← require (s.transactionObjects object) .refused
  if this.destroyed then return (.raised, s)
  s.closeNative object { this with destroyed := true } finish

end System

/-! ## The machine -/

/-- A call, with what SQLite and the allocator answer. -/
inductive Action where
  | newConnection (object : Nat) (opening : Opening)
  | newStatement (object : Nat)
  | newTransaction (object : Nat)
  | connectionError (object : Nat)
  | execute (object : Nat) (ran : Option (Bool × List Effect))
  | setBusyTimeout (object : Nat) (ok : Bool)
  | startPrepare (object target : Nat)
  | prepare (object target : Nat) (prepared : Option Nat)
  | startTransaction (object target : Nat)
  | beginTransaction (object target : Nat) (began : Option (Nat × Bool))
  | closeConnection (object : Nat) (ok : Bool)
  | destroyConnection (object : Nat)
  | statementError (object : Nat)
  | bind (object : Nat) (ok : Bool)
  | step (object : Nat) (answer : Step) (effects : List Effect)
  | value (object : Nat) (ok : Bool)
  | closeStatement (object : Nat) (ok : Bool)
  | destroyStatement (object : Nat) (ok : Bool)
  | isActive (object : Nat)
  | commit (object : Nat) (finish : Finish)
  | rollback (object : Nat) (finish : Finish)
  | closeTransaction (object : Nat) (finish : Finish)
  | destroyTransaction (object : Nat) (finish : Finish)
  /-- The collector frees objects whose destructor has run. -/
  | freeConnection (object : Nat)
  | freeStatement (object : Nat)
  | freeTransaction (object : Nat)
  deriving DecidableEq, Repr

namespace System

/-- A call and its answer. -/
def perform (s : System) : Action → Except Refusal (Answer × System)
  | .newConnection object opening => s.newConnection object opening
  | .newStatement object => do return (.returned true, ← s.newStatement object)
  | .newTransaction object => do return (.returned true, ← s.newTransaction object)
  | .connectionError object => s.connectionError object
  | .execute object ran => s.execute object ran
  | .setBusyTimeout object ok => s.setBusyTimeout object ok
  | .startPrepare object target => s.startPrepare object target
  | .prepare object target prepared => s.prepare object target prepared
  | .startTransaction object target => s.startTransaction object target
  | .beginTransaction object target began => s.beginTransaction object target began
  | .closeConnection object ok => s.closeConnection object ok
  | .destroyConnection object => s.destroyConnection object
  | .statementError object => s.statementError object
  | .bind object ok => s.bind object ok
  | .step object answer effects => s.step object answer effects
  | .value object ok => s.value object ok
  | .closeStatement object ok => s.closeStatement object ok
  | .destroyStatement object ok => s.destroyStatement object ok
  | .isActive object => do
    let this ← require (s.transactionObjects object) .refused
    if this.destroyed then return (.raised, s)
    let (active, s) ← s.isActive object .kept
    return (.returned active, s)
  | .commit object finish => s.commit object finish
  | .rollback object finish => s.rollback object finish
  | .closeTransaction object finish => s.closeTransaction object finish
  | .destroyTransaction object finish => s.destroyTransaction object finish
  | .freeConnection object => do
    let this ← require (s.connectionObjects object) .refused
    ensure (this.destroyed = true) .refused
    return (.returned true, s.setConnectionObject object none)
  | .freeStatement object => do
    let this ← require (s.statementObjects object) .refused
    ensure (this.destroyed = true) .refused
    return (.returned true, s.setStatementObject object none)
  | .freeTransaction object => do
    let this ← require (s.transactionObjects object) .refused
    ensure (this.destroyed = true) .refused
    return (.returned true, s.setTransactionObject object none)

/-- Nothing is open. -/
def initial : System :=
  ⟨fun _ => none, .empty, .empty, fun _ => none, 0, 0, fun _ => none, fun _ => none, fun _ => none,
    []⟩

end System

/-- The calls of a program, one after the other. -/
def machine : Machine System Action Refusal :=
  ⟨(· = .initial), fun s action => (s.perform action).map Prod.snd⟩

end Cwhip.Sqlite
