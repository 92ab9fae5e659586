/-
  Cwhip.Sqlite.Lifetime

  The lifetime of the connections of the `sqlite` package, over every sequence of
  calls, destructors and collections.

  `perform_spec` is the one account of a call; `connections_live` derives from it
  what holds in every reachable state.  A statement or transaction that is closed
  is let go even if SQLite reports an error, and so is a transaction that is asked
  when its connection is outside one; of the calls that fail only these change
  anything (`failed_close_releases`).
-/

import Cwhip.Sqlite.NativeSound

namespace Cwhip.Sqlite

open Cwhip.Lib
open Function (update_of_ne update_self)

/-! ## What a call leaves -/

/-- The call has not done what it was asked for. -/
def Answer.failed : Answer → Bool
  | .returned ok => !ok
  | .raised => true

namespace Action

/-- The statement object that the call closes. -/
def closesStatement : Action → Option Nat
  | .closeStatement object _ | .destroyStatement object _ => some object
  | _ => none

/-- The transaction object that the call closes. -/
def closesTransaction : Action → Option Nat
  | .closeTransaction object _ | .destroyTransaction object _ => some object
  | _ => none

/-- The transaction object that is asked whether it is active, or to end. -/
def asks : Action → Option Nat
  | .isActive object | .commit object _ | .rollback object _ => some object
  | action => action.closesTransaction

theorem closesStatement_of_asks {action : Action} {object : Nat} (h : action.asks = some object) :
    action.closesStatement = none := by
  cases action <;> first | rfl | cases h

end Action

/-- The connection of the object's transaction, if it has one, is inside a transaction. -/
def System.Active (s : System) (object : Nat) : Prop :=
  ∀ transaction ∈ s.transactionRegistry.entries, transaction.ownerObject = object →
    ∀ connection handle database, s.Connected transaction.connection connection handle database →
      database.autocommit = false

/-- What a call does. -/
structure Performed (s : System) (action : Action) (answer : Answer) (s' : System) : Prop where
  consistent : Consistent s'
  /-- A call that fails changes nothing, unless it closes a statement or a transaction, or
      asks a transaction whose connection is outside one. -/
  failed : action.closesStatement = none → action.closesTransaction = none →
    (∀ object, action.asks = some object → s.Active object) → answer.failed = true → Untouched s s'
  statementClosed : ∀ object, action.closesStatement = some object → answer ≠ .raised →
    ∀ statement ∈ s'.statementRegistry.entries, statement.ownerObject ≠ object
  transactionClosed : ∀ object, action.closesTransaction = some object → answer ≠ .raised →
    ∀ transaction ∈ s'.transactionRegistry.entries, transaction.ownerObject ≠ object
  /-- It ends transactions as SQL text does, or for the transaction that it asks. -/
  acts : ∃ ender handle, Acts ender handle s s' ∧ (ender = .sql ∨
    ∃ transaction ∈ s.transactionRegistry.entries, action.asks = some transaction.ownerObject ∧
      ender = .object transaction.begun ∧ ∃ connection database,
        s.Connected transaction.connection connection handle database)

variable {s' : System} {action : Action} {object : Nat}

variable {answer : Answer} {this : ConnectionObject}

theorem Performed.plain {s : System} (hkept : Consistent s')
    (hacts : ∃ handle, Acts .sql handle s s') (hstatement : action.closesStatement = none)
    (hasks : action.asks = none)
    (hfailed : answer.failed = true → Untouched s s') : Performed s action answer s' := by
  obtain ⟨handle, hacts⟩ := hacts
  refine ⟨hkept, fun _ _ _ h => hfailed h, fun object h => ?_, fun object h => ?_, .sql, handle,
    hacts, .inl rfl⟩
  · rw [hstatement] at h
    cases h
  · have hasked : action.asks = some object := by
      cases action <;> first | exact h | cases h
    rw [hasks] at hasked
    cases hasked

/-- A call that raises or finds nothing leaves the store alone. -/
theorem Performed.nothing {s : System} (h : Consistent s) (answer : Answer)
    (hstatement : ∀ object, action.closesStatement = some object → answer = .raised)
    (htransaction : ∀ object, action.closesTransaction = some object → answer = .raised) :
    Performed s action answer s :=
  ⟨h, fun _ _ _ _ => .refl s, fun object hobject hanswer =>
    absurd (hstatement object hobject) hanswer,
    fun object hobject hanswer => absurd (htransaction object hobject) hanswer, .sql, 0,
      .refl s, .inl rfl⟩

/-! ## Objects -/

theorem Consistent.setStatementObject {s : System} {state : Option StatementObject}
    (h : Consistent s) (hstate : (∃ this, state = some this ∧ this.destroyed = false) ∨
      ∀ statement ∈ s.statementRegistry.entries, statement.ownerObject ≠ object) :
    Consistent (s.setStatementObject object state) where
  toRunning := by
    refine h.toRunning.setObjects rfl rfl rfl rfl rfl (fun _ => rfl) (fun _ => rfl)
      (fun statement hentry => ?_) h.registered.transactionObjects
    show ∃ this, Function.update s.statementObjects object state statement.ownerObject = some this ∧
      _
    by_cases heq : statement.ownerObject = object
    · rcases hstate with ⟨this, rfl, hlive⟩ | hnone
      · exact ⟨this, by rw [heq, update_self], hlive⟩
      · exact absurd heq (hnone statement hentry)
    · rw [update_of_ne heq]
      exact h.registered.statementObjects statement hentry
  owned := h.owned.congr rfl fun _ connection hid hopen => ⟨connection, hid, hopen⟩

theorem Consistent.setTransactionObject {s : System} {state : Option TransactionObject}
    (h : Consistent s) (hstate : (∃ this, state = some this ∧ this.destroyed = false) ∨
      ∀ transaction ∈ s.transactionRegistry.entries, transaction.ownerObject ≠ object) :
    Consistent (s.setTransactionObject object state) where
  toRunning := by
    refine h.toRunning.setObjects rfl rfl rfl rfl rfl (fun _ => rfl)
      (fun _ => rfl) h.registered.statementObjects
      fun transaction hentry => ?_
    show ∃ this, Function.update s.transactionObjects object state transaction.ownerObject =
      some this ∧ _
    by_cases heq : transaction.ownerObject = object
    · rcases hstate with ⟨this, rfl, hlive⟩ | hnone
      · exact ⟨this, by rw [heq, update_self], hlive⟩
      · exact absurd heq (hnone transaction hentry)
    · rw [update_of_ne heq]
      exact h.registered.transactionObjects transaction hentry
  owned := h.owned.congr rfl fun _ connection hid hopen => ⟨connection, hid, hopen⟩

theorem Consistent.setConnectionObject {s : System} {state : Option ConnectionObject}
    (h : Running none s)
    (hothers : ∀ other ≠ object, ∀ this id, s.connectionObjects other = some this →
      this.native = some id →
      this.destroyed = false ∧ ∃ connection, s.connections id = some connection ∧
      connection.ownerOpen = true)
    (hunique : ∀ other other' this this' id, s.connectionObjects other = some this →
      s.connectionObjects other' = some this' → this.native = some id → this'.native = some id →
      other = other')
    (hstate : ∀ this, state = some this → this.native = none) :
    Consistent (s.setConnectionObject object state) where
  toRunning := h.setObjects rfl rfl rfl rfl rfl (fun _ => rfl)
    (fun _ => rfl) h.registered.statementObjects
    h.registered.transactionObjects
  owned := by
    have hold : ∀ {other this id}, Function.update s.connectionObjects object state other =
        some this →
        this.native = some id → other ≠ object ∧ s.connectionObjects other = some this := by
      intro other this id hother hnative
      by_cases heq : other = object
      · rw [heq, update_self] at hother
        rw [hstate this hother] at hnative
        cases hnative
      · rw [update_of_ne heq] at hother
        exact ⟨heq, hother⟩
    refine ⟨fun other this id hother hnative => ?_,
      fun other other' this this' id hother hother' hnative hnative' => ?_⟩
    · obtain ⟨hne, hwas⟩ := hold hother hnative
      exact hothers other hne this id hwas hnative
    · exact hunique other other' this this' id (hold hother hnative).2 (hold hother' hnative').2
        hnative hnative'

theorem Consistent.live {s : System} (h : Consistent s)
    (hobject : s.connectionObjects object = some this) : Live s this.native := by
  intro id hnative
  obtain ⟨_, connection, hconnection, _⟩ := h.owned.native object this id hobject hnative
  rw [hconnection]
  rfl

theorem LetGo.consistent {s : System} {id : Nat} {state : ConnectionObject} (h : Consistent s)
    (hobject : s.connectionObjects object = some this) (hnative : this.native = some id)
    (hletGo : LetGo id s s') (hstate : state.native = none) :
    Consistent (s'.setConnectionObject object (some state)) := by
  refine Consistent.setConnectionObject hletGo.running (fun other hother found id' hfound hid' =>
    ?_) (fun other other' found found' id' => ?_) fun found hfound => ?_
  · rw [hletGo.frame.connectionObjects] at hfound
    obtain ⟨hlive, connection, hconnection, hopen⟩ := h.owned.native other found id' hfound hid'
    have hne : id' ≠ id := by
      rintro rfl
      exact hother (h.owned.unique other object found this id' hfound hobject hid' hnative)
    exact ⟨hlive, connection, hletGo.others id' connection hne hconnection, hopen⟩
  · rw [hletGo.frame.connectionObjects]
    exact h.owned.unique other other' found found' id'
  · rw [← Option.some.inj hfound]
    exact hstate

/-! ## Calls of a connection -/

section

variable {s : System}

theorem newConnection_spec (h : Consistent s) (object : Nat) (opening : Opening) :
    Ends .refused (s.newConnection object opening) fun result =>
      Performed s (.newConnection object opening) result.1 result.2 := by
  refine (Ends.ensure _).bind fun _ hfresh => (sqliteOpen_ends h opening).bind fun result hopened =>
    .pure ?_
  obtain ⟨native, s'⟩ := result
  obtain ⟨handle, hacts⟩ := hopened.acts
  have hacts' : Acts .sql handle s (s'.setConnectionObject object (some ⟨native, false⟩)) :=
    hacts.trans (.same rfl rfl rfl rfl)
  have hobjects : s'.connectionObjects = s.connectionObjects := hopened.objects.connectionObjects
  have hstill : ∀ other this id, s.connectionObjects other = some this → this.native = some id →
      this.destroyed = false ∧ ∃ connection, s'.connections id = some connection ∧
          connection.ownerOpen = true := by
    intro other this id hother hnative
    obtain ⟨hlive, connection, hconnection, hopen⟩ := h.owned.native other this id hother hnative
    exact ⟨hlive, connection, hopened.others id connection hconnection, hopen⟩
  refine .plain ?_ ⟨handle, hacts'⟩ rfl rfl fun hfailed => ?_
  · cases hnative : native with
    | none =>
      refine .setConnectionObject hopened.running (fun other _ this id hother => ?_)
        (fun other other' this this' id hother hother' => ?_) fun this hthis => ?_
      · rw [hobjects] at hother
        exact hstill other this id hother
      · rw [hobjects] at hother hother'
        exact h.owned.unique other other' this this' id hother hother'
      · rw [← Option.some.inj hthis]
    | some id =>
      obtain ⟨hnew, connection, hconnection, hopen⟩ := hopened.connection id hnative
      refine ⟨hopened.running.setObjects rfl rfl rfl rfl rfl (fun _ => rfl) (fun _ => rfl)
        hopened.running.registered.statementObjects hopened.running.registered.transactionObjects,
          ?_⟩
      -- no object had the new connection
      have hunused : ∀ {other this}, s.connectionObjects other = some this →
          this.native ≠ some id := by
        intro other this hother hid
        obtain ⟨_, found, hfound, _⟩ := h.owned.native other this id hother hid
        exact Option.some_ne_none _ (hfound.symm.trans hnew)
      have hcases : ∀ {other this}, Function.update s'.connectionObjects object
          (some ⟨some id, false⟩) other =
          some this → (other = object ∧ this = ⟨some id, false⟩) ∨ s.connectionObjects other =
              some this := by
        intro other this hother
        by_cases heq : other = object
        · rw [heq, update_self] at hother
          exact .inl ⟨heq, (Option.some.inj hother).symm⟩
        · rw [update_of_ne heq, hobjects] at hother
          exact .inr hother
      refine ⟨fun other this id' hother hid => ?_,
        fun other other' this this' id' hother hother' hid hid' => ?_⟩
      · rcases hcases hother with ⟨rfl, rfl⟩ | hold
        · obtain rfl := Option.some.inj hid
          exact ⟨rfl, connection, hconnection, hopen⟩
        · exact hstill other this id' hold hid
      · rcases hcases hother with ⟨rfl, rfl⟩ | hold
        · obtain rfl := Option.some.inj hid
          rcases hcases hother' with ⟨rfl, _⟩ | hold'
          · rfl
          · exact absurd hid' (hunused hold')
        · rcases hcases hother' with ⟨rfl, rfl⟩ | hold'
          · obtain rfl := Option.some.inj hid'
            exact absurd hid (hunused hold)
          · exact h.owned.unique other other' this this' id' hold hold' hid hid'
  · have hnone : native = none := by
      cases native with
      | none => rfl
      | some id => cases hfailed
    obtain ⟨hconnections, hstatements, htransactions⟩ := hopened.failed hnone
    exact ⟨hconnections, hstatements, htransactions⟩

theorem connectionError_spec (h : Consistent s) (object : Nat) :
    Ends .refused (s.connectionError object) fun result =>
      Performed s (.connectionError object) result.1 result.2 := by
  refine (Ends.require _).bind fun this hthis => Ends.ite (fun _ => .pure ?_) fun _ =>
    (sqliteConnectionError_ends h (h.live hthis)).bind fun _ _ => .pure ?_
  · exact .nothing h _ (fun _ h => (nomatch h)) fun _ h => nomatch h
  · exact .nothing h _ (fun _ h => (nomatch h)) fun _ h => nomatch h

theorem execute_spec (h : Consistent s) (object : Nat) (ran : Option (Bool × List Effect)) :
    Ends .refused (s.execute object ran) fun result =>
    Performed s (.execute object ran) result.1 result.2 := by
  refine (Ends.require _).bind fun this hthis => Ends.ite (fun _ => ?_) fun _ => ?_
  · exact .pure (.nothing h _ (fun _ h => (nomatch h)) fun _ h => nomatch h)
  · refine (sqliteExecute_ends h (h.live hthis) ran).bind fun result hresult => .pure ?_
    obtain ⟨hkept, huntouched⟩ := hresult
    exact .plain hkept.consistent hkept.acts rfl rfl fun _ => huntouched

theorem setBusyTimeout_spec (h : Consistent s) (object : Nat) (ok : Bool) :
    Ends .refused (s.setBusyTimeout object ok) fun result =>
      Performed s (.setBusyTimeout object ok) result.1 result.2 := by
  refine (Ends.require _).bind fun this hthis => Ends.ite (fun _ => ?_) fun _ => ?_
  · exact .pure (.nothing h _ (fun _ h => (nomatch h)) fun _ h => nomatch h)
  · refine (sqliteBusyTimeout_ends h (h.live hthis) ok).bind fun result hresult => .pure ?_
    rw [hresult]
    exact .nothing h _ (fun _ h => (nomatch h)) fun _ h => nomatch h

theorem newStatement_ends (h : Consistent s) (object : Nat) :
    Ends .refused (s.newStatement object) fun s' =>
    Consistent s' ∧ (∃ handle, Acts .sql handle s s') ∧ Untouched s s' := by
  refine (Ends.ensure _).bind fun _ _ => .pure ⟨?_, ⟨0, .same rfl rfl rfl rfl⟩, rfl, rfl, rfl⟩
  exact h.setStatementObject (.inl ⟨_, rfl, rfl⟩)

theorem newTransaction_ends (h : Consistent s) (object : Nat) :
    Ends .refused (s.newTransaction object) fun s' =>
    Consistent s' ∧ (∃ handle, Acts .sql handle s s') ∧ Untouched s s' := by
  refine (Ends.ensure _).bind fun _ _ => .pure ⟨?_, ⟨0, .same rfl rfl rfl rfl⟩, rfl, rfl, rfl⟩
  exact h.setTransactionObject (.inl ⟨_, rfl, rfl⟩)

theorem startPrepare_spec (h : Consistent s) (object target : Nat) :
    Ends .refused (s.startPrepare object target) fun result =>
      Performed s (.startPrepare object target) result.1 result.2 := by
  refine (Ends.require _).bind fun this _ => Ends.ite (fun _ => ?_) fun _ => ?_
  · exact .pure (.nothing h _ (fun _ h => (nomatch h)) fun _ h => nomatch h)
  · refine (newStatement_ends h target).bind fun s' hs' => .pure ?_
    exact .plain hs'.1 hs'.2.1 rfl rfl fun _ => hs'.2.2

theorem prepare_spec (h : Consistent s) (object target : Nat) (prepared : Option Nat) :
    Ends .refused (s.prepare object target prepared) fun result =>
      Performed s (.prepare object target prepared) result.1 result.2 := by
  refine (Ends.require _).bind fun this hthis => (Ends.require _).bind fun result hresult =>
    (Ends.ensure _).bind fun _ hlive =>
      (sqlitePrepare_ends h (h.live hthis) hresult hlive prepared).bind fun answer hanswer =>
        .pure ?_
  obtain ⟨ok, s'⟩ := answer
  obtain ⟨hkept, hfailed⟩ := hanswer
  refine .plain hkept.consistent hkept.acts rfl rfl fun hnot => hfailed ?_
  cases ok with
  | false => rfl
  | true => cases hnot

theorem startTransaction_spec (h : Consistent s) (object target : Nat) :
    Ends .refused (s.startTransaction object target) fun result =>
      Performed s (.startTransaction object target) result.1 result.2 := by
  refine (Ends.require _).bind fun this _ => Ends.ite (fun _ => ?_) fun _ => ?_
  · exact .pure (.nothing h _ (fun _ h => (nomatch h)) fun _ h => nomatch h)
  · refine (newTransaction_ends h target).bind fun s' hs' => .pure ?_
    exact .plain hs'.1 hs'.2.1 rfl rfl fun _ => hs'.2.2

theorem beginTransaction_spec (h : Consistent s) (object target : Nat)
    (began : Option (Nat × Bool)) :
    Ends .refused (s.beginTransaction object target began) fun result =>
      Performed s (.beginTransaction object target began) result.1 result.2 := by
  refine (Ends.require _).bind fun this hthis =>
      (Ends.require _).bind fun transaction htransaction =>
    (Ends.ensure _).bind fun _ hlive =>
      (sqliteBeginTransaction_ends h (h.live hthis) htransaction hlive began).bind
        fun answer hanswer => ?_
  obtain ⟨ok, s'⟩ := answer
  obtain ⟨hkept, hfailed⟩ := hanswer
  refine Ends.ite (fun hok => .pure (.plain hkept.consistent hkept.acts rfl rfl fun h => nomatch h))
    fun hnot => ?_
  obtain rfl : s' = s := hfailed (Bool.not_eq_true _ ▸ hnot)
  refine (sqliteConnectionError_ends h (h.live hthis)).bind fun _ _ => .pure ?_
  exact .nothing h _ (fun _ h => (nomatch h)) fun _ h => nomatch h

theorem closeConnection_spec (h : Consistent s) (object : Nat) (ok : Bool) :
    Ends .refused (s.closeConnection object ok) fun result =>
      Performed s (.closeConnection object ok) result.1 result.2 := by
  have hnothing : ∀ answer, Performed s (.closeConnection object ok) answer s := fun answer =>
    .nothing h _ (fun _ h => (nomatch h)) fun _ h => nomatch h
  refine (Ends.require _).bind fun this hthis => Ends.ite (fun _ => .pure (hnothing _)) fun _ =>
    Ends.ite (fun _ => .pure (hnothing _)) fun hsome => ?_
  obtain ⟨id, hnative⟩ : ∃ id, this.native = some id := by
    cases hnative : this.native with
    | none => exact absurd (by rw [hnative]; rfl) hsome
    | some id => exact ⟨id, rfl⟩
  obtain ⟨_, connection, hconnection, hopen⟩ := h.owned.native object this id hthis hnative
  rw [hnative]
  rcases sqliteClose_cases h.toRunning hconnection hopen ok with hfailed | ⟨s', hclosed, hletGo⟩
  · exact .bind_ok hfailed (.pure (hnothing _))
  · obtain ⟨handle, hacts⟩ := hletGo.acts
    exact .bind_ok hclosed (.pure (.plain (hletGo.consistent h hthis hnative rfl)
      ⟨handle, hacts.trans (.same rfl rfl rfl rfl)⟩ rfl rfl fun h => nomatch h))

theorem destroyConnection_spec (h : Consistent s) (object : Nat) :
    Ends .refused (s.destroyConnection object) fun result =>
      Performed s (.destroyConnection object) result.1 result.2 := by
  refine (Ends.require _).bind fun this hthis => Ends.ite (fun _ => ?_) fun _ => ?_
  · exact .pure (.nothing h _ (fun _ h => (nomatch h)) fun _ h => nomatch h)
  · cases hnative : this.native with
    | none =>
      refine .bind_ok rfl (.pure (.plain ?_ ⟨0, .same rfl rfl rfl rfl⟩ rfl rfl fun h => nomatch h))
      exact .setConnectionObject h.toRunning (fun other _ => h.owned.native other) h.owned.unique
        fun state hstate => by rw [← Option.some.inj hstate]
    | some id =>
      obtain ⟨_, connection, hconnection, hopen⟩ := h.owned.native object this id hthis hnative
      obtain ⟨s', hreleased, hletGo⟩ := sqliteReleaseConnection_eq h.toRunning hconnection hopen
      obtain ⟨handle, hacts⟩ := hletGo.acts
      exact .bind_ok hreleased (.pure (.plain (hletGo.consistent h hthis hnative rfl)
        ⟨handle, hacts.trans (.same rfl rfl rfl rfl)⟩ rfl rfl fun h => nomatch h))

/-! ## Calls of a statement -/

theorem statementError_spec (h : Consistent s) (object : Nat) :
    Ends .refused (s.statementError object) fun result =>
      Performed s (.statementError object) result.1 result.2 := by
  refine (Ends.require _).bind fun this _ => Ends.ite (fun _ => .pure ?_) fun _ =>
    (sqliteStatementError_ends h object).bind fun _ _ => .pure ?_
  · exact .nothing h _ (fun _ h => (nomatch h)) fun _ h => nomatch h
  · exact .nothing h _ (fun _ h => (nomatch h)) fun _ h => nomatch h

theorem bind_spec (h : Consistent s) (object : Nat) (ok : Bool) :
    Ends .refused (s.bind object ok) fun result =>
    Performed s (.bind object ok) result.1 result.2 := by
  refine (Ends.require _).bind fun this _ => (sqliteStatementExists_ends h object).bind fun _ _ =>
    Ends.ite (fun _ => .pure ?_) fun _ => (sqliteBind_ends h object ok).bind fun _ _ => .pure ?_
  · exact .nothing h _ (fun _ h => (nomatch h)) fun _ h => nomatch h
  · exact .nothing h _ (fun _ h => (nomatch h)) fun _ h => nomatch h

theorem value_spec (h : Consistent s) (object : Nat) (ok : Bool) :
    Ends .refused (s.value object ok) fun result =>
    Performed s (.value object ok) result.1 result.2 := by
  refine (Ends.require _).bind fun this _ => (sqliteStatementExists_ends h object).bind fun _ _ =>
    Ends.ite (fun _ => .pure ?_) fun _ => (statementOf_ends h object).bind fun _ _ => .pure ?_
  · exact .nothing h _ (fun _ h => (nomatch h)) fun _ h => nomatch h
  · exact .nothing h _ (fun _ h => (nomatch h)) fun _ h => nomatch h

variable {s' : System} {object : Nat} {action : Action} {transaction : Transaction}

theorem Kept.setStatementObject {this this' : StatementObject} (hkept : Kept s s')
    (hlive : this.destroyed = false) (hsame : this'.destroyed = this.destroyed) :
    Consistent (s'.setStatementObject object (some this')) :=
  hkept.consistent.setStatementObject (.inl ⟨this', rfl, hsame.trans hlive⟩)

theorem step_spec (h : Consistent s) (object : Nat) (answer : Step) (effects : List Effect) :
    Ends .refused (s.step object answer effects) fun result =>
      Performed s (.step object answer effects) result.1 result.2 := by
  refine (Ends.require _).bind fun this _ =>
      (sqliteStatementExists_ends h object).bind fun found _ =>
    Ends.ite (fun _ => .pure ?_) fun hlive => Ends.ite (fun _ => .pure ?_) fun _ =>
      (sqliteStep_ends h object answer effects).bind fun result hresult => .pure ?_
  · exact .nothing h _ (fun _ h => (nomatch h)) fun _ h => nomatch h
  · exact .nothing h _ (fun _ h => (nomatch h)) fun _ h => nomatch h
  · obtain ⟨status, s'⟩ := result
    obtain ⟨hkept, huntouched⟩ := hresult
    obtain ⟨handle, hacts⟩ := hkept.acts
    have hdestroyed : this.destroyed = false := by
      simp only [Bool.or_eq_true, not_or, Bool.not_eq_true] at hlive
      exact hlive.1
    refine .plain (hkept.setStatementObject hdestroyed rfl) ⟨handle,
      hacts.trans (.same rfl rfl rfl rfl)⟩ rfl rfl
      fun _ => ⟨huntouched.connections, huntouched.statementRegistry,
        huntouched.transactionRegistry⟩

theorem finalizeStatement_ends (h : Consistent s) (object : Nat) (this : StatementObject)
    (ok : Bool) :
    Ends .refused (s.finalizeStatement object this ok) fun result => Consistent result.2 ∧
      (∃ handle, Acts .sql handle s result.2) ∧
        ∀ statement ∈ result.2.statementRegistry.entries, statement.ownerObject ≠ object := by
  refine (sqliteFinalize_ends h object ok).bind fun result hresult => .pure ?_
  obtain ⟨finalized, s'⟩ := result
  obtain ⟨hkept, hnone⟩ := hresult
  obtain ⟨handle, hacts⟩ := hkept.acts
  exact ⟨hkept.consistent.setStatementObject (.inr hnone),
    ⟨handle, hacts.trans (.same rfl rfl rfl rfl)⟩, hnone⟩

variable {answer : Answer} {connection : Connection} {handle : Nat} {database : Database}

theorem Performed.closedStatement (hcloses : action.closesStatement = some object)
    (htransaction : action.closesTransaction = none) (hconsistent : Consistent s')
    (hacts : ∃ handle, Acts .sql handle s s')
    (hnone : ∀ statement ∈ s'.statementRegistry.entries, statement.ownerObject ≠ object) :
    Performed s action answer s' := by
  obtain ⟨handle, hacts⟩ := hacts
  refine ⟨hconsistent, fun h _ _ => ?_, fun other hother _ => ?_, fun other hother => ?_, .sql,
    handle, hacts, .inl rfl⟩
  · rw [hcloses] at h
    cases h
  · rw [hcloses] at hother
    rwa [← Option.some.inj hother]
  · rw [htransaction] at hother
    cases hother

theorem closeStatement_spec (h : Consistent s) (object : Nat) (ok : Bool) :
    Ends .refused (s.closeStatement object ok) fun result =>
      Performed s (.closeStatement object ok) result.1 result.2 := by
  refine (Ends.require _).bind fun this _ => Ends.ite (fun _ => .pure ?_) fun _ =>
    (finalizeStatement_ends h object this ok).mono fun result hresult => ?_
  · exact .nothing h _ (fun _ _ => rfl) fun _ _ => rfl
  · exact .closedStatement rfl rfl hresult.1 hresult.2.1 hresult.2.2

theorem destroyStatement_spec (h : Consistent s) (object : Nat) (ok : Bool) :
    Ends .refused (s.destroyStatement object ok) fun result =>
      Performed s (.destroyStatement object ok) result.1 result.2 := by
  refine (Ends.require _).bind fun this _ => Ends.ite (fun _ => .pure ?_) fun _ =>
    (finalizeStatement_ends h object _ ok).mono fun result hresult => ?_
  · exact .nothing h _ (fun _ _ => rfl) fun _ _ => rfl
  · exact .closedStatement rfl rfl hresult.1 hresult.2.1 hresult.2.2

/-! ## Calls of a transaction -/

theorem Consistent.reported (this : TransactionObject) (h : Consistent s)
    (hlive : this.destroyed = false) (begun : Nat) (active : Bool) :
    Consistent ((s.setTransactionObject object (some this)).record (.reported begun active)) := by
  have hset : Consistent (s.setTransactionObject object (some this)) :=
    h.setTransactionObject (.inl ⟨this, rfl, hlive⟩)
  refine ⟨hset.toRunning.setObjects rfl rfl rfl rfl rfl (fun handle => ?_) (fun handle => ?_)
    hset.registered.statementObjects hset.registered.transactionObjects,
    hset.owned.congr rfl fun _ connection hid hopen => ⟨connection, hid, hopen⟩⟩
  · exact (List.count_append ..).trans (by simp)
  · exact (List.count_append ..).trans (by simp)

theorem Consistent.transactionObject (h : Consistent s)
    (hentry : transaction ∈ s.transactionRegistry.entries) {this : TransactionObject}
    (hthis : s.transactionObjects transaction.ownerObject = some this) :
    this.destroyed = false := by
  obtain ⟨object, hobject, hlive⟩ := h.registered.transactionObjects transaction hentry
  obtain rfl := Option.some.inj (hobject.symm.trans hthis)
  exact hlive

/-- What a call of the object of a registered transaction leaves. -/
structure AskedObject (transaction : Transaction) (handle : Nat) (s s' : System) : Prop where
  consistent : Consistent s'
  acts : Acts (.object transaction.begun) handle s s'

theorem isActive_none (h : Consistent s)
    (hnone : ∀ transaction ∈ s.transactionRegistry.entries, transaction.ownerObject ≠ object)
    (finish : Finish) :
    s.isActive object finish = .ok (false, s) := by
  rw [System.isActive, transactionOf_none h.registered hnone]
  rfl

theorem isActive_some (h : Consistent s) (hentry : transaction ∈ s.transactionRegistry.entries)
    (hconnected : s.Connected transaction.connection connection handle database) (finish : Finish) :
    Ends .refused (s.isActive transaction.ownerObject finish) fun result =>
      AskedObject transaction handle s result.2 ∧ (result.1 = true → Untouched s result.2 ∧
        result.2.databases = s.databases ∧ result.2.log = s.log ++
        [.reported transaction.begun true]) ∧
        (database.autocommit = false → result.1 = true) := by
  obtain ⟨address, _, hof⟩ := transactionOf_some h.toRunning hentry hconnected
  rw [System.isActive]
  refine .bind_ok hof (.bind_ok (sqliteTransactionActive_some h hentry hconnected)
    ((Ends.require _).bind fun this hthis => ?_))
  have hlive := h.transactionObject hentry hthis
  have hreported : Consistent ((s.setTransactionObject transaction.ownerObject
      (some { this with active := !database.autocommit })).record
        (.reported transaction.begun !database.autocommit)) :=
    Consistent.reported { this with active := !database.autocommit } h hlive _ _
  have hset : Acts (.object transaction.begun) handle s
      (s.setTransactionObject transaction.ownerObject
      (some { this with active := !database.autocommit })) := .same rfl rfl rfl rfl
  have hacts := hset.trans (.reports _ transaction.begun database rfl hconnected.isOpen)
  refine Ends.ite (fun hactive => .pure ⟨⟨hreported, hacts⟩, fun _ => ⟨⟨rfl, rfl, rfl⟩, rfl, ?_⟩,
    fun _ => rfl⟩) fun hinactive => ?_
  · show s.log ++ [.reported transaction.begun !database.autocommit] = _
    rw [hactive]
  have hconnected' : System.Connected ((s.setTransactionObject transaction.ownerObject
      (some { this with active := !database.autocommit })).record
        (.reported transaction.begun !database.autocommit)) transaction.connection connection
            handle database :=
    ⟨hconnected.found, hconnected.handle_eq, hconnected.isOpen⟩
  refine (sqliteTransactionClose_ends hreported hentry hconnected' finish).bind
    fun result hresult => .pure ?_
  refine ⟨⟨hresult.1.consistent, hacts.trans hresult.1.acts⟩, nofun, fun hinside => ?_⟩
  rw [hinside] at hinactive
  exact absurd rfl hinactive

theorem AskedObject.performed (hasked : AskedObject transaction handle s s')
    (hentry : transaction ∈ s.transactionRegistry.entries)
    (hconnected : s.Connected transaction.connection connection handle database)
    (hasks : action.asks = some transaction.ownerObject)
    (hclosed : ∀ object, action.closesTransaction = some object →
      ∀ other ∈ s'.transactionRegistry.entries, other.ownerObject ≠ object)
    (hfailed : action.closesTransaction = none → database.autocommit = false →
      answer.failed = true →
      Untouched s s') : Performed s action answer s' := by
  refine ⟨hasked.consistent, fun _ hcloses hactive => ?_, fun object hobject => ?_,
    fun object hobject _ => hclosed object hobject,
    _, handle, hasked.acts, .inr ⟨transaction, hentry, hasks, rfl, connection,
      database, hconnected⟩⟩
  · exact hfailed hcloses (hactive _ hasks transaction hentry rfl connection handle
      database hconnected)
  · -- a call is about a statement or a transaction
    rw [Action.closesStatement_of_asks hasks] at hobject
    cases hobject

theorem isActiveCall_spec (h : Consistent s) (object : Nat) :
    Ends .refused (s.perform (.isActive object)) fun result =>
    Performed s (.isActive object) result.1 result.2 := by
  have hnothing : ∀ answer, Performed s (.isActive object) answer s := fun answer =>
    .nothing h _ (fun _ h => (nomatch h)) fun _ h => nomatch h
  refine (Ends.require _).bind fun this _ => Ends.ite (fun _ => .pure (hnothing _)) fun _ => ?_
  rcases transaction_cases s object with hnone | ⟨transaction, hentry, rfl⟩
  · exact .bind_ok (isActive_none h hnone _) (.pure (hnothing _))
  · obtain ⟨connection, handle, database, hconnected⟩ := h.transaction_connected hentry
    refine (isActive_some h hentry hconnected _).bind fun result hresult => .pure ?_
    refine hresult.1.performed hentry hconnected rfl (fun _ h => nomatch h) fun _ hinside hfailed =>
      ?_
    rw [hresult.2.2 hinside] at hfailed
    cases hfailed

/-- A commit or rollback through its object does what is said of the call. -/
theorem finishWith_ends {native : System → Nat → Finish → Except Refusal (Bool × System)}
    (hnative : ∀ s object finish, native s object finish = s.transactionFinish object finish)
    (h : Consistent s) (hasks : action.asks = some object)
    (hcloses : action.closesTransaction = none) (finish : Finish) :
    Ends .refused (System.finishWith native s object finish) fun result =>
      Performed s action result.1 result.2 := by
  have hnothing : ∀ answer, Performed s action answer s := fun answer =>
    .nothing h _ (fun _ h => by rw [Action.closesStatement_of_asks hasks] at h; cases h)
      fun _ h => by rw [hcloses] at h; cases h
  have hnot : ∀ {s' : System} object, action.closesTransaction = some object →
      ∀ other ∈ s'.transactionRegistry.entries, other.ownerObject ≠ object := by
    intro s' object h
    rw [hcloses] at h
    cases h
  refine (Ends.require _).bind fun this hthis => Ends.ite (fun _ => .pure (hnothing _)) fun _ => ?_
  rcases transaction_cases s object with hnone | ⟨transaction, hentry, rfl⟩
  · exact .bind_ok (isActive_none h hnone _) (.pure (hnothing _))
  · obtain ⟨connection, handle, database, hconnected⟩ := h.transaction_connected hentry
    refine (isActive_some h hentry hconnected finish).bind fun result hresult => ?_
    obtain ⟨active, s₁⟩ := result
    obtain ⟨hasked, hstill, hinside⟩ := hresult
    refine Ends.ite (fun hinactive =>
      .pure (hasked.performed hentry hconnected hasks hnot fun _ h _ => ?_))
      fun hactive => ?_
    · obtain rfl : active = true := hinside h
      cases hinactive
    obtain ⟨huntouched, hdatabases, _⟩ := hstill (by simpa using hactive)
    have hentry₁ : transaction ∈ s₁.transactionRegistry.entries := by
      rw [huntouched.transactionRegistry]
      exact hentry
    have hconnected₁ : s₁.Connected transaction.connection connection handle database :=
      ⟨by rw [huntouched.connections]; exact hconnected.found, hconnected.handle_eq,
        by rw [hdatabases]; exact hconnected.isOpen⟩
    rw [hnative]
    refine (transactionFinish_ends hasked.consistent hentry₁ hconnected₁ finish).bind
      fun result hresult => ?_
    obtain ⟨finished, s₂⟩ := result
    obtain ⟨hasked₂, huntouched₂, hopen₂⟩ := hresult
    have hacts₂ := hasked.acts.trans hasked₂.acts
    have hfinished : AskedObject transaction handle s s₂ := ⟨hasked₂.consistent, hacts₂⟩
    refine Ends.ite (fun _ => .pure (hfinished.performed hentry hconnected hasks hnot fun _ _ _ =>
      ?_)) fun _ => ?_
    · -- SQLite has refused, and the record stays
      exact ⟨huntouched₂.connections.trans huntouched.connections,
        huntouched₂.statementRegistry.trans huntouched.statementRegistry,
        huntouched₂.transactionRegistry.trans huntouched.transactionRegistry⟩
    -- the record goes, with the connection in autocommit mode
    have hlive := h.transactionObject hentry hthis
    have hset : Consistent (s₂.setTransactionObject transaction.ownerObject
        (some { this with active := false })) :=
      hasked₂.consistent.setTransactionObject (.inl ⟨_, rfl, hlive⟩)
    obtain ⟨database₂, hdatabase₂⟩ := Option.isSome_iff_exists.mp hopen₂
    have hconnected₂ : (s₂.setTransactionObject transaction.ownerObject
        (some { this with active := false })).Connected transaction.connection connection
            handle database₂ :=
      ⟨huntouched₂.connections ▸ hconnected₁.found, hconnected.handle_eq, hdatabase₂⟩
    have hentry₂ : transaction ∈ (s₂.setTransactionObject transaction.ownerObject
        (some { this with active := false })).transactionRegistry.entries := by
      show transaction ∈ s₂.transactionRegistry.entries
      rw [huntouched₂.transactionRegistry]
      exact hentry₁
    have hacts₃ : Acts (.object transaction.begun) handle s
        (s₂.setTransactionObject transaction.ownerObject
        (some { this with active := false })) := hacts₂.trans (.same rfl rfl rfl rfl)
    refine (sqliteTransactionClose_ends hset hentry₂ hconnected₂ finish).bind fun result hresult =>
      .pure ?_
    have hclosed : AskedObject transaction handle s result.2 :=
      ⟨hresult.1.consistent, hacts₃.trans hresult.1.acts⟩
    exact hclosed.performed hentry hconnected hasks hnot fun _ _ h => nomatch h

theorem closeNative_ends (h : Consistent s) (this : TransactionObject)
    (hasks : action.asks = some object) (hcloses : action.closesTransaction = some object)
    (finish : Finish) :
    Ends .refused (s.closeNative object this finish) fun result =>
    Performed s action result.1 result.2 := by
  rw [System.closeNative]
  rcases transaction_cases s object with hnone | ⟨transaction, hentry, rfl⟩
  · have hclosed : s.sqliteTransactionClose object finish = .ok (true, s) := by
      rw [System.sqliteTransactionClose, transactionOf_none h.registered hnone]
      rfl
    refine .bind_ok hclosed (.pure ⟨h.setTransactionObject (.inr hnone), fun _ h => ?_,
      fun other h => ?_,
      fun other hother _ => ?_, .sql, 0, .same rfl rfl rfl rfl, .inl rfl⟩)
    · rw [hcloses] at h
      cases h
    · rw [Action.closesStatement_of_asks hasks] at h
      cases h
    · obtain rfl := Option.some.inj (hcloses.symm.trans hother)
      exact hnone
  · obtain ⟨connection, handle, database, hconnected⟩ := h.transaction_connected hentry
    refine (sqliteTransactionClose_ends h hentry hconnected finish).bind fun result hresult =>
      .pure ?_
    obtain ⟨closed, s'⟩ := result
    obtain ⟨hasked, hgone⟩ := hresult
    have hafter : AskedObject transaction handle s (s'.setTransactionObject transaction.ownerObject
        (some { this with active := false })) :=
      ⟨hasked.consistent.setTransactionObject (.inr hgone),
        hasked.acts.trans (.same rfl rfl rfl rfl)⟩
    refine hafter.performed hentry hconnected hasks (fun other hother => ?_) fun h => ?_
    · obtain rfl := Option.some.inj (hcloses.symm.trans hother)
      exact hgone
    · rw [hcloses] at h
      cases h

/-! ## Every call -/

/-- Every call does what is said of it, or is none the program can make. -/
theorem perform_spec (h : Consistent s) (action : Action) :
    Ends .refused (s.perform action) fun result => Performed s action result.1 result.2 := by
  cases action with
  | newConnection object opening => exact newConnection_spec h object opening
  | newStatement object =>
    exact (newStatement_ends h object).bind fun s' hs' =>
      .pure (.plain hs'.1 hs'.2.1 rfl rfl fun _ => hs'.2.2)
  | newTransaction object =>
    exact (newTransaction_ends h object).bind fun s' hs' =>
      .pure (.plain hs'.1 hs'.2.1 rfl rfl fun _ => hs'.2.2)
  | connectionError object => exact connectionError_spec h object
  | execute object ran => exact execute_spec h object ran
  | setBusyTimeout object ok => exact setBusyTimeout_spec h object ok
  | startPrepare object target => exact startPrepare_spec h object target
  | prepare object target prepared => exact prepare_spec h object target prepared
  | startTransaction object target => exact startTransaction_spec h object target
  | beginTransaction object target began => exact beginTransaction_spec h object target began
  | closeConnection object ok => exact closeConnection_spec h object ok
  | destroyConnection object => exact destroyConnection_spec h object
  | statementError object => exact statementError_spec h object
  | bind object ok => exact bind_spec h object ok
  | step object answer effects => exact step_spec h object answer effects
  | value object ok => exact value_spec h object ok
  | closeStatement object ok => exact closeStatement_spec h object ok
  | destroyStatement object ok => exact destroyStatement_spec h object ok
  | isActive object => exact isActiveCall_spec h object
  | commit object finish | rollback object finish =>
    exact finishWith_ends (fun _ _ _ => rfl) h rfl rfl finish
  | closeTransaction object finish =>
    refine (Ends.require _).bind fun this _ => Ends.ite (fun _ => .pure ?_) fun _ =>
      closeNative_ends h this rfl rfl finish
    exact .nothing h _ (fun _ _ => rfl) fun _ _ => rfl
  | destroyTransaction object finish =>
    refine (Ends.require _).bind fun this _ => Ends.ite (fun _ => .pure ?_) fun _ =>
      closeNative_ends h _ rfl rfl finish
    exact .nothing h _ (fun _ _ => rfl) fun _ _ => rfl
  | freeConnection object =>
    refine (Ends.require _).bind fun this hthis => (Ends.ensure _).bind fun _ hdestroyed => .pure ?_
    refine .plain ?_ ⟨0, .same rfl rfl rfl rfl⟩ rfl rfl fun h => nomatch h
    exact .setConnectionObject h.toRunning (fun other _ => h.owned.native other) h.owned.unique
      fun _ h => nomatch h
  | freeStatement object =>
    refine (Ends.require _).bind fun this hthis => (Ends.ensure _).bind fun _ hdestroyed => .pure ?_
    refine .plain (h.setStatementObject (.inr fun statement hentry heq => ?_)) ⟨0,
      .same rfl rfl rfl rfl⟩ rfl rfl
      fun h => nomatch h
    obtain ⟨found, hfound, hlive⟩ := h.registered.statementObjects statement hentry
    rw [heq] at hfound
    obtain rfl := Option.some.inj (hfound.symm.trans hthis)
    exact Bool.false_ne_true (hlive.symm.trans hdestroyed)
  | freeTransaction object =>
    refine (Ends.require _).bind fun this hthis => (Ends.ensure _).bind fun _ hdestroyed => .pure ?_
    refine .plain (h.setTransactionObject (.inr fun transaction hentry heq => ?_)) ⟨0,
      .same rfl rfl rfl rfl⟩ rfl rfl
      fun h => nomatch h
    rw [← heq] at hthis
    exact Bool.false_ne_true ((h.transactionObject hentry hthis).symm.trans hdestroyed)

end

/-! ## Every sequence of calls -/

theorem consistent_initial : Consistent .initial where
  registered :=
    ⟨RecordList.wellFormed_empty, RecordList.wellFormed_empty, List.nodup_nil, List.nodup_nil,
      fun _ h => (nomatch h), fun _ h => nomatch h⟩
  counted := ⟨fun _ _ h => (nomatch h), fun _ _ h => (nomatch h), fun _ h =>
    absurd h (Nat.lt_irrefl 0)⟩
  handles :=
    ⟨fun _ _ h => (nomatch h), fun _ _ _ _ _ h => (nomatch h), fun _ h => (nomatch h),
      fun _ h => (nomatch h),
      fun _ => rfl, fun _ => rfl⟩
  owned := ⟨fun _ _ _ h => (nomatch h), fun _ _ _ _ _ h => nomatch h⟩

theorem perform_of_step {s : System} (h : machine.step s action = .ok s') :
    ∃ answer, s.perform action = .ok (answer, s') := by
  have hmap : (s.perform action).map Prod.snd = .ok s' := h
  cases hperform : s.perform action with
  | error refusal =>
    rw [hperform] at hmap
    cases hmap
  | ok result =>
    rw [hperform] at hmap
    obtain rfl := Except.ok.inj hmap
    exact ⟨result.1, rfl⟩

/-- Every call keeps the invariant, from `perform_spec`. -/
theorem Consistent.perform {s : System} (h : Consistent s)
    (hperform : s.perform action = .ok (answer, s')) : Performed s action answer s' :=
  (perform_spec h action).returns hperform

theorem Consistent.step {s : System} (h : Consistent s)
    (hstep : machine.step s action = .ok s') : Consistent s' := by
  obtain ⟨answer, hperform⟩ := perform_of_step hstep
  exact (h.perform hperform).consistent

/-- The store is consistent after every run. -/
theorem consistent_of_reachable {s : System} (h : machine.Reachable s) : Consistent s :=
  h.invariant (fun _ hinit => hinit ▸ consistent_initial) fun _ _ _ hs hstep => hs.step hstep

/-- What holds of the connections between two calls, and what the next call does to them. -/
structure Lifetime (s : System) : Prop where
  /-- One reference for an open owner, and one for each statement and transaction. -/
  references : ∀ id connection, s.connections id = some connection →
    connection.references = (if connection.ownerOpen then 1 else 0) + s.shares id
  /-- A connection that has a reference is there, with its database open. -/
  openWhileReferenced : ∀ id connection, s.connections id = some connection →
    0 < connection.references ∧
    ∃ handle, connection.database = some handle ∧ .opened handle ∈ s.log ∧ .closed handle ∉ s.log
  recorded : ∀ id, 0 < s.shares id → (s.connections id).isSome = true
  owners : ∀ object this id, s.connectionObjects object = some this → this.native = some id →
    ∃ connection, s.connections id = some connection ∧ connection.ownerOpen = true
  /-- Every other database that was opened has been closed, once. -/
  closedOnce : ∀ handle, .opened handle ∈ s.log →
    (∀ id connection, s.connections id = some connection → connection.database ≠ some handle) →
    s.log.count (.closed handle) = 1
  oneStatement : (s.statementRegistry.entries.map Statement.ownerObject).Nodup
  oneTransaction : (s.transactionRegistry.entries.map Transaction.ownerObject).Nodup
  /-- No call uses a freed record or a closed database. -/
  sound : ∀ action refusal, s.perform action = .error refusal → refusal = .refused
  /-- A call that fails changes no count and no registry, unless it closes a statement or
      a transaction, or asks a transaction whose connection is outside one. -/
  failed : ∀ action answer s', s.perform action = .ok (answer, s') → action.closesStatement = none →
    action.closesTransaction = none → (∀ object, action.asks = some object → s.Active object) →
      answer.failed = true → Untouched s s'
  /-- Closing lets go, whatever SQLite answers. -/
  statementClosed : ∀ action answer s' object, s.perform action = .ok (answer, s') →
    action.closesStatement = some object → answer ≠ .raised →
    ∀ statement ∈ s'.statementRegistry.entries, statement.ownerObject ≠ object
  transactionClosed : ∀ action answer s' object, s.perform action = .ok (answer, s') →
    action.closesTransaction = some object → answer ≠ .raised →
    ∀ transaction ∈ s'.transactionRegistry.entries, transaction.ownerObject ≠ object

/-- In every state that calls lead to. -/
theorem connections_live {s : System} (h : machine.Reachable s) : Lifetime s := by
  have hs := consistent_of_reachable h
  constructor
  case references =>
    intro id connection hid
    have hcount := hs.counted.references id connection hid
    rwa [extra_none, Nat.add_zero] at hcount
  case openWhileReferenced =>
    intro id connection hid
    obtain ⟨handle, database, hconnected⟩ := hs.handles.isOpen id connection hid
    have hlt : handle < s.opened := hs.handles.numbered handle (by rw [hconnected.isOpen]; rfl)
    have hopened := hs.handles.openedOnce handle
    have hclosed := hs.handles.closedOnce handle
    rw [if_pos hlt] at hopened
    rw [if_neg (by rw [hconnected.isOpen]; simp)] at hclosed
    exact ⟨hs.counted.positive id connection hid, handle, hconnected.handle_eq,
      List.count_pos_iff.mp (by omega), List.count_eq_zero.mp hclosed⟩
  case recorded =>
    intro id hpos
    exact hs.counted.present id (by rw [extra_none]; omega)
  case owners =>
    intro object this id hobject hnative
    exact (hs.owned.native object this id hobject hnative).2
  case closedOnce =>
    intro handle hopened hnobody
    have hcount := hs.handles.openedOnce handle
    have hpos := List.count_pos_iff.mpr hopened
    have hlt : handle < s.opened := by
      by_contra hge
      rw [if_neg hge] at hcount
      omega
    have hnone : s.databases handle = none := by
      by_contra hsome
      obtain ⟨id, connection, hid, hhandle⟩ :=
        hs.handles.owned handle (Option.isSome_iff_ne_none.mpr hsome)
      exact hnobody id connection hid hhandle
    rw [hs.handles.closedOnce, if_pos ⟨hlt, hnone⟩]
  case oneStatement => exact hs.registered.statementOwners
  case oneTransaction => exact hs.registered.transactionOwners
  case sound => exact fun action refusal hperform => (perform_spec hs action).error hperform
  case failed => exact fun action answer s' hperform => (hs.perform hperform).failed
  case statementClosed => exact fun action answer s' object hperform =>
    (hs.perform hperform).statementClosed object
  case transactionClosed =>
    exact fun action answer s' object hperform => (hs.perform hperform).transactionClosed object

/-! ## A statement whose evaluation has failed -/

/-- A connection with one prepared statement. -/
def oneStatement : List Action :=
  [.newConnection 0 (.opened 0), .startPrepare 0 1, .prepare 0 1 (some 0)]

theorem oneStatement_lifetime : ∃ s, machine.exec .initial oneStatement = .ok s ∧
    s.connections 0 = some ⟨some 0, 2, true⟩ ∧ Lifetime s := by
  obtain ⟨s, hrun, hconnection⟩ : ∃ s, machine.exec .initial oneStatement = .ok s ∧
      s.connections 0 = some ⟨some 0, 2, true⟩ := ⟨_, rfl, rfl⟩
  exact ⟨s, hrun, hconnection, connections_live (.exec rfl hrun)⟩

/-- A statement that SQLite finalizes with an error is closed all the same, and the call
    returns false. -/
theorem failed_close_releases : ¬ ∀ s action answer s', machine.Reachable s →
    s.perform action = .ok (answer, s') → answer.failed = true → Untouched s s' := by
  intro h
  obtain ⟨s, s', hrun, hclose, hbefore, hafter⟩ : ∃ s s', machine.exec .initial oneStatement =
      .ok s ∧
      s.perform (.closeStatement 1 false) = .ok (.returned false, s') ∧
      s.connections 0 = some ⟨some 0, 2, true⟩ ∧ s'.connections 0 = some ⟨some 0, 1, true⟩ :=
    ⟨_, _, rfl, rfl, rfl, rfl⟩
  have huntouched := h s _ _ s' (.exec rfl hrun) hclose rfl
  rw [huntouched.connections, hbefore] at hafter
  cases hafter

end Cwhip.Sqlite
