/-
  Cwhip.Sqlite.Transactions

  Whose transaction a `Transaction` object ends (`sqlite.c`, `sqlite.cw`).

  The object and its record remember the connection, and every decision is taken
  from the autocommit flag of that connection.  So an object keeps to the
  transaction that it began as long as it is never asked while its connection is
  inside another one (`transactions_keep_to_their_own`); then it would take that
  one for its own (`foreign_commit`).
-/

import Cwhip.Sqlite.Lifetime

namespace Cwhip.Sqlite

open Cwhip.Lib
open Function (update_of_ne update_self)

/-- The transaction that a connection is inside. -/
def System.inside (s : System) (id : Nat) : Option Nat := do
  let connection ← s.connections id
  let handle ← connection.database
  let database ← s.databases handle
  database.transaction

variable {s s' : System} {handle : Nat} {log : List Occurrence} {occurrence : Occurrence}
  {ender : Ender}

theorem System.Connected.inside_eq {id : Nat} {connection : Connection} {database : Database}
    (h : s.Connected id connection handle database) : s.inside id = database.transaction := by
  simp [System.inside, h.found, h.handle_eq, h.isOpen]

/-! ## The log -/

/-- What the objects of transactions have done. -/
structure EndsOwn (log : List Occurrence) : Prop where
  ends : ∀ transaction begun, .ended transaction (.object begun) ∈ log → transaction = begun
  /-- An object that reports active has its transaction still. -/
  reports : ∀ before begun rest, log = before ++ .reported begun true :: rest →
    ∀ ender, .ended begun ender ∉ before

theorem EndsOwn.append (h : EndsOwn log)
    (hends : ∀ transaction begun, occurrence = .ended transaction (.object begun) →
    transaction = begun)
    (hreports : ∀ begun, occurrence = .reported begun true → ∀ ender, .ended begun ender ∉ log) :
    EndsOwn (log ++ [occurrence]) where
  ends := by
    intro transaction begun hmem
    rcases List.mem_append.mp hmem with hold | hnew
    · exact h.ends transaction begun hold
    · exact hends transaction begun (List.mem_singleton.mp hnew).symm
  reports := by
    intro before begun rest heq
    rcases List.eq_nil_or_concat rest with rfl | ⟨rest', last, rfl⟩
    · -- the last occurrence is the report
      obtain ⟨rfl, hlast⟩ := List.append_inj' heq rfl
      exact hreports begun (List.singleton_inj.mp hlast)
    · have hassoc : log ++ [occurrence] = (before ++ .reported begun true :: rest') ++ [last] := by
        simpa using heq
      obtain ⟨hlog, _⟩ := List.append_inj' hassoc rfl
      exact h.reports before begun rest' hlog

theorem EndsOwn.silent (h : EndsOwn log)
    (hends : ∀ transaction ender, occurrence ≠ .ended transaction ender)
    (hreports : ∀ begun active, occurrence ≠ .reported begun active) :
    EndsOwn (log ++ [occurrence]) :=
  h.append (fun transaction _ heq => absurd heq (hends transaction _)) fun begun heq =>
    absurd heq (hreports begun true)

/-! ## The invariant -/

/-- The numbers of the transactions. -/
structure Identity (s : System) : Prop where
  numbered : ∀ handle number, s.databases handle = some ⟨some number⟩ → number < s.begun
  distinct : ∀ handle handle' number, s.databases handle = some ⟨some number⟩ →
    s.databases handle' = some ⟨some number⟩ → handle = handle'
  notEnded : ∀ handle number, s.databases handle = some ⟨some number⟩ →
    ∀ ender, .ended number ender ∉ s.log
  ended : ∀ number ender, .ended number ender ∈ s.log → number < s.begun
  records : ∀ transaction ∈ s.transactionRegistry.entries, transaction.begun < s.begun
  own : EndsOwn s.log

/-- Who ends a transaction of the database has begun it, unless it is SQL text. -/
def Own (ender : Ender) (handle : Nat) (s : System) : Prop :=
  ∀ begun, ender = .object begun → ∀ number, s.databases handle = some ⟨some number⟩ →
    number = begun

theorem Identity.end {number : Nat} {rest : List Occurrence} (h : Identity s)
    (hown : Own ender handle s) (hinside : s.databases handle = some ⟨some number⟩)
    {database : Option Database}
    (hdatabases : s'.databases = Function.update s.databases handle database)
    (hnone : ∀ number, database ≠ some ⟨some number⟩) (hbegun : s'.begun = s.begun)
    (hregistry : s'.transactionRegistry = s.transactionRegistry)
    (hlog : s'.log = s.log ++ [.ended number ender] ++ rest)
    (hrest : rest = [] ∨ rest = [.closed handle]) : Identity s' := by
  have hold : ∀ {other number}, s'.databases other = some ⟨some number⟩ →
      other ≠ handle ∧ s.databases other = some ⟨some number⟩ := by
    intro other number hother
    rw [hdatabases] at hother
    by_cases heq : other = handle
    · rw [heq, update_self] at hother
      exact absurd hother (hnone number)
    · rw [update_of_ne heq] at hother
      exact ⟨heq, hother⟩
  -- only the closing of the database is logged behind it
  have hmem : ∀ {other by'}, .ended other by' ∈ s'.log → .ended other by' ∈ s.log ∨
      other = number := by
    intro other by' hin
    rw [hlog] at hin
    rcases hrest with rfl | rfl
    · rcases List.mem_append.mp (List.append_nil _ ▸ hin) with hold | hnew
      · exact .inl hold
      · cases List.mem_singleton.mp hnew
        exact .inr rfl
    · rcases List.mem_append.mp hin with hin | hclosed
      · rcases List.mem_append.mp hin with hold | hnew
        · exact .inl hold
        · cases List.mem_singleton.mp hnew
          exact .inr rfl
      · cases List.mem_singleton.mp hclosed
  have hends : EndsOwn (s.log ++ [.ended number ender]) := by
    refine h.own.append (fun transaction begun heq => ?_) fun _ heq => nomatch heq
    obtain ⟨rfl, hender⟩ := Occurrence.ended.inj heq
    exact hown begun hender number hinside
  refine ⟨fun other found hother => ?_, fun other other' found hother hother' => ?_,
    fun other found hother by' hin => ?_,
    fun found by' hin => ?_, fun transaction hentry => ?_, ?_⟩
  · rw [hbegun]
    exact h.numbered other found (hold hother).2
  · exact h.distinct other other' found (hold hother).2 (hold hother').2
  · obtain ⟨hne, hwas⟩ := hold hother
    rcases hmem hin with hin | rfl
    · exact h.notEnded other found hwas by' hin
    · exact hne (h.distinct other handle found hwas hinside)
  · rw [hbegun]
    rcases hmem hin with hin | rfl
    · exact h.ended found by' hin
    · exact h.numbered handle found hinside
  · rw [hregistry] at hentry
    rw [hbegun]
    exact h.records transaction hentry
  · rw [hlog]
    rcases hrest with rfl | rfl
    · rw [List.append_nil]
      exact hends
    · exact hends.silent (fun _ _ h => nomatch h) fun _ _ h => nomatch h

theorem Identity.congr (h : Identity s)
    (hdatabases : ∀ handle number, s'.databases handle = some ⟨some number⟩ →
      s.databases handle = some ⟨some number⟩) (hbegun : s'.begun = s.begun)
    (hended : ∀ number ender, .ended number ender ∈ s'.log → .ended number ender ∈ s.log)
    (hrecords : ∀ transaction ∈ s'.transactionRegistry.entries, transaction.begun < s.begun)
    (hown : EndsOwn s'.log) : Identity s' where
  numbered := fun handle number hinside => hbegun ▸ h.numbered handle number
    (hdatabases handle number hinside)
  distinct := fun handle handle' number hinside hinside' =>
    h.distinct handle handle' number (hdatabases handle number hinside)
      (hdatabases handle' number hinside')
  notEnded := fun handle number hinside ender hin =>
    h.notEnded handle number (hdatabases handle number hinside) ender (hended number ender hin)
  ended := fun number ender hin => hbegun ▸ h.ended number ender (hended number ender hin)
  records := fun transaction hentry => hbegun ▸ hrecords transaction hentry
  own := hown

theorem mem_silent {number : Nat} (hsilent : occurrence ≠ .ended number ender)
    (hin : .ended number ender ∈ log ++ [occurrence]) :
    .ended number ender ∈ log := by
  rcases List.mem_append.mp hin with hold | hnew
  · exact hold
  · exact absurd (List.mem_singleton.mp hnew).symm hsilent

/-- What acts for the transaction that an object began, or for SQL text, keeps the
    numbers. -/
theorem acts_identity (hacts : Acts ender handle s s') (h : Identity s)
    (hown : Own ender handle s) : Identity s' ∧ Own ender handle s' := by
  induction hacts with
  | @quiet s s' databases begun log entries =>
    refine ⟨h.congr (fun other number => by rw [databases]; exact fun h => h) begun
      (fun number ender => by rw [log]; exact fun h => h) (fun transaction hentry => ?_)
        (log ▸ h.own), ?_⟩
    · rcases entries transaction hentry with hold | hnew
      · exact h.records transaction hold
      · exact hnew
    · unfold Own
      rw [databases]
      exact hown
  | opens s fresh =>
    have hold : ∀ other number, s.openDatabase.databases other = some ⟨some number⟩ →
        s.databases other = some ⟨some number⟩ ∧ other ≠ s.opened := by
      intro other number hinside
      have hupdate : Function.update s.databases s.opened (some ⟨none⟩) other =
        some ⟨some number⟩ := hinside
      by_cases heq : other = s.opened
      · rw [heq, update_self] at hupdate
        cases hupdate
      · rw [update_of_ne heq] at hupdate
        exact ⟨hupdate, heq⟩
    refine ⟨h.congr (fun other number hinside => (hold other number hinside).1) rfl
      (fun number ender => mem_silent fun h => nomatch h) h.records
      (h.own.silent (fun _ _ h => nomatch h) fun _ _ h => nomatch h),
        fun begun hbegun number hinside => ?_⟩
    exact hown begun hbegun number (hold handle number hinside).1
  | begins s sql inside =>
    have hold : ∀ {other number}, Function.update s.databases handle (some ⟨some s.begun⟩) other =
        some ⟨some number⟩ → (other = handle ∧ number = s.begun) ∨
          (other ≠ handle ∧ s.databases other = some ⟨some number⟩) := by
      intro other number hinside
      by_cases heq : other = handle
      · rw [heq, update_self] at hinside
        cases hinside
        exact .inl ⟨heq, rfl⟩
      · rw [update_of_ne heq] at hinside
        exact .inr ⟨heq, hinside⟩
    refine ⟨⟨fun other number hinside => ?_, fun other other' number hinside hinside' => ?_,
      fun other number hinside ender hin => ?_, fun number ender hin => ?_,
        fun transaction hentry => ?_,
      h.own.silent (fun _ _ h => nomatch h) fun _ _ h => nomatch h⟩, fun begun hbegun => ?_⟩
    · show number < s.begun + 1
      rcases hold hinside with ⟨_, rfl⟩ | ⟨_, hwas⟩
      · exact Nat.lt_succ_self _
      · have hlt := h.numbered other number hwas
        omega
    · rcases hold hinside with ⟨rfl, rfl⟩ | ⟨_, hwas⟩
      · rcases hold hinside' with ⟨rfl, _⟩ | ⟨_, hwas'⟩
        · rfl
        · exact absurd (h.numbered other' _ hwas') (Nat.lt_irrefl _)
      · rcases hold hinside' with ⟨_, rfl⟩ | ⟨_, hwas'⟩
        · exact absurd (h.numbered other _ hwas) (Nat.lt_irrefl _)
        · exact h.distinct other other' number hwas hwas'
    · have hafter : Occurrence.ended number ender ∈ s.log ++ [.began s.begun] := hin
      have hin' : .ended number ender ∈ s.log := mem_silent (by nofun) hafter
      rcases hold hinside with ⟨_, rfl⟩ | ⟨_, hwas⟩
      · exact absurd (h.ended _ ender hin') (Nat.lt_irrefl _)
      · exact h.notEnded other number hwas ender hin'
    · have hafter : Occurrence.ended number ender ∈ s.log ++ [.began s.begun] := hin
      have hin' : .ended number ender ∈ s.log := mem_silent (by nofun) hafter
      exact Nat.lt_succ_of_lt (h.ended number ender hin')
    · exact Nat.lt_succ_of_lt (h.records transaction hentry)
    · rw [sql] at hbegun
      cases hbegun
  | ends s transaction inside =>
    refine ⟨h.end hown inside rfl (fun _ h => nomatch h) rfl rfl (List.append_nil _).symm
      (.inl rfl),
      fun begun _ number hinside => ?_⟩
    have hnone : Function.update s.databases handle (some ⟨none⟩) handle = some ⟨some number⟩ :=
      hinside
    rw [update_self] at hnone
    cases hnone
  | closes s database isOpen =>
    obtain ⟨ended, hlog, hnone, hsome⟩ := closed_log s handle database ender
    have hgone : Own ender handle (s.closed handle database ender) := by
      intro begun _ number hinside
      rw [closed_databases, update_self] at hinside
      cases hinside
    have hbegun : (s.closed handle database ender).begun = s.begun := by
      unfold System.closed
      cases database.transaction <;> rfl
    have hregistry := (frame_closed s handle database ender).transactionRegistry
    obtain ⟨transaction⟩ := database
    cases transaction with
    | some number =>
      rw [hsome number rfl] at hlog
      exact ⟨h.end hown isOpen (closed_databases ..) (fun _ h => nomatch h) hbegun hregistry hlog
        (.inr rfl), hgone⟩
    | none =>
      rw [hnone rfl, List.append_nil] at hlog
      refine ⟨h.congr (fun other number hinside => ?_) hbegun (fun number ender hin => ?_)
        (fun found hentry => ?_) ?_, hgone⟩
      · rw [closed_databases] at hinside
        by_cases heq : other = handle
        · rw [heq, update_self] at hinside
          cases hinside
        · rwa [update_of_ne heq] at hinside
      · have hafter : Occurrence.ended number ender ∈ s.log ++ [.closed handle] := hlog ▸ hin
        exact mem_silent (by nofun) hafter
      · rw [hregistry] at hentry
        exact h.records found hentry
      · rw [hlog]
        exact h.own.silent (fun _ _ h => nomatch h) fun _ _ h => nomatch h
  | reports s begun database own isOpen =>
    have hown' : EndsOwn (s.log ++ [.reported begun !database.autocommit]) := by
      refine h.own.append (fun _ _ h => nomatch h) fun reported heq => ?_
      obtain ⟨rfl, hactive⟩ := Occurrence.reported.inj heq
      -- the connection is inside the transaction of the object, so that has not ended
      obtain ⟨transaction⟩ := database
      cases transaction with
      | none => cases hactive
      | some number =>
        obtain rfl := hown begun own number isOpen
        exact h.notEnded handle number isOpen
    exact ⟨h.congr (fun _ _ h => h) rfl (fun number ender => mem_silent fun h =>
      nomatch h) h.records hown', hown⟩
  | trans _ _ ih₁ ih₂ =>
    obtain ⟨hmiddle, hownMiddle⟩ := ih₁ h hown
    exact ih₂ hmiddle hownMiddle

/-! ## Every sequence of calls -/

/-- A `Transaction` object is asked, or closed, only while its connection is in autocommit
    mode or inside the transaction that the object began. -/
def AsksOwn (s : System) (action : Action) : Prop :=
  ∀ transaction ∈ s.transactionRegistry.entries, action.asks = some transaction.ownerObject →
    s.inside transaction.connection = none ∨ s.inside transaction.connection =
      some transaction.begun

instance (s : System) (action : Action) : Decidable (AsksOwn s action) :=
  inferInstanceAs (Decidable (∀ transaction ∈ s.transactionRegistry.entries, _))

theorem Identity.step {action : Action} (hs : Consistent s) (h : Identity s)
    (hasks : AsksOwn s action) (hstep : machine.step s action = .ok s') : Identity s' := by
  obtain ⟨answer, hperform⟩ := perform_of_step hstep
  obtain ⟨ender, handle, hacts, hender⟩ := (hs.perform hperform).acts
  refine (acts_identity hacts h ?_).1
  rcases hender with rfl | ⟨transaction, hentry, hasked, rfl, connection, database, hconnected⟩
  · exact fun _ h => nomatch h
  · intro begun hbegun number hinside
    obtain rfl := Ender.object.inj hbegun
    obtain rfl := Option.some.inj (hconnected.isOpen.symm.trans hinside)
    rcases hasks transaction hentry hasked with hnone | hsome
    · rw [hconnected.inside_eq] at hnone
      cases hnone
    · rw [hconnected.inside_eq] at hsome
      exact Option.some.inj hsome

theorem identity_initial : Identity .initial :=
  ⟨fun _ _ h => (nomatch h), fun _ _ _ h => (nomatch h), fun _ _ h => (nomatch h),
    fun _ _ h => (nomatch h),
    fun _ h => (nomatch h), ⟨fun _ _ h => (nomatch h), fun before _ _ h => by
      rcases before with _ | ⟨_, _⟩ <;> cases h⟩⟩

/-- The objects of transactions in one state of a run. -/
structure KeepsToOwn (s : System) : Prop where
  /-- Whatever has ended for an object it had begun, and none was ended when it reported active. -/
  log : EndsOwn s.log
  /-- An object that is active reports so, and has begun a transaction. -/
  active : ∀ object s', s.perform (.isActive object) = .ok (.returned true, s') →
    ∃ transaction ∈ s.transactionRegistry.entries, transaction.ownerObject = object ∧
      s'.log = s.log ++ [.reported transaction.begun true]

theorem isActive_reports {object : Nat} (h : Consistent s)
    (hperform : s.perform (.isActive object) = .ok (.returned true, s')) :
    ∃ transaction ∈ s.transactionRegistry.entries, transaction.ownerObject = object ∧
      s'.log = s.log ++ [.reported transaction.begun true] := by
  simp only [System.perform, bind_eq_ok, require_eq_ok] at hperform
  obtain ⟨this, _, hperform⟩ := hperform
  split at hperform
  · cases hperform
  · rw [bind_eq_ok] at hperform
    obtain ⟨⟨active, s₁⟩, hactive, hanswer⟩ := hperform
    cases hanswer
    rcases transaction_cases s object with hnone | ⟨transaction, hentry, rfl⟩
    · rw [isActive_none h hnone] at hactive
      cases hactive
    · obtain ⟨connection, handle, database, hconnected⟩ := h.transaction_connected hentry
      obtain ⟨_, htrue, _⟩ := (isActive_some h hentry hconnected .kept).returns hactive
      exact ⟨transaction, hentry, rfl, (htrue rfl).2.2⟩

/-- In every run in which each object is asked while its connection is inside no other
    transaction than its own. -/
theorem transactions_keep_to_their_own {actions : List Action} {s : System}
    (hrun : machine.exec .initial actions = .ok s)
    (hasks : machine.Along AsksOwn .initial actions) :
    KeepsToOwn s := by
  have hs : Consistent s ∧ Identity s :=
    Machine.exec_invariant_along (I := fun s => Consistent s ∧ Identity s)
      (fun s action s' hs hasked hstep => ⟨hs.1.step hstep, hs.2.step hs.1 hasked hstep⟩)
      ⟨consistent_initial, identity_initial⟩ hasks hrun
  exact ⟨hs.2.own, fun _ _ => isActive_reports hs.1⟩

/-- An object begins a transaction, reports it and commits it, and then reports none. -/
def ownTransaction : List Action :=
  [.newConnection 0 (.opened 0), .startTransaction 0 1, .beginTransaction 0 1 (some (0, true)),
    .isActive 1, .commit 1 (.ended true), .isActive 1]

theorem ownTransaction_keeps : ∃ s, machine.exec .initial ownTransaction = .ok s ∧
    KeepsToOwn s := by
  have halong : machine.Along AsksOwn .initial ownTransaction :=
    ⟨by decide, by decide, by decide, by decide, by decide, by decide, trivial⟩
  exact ⟨_, rfl, transactions_keep_to_their_own rfl halong⟩

/-! ## An object that ends the transaction of someone else -/

/-- An object begins a transaction, SQL text ends it and begins another one. -/
def foreignTransaction : List Action :=
  [.newConnection 0 (.opened 0), .startTransaction 0 1, .beginTransaction 0 1 (some (0, true)),
    .execute 0 (some (true, [.ends])), .execute 0 (some (true, [.begins]))]

theorem foreign_commit : ∃ s, machine.exec .initial (foreignTransaction ++
    [.commit 1 (.ended true)]) = .ok s ∧
    s.log = [.opened 0, .began 0, .ended 0 .sql, .began 1, .reported 0 true,
    .ended 1 (.object 0)] :=
  ⟨_, rfl, rfl⟩

theorem commit_ends_foreign : ¬ ∀ actions s, machine.exec .initial actions = .ok s →
    KeepsToOwn s := by
  intro h
  obtain ⟨s, hrun, hlog⟩ := foreign_commit
  have hends := (h _ s hrun).log.ends 1 0 (by rw [hlog]; decide)
  exact absurd hends (by decide)

end Cwhip.Sqlite
