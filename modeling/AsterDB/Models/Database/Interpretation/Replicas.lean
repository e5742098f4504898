import AsterDB.Models.Database.Interpretation.Durability

/-!
# Replicas

A replica applies a log of commands and leaders' markers and answers reads. Its engine and
its records are a function of the log, but for the next transaction id, which reads move on.
-/

namespace AsterDatabase

open AsterRaft (Bytes Digest Sha256)
open AsterEngine (ClientId Value Engine ApplyOutcome TxnAttempt applyWithRequestHash_next)
open AsterSql
open Std
open Fallible Serde

namespace Database

variable {db db' : Database} {fault : Option StorageFault}

/-- What the client of a replicated command is told. -/
def told (requests : DurableRequests) (outcome : ApplyOutcome) (command : ReplicatedMutation)
    (index : Nat) : Result ExecutionResult := do
  let affectedRows ← responseAffectedRows requests outcome command
  replicatedOutcome outcome affectedRows index

section Commands

variable {index : Nat} {applyHash : Digest} {command : ReplicatedMutation}
  {result : Result ExecutionResult}

/-- A command at the next index is published, or nothing changes. -/
theorem applyCommand_next (hnext : index = db.engine.lastApplied + 1)
    (h : applyCommand fault index applyHash command db = (result, db')) :
    db' = db ∨ ∃ outcome,
      Publishes applyHash command.fingerprint command.attempt command.affectedRows outcome db db' ∧
      result = told db'.requests outcome command index := by
  unfold applyCommand at h
  rw [Call.get_bind] at h
  refine Call.lift_bind_elim h (fun _ _ => .inl rfl) fun _ _ h => ?_
  refine Call.lift_bind_elim h (fun _ _ => .inl rfl) fun ⟨candidate, outcome⟩ happly h => ?_
  dsimp only at h
  rw [if_neg (by omega)] at h
  rcases Call.bind_cases h with ⟨_, hpublish, -⟩ | ⟨_, middle, hpublish, h⟩
  · rcases publishCandidate_cases hpublish with ⟨_, -, -, hsame⟩ | ⟨herror, -⟩
    · exact .inl hsame
    · cases herror
  · rcases publishCandidate_cases hpublish with ⟨_, herror, -⟩ |
      ⟨-, requests, durable, hrecord, hpersist, rfl⟩
    · cases herror
    rw [Call.get_bind, Call.lift_bind_lift] at h
    cases h
    subst hnext
    exact .inr ⟨outcome, ⟨liftEngine_eq_ok.mp happly, hrecord, hpersist, rfl, rfl⟩, rfl⟩

/-- At another index a command changes nothing. -/
theorem applyCommand_other (hother : index ≠ db.engine.lastApplied + 1)
    (h : applyCommand fault index applyHash command db = (result, db')) : db' = db := by
  unfold applyCommand at h
  rw [Call.get_bind] at h
  refine Call.lift_bind_elim h (fun _ _ => rfl) fun _ _ h => ?_
  refine Call.lift_bind_elim h (fun _ _ => rfl) fun ⟨candidate, outcome⟩ happly h => ?_
  dsimp only at h
  by_cases hagain : index = db.engine.lastApplied
  · rw [if_pos hagain] at h
    refine Call.lift_bind_elim h (fun _ _ => rfl) fun _ _ h => ?_
    · rw [Call.get_bind, Call.lift_bind_lift] at h
      cases h
      rfl
  · exact absurd
      (applyWithRequestHash_next hagain (liftEngine_eq_ok.mp happly)).2.1 hother

/-- A command that was applied last is checked against the record it left. -/
theorem applyCommand_again {outcome : ApplyOutcome} (hindex : db.engine.lastApplied = index)
    (happly : db.engine.applyWithRequestHash index applyHash command.fingerprint command.attempt =
      .ok (db.engine, outcome)) :
    applyCommand fault index applyHash command db =
      (do validateDurableReplay db.requests command.attempt.request.clientId
            command.attempt.request.sequence command.fingerprint command.affectedRows outcome
          told db.requests outcome command index, db) := by
  subst hindex
  unfold applyCommand
  have hbehind : ¬db.engine.lastApplied < db.engine.lastApplied := Nat.lt_irrefl _
  simp only [Call.get_bind, failIf, if_neg hbehind, Call.lift_ok_bind, happly, liftEngine,
    Except.mapError, if_pos]
  cases validateDurableReplay db.requests command.attempt.request.clientId
      command.attempt.request.sequence command.fingerprint command.affectedRows outcome with
  | error error => rfl
  | ok _ =>
    rw [Call.lift_ok_bind, Call.get_bind, Call.lift_bind_lift]
    rfl

end Commands

/-- A leader's marker takes the next index, or nothing changes. -/
theorem applyRaftNoop_cases [Sha256] {index term : Nat} {result : Result Unit}
    (h : applyRaftNoop fault index term db = (result, db')) :
    db' = db ∨ ∃ engine durable, index = db.engine.lastApplied + 1 ∧
      db.engine.applyNoop index (raftNoopHash index term) = .ok (engine, .noop) ∧
      db.durable.persistState none engine db.requests = .ok durable ∧
      db' = { db with engine, durable } := by
  unfold applyRaftNoop at h
  rw [Call.get_bind] at h
  refine Call.lift_bind_elim h (fun _ _ => .inl rfl) fun _ _ h => ?_
  refine Call.lift_bind_elim h (fun _ _ => .inl rfl) fun ⟨candidate, outcome⟩ happly h => ?_
  refine Call.lift_bind_elim h (fun _ _ => .inl rfl) fun _ hnoop hlast => ?_
  rw [failIf_eq_ok, not_not] at hnoop
  subst hnoop
  by_cases hlater : db.engine.lastApplied < index
  · rw [if_pos hlater] at hlast
    refine Call.lift_bind_elim hlast (fun _ _ => .inl rfl) fun durable hpersist hset => ?_
    cases hset
    obtain ⟨hle, hindex, hvalid, -, hash⟩ := Durable.persistState_eq_ok.mp hpersist
    refine .inr ⟨candidate, durable, ?_, liftEngine_eq_ok.mp happly,
      Durable.persistState_eq_ok.mpr ⟨hle, hindex, hvalid, rfl, hash⟩, rfl⟩
    have hnoop := liftEngine_eq_ok.mp happly
    rw [Engine.applyNoop, if_neg (by omega), bind_eq_ok] at hnoop
    obtain ⟨⟨⟩, hnext, -⟩ := hnoop
    exact AsterEngine.nextIndex_eq_ok hnext
  · rw [if_neg hlater] at hlast
    cases hlast
    exact .inl rfl

variable {clientId : ClientId} {sequence : Nat} {parameters : List Value}
  {result : Result ExecutionResult} {parsed : Spanned Statement}

theorem executeFresh_of_not_mutating [Sha256] {fingerprint : Digest}
    (hread : isMutatingStatement parsed.value = false)
    (h : executeFresh fault clientId sequence fingerprint parsed parameters db = (result, db')) :
    ∃ id, db.engine.nextTxnId ≤ id ∧ db' = { db with engine := db.engine.withTxnId id } := by
  rcases executeFresh_cases h with ⟨_, -, -, rfl⟩ | ⟨engine, transaction, hbegin, hcases⟩
  · exact ⟨db'.engine.nextTxnId, Nat.le_refl _, rfl⟩
  obtain ⟨rfl, rfl⟩ := AsterEngine.beginAt_eq_ok hbegin
  rcases hcases with ⟨_, -, -, rfl⟩ | ⟨staged, output, hprepare, ⟨-, -, rfl⟩ | ⟨hstaged, -⟩⟩
  · exact ⟨db.engine.nextTxnId + 1, Nat.le_succ _, rfl⟩
  · exact ⟨db.engine.nextTxnId + 1, Nat.le_succ _, rfl⟩
  · rw [staged_of_not_mutating hread hprepare] at hstaged
    cases hstaged

theorem executeAutocommit_of_not_mutating [Sha256] {sql : String}
    (hread : isMutatingStatement parsed.value = false)
    (h : executeAutocommit fault clientId sequence sql parsed parameters db = (result, db')) :
    ∃ id, db.engine.nextTxnId ≤ id ∧ db' = { db with engine := db.engine.withTxnId id } := by
  rcases hfingerprint : sqlFingerprint sql parameters with error | fingerprint
  · rw [executeAutocommit_of_error hfingerprint] at h
    cases h
    exact ⟨db.engine.nextTxnId, Nat.le_refl _, rfl⟩
  · rw [executeAutocommit_apply hfingerprint, replayStatement, hread] at h
    exact executeFresh_of_not_mutating hread h

/-- A read takes at most a transaction id. -/
theorem executeReadOnly_cases [Sha256] [Unicode] {sql : String}
    (h : executeReadOnly fault clientId sequence sql parameters db = (result, db')) :
    ∃ id, db.engine.nextTxnId ≤ id ∧ db' = { db with engine := db.engine.withTxnId id } := by
  rcases Call.lift_bind_cases h with ⟨_, -, -, rfl⟩ | ⟨parsed, hparsed, h⟩
  · exact ⟨db'.engine.nextTxnId, Nat.le_refl _, rfl⟩
  rcases Call.lift_bind_cases h with ⟨_, -, -, rfl⟩ | ⟨_, hread, h⟩
  · exact ⟨db'.engine.nextTxnId, Nat.le_refl _, rfl⟩
  unfold execute at h
  rw [hparsed] at h
  obtain ⟨value, span⟩ := parsed
  cases value with
  | select select | explain inner innerSpan => exact executeAutocommit_of_not_mutating rfl h
  | _ => cases hread

/-- A published engine is one index further. -/
theorem Publishes.lastApplied {applyHash fingerprint : Digest} {attempt : TxnAttempt}
    {affectedRows : Nat} {outcome : ApplyOutcome}
    (h : Publishes applyHash fingerprint attempt affectedRows outcome db db') :
    db'.engine.lastApplied = db.engine.lastApplied + 1 := by
  rw [(applyWithRequestHash_next (Nat.succ_ne_self _) h.apply).2.2.2]
  rfl

section Logs

variable [Sha256] [Deserialize ReplicatedMutation]

theorem applyReplicated_cases {index : Nat} {bytes : Bytes}
    {result : Result ExecutionResult}
    (h : applyReplicated fault index bytes db = (result, db')) :
    db' = db ∨ ∃ command outcome, decodeCommand bytes = .ok command ∧
      index = db.engine.lastApplied + 1 ∧
      Publishes (Sha256.digest bytes) command.fingerprint command.attempt command.affectedRows
        outcome db db' ∧
      result = told db'.requests outcome command index := by
  refine Call.lift_bind_elim h (fun _ _ => .inl rfl) fun command hdecode h => ?_
  by_cases hnext : index = db.engine.lastApplied + 1
  · rcases applyCommand_next hnext h with hsame | ⟨outcome, hpublishes, hresult⟩
    · exact .inl hsame
    · exact .inr ⟨command, outcome, hdecode, hnext, hpublishes, hresult⟩
  · exact .inl (applyCommand_other hnext h)

/-- What a replica takes from the log. -/
inductive Replicated where
  | command (bytes : Bytes)
  | noop (term : Nat)
  deriving DecidableEq

/-- One entry of the log, on an engine and the records. -/
def applyLogged (state : Engine × DurableRequests) (entry : Nat × Replicated) :
    Result (Engine × DurableRequests) :=
  match entry.2 with
  | .command bytes => do
    let command ← decodeCommand bytes
    let (engine, outcome) ← liftEngine (state.1.applyWithRequestHash entry.1 (Sha256.digest bytes)
      command.fingerprint command.attempt)
    let requests ← recordOutcome state.2 outcome command.attempt.request.clientId
      command.attempt.request.sequence command.fingerprint command.affectedRows
    return (engine, requests)
  | .noop term => do
    let (engine, _) ← liftEngine (state.1.applyNoop entry.1 (raftNoopHash entry.1 term))
    return (engine, state.2)

/-- What a log leaves. -/
def stateOf (log : List (Nat × Replicated)) : Result (Engine × DurableRequests) :=
  log.foldlM applyLogged (.new, ∅)

/-- The log after a call that may have taken an entry. -/
def logAfter (log : List (Nat × Replicated)) (entry : Nat × Replicated) (db db' : Database) :
    List (Nat × Replicated) :=
  if db.engine.lastApplied < db'.engine.lastApplied then log ++ [entry] else log

/-- A database that took its state from a log. It may have been read and reopened in between;
preparing a command does not change it. -/
inductive Replica [Unicode] : List (Nat × Replicated) → Database → Prop
  | opened {limit : Nat} {db : Database} (h : openWithOptions .genesis limit = .ok db) :
    Replica [] db
  | command {log : List (Nat × Replicated)} {db db' : Database} {fault : Option StorageFault}
      {index : Nat} {bytes : Bytes} {result : Result ExecutionResult}
      (hdb : Replica log db) (h : applyReplicated fault index bytes db = (result, db')) :
    Replica (logAfter log (index, .command bytes) db db') db'
  | noop {log : List (Nat × Replicated)} {db db' : Database} {fault : Option StorageFault}
      {index term : Nat} {result : Result Unit} (hdb : Replica log db)
      (h : applyRaftNoop fault index term db = (result, db')) :
    Replica (logAfter log (index, .noop term) db db') db'
  | read {log : List (Nat × Replicated)} {db db' : Database} {fault : Option StorageFault}
      {clientId : ClientId} {sequence : Nat} {sql : String} {parameters : List Value}
      {result : Result ExecutionResult} (hdb : Replica log db)
      (h : executeReadOnly fault clientId sequence sql parameters db = (result, db')) :
    Replica log db'
  | reopened {log : List (Nat × Replicated)} {db db' : Database} {limit : Nat}
      (hdb : Replica log db) (h : openWithOptions db.durable limit = .ok db') : Replica log db'

variable {log : List (Nat × Replicated)}

theorem stateOf_append {entry : Nat × Replicated}
    {state state' : Engine × DurableRequests} (hlog : stateOf log = .ok state)
    (hentry : applyLogged state entry = .ok state') : stateOf (log ++ [entry]) = .ok state' := by
  unfold stateOf at hlog ⊢
  rw [List.foldlM_append, hlog]
  change (applyLogged state entry >>= fun s => pure s) = _
  rw [hentry]
  rfl

/-- The engine and the records are a function of the log, up to the next transaction id. -/
structure Follows (log : List (Nat × Replicated)) (db : Database) : Prop where
  ok : Ok db
  active : db.active = ∅
  state : stateOf log = .ok (db.engine.withTxnId 1, db.requests)

namespace Follows

theorem same (h : Follows log db) (entry : Nat × Replicated) :
    Follows (logAfter log entry db db) db := by
  rw [logAfter, if_neg (Nat.lt_irrefl _)]
  exact h

theorem command {index : Nat} {bytes : Bytes} {result : Result ExecutionResult}
    (h : Follows log db) (hcall : applyReplicated fault index bytes db = (result, db')) :
    Follows (logAfter log (index, .command bytes) db db') db' := by
  rcases applyReplicated_cases hcall with rfl | ⟨command, outcome, hdecode, rfl, hpublishes, -⟩
  · exact h.same _
  rw [logAfter, if_pos (by rw [hpublishes.lastApplied]; exact Nat.lt_succ_self _)]
  refine ⟨?_, hpublishes.active.trans h.active, stateOf_append h.state ?_⟩
  · have hstep : Step (fun _ => True) (fun _ => False) db db' := .publish hpublishes trivial
    exact h.ok.step hstep
  · have happly : (db.engine.withTxnId 1).applyWithRequestHash (db.engine.lastApplied + 1)
        (Sha256.digest bytes) command.fingerprint command.attempt =
          .ok (db'.engine.withTxnId 1, outcome) := by
      rw [Engine.withTxnId_applyWithRequestHash, hpublishes.apply]
      rfl
    simp only [applyLogged, bind_eq_ok, liftEngine_eq_ok, pure_eq_ok]
    exact ⟨command, hdecode, _, happly, _, hpublishes.record, rfl⟩

theorem noop {index term : Nat} {result : Result Unit} (h : Follows log db)
    (hcall : applyRaftNoop fault index term db = (result, db')) :
    Follows (logAfter log (index, .noop term) db db') db' := by
  rcases applyRaftNoop_cases hcall with rfl | ⟨engine, durable, rfl, hnoop, hpersist, rfl⟩
  · exact h.same _
  have hok : Ok { db with engine, durable } :=
    Ok.of_persist (h.ok.restorable.applyNoop hnoop) hpersist
  have hlast : db.engine.lastApplied < engine.lastApplied := by
    obtain ⟨-, hindex, -⟩ := Durable.persistState_eq_ok.mp hpersist
    rw [hindex, h.ok.index]
    exact Nat.lt_succ_self _
  rw [logAfter, if_pos hlast]
  refine ⟨hok, h.active, stateOf_append h.state ?_⟩
  have happly : (db.engine.withTxnId 1).applyNoop (db.engine.lastApplied + 1)
      (raftNoopHash (db.engine.lastApplied + 1) term) = .ok (engine.withTxnId 1, .noop) := by
    rw [Engine.withTxnId_applyNoop, hnoop]
    rfl
  simp only [applyLogged, bind_eq_ok, liftEngine_eq_ok, pure_eq_ok]
  exact ⟨_, happly, rfl⟩

end Follows

theorem Replica.follows [Unicode] (h : Replica log db) : Follows log db := by
  induction h with
  | opened hopen =>
    have hok := Ok.openGenesis hopen
    simp only [openWithOptions, bind_eq_ok, pure_eq_ok] at hopen
    obtain ⟨-, -, _, ⟨⟩, rfl⟩ := hopen
    exact ⟨hok, rfl, rfl⟩
  | command _ hcall ih => exact ih.command hcall
  | noop _ hcall ih => exact ih.noop hcall
  | read _ hcall ih =>
    obtain ⟨id, hid, rfl⟩ := executeReadOnly_cases hcall
    exact ⟨ih.ok.withTxnId (ih.ok.restorable.nextTxnId.trans hid), ih.active, ih.state⟩
  | reopened _ hopen ih =>
    obtain ⟨⟨id, hengine⟩, hrequests, -, hactive, hok⟩ := ih.ok.reopen hopen
    refine ⟨hok, hactive, ?_⟩
    rw [hengine, hrequests]
    exact ih.state

end Logs

end Database

end AsterDatabase
