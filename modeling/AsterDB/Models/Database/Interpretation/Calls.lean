import AsterDB.Models.Database.Interpretation.Statements

/-!
# What a call can do

Each method of a database either leaves the state alone but for the active
transactions and the next transaction id, or publishes one candidate engine. One lemma
for each method says which, and with what result.
-/

namespace AsterDatabase

open AsterRaft (Digest Sha256 u64Max)
open AsterEngine (ClientId Value Engine Transaction ApplyOutcome TxnAttempt checkedAdd CommitResult)
open AsterSql
open Std
open Fallible

/-- A candidate is made durable: it is one index ahead and its records agree with its clients. -/
theorem Durable.persistState_eq_ok {durable durable' : Durable} {fault : Option StorageFault}
    {engine : Engine} {requests : DurableRequests} :
    durable.persistState fault engine requests = .ok durable' ↔
      durable.appliedIndex + 1 ≤ u64Max ∧ engine.lastApplied = durable.appliedIndex + 1 ∧
      validateDurableRequests engine requests = .ok () ∧ fault = none ∧
      ∃ stateHash, engine.lastApplyHash = some stateHash ∧
        durable' = ⟨engine.lastApplied, stateHash, some (engine.snapshot, requests)⟩ := by
  have hadd {index : Nat} : checkedAdd durable.appliedIndex 1 = some index ↔
      durable.appliedIndex + 1 ≤ u64Max ∧ index = durable.appliedIndex + 1 := by
    unfold checkedAdd
    split
    next hle => simp [hle, eq_comm]
    next hle => simp [hle]
  have hfault {u : Unit} : Durable.unlessFault fault = .ok u ↔ fault = none := by
    cases fault <;> simp [Durable.unlessFault]
  simp only [Durable.persistState, bind_eq_ok, orFail_eq_ok, failIf_eq_ok, pure_eq_ok, hadd, hfault,
    exists_const, not_not]
  constructor
  · rintro ⟨_, ⟨hle, rfl⟩, hindex, hash, hhash, _, hvalid, hnone, rfl⟩
    exact ⟨hle, hindex, hvalid, hnone, hash, hhash, rfl⟩
  · rintro ⟨hle, hindex, hvalid, hnone, hash, hhash, rfl⟩
    exact ⟨_, ⟨hle, rfl⟩, hindex, hash, hhash, (), hvalid, hnone, rfl⟩

section Errors

theorem plain_unlessFault (fault : Option StorageFault) :
    Fails Plain (Durable.unlessFault fault) := by
  cases fault with
  | none => exact fails_ok ()
  | some fault => exact fails_error fun _ h => by cases fault <;> cases h

theorem plain_corruption (text : String) : Plain (.corruption text) := fun _ h => by cases h

theorem plain_recordOutcome (requests : DurableRequests) (outcome : ApplyOutcome)
    (clientId : ClientId) (sequence : Nat) (fingerprint : Digest) (affectedRows : Nat) :
    Fails Plain (recordOutcome requests outcome clientId sequence fingerprint affectedRows) := by
  unfold recordOutcome
  split
  · exact fails_ok _
  · split
    · exact (fails_failIf (plain_invariant _)).bind fun _ _ => fails_pure _
    · exact fails_ok _
  · exact fails_ok _
  · exact fails_error (plain_invariant _)

theorem plain_validateDurableRequests (engine : Engine) (requests : DurableRequests) :
    Fails Plain (validateDurableRequests engine requests) :=
  (fails_failIf (plain_corruption _)).bind fun _ _ => fails_forM fun _ _ =>
    (fails_orFail (plain_corruption _)).bind fun _ _ => fails_failIf (plain_corruption _)

theorem Durable.plain_persistState (durable : Durable) (fault : Option StorageFault)
    (engine : Engine) (requests : DurableRequests) :
    Fails Plain (durable.persistState fault engine requests) :=
  (fails_orFail (plain_invariant _)).bind fun _ _ => (fails_failIf (plain_invariant _)).bind
    fun _ _ => (fails_orFail (plain_invariant _)).bind fun _ _ =>
      (plain_validateDurableRequests engine requests).bind fun _ _ =>
        (plain_unlessFault fault).bind fun _ _ => fails_pure _

end Errors

namespace Database

/-- A candidate took the next index, was made durable and put in place. -/
structure Publishes (applyHash fingerprint : Digest) (attempt : TxnAttempt) (affectedRows : Nat)
    (outcome : ApplyOutcome) (db db' : Database) : Prop where
  apply : db.engine.applyWithRequestHash (db.engine.lastApplied + 1) applyHash fingerprint attempt =
    .ok (db'.engine, outcome)
  record : recordOutcome db.requests outcome attempt.request.clientId attempt.request.sequence
    fingerprint affectedRows = .ok db'.requests
  persist : db.durable.persistState none db'.engine db'.requests = .ok db'.durable
  active : db'.active = db.active
  limit : db'.maxActiveTransactions = db.maxActiveTransactions

variable {db db' : Database} {fault : Option StorageFault}

/-- A transaction is begun: it takes the next id. -/
theorem begin_cases {result : Result TransactionInfo} (h : begin db = (result, db')) :
    (∃ error, result = .error error ∧ db' = db) ∨
      ∃ engine transaction, db.engine.begin = .ok (engine, transaction) ∧
        db' = { db with engine, active := db.active.insert transaction.id transaction } ∧
        ((∃ error, result = .error error ∧ transaction.id ∈ db.active) ∨
          result = .ok { transactionId := transaction.id, readTs := transaction.readTs }) := by
  unfold begin at h
  rw [Call.get_bind] at h
  refine Call.lift_bind_elim h (fun error _ => .inl ⟨error, rfl, rfl⟩) fun _ _ h => ?_
  refine Call.lift_bind_elim h (fun error _ => .inl ⟨error, rfl, rfl⟩)
    fun ⟨engine, transaction⟩ hbegin h => ?_
  dsimp only at h
  rw [Call.set_bind] at h
  refine .inr ⟨engine, transaction, liftEngine_eq_ok.mp hbegin, ?_⟩
  rcases Call.lift_bind_cases h with ⟨error, hfail, hresult, hsame⟩ | ⟨_, -, h⟩
  · refine ⟨hsame, .inl ⟨error, hresult, ?_⟩⟩
    by_contra hnew
    rw [failIf, if_neg hnew] at hfail
    cases hfail
  · cases h
    exact ⟨rfl, .inr rfl⟩

variable {transactionId : Nat}

theorem rollback_cases {result : Result Unit}
    (h : rollback transactionId db = (result, db')) :
    (∃ error, result = .error error ∧ db' = db) ∨
      result = .ok () ∧ transactionId ∈ db.active ∧
        db' = { db with active := db.active.erase transactionId } := by
  unfold rollback at h
  rw [Call.get_bind] at h
  refine Call.lift_bind_elim h (fun error _ => .inl ⟨error, rfl, rfl⟩) fun _ hactive h => ?_
  · rw [failIf_eq_ok, not_not] at hactive
    cases h
    exact .inr ⟨rfl, hactive, rfl⟩

variable {fingerprint : Digest} {affectedRows : Nat}

theorem publishCandidate_cases {candidate : Engine} {outcome : ApplyOutcome}
    {clientId : ClientId} {sequence : Nat} {result : Result Unit}
    (h : publishCandidate fault candidate outcome clientId sequence fingerprint affectedRows db =
      (result, db')) :
    (∃ error, result = .error error ∧ Plain error ∧ db' = db) ∨
      result = .ok () ∧ ∃ requests durable,
        recordOutcome db.requests outcome clientId sequence fingerprint affectedRows =
          .ok requests ∧
        db.durable.persistState none candidate requests = .ok durable ∧
        db' = { db with engine := candidate, requests, durable } := by
  unfold publishCandidate at h
  rw [Call.get_bind] at h
  refine Call.lift_bind_elim h
    (fun error hfail => .inl ⟨error, rfl, plain_recordOutcome _ _ _ _ _ _ _ hfail, rfl⟩)
    fun requests hrecord h => ?_
  refine Call.lift_bind_elim h
    (fun error hfail => .inl ⟨error, rfl, Durable.plain_persistState _ _ _ _ _ hfail, rfl⟩)
    fun durable hpersist h => ?_
  cases h
  refine .inr ⟨rfl, requests, durable, hrecord, ?_, rfl⟩
  obtain ⟨hle, hindex, hvalid, -, hash⟩ := Durable.persistState_eq_ok.mp hpersist
  exact Durable.persistState_eq_ok.mpr ⟨hle, hindex, hvalid, rfl, hash⟩

theorem applyTransaction_cases [Sha256] {transaction : Transaction} {clientId : ClientId}
    {sequence : Nat} {result : Result ApplyOutcome}
    (h : applyTransaction fault transaction clientId sequence fingerprint affectedRows db =
      (result, db')) :
    (∃ error, result = .error error ∧ Plain error ∧ db' = db) ∨
      ∃ outcome applyHash, result = .ok outcome ∧ Publishes applyHash fingerprint
        (transaction.intoAttempt { clientId, sequence } standaloneLeaderTerm) affectedRows
        outcome db db' := by
  unfold applyTransaction at h
  rw [Call.get_bind] at h
  refine Call.lift_bind_elim h
    (fun error hfail => .inl ⟨error, rfl, plain_liftEngine _ _ hfail, rfl⟩)
    fun applyHash _ h => ?_
  refine Call.lift_bind_elim h
    (fun error hfail => .inl ⟨error, rfl, fails_orFail (plain_invariant _) _ hfail, rfl⟩)
    fun applyIndex hindex h => ?_
  refine Call.lift_bind_elim h
    (fun error hfail => .inl ⟨error, rfl, plain_liftEngine _ _ hfail, rfl⟩)
    fun ⟨candidate, outcome⟩ happly h => ?_
  rcases Call.bind_cases h with ⟨error, hpublish, hresult⟩ | ⟨_, middle, hpublish, h⟩
  · rcases publishCandidate_cases hpublish with ⟨_, ⟨⟩, hplain, hsame⟩ | ⟨herror, -⟩
    · exact .inl ⟨error, hresult, hplain, hsame⟩
    · cases herror
  · cases h
    rcases publishCandidate_cases hpublish with ⟨_, herror, -⟩ |
      ⟨-, requests, durable, hrecord, hpersist, rfl⟩
    · cases herror
    · rw [checkedAdd] at hindex
      split at hindex <;> cases hindex
      exact .inr ⟨outcome, applyHash, rfl, liftEngine_eq_ok.mp happly, hrecord, hpersist, rfl, rfl⟩

variable {parsed : Spanned Statement} {parameters : List Value}
  {result : Result ExecutionResult}

/-- What the outcome of an autocommit mutation is answered with. -/
def autocommitResult (outcome : ApplyOutcome) (affectedRows lastApplied : Nat) :
    Result ExecutionResult :=
  match outcome with
  | .applied committed | .duplicate committed => mutationResult committed affectedRows lastApplied
  | .rejected rejection => .error (.requestRejected rejection)
  | .noop => .error (.invariant "autocommit transaction produced a Raft no-op")

/-- Run a statement that is not answered from a record: it ends before it is applied, it stages
nothing, or it is published. -/
theorem executeFresh_cases [Sha256] {clientId : ClientId} {sequence : Nat}
    (h : executeFresh fault clientId sequence fingerprint parsed parameters db = (result, db')) :
    (∃ error, result = .error error ∧ Plain error ∧ db' = db) ∨
      ∃ engine transaction, db.engine.begin = .ok (engine, transaction) ∧
        ((∃ error, result = .error error ∧ (isMutatingStatement parsed.value = true → Plain error) ∧
          db' = { db with engine }) ∨
        ∃ staged output,
          prepareAndExecuteOutput engine transaction parsed parameters = .ok (staged, output) ∧
          (staged.isReadOnly = true ∧ result = .ok (statementOutput output engine.lastApplied) ∧
            db' = { db with engine } ∨
          staged.isReadOnly = false ∧ ∃ affected outcome applyHash, output = .mutation affected ∧
            Publishes applyHash fingerprint
              (staged.intoAttempt { clientId, sequence } standaloneLeaderTerm) affected outcome
              { db with engine } db' ∧
            result = autocommitResult outcome affected db'.engine.lastApplied)) := by
  unfold executeFresh at h
  rw [Call.get_bind] at h
  refine Call.lift_bind_elim h
    (fun error hfail => .inl ⟨error, rfl, plain_liftEngine _ _ hfail, rfl⟩)
    fun ⟨engine, transaction⟩ hbegin h => ?_
  dsimp only at h
  rw [Call.set_bind] at h
  refine .inr ⟨engine, transaction, liftEngine_eq_ok.mp hbegin, ?_⟩
  refine Call.lift_bind_elim h
    (fun error hfail =>
      .inl ⟨error, rfl, fun hmutating => plain_prepareAndExecuteOutput hmutating _ hfail, rfl⟩)
    fun ⟨staged, output⟩ hprepare h => ?_
  split at h
  next hreadOnly =>
    cases h
    exact .inr ⟨staged, output, hprepare, .inl ⟨hreadOnly, rfl, rfl⟩⟩
  next hreadOnly =>
    rcases Call.lift_bind_cases h with ⟨error, hfail, hresult, hsame⟩ | ⟨affected, haffected, h⟩
    · refine .inl ⟨error, hresult, fun _ => ?_, hsame⟩
      cases output with
      | mutation rows => cases hfail
      | query _ _ | explain _ => exact fails_error (plain_invariant _) _ hfail
    have houtput : output = .mutation affected := by
      cases output with
      | mutation rows => rw [Except.ok.inj haffected]
      | query _ _ | explain _ => cases haffected
    rcases Call.bind_cases h with ⟨error, happly, hresult⟩ | ⟨outcome, middle, happly, h⟩
    · rcases applyTransaction_cases happly with ⟨_, ⟨⟩, hplain, hsame⟩ | ⟨_, _, hok, -⟩
      · exact .inl ⟨error, hresult, fun _ => hplain, hsame⟩
      · cases hok
    · rcases applyTransaction_cases happly with ⟨_, hok, -⟩ | ⟨_, applyHash, hok, hpublishes⟩
      · cases hok
      cases hok
      refine .inr ⟨staged, output, hprepare, .inr ⟨by simpa using hreadOnly, affected, outcome,
        applyHash, houtput, ?_⟩⟩
      cases outcome with
      | applied committed | duplicate committed =>
        dsimp only at h
        cases h
        exact ⟨hpublishes, rfl⟩
      | rejected | noop =>
        cases h
        exact ⟨hpublishes, rfl⟩

/-- A statement of a transaction changes that transaction only. -/
theorem executeInTransaction_cases
    (h : executeInTransaction transactionId parsed parameters db = (result, db')) :
    (∃ error, result = .error error ∧ db' = db) ∨
      ∃ original staged output, db.active[transactionId]? = some original ∧
        prepareAndExecuteOutput db.engine original parsed parameters = .ok (staged, output) ∧
        result = .ok (statementOutput output db.engine.lastApplied) ∧
        db' = { db with active := db.active.insert transactionId staged } := by
  unfold executeInTransaction at h
  rw [Call.get_bind] at h
  refine Call.lift_bind_elim h (fun error _ => .inl ⟨error, rfl, rfl⟩)
    fun original horiginal h => ?_
  refine Call.lift_bind_elim h (fun error _ => .inl ⟨error, rfl, rfl⟩)
    fun ⟨staged, output⟩ hprepare h => ?_
  cases h
  exact .inr ⟨original, staged, output, orFail_eq_ok.mp horiginal, hprepare, rfl, rfl⟩

section Results

/-- Errors a result is told with are not those of a refused request. -/
theorem plain_commitInfoFromResult (result : CommitResult) (appliedIndex : Nat) :
    Fails Plain (commitInfoFromResult result appliedIndex) := by
  cases result with
  | committed => exact fails_ok _
  | aborted => exact fails_error fun _ h => by cases h

theorem plain_mutationResult (result : CommitResult) (affectedRows appliedIndex : Nat) :
    Fails Plain (mutationResult result affectedRows appliedIndex) :=
  (plain_commitInfoFromResult result appliedIndex).bind fun _ _ => fails_pure _

end Results

variable [Sha256] {clientId : ClientId} {sequence : Nat}

/-- Commit: the database stays as it is, or the transaction is published. A refused one is put
back among the active ones. -/
theorem commit_cases {result : Result CommitInfo}
    (h : commit fault clientId sequence transactionId db = (result, db')) :
    db' = db ∧ (∀ rejection, result = .error (.requestRejected rejection) →
      replayRecord db.requests clientId sequence (commitFingerprint transactionId) =
        .error (.requestRejected rejection)) ∨
    ∃ transaction outcome applyHash, db.active[transactionId]? = some transaction ∧
      Publishes applyHash (commitFingerprint transactionId)
        (transaction.intoAttempt { clientId, sequence } standaloneLeaderTerm)
        transaction.writeCount outcome db { db' with active := db.active } ∧
      (∀ id ∈ db'.active, id ∈ db.active) ∧
      ∀ rejection, result = .error (.requestRejected rejection) →
        outcome = .rejected rejection := by
  unfold commit at h
  rw [Call.get_bind] at h
  rcases hactive : db.active[transactionId]? with _ | transaction <;> simp only [hactive] at h
  case none =>
    rcases Call.lift_bind_cases h with ⟨error, hfail, hresult, hsame⟩ | ⟨replay, hreplay, h⟩
    · refine .inl ⟨hsame, fun rejection hrejection => ?_⟩
      rw [hresult] at hrejection
      rw [hfail, Except.error.inj hrejection]
    · split at h
      next record =>
        cases h
        exact .inl ⟨rfl, fun rejection hrejection =>
          absurd rfl (plain_commitInfoFromResult _ _ _ hrejection rejection)⟩
      next =>
        cases h
        exact .inl ⟨rfl, fun rejection hrejection => by cases hrejection⟩
  case some =>
    rw [Call.set_bind] at h
    -- a transaction put back after its erasure
    have hback : (db.active.erase transactionId).insert transactionId transaction = db.active := by
      refine ExtTreeMap.ext_getElem? fun id => ?_
      by_cases hid : id = transactionId
      · rw [hid, ExtTreeMap.getElem?_insert_self, hactive]
      · rw [Maps.insert_of_ne hid, Maps.erase_of_ne hid]
    rcases happly : applyTransaction fault transaction clientId sequence
        (commitFingerprint transactionId) transaction.writeCount
        { db with active := db.active.erase transactionId } with ⟨error | outcome, middle⟩
    · rcases applyTransaction_cases happly with ⟨_, ⟨⟩, hplain, rfl⟩ | ⟨_, _, hok, -⟩
      · rw [Call.bind_of_error (Call.tryCatch_of_error happly _)] at h
        cases h
        refine .inl ⟨by simp only [hback], fun rejection hrejection => ?_⟩
        exact absurd (Except.error.inj hrejection) (hplain rejection)
      · cases hok
    · rw [Call.bind_of_ok (Call.tryCatch_of_ok happly _)] at h
      rcases applyTransaction_cases happly with ⟨_, hok, -⟩ | ⟨_, applyHash, ⟨⟩, hpublishes⟩
      · cases hok
      have hon : Publishes applyHash (commitFingerprint transactionId)
          (transaction.intoAttempt { clientId, sequence } standaloneLeaderTerm)
          transaction.writeCount outcome db { middle with active := db.active } :=
        ⟨hpublishes.apply, hpublishes.record, hpublishes.persist, rfl, hpublishes.limit⟩
      have herased : ∀ id ∈ middle.active, id ∈ db.active := fun id hid =>
        ExtTreeMap.mem_of_mem_erase (hpublishes.active ▸ hid)
      have hkept : ∀ id ∈ middle.active.insert transactionId transaction, id ∈ db.active := by
        rw [hpublishes.active, hback]
        exact fun _ h => h
      refine .inr ⟨transaction, outcome, applyHash, rfl, ?_⟩
      cases outcome with
      | applied committed | duplicate committed =>
        dsimp only at h
        cases h
        exact ⟨hon, herased, fun rejection hrejection =>
          absurd rfl (plain_commitInfoFromResult _ _ _ hrejection rejection)⟩
      | rejected refused =>
        cases h
        exact ⟨hon, hkept, fun rejection hrejection => by cases hrejection; rfl⟩
      | noop =>
        cases h
        exact ⟨hon, hkept, fun rejection hrejection => by cases hrejection⟩

/-- A mutation is answered from its record if there is one. -/
theorem executeAutocommit_apply {sql : String}
    (hfingerprint : sqlFingerprint sql parameters = .ok fingerprint) :
    executeAutocommit fault clientId sequence sql parsed parameters db =
      match replayStatement db.requests parsed.value clientId sequence fingerprint with
      | .error error => (.error error, db)
      | .ok (some record) => (mutationResultFromRecord record db.engine.lastApplied, db)
      | .ok none => executeFresh fault clientId sequence fingerprint parsed parameters db := by
  unfold executeAutocommit
  rw [Call.get_bind, hfingerprint, Call.lift_ok_bind]
  rcases replayStatement db.requests parsed.value clientId sequence fingerprint with
    error | _ | record
  · rw [Call.lift_error_bind]
  · rw [Call.lift_ok_bind]
  · rfl

theorem executeAutocommit_of_error {sql : String} {error : DatabaseError}
    (hfingerprint : sqlFingerprint sql parameters = .error error) :
    executeAutocommit fault clientId sequence sql parsed parameters db = (.error error, db) := by
  unfold executeAutocommit
  rw [Call.get_bind, hfingerprint, Call.lift_error_bind]

end Database

end AsterDatabase
