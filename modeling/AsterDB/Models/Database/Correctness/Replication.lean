import AsterDB.Models.Database.Interpretation.Replicas

/-!
# Replicated applies

A command that comes again at the index applied last is answered as before, and replicas of
one log have one snapshot. The first fails where a record keeps other affected rows than the
command brings; the second fails where one replica handed out more transaction ids.
-/

namespace AsterDatabase

open AsterRaft (Bytes Digest Sha256 zeroHash)
open AsterEngine (ClientId Value Engine ApplyOutcome TxnAttempt CommitResult TxnWrite)
open AsterSql
open Std
open Fallible Serde

namespace Database

variable {db db' : Database} {fault : Option StorageFault}

section Again

/-- A record of the same request with other affected rows. -/
def Disagrees (requests : DurableRequests) (command : ReplicatedMutation) : Prop :=
  ∃ record, requests[command.attempt.request.clientId]? = some record ∧
    record.sequence = command.attempt.request.sequence ∧
    record.fingerprint = command.fingerprint ∧ record.affectedRows ≠ command.affectedRows

variable {affectedRows : Nat} {fingerprint : Digest} {requests : DurableRequests}
  {clientId : ClientId}

theorem validateDurableReplay_eq_ok {sequence : Nat} {result : CommitResult}
    {outcome : ApplyOutcome} (houtcome : outcome = .applied result ∨ outcome = .duplicate result) :
    validateDurableReplay requests clientId sequence fingerprint affectedRows outcome = .ok () ↔
      requests[clientId]? = some { sequence, fingerprint, result, affectedRows } := by
  have hrecord {record : DurableRequestRecord} :
      (record.sequence = sequence ∧ record.fingerprint = fingerprint ∧
        record.affectedRows = affectedRows ∧ record.result = result) ↔
      record = { sequence, fingerprint, result, affectedRows } := by
    cases record
    simp only [DurableRequestRecord.mk.injEq]
    tauto
  rcases houtcome with rfl | rfl
  · simp only [validateDurableReplay, bind_eq_ok, orFail_eq_ok, failIf_eq_ok, not_or, not_not,
      hrecord, exists_eq_right]
  · simp only [validateDurableReplay, bind_eq_ok, orFail_eq_ok, failIf_eq_ok, not_or, not_not,
      hrecord, exists_eq_right]

variable {applyHash : Digest} {command : ReplicatedMutation} {outcome : ApplyOutcome}

theorem not_disagrees (hok : Ok db) (hadmission : ∀ result,
    db.engine.admitRequest command.attempt.request command.fingerprint ≠ .duplicate result) :
    ¬Disagrees db.requests command := by
  rintro ⟨record, hrecord, hsequence, hfingerprint, -⟩
  exact hadmission record.result (admission_of_record hok hrecord hsequence hfingerprint)

/-- A replay of the command published last passes unless there was such a record. -/
theorem Publishes.replay_iff (hok : Ok db)
    (h : Publishes applyHash command.fingerprint command.attempt command.affectedRows outcome db
      db') :
    validateDurableReplay db'.requests command.attempt.request.clientId
        command.attempt.request.sequence command.fingerprint command.affectedRows outcome = .ok () ↔
      ¬Disagrees db.requests command := by
  have hrecords := h.record
  have houtcome := h.outcome_eq
  cases hadmission : db.engine.admitRequest command.attempt.request command.fingerprint with
  | new =>
    rw [Engine.applyAdmitted, hadmission] at houtcome
    subst houtcome
    rw [validateDurableReplay_eq_ok (.inl rfl), ← Except.ok.inj hrecords,
      ExtTreeMap.getElem?_insert_self]
    exact iff_of_true rfl (not_disagrees hok fun result => by simp [hadmission])
  | duplicate result =>
    rw [Engine.applyAdmitted, hadmission] at houtcome
    subst houtcome
    obtain ⟨record, hrecord, hsequence, hfingerprint, hresult⟩ := record_of_duplicate hok hadmission
    -- a duplicate leaves the records alone
    have hsame : db'.requests = db.requests := by
      simp only [recordOutcome, hrecord, bind_eq_ok, pure_eq_ok] at hrecords
      obtain ⟨-, -, hsame⟩ := hrecords
      exact hsame.symm
    have hdisagrees :
        Disagrees db.requests command ↔ record.affectedRows ≠ command.affectedRows := by
      constructor
      · rintro ⟨other, hother, -, -, hne⟩
        rw [hrecord] at hother
        cases hother
        exact hne
      · exact fun hne => ⟨record, hrecord, hsequence, hfingerprint, hne⟩
    rw [validateDurableReplay_eq_ok (.inr rfl), hsame, hrecord, hdisagrees, not_not,
      ← hsequence, ← hfingerprint, ← hresult]
    constructor
    · intro heq
      rw [Option.some.inj heq]
    · intro heq
      rw [← heq]
  | rejected rejection =>
    rw [Engine.applyAdmitted, hadmission] at houtcome
    subst houtcome
    exact iff_of_true rfl (not_disagrees hok fun result => by simp [hadmission])

/-- What was published last is replayed as it was, whatever the next transaction id. -/
theorem Publishes.again {applyHash : Digest} {attempt : TxnAttempt} {outcome : ApplyOutcome}
    (h : Publishes applyHash fingerprint attempt affectedRows outcome db db') (id : Nat) :
    (db'.engine.withTxnId id).applyWithRequestHash db'.engine.lastApplied applyHash fingerprint
      attempt = .ok (db'.engine.withTxnId id, outcome) := by
  obtain ⟨hcanonical, -, -, hengine⟩ :=
    AsterEngine.applyWithRequestHash_next (Nat.succ_ne_self _) h.apply
  have hhash : db'.engine.lastApplyHash = some applyHash := by
    rw [hengine]
    rfl
  have houtcome : db'.engine.lastApplyOutcome = some outcome := by
    rw [hengine]
    rfl
  rw [Engine.withTxnId_applyWithRequestHash]
  have hagain :
      db'.engine.applyWithRequestHash db'.engine.lastApplied applyHash fingerprint attempt =
      .ok (db'.engine, outcome) := by
    simp only [Engine.applyWithRequestHash, bind_eq_ok, ite_true, failIf_eq_ok, orFail_eq_ok,
      pure_eq_ok, Prod.mk.injEq, exists_const, not_not]
    exact ⟨(), hcanonical, hhash, outcome, houtcome, trivial, rfl⟩
  rw [hagain]
  rfl

/-- What a client is told is never that something is corrupt. -/
theorem told_ne_corruption (requests : DurableRequests) (outcome : ApplyOutcome)
    (command : ReplicatedMutation) (index : Nat) (text : String) :
    told requests outcome command index ≠ .error (.corruption text) := by
  have hresult (result : CommitResult) (affectedRows appliedIndex : Nat) :
      Fails (fun error => error ≠ .corruption text)
        (mutationResult result affectedRows appliedIndex) := by
    cases result with
    | committed => exact fails_ok _
    | aborted => exact fails_error nofun
  have htold :
      Fails (fun error => error ≠ .corruption text) (told requests outcome command index) := by
    refine Fails.bind ?_ fun affectedRows _ => ?_
    · cases outcome with
      | applied | duplicate => exact (fails_orFail nofun).bind fun _ _ => fails_pure _
      | rejected | noop => exact fails_ok _
    · cases outcome with
      | applied result | duplicate result => exact hresult result affectedRows index
      | rejected | noop => exact fails_error nofun
  exact fun herror => htold _ herror rfl

theorem corruption_of_validateDurableReplay {sequence : Nat} {error : DatabaseError}
    (h : validateDurableReplay requests clientId sequence fingerprint affectedRows outcome =
      .error error) : ∃ text, error = .corruption text := by
  have hfails : Fails (fun error => ∃ text, error = .corruption text)
      (validateDurableReplay requests clientId sequence fingerprint affectedRows outcome) := by
    cases outcome with
    | applied | duplicate =>
      exact (fails_orFail ⟨_, rfl⟩).bind fun _ _ => fails_failIf ⟨_, rfl⟩
    | rejected => exact fails_ok ()
    | noop => exact fails_error ⟨_, rfl⟩
  exact hfails error h

variable [Sha256] [Deserialize ReplicatedMutation] {bytes : Bytes}

/-- A second apply of a published command, on the same state but for the next transaction id. -/
theorem applyReplicated_again_iff (next : Database) (id : Nat) (hok : Ok db)
    (hdecode : decodeCommand bytes = .ok command)
    (h : Publishes (Sha256.digest bytes) command.fingerprint command.attempt command.affectedRows
      outcome db db')
    (hengine : next.engine = db'.engine.withTxnId id) (hrequests : next.requests = db'.requests) :
    applyReplicated fault db'.engine.lastApplied bytes next =
        (told db'.requests outcome command db'.engine.lastApplied, next) ↔
      ¬Disagrees db.requests command := by
  have hcall : applyReplicated fault db'.engine.lastApplied bytes next =
      (do validateDurableReplay db'.requests command.attempt.request.clientId
            command.attempt.request.sequence command.fingerprint command.affectedRows outcome
          told db'.requests outcome command db'.engine.lastApplied, next) := by
    unfold applyReplicated
    rw [hdecode, ← hrequests]
    refine applyCommand_again (by rw [hengine]; rfl) ?_
    rw [hengine]
    exact h.again id
  rw [hcall, ← h.replay_iff hok, Prod.mk.injEq, and_iff_left rfl]
  cases hreplay : validateDurableReplay db'.requests command.attempt.request.clientId
      command.attempt.request.sequence command.fingerprint command.affectedRows outcome with
  | error error =>
    obtain ⟨text, rfl⟩ := corruption_of_validateDurableReplay hreplay
    exact iff_of_false (fun heq => told_ne_corruption _ _ _ _ text heq.symm) nofun
  | ok _ => exact iff_of_true rfl rfl

/-- A command that comes again at the index applied last, to the database or to the database opened
anew, changes nothing and is answered as it was, unless the client's record was there before with
other affected rows. -/
theorem applyReplicated_twice [Unicode] {log : List (Nat × Replicated)} (h : Replica log db)
    {result : Result ExecutionResult}
    (hfirst : applyReplicated fault (db.engine.lastApplied + 1) bytes db = (result, db'))
    (happlied : db'.engine.lastApplied = db.engine.lastApplied + 1) (again : Option StorageFault)
    {limit : Nat} (hlimit : limit ≠ 0) :
    (applyReplicated again (db.engine.lastApplied + 1) bytes db' = (result, db') ∧
        ∃ reopened, openWithOptions db'.durable limit = .ok reopened ∧
          applyReplicated again (db.engine.lastApplied + 1) bytes reopened = (result, reopened)) ↔
      ¬∃ command, decodeCommand bytes = .ok command ∧ Disagrees db.requests command := by
  have hok := h.follows.ok
  rcases applyReplicated_cases hfirst with rfl | ⟨command, outcome, hdecode, -, hpublishes, rfl⟩
  · omega
  have hstep : Step (fun _ => True) (fun _ => False) db db' := .publish hpublishes trivial
  obtain ⟨id, hloads⟩ := (hok.step hstep).loads
  obtain ⟨reopened, hopen, hengine, hrequests⟩ : ∃ reopened,
      openWithOptions db'.durable limit = .ok reopened ∧
        reopened.engine = db'.engine.withTxnId id ∧ reopened.requests = db'.requests := by
    simp only [openWithOptions, hloads, bind_eq_ok, failIf_eq_ok, pure_eq_ok]
    exact ⟨_, ⟨(), hlimit, _, rfl, rfl⟩, rfl, rfl⟩
  have hdisagrees : (∃ command, decodeCommand bytes = .ok command ∧ Disagrees db.requests command) ↔
      Disagrees db.requests command := by
    rw [hdecode]
    constructor
    · rintro ⟨_, ⟨⟩, hdisagrees⟩
      exact hdisagrees
    · exact fun hdisagrees => ⟨command, rfl, hdisagrees⟩
  rw [hdisagrees, ← happlied, hopen]
  constructor
  · exact fun hboth => (applyReplicated_again_iff db' _ hok hdecode hpublishes
      (Engine.withTxnId_self _).symm rfl).mp hboth.1
  · intro hagree
    exact ⟨(applyReplicated_again_iff db' _ hok hdecode hpublishes
      (Engine.withTxnId_self _).symm rfl).mpr hagree, reopened, rfl,
      (applyReplicated_again_iff reopened id hok hdecode hpublishes hengine hrequests).mpr hagree⟩

end Again

section Sample

/-- A command of client `client`, with a digest of zeros. -/
def sampleCommand (client : UInt8) (sequence readTs schemaEpoch : Nat)
    (writes : List TxnWrite) (catalogMutations : List AsterEngine.CatalogMutation)
    (affectedRows : Nat) : ReplicatedMutation where
  format := replicatedMutationFormat
  attempt := { request := ⟨Vector.replicate 16 client, sequence⟩, leaderTerm := 1, readTs
               schemaEpoch, writes, catalogMutations }
  fingerprint := Vector.replicate 32 0
  affectedRows

def createItems : ReplicatedMutation := sampleCommand 1 1 0 0 [] [.createTable idTable] 0

def insertItem : ReplicatedMutation :=
  sampleCommand 1 2 1 1 [{ tableId := 1, primaryKey := .int64 1, mutation := .put ⟨[.int64 1]⟩ }] []
    1

/-- What clears the table while it is empty. -/
def clearNothing : ReplicatedMutation := sampleCommand 2 1 1 1 [] [] 0

/-- What clears the table once the item is in it. -/
def clearItem : ReplicatedMutation :=
  sampleCommand 2 1 2 1 [{ tableId := 1, primaryKey := .int64 1, mutation := .delete }] [] 1

/-- A new database that took commands. -/
def sampleReplica (commands : List ReplicatedMutation) : Database :=
  commands.foldl
    (fun db command =>
      (applyCommand none (db.engine.lastApplied + 1) (Vector.replicate 32 0) command db).2)
    { engine := .new, active := ∅, requests := ∅, durable := .genesis, maxActiveTransactions := 1 }

attribute [local instance] zeroHash asciiText in
/-- The commands can be sent, and each is applied once. The last one is a duplicate, which is not
accepted when it is replayed. The replicas prepare all but the first, of which the statement is
evaluated apart. -/
theorem sampleReplica_applies :
    (∀ command ∈ [createItems, insertItem, clearNothing, clearItem],
      command.format = replicatedMutationFormat ∧
        (toVec command).length ≤ maxReplicatedCommandBytes) ∧
    (sampleReplica [createItems]).engine.lastApplied = 1 ∧
    (sampleReplica [createItems, insertItem]).engine.lastApplied = 2 ∧
    (sampleReplica [createItems, insertItem, clearNothing]).engine.lastApplied = 3 ∧
    (sampleReplica [createItems]).requests[insertItem.attempt.request.clientId]?.map
      DurableRequestRecord.sequence = some 1 ∧
    (applyCommand none 4 (Vector.replicate 32 0) clearItem
      (sampleReplica [createItems, insertItem, clearNothing])).1 =
        .ok (.query { columns := [], rows := [], affectedRows := 0, appliedIndex := 4 }) ∧
    (applyCommand none 4 (Vector.replicate 32 0) clearItem
      (sampleReplica [createItems, insertItem, clearNothing, clearItem])).1 =
        .error (.corruption "durable replicated request metadata disagrees with replay") ∧
    (sampleReplica [createItems]).prepareReplicatedMutation 1 (Vector.replicate 16 1) 2
      "INSERT INTO items VALUES (1)" [] = .ok (.propose (toVec insertItem)) ∧
    (sampleReplica [createItems]).prepareReplicatedMutation 1 (Vector.replicate 16 2) 1
      "DELETE FROM items" [] = .ok (.propose (toVec clearNothing)) ∧
    (sampleReplica [createItems, insertItem]).prepareReplicatedMutation 1 (Vector.replicate 16 2) 1
      "DELETE FROM items" [] = .ok (.propose (toVec clearItem)) := by
  decide +kernel

/-- Bytes that some replica proposed. -/
def Prepared [Sha256] [Unicode] [Deserialize ReplicatedMutation] (bytes : Bytes) : Prop :=
  ∃ (log : List (Nat × Replicated)) (source : Database) (leaderTerm : Nat)
    (clientId : ClientId) (sequence : Nat) (sql : String) (parameters : List Value),
    Replica log source ∧
      source.prepareReplicatedMutation leaderTerm clientId sequence sql parameters =
        .ok (.propose bytes)

/-- A log of commands from index one on. -/
def commandLog (commands : List ReplicatedMutation) : List (Nat × Replicated) :=
  commands.mapIdx fun i command => (i + 1, .command (toVec command))

theorem decodeCommand_toVec [Deserialize ReplicatedMutation] {command : ReplicatedMutation}
    (hformat : command.format = replicatedMutationFormat)
    (hlength : (toVec command).length ≤ maxReplicatedCommandBytes) :
    decodeCommand (toVec command) = .ok command := by
  simp only [decodeCommand, bind_eq_ok, failIf_eq_ok, mapError_eq_ok, fromSlice_toVec, pure_eq_ok]
  exact ⟨(), Nat.not_lt.mpr hlength, command, rfl, (), not_not.mpr hformat, rfl⟩

section Evaluated

attribute [local instance] zeroHash asciiText

variable [Deserialize ReplicatedMutation] {command : ReplicatedMutation}

theorem replica_sample_nil : Replica [] (sampleReplica []) :=
  .opened (show openWithOptions .genesis 1 = .ok (sampleReplica []) from rfl)

theorem applyReplicated_sample (hcommand : command.format = replicatedMutationFormat ∧
      (toVec command).length ≤ maxReplicatedCommandBytes) (index : Nat) (db : Database) :
    applyReplicated none index (toVec command) db =
      applyCommand none index (Vector.replicate 32 0) command db := by
  unfold applyReplicated
  rw [decodeCommand_toVec hcommand.1 hcommand.2]
  rfl

theorem replica_sample_append (commands : List ReplicatedMutation)
    (hreplica : Replica (commandLog commands) (sampleReplica commands))
    (hcommand : command.format = replicatedMutationFormat ∧
      (toVec command).length ≤ maxReplicatedCommandBytes)
    (hlast : (sampleReplica commands).engine.lastApplied = commands.length)
    (hnext : (sampleReplica (commands ++ [command])).engine.lastApplied = commands.length + 1) :
    Replica (commandLog (commands ++ [command])) (sampleReplica (commands ++ [command])) := by
  have hstate : sampleReplica (commands ++ [command]) =
      (applyCommand none (commands.length + 1) (Vector.replicate 32 0) command
        (sampleReplica commands)).2 := by
    rw [← hlast, sampleReplica, List.foldl_append]
    rfl
  have hcall : applyReplicated none (commands.length + 1) (toVec command) (sampleReplica commands) =
      ((applyCommand none (commands.length + 1) (Vector.replicate 32 0) command
        (sampleReplica commands)).1, sampleReplica (commands ++ [command])) := by
    rw [applyReplicated_sample hcommand, hstate]
    rfl
  have happlied := Replica.command hreplica hcall
  rw [logAfter, hlast, hnext, if_pos (Nat.lt_succ_self _)] at happlied
  rw [commandLog, List.mapIdx_concat]
  exact happlied

theorem replica_sample_one : Replica (commandLog [createItems]) (sampleReplica [createItems]) := by
  obtain ⟨hcommands, hone, -⟩ := sampleReplica_applies
  exact replica_sample_append [] replica_sample_nil (hcommands _ (by simp)) rfl hone

theorem replica_sample_more :
    Replica (commandLog [createItems, insertItem]) (sampleReplica [createItems, insertItem]) ∧
      Replica (commandLog [createItems, insertItem, clearNothing])
        (sampleReplica [createItems, insertItem, clearNothing]) := by
  obtain ⟨hcommands, hone, htwo, hthree, -⟩ := sampleReplica_applies
  have hreplica :
      Replica (commandLog [createItems, insertItem]) (sampleReplica [createItems, insertItem]) :=
    replica_sample_append [createItems] replica_sample_one (hcommands _ (by simp)) hone htwo
  exact ⟨hreplica, replica_sample_append [createItems, insertItem] hreplica (hcommands _ (by simp))
    htwo hthree⟩

/-- The commands of the sample were prepared by replicas. -/
theorem prepared_samples : Prepared (toVec createItems) ∧ Prepared (toVec insertItem) ∧
    Prepared (toVec clearNothing) ∧ Prepared (toVec clearItem) := by
  obtain ⟨hcommands, -, -, -, -, -, -, hinsert, hnothing, hitem⟩ := sampleReplica_applies
  refine ⟨?_, ⟨_, _, _, _, _, _, _, replica_sample_one, hinsert⟩,
    ⟨_, _, _, _, _, _, _, replica_sample_one, hnothing⟩,
    ⟨_, _, _, _, _, _, _, replica_sample_more.1, hitem⟩⟩
  refine ⟨_, sampleReplica [], 1, Vector.replicate 16 1, 1, createItemsText, [],
    replica_sample_nil, ?_⟩
  have hprepare : (sampleReplica []).prepareCommand 1 (Vector.replicate 16 1) 1
      (Vector.replicate 32 0) createItemsStatement [] = .ok createItems := by
    simp only [prepareCommand, bind_eq_ok, liftEngine_eq_ok]
    exact ⟨.new 0 0 0, rfl, _, prepareAndExecuteOutput_createItems 0 1, rfl⟩
  have hlength := (hcommands createItems (by simp)).2
  simp only [prepareReplicatedMutation, bind_eq_ok, liftSql_eq_ok, parseStatement_createItems]
  refine ⟨createItemsStatement, rfl, (), rfl, Vector.replicate 32 0, by decide, none, rfl, ?_⟩
  simp only [bind_eq_ok, encodeCommand, failIf_eq_ok, pure_eq_ok]
  exact ⟨createItems, hprepare, _, ⟨(), Nat.not_lt.mpr hlength, rfl⟩, rfl⟩

end Evaluated

/-- A table is cleared by a request that was prepared twice, before and after an item came into it.
The second command is a duplicate, which its first apply accepts and its replay does not. -/
theorem applyReplicated_twice_differs :
    let _ := zeroHash
    let _ := asciiText
    let _ := strictReader ReplicatedMutation
    ∃ log db db' bytes, Replica log db ∧
      (∀ index earlier, (index, .command earlier) ∈ log → Prepared earlier) ∧ Prepared bytes ∧
      applyReplicated none (db.engine.lastApplied + 1) bytes db =
        (.ok (.query { columns := [], rows := [], affectedRows := 0, appliedIndex := 4 }), db') ∧
      (applyReplicated none (db.engine.lastApplied + 1) bytes db').1 =
        .error (.corruption "durable replicated request metadata disagrees with replay") := by
  intro _ _ _
  obtain ⟨hcreate, hinsert, hnothing, hitem⟩ := prepared_samples
  obtain ⟨hcommands, -, -, hthree, -, hfirst, hagain, -⟩ := sampleReplica_applies
  refine ⟨_, sampleReplica [createItems, insertItem, clearNothing], sampleReplica [createItems,
    insertItem, clearNothing, clearItem], toVec clearItem, replica_sample_more.2, ?_, hitem, ?_, ?_⟩
  · intro index earlier hmem
    simp only [commandLog, List.mapIdx_cons, List.mapIdx_nil, List.mem_cons, List.not_mem_nil,
      or_false, Prod.mk.injEq, Replicated.command.injEq] at hmem
    rcases hmem with ⟨-, rfl⟩ | ⟨-, rfl⟩ | ⟨-, rfl⟩
    · exact hcreate
    · exact hinsert
    · exact hnothing
  · rw [applyReplicated_sample (hcommands _ (by simp))]
    refine Prod.ext ?_ rfl
    rw [hthree]
    exact hfirst
  · rw [applyReplicated_sample (hcommands _ (by simp)), hthree]
    exact hagain

/-- The item comes into the table once, however often its command is applied. -/
theorem applyReplicated_twice_insertItem :
    let _ := zeroHash
    let _ := asciiText
    let _ := strictReader ReplicatedMutation
    ∃ log db db' result, Replica log db ∧
      applyReplicated none (db.engine.lastApplied + 1) (toVec insertItem) db = (result, db') ∧
      db'.engine.lastApplied = db.engine.lastApplied + 1 ∧
      applyReplicated none (db.engine.lastApplied + 1) (toVec insertItem) db' = (result, db') := by
  intro _ _ _
  obtain ⟨hcommands, hone, htwo, -, hknown, -⟩ := sampleReplica_applies
  have hcommand := hcommands insertItem (by simp)
  have happlied := htwo.trans (congrArg (· + 1) hone.symm)
  have hfirst : applyReplicated none ((sampleReplica [createItems]).engine.lastApplied + 1)
      (toVec insertItem) (sampleReplica [createItems]) =
        (_, sampleReplica [createItems, insertItem]) := applyReplicated_sample hcommand _ _
  refine ⟨_, _, _, _, replica_sample_one, hfirst, happlied, ?_⟩
  refine ((applyReplicated_twice replica_sample_one hfirst happlied none Nat.one_ne_zero).mpr ?_).1
  rintro ⟨command, hdecode, record, hrecord, hsequence, -⟩
  rw [decodeCommand_toVec hcommand.1 hcommand.2] at hdecode
  cases hdecode
  rw [hrecord, Option.map_some, hsequence] at hknown
  cases hknown

end Sample

end Database

end AsterDatabase
