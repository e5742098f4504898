import AsterDB.Core.Call
import AsterDB.Models.Database.Native.Requests
import AsterDB.Models.Sql.Native.Binder
import AsterDB.Models.Sql.Native.Parser

/-!
# Database

The standalone facade over an engine: explicit transactions, autocommit statements,
replicated commands and snapshots. A mutation is applied to a copy of the engine, made
durable, and only then put in place. What the files hold is kept here as the state that
they describe. A call that reaches storage takes what storage fails with, if it fails; the
files then stay as they were, and a group that reached the log before is not tracked.
-/

namespace AsterDatabase

open AsterRaft (Bytes Digest Sha256)
open AsterEngine (ClientId Value Engine EngineSnapshot Transaction ApplyOutcome checkedAdd)
open AsterSql
open Std
open Fallible Serde

/-- What storage may fail with. -/
inductive StorageFault where
  | storage (text : String)
  | io (text : String)
  | resourceLimit (text : String)
  | corruption (text : String)
  | invariant (text : String)
  deriving DecidableEq

def StorageFault.error : StorageFault → DatabaseError
  | .storage text => .storage text
  | .io text => .io text
  | .resourceLimit text => .resourceLimit text
  | .corruption text => .corruption text
  | .invariant text => .invariant text

/-- What the files hold: the index and hash of the superblock, and the state below its root. -/
structure Durable where
  appliedIndex : Nat
  stateHash : Digest
  state : Option (EngineSnapshot × DurableRequests)
  deriving DecidableEq

namespace Durable

/-- Files before any apply. -/
def genesis : Durable := { appliedIndex := 0, stateHash := Vector.replicate 32 0, state := none }

variable (durable : Durable) (fault : Option StorageFault)

/-- Storage fails, or does its work. -/
def unlessFault : Result Unit :=
  match fault with
  | some fault => .error fault.error
  | none => .ok ()

def persistState (engine : Engine) (requests : DurableRequests) : Result Durable := do
  let expectedIndex ← orFail (checkedAdd durable.appliedIndex 1)
    (.invariant "applied index overflow")
  failIf (engine.lastApplied ≠ expectedIndex)
    (.invariant
      s!"candidate engine is at index {engine.lastApplied}, durable pager expects {expectedIndex}")
  let stateHash ← orFail engine.lastApplyHash (.invariant "applied engine has no command hash")
  validateDurableRequests engine requests
  unlessFault fault
  return {
    appliedIndex := engine.lastApplied, stateHash, state := some (engine.snapshot, requests) }

/-- Unlike a persist, an install may jump over indexes. -/
def installState (engine : Engine) (requests : DurableRequests) : Result Durable := do
  validateDurableRequests engine requests
  failIf (engine.lastApplied ≤ durable.appliedIndex)
    (.invariant (s!"installed snapshot index {engine.lastApplied} must be newer than durable " ++
      s!"index {durable.appliedIndex}"))
  let stateHash ← orFail engine.lastApplyHash (.invariant "snapshot engine has no apply hash")
  validateDurableRequests engine requests
  unlessFault fault
  return {
    appliedIndex := engine.lastApplied, stateHash, state := some (engine.snapshot, requests) }

def loadState : Result (Engine × DurableRequests) :=
  match durable.appliedIndex, durable.state with
  | 0, none => .ok (.new, ∅)
  | 0, some _ => .error (.corruption "genesis superblock unexpectedly names a snapshot tree")
  | _ + 1, none => .error (.corruption "applied database has no snapshot-tree root")
  | index + 1, some (snapshot, requests) => do
    let engine ← liftEngine (Engine.fromSnapshot snapshot)
    validateDurableRequests engine requests
    failIf (engine.lastApplied ≠ index + 1)
      (.corruption
        s!"engine snapshot index {engine.lastApplied} disagrees with superblock {index + 1}")
    failIf (engine.lastApplyHash ≠ some durable.stateHash)
      (.corruption "engine snapshot hash disagrees with superblock")
    return (engine, requests)

end Durable

structure Database where
  engine : Engine
  active : ExtTreeMap Nat Transaction
  requests : DurableRequests
  durable : Durable
  maxActiveTransactions : Nat

/-- Calls of a database's methods. -/
abbrev DatabaseCall := Call Database DatabaseError

def isMutatingStatement : Statement → Bool
  | .createTable _ | .createIndex _ | .insert _ | .update _ | .delete _ => true
  | _ => false

def physicalPlan (statement : BoundStatement) (catalog : EngineCatalog) : Option PhysicalPlan :=
  match statement with
  | .query plan _ => some (optimize catalog.catalog plan)
  | _ => none

/-- Bind and run one statement in a transaction. Binding sees what is staged, planning does not. -/
def prepareAndExecuteOutput (engine : Engine) (transaction : Transaction)
    (parsed : Spanned Statement) (parameters : List Value) :
    Result (Transaction × StatementOutput) := do
  let bound ← liftSql (AsterSql.bind parsed (EngineCatalog.new engine (some transaction)).catalog)
  liftSql (validateParameters bound.parameters parameters)
  failIf (bound.statement.isTransaction = true)
    (.transactionControl "transaction control must be dispatched before execution")
  let planningCatalog := EngineCatalog.new engine none
  match bound.statement with
  | .explain inner => do
    failIf (inner.isTransaction = true)
      (.transactionControl "EXPLAIN does not accept transaction control")
    let output ← explainStatement inner (physicalPlan inner planningCatalog)
    return (transaction, output)
  | statement =>
    executeBound engine parameters transaction statement (physicalPlan statement planningCatalog)

/-- Take one record of a snapshot; each client has one. -/
def collectRequest (requests : DurableRequests) (request : DatabaseSnapshotRequest) :
    Result DurableRequests := do
  failIf (request.clientId ∈ requests)
    (.corruption "database snapshot contains a duplicate client record")
  return requests.insert request.clientId request.record

def decodeDatabaseSnapshot [Deserialize DatabaseSnapshotEnvelope] (bytes : Bytes) :
    Result (Engine × DurableRequests) := do
  failIf (bytes.isEmpty = true ∨ maxSnapshotBytes < bytes.length)
    (.resourceLimit
      s!"database snapshot length {bytes.length} is outside 1..={maxSnapshotBytes} bytes")
  let envelope ← (fromSlice (α := DatabaseSnapshotEnvelope) bytes).mapError fun error =>
    .corruption s!"database snapshot decode failed: {error}"
  failIf (envelope.format ≠ databaseSnapshotFormat)
    (.corruption s!"unsupported database snapshot format {envelope.format}")
  let engine ← liftEngine (Engine.fromSnapshot envelope.engine)
  let requests ← envelope.requests.foldlM collectRequest ∅
  validateDurableRequests engine requests
  return (engine, requests)

structure DatabaseSnapshot where
  appliedIndex : Nat
  stateHash : Digest
  bytes : Bytes
  deriving DecidableEq

inductive MutationPreparation where
  | propose (bytes : Bytes)
  | replay (result : ExecutionResult)
  deriving DecidableEq

namespace Database

section Open

variable (durable : Durable) (maxActiveTransactions : Nat)

def openWithOptions : Result Database := do
  failIf (maxActiveTransactions = 0)
    (.resourceLimit "maximum active transaction count must be positive")
  let (engine, requests) ← durable.loadState
  return { engine, active := ∅, requests, durable, maxActiveTransactions }

end Open

def begin : DatabaseCall TransactionInfo := do
  let database ← get
  failIf (database.maxActiveTransactions ≤ database.active.size)
    (DatabaseError.resourceLimit
      s!"active transaction limit {database.maxActiveTransactions} reached")
  let (engine, transaction) ← liftEngine database.engine.begin
  set { database with engine, active := database.active.insert transaction.id transaction }
  failIf (transaction.id ∈ database.active)
    (DatabaseError.invariant s!"transaction id {transaction.id} was reused while active")
  return { transactionId := transaction.id, readTs := transaction.readTs }

def rollback (transactionId : Nat) : DatabaseCall Unit := do
  let database ← get
  failIf (transactionId ∉ database.active) (DatabaseError.transactionNotFound transactionId)
  set { database with active := database.active.erase transactionId }

/-- Put a transaction among the active ones. -/
def keep (transactionId : Nat) (transaction : Transaction) : DatabaseCall Unit :=
  modify fun database =>
    { database with active := database.active.insert transactionId transaction }

section Publication

variable (fault : Option StorageFault)

/-- Make a candidate durable and put it in place. -/
def publishCandidate (candidate : Engine) (outcome : ApplyOutcome) (clientId : ClientId)
    (sequence : Nat) (fingerprint : Digest) (affectedRows : Nat) : DatabaseCall Unit := do
  let database ← get
  let candidateRequests ←
    recordOutcome database.requests outcome clientId sequence fingerprint affectedRows
  let durable ← database.durable.persistState fault candidate candidateRequests
  set { database with engine := candidate, requests := candidateRequests, durable }

variable [Sha256]

def applyTransaction (transaction : Transaction) (clientId : ClientId) (sequence : Nat)
    (fingerprint : Digest) (affectedRows : Nat) : DatabaseCall ApplyOutcome := do
  let database ← get
  let attempt := transaction.intoAttempt { clientId, sequence } standaloneLeaderTerm
  let commandHash ← liftEngine attempt.commandHash
  let applyIndex ← orFail (checkedAdd database.engine.lastApplied 1)
    (DatabaseError.invariant "applied index overflow")
  let (candidate, outcome) ← liftEngine
    (database.engine.applyWithRequestHash applyIndex commandHash fingerprint attempt)
  publishCandidate fault candidate outcome clientId sequence fingerprint affectedRows
  return outcome

/-- Commit a transaction. One that was refused stays active. -/
def commit (clientId : ClientId) (sequence transactionId : Nat) :
    DatabaseCall CommitInfo := do
  let database ← get
  let fingerprint := commitFingerprint transactionId
  match database.active[transactionId]? with
  | none =>
    match ← replayRecord database.requests clientId sequence fingerprint with
    | some record => commitInfoFromResult record.result database.engine.lastApplied
    | none => throw (.transactionNotFound transactionId)
  | some transaction =>
    set { database with active := database.active.erase transactionId }
    let outcome ← tryCatch
      (applyTransaction fault transaction clientId sequence fingerprint transaction.writeCount)
      fun error => do
        keep transactionId transaction
        throw error
    match outcome with
    | .applied result | .duplicate result =>
      let database ← get
      commitInfoFromResult result database.engine.lastApplied
    | .rejected rejection =>
      keep transactionId transaction
      throw (.requestRejected rejection)
    | .noop =>
      keep transactionId transaction
      throw (.invariant "transaction commit produced a Raft no-op")

/-- A statement of a transaction takes effect as a whole or not at all. -/
def executeInTransaction (transactionId : Nat) (parsed : Spanned Statement)
    (parameters : List Value) : DatabaseCall ExecutionResult := do
  let database ← get
  let original ← orFail database.active[transactionId]?
    (DatabaseError.transactionNotFound transactionId)
  let (staged, output) ← prepareAndExecuteOutput database.engine original parsed parameters
  keep transactionId staged
  return statementOutput output database.engine.lastApplied

/-- The affected rows of a statement that staged something. -/
def affectedRows : StatementOutput → Result Nat
  | .mutation affectedRows => .ok affectedRows
  | .query _ _ | .explain _ => .error (.invariant "read-only output unexpectedly staged a mutation")

/-- Run a statement that is not answered from a record. -/
def executeFresh (clientId : ClientId) (sequence : Nat) (fingerprint : Digest)
    (parsed : Spanned Statement) (parameters : List Value) : DatabaseCall ExecutionResult := do
  let database ← get
  let (engine, transaction) ← liftEngine database.engine.begin
  set { database with engine }
  let (transaction, output) ← prepareAndExecuteOutput engine transaction parsed parameters
  if transaction.isReadOnly then
    return statementOutput output engine.lastApplied
  else
    let affectedRows ← affectedRows output
    let outcome ← applyTransaction fault transaction clientId sequence fingerprint affectedRows
    match outcome with
    | .applied result | .duplicate result =>
      let database ← get
      mutationResult result affectedRows database.engine.lastApplied
    | .rejected rejection => throw (.requestRejected rejection)
    | .noop => throw (.invariant "autocommit transaction produced a Raft no-op")

/-- The record that answers a mutation; other statements have none. -/
def replayStatement (requests : DurableRequests) (statement : Statement)
    (clientId : ClientId) (sequence : Nat) (fingerprint : Digest) :
    Result (Option DurableRequestRecord) :=
  if isMutatingStatement statement then replayRecord requests clientId sequence fingerprint
  else .ok none

def executeAutocommit (clientId : ClientId) (sequence : Nat) (sql : String)
    (parsed : Spanned Statement) (parameters : List Value) : DatabaseCall ExecutionResult := do
  let database ← get
  let fingerprint ← sqlFingerprint sql parameters
  match ← replayStatement database.requests parsed.value clientId sequence fingerprint with
  | some record => mutationResultFromRecord record database.engine.lastApplied
  | none => executeFresh fault clientId sequence fingerprint parsed parameters

/-- Transaction control takes no parameters. -/
def requireNoParameters (statement : String) (parameters : List Value) :
    Result Unit :=
  failIf (parameters ≠ []) (.transactionControl s!"{statement} does not accept parameters")

/-- The transaction a control statement is about. -/
def requireTransaction (statement : String) (transactionId : Option Nat) :
    Result Nat :=
  orFail transactionId (.transactionControl s!"{statement} requires an active transaction id")

variable [Unicode]

def execute (clientId : ClientId) (sequence : Nat) (transactionId : Option Nat)
    (sql : String) (parameters : List Value) : DatabaseCall ExecutionResult := do
  let parsed ← liftSql (parseStatement sql)
  match parsed.value with
  | .begin =>
    failIf (transactionId.isSome = true)
      (DatabaseError.transactionControl "BEGIN cannot run inside an active transaction")
    requireNoParameters "BEGIN" parameters
    let info ← begin
    return .transaction info
  | .commit =>
    let transactionId ← requireTransaction "COMMIT" transactionId
    requireNoParameters "COMMIT" parameters
    let info ← commit fault clientId sequence transactionId
    return .committed info
  | .rollback =>
    let transactionId ← requireTransaction "ROLLBACK" transactionId
    requireNoParameters "ROLLBACK" parameters
    rollback transactionId
    return .rolledBack
  | _ =>
    match transactionId with
    | some transactionId => executeInTransaction transactionId parsed parameters
    | none => executeAutocommit fault clientId sequence sql parsed parameters

/-- Statements that the read path of a replicated node takes. -/
def isReadOnlyStatement : Statement → Bool
  | .select _ | .explain _ _ => true
  | _ => false

def executeReadOnly (clientId : ClientId) (sequence : Nat) (sql : String)
    (parameters : List Value) : DatabaseCall ExecutionResult := do
  let parsed ← liftSql (parseStatement sql)
  failIf (isReadOnlyStatement parsed.value = false)
    (DatabaseError.transactionControl "linearizable read path accepts SELECT or EXPLAIN only")
  execute fault clientId sequence none sql parameters

end Publication

section Replication

variable [Sha256]

/-- Build the command of an autocommit mutation; the database stays as it is. -/
def prepareCommand (database : Database) (leaderTerm : Nat) (clientId : ClientId)
    (sequence : Nat) (fingerprint : Digest) (parsed : Spanned Statement)
    (parameters : List Value) : Result ReplicatedMutation := do
  let transaction ← liftEngine database.engine.prepareTransaction
  let (transaction, output) ← prepareAndExecuteOutput database.engine transaction parsed parameters
  match output with
  | .mutation affectedRows =>
    return { format := replicatedMutationFormat
             attempt := transaction.intoAttempt { clientId, sequence } leaderTerm
             fingerprint, affectedRows }
  | .query _ _ | .explain _ =>
    .error (.invariant "replicated mutation prepared a non-mutation output")

/-- The bytes of a command that is not too large. -/
def encodeCommand (command : ReplicatedMutation) : Result Bytes := do
  let bytes := toVec command
  failIf (maxReplicatedCommandBytes < bytes.length)
    (.resourceLimit
      s!"replicated command is {bytes.length} bytes; maximum is {maxReplicatedCommandBytes}")
  return bytes

def prepareReplicatedMutation [Unicode] (database : Database) (leaderTerm : Nat)
    (clientId : ClientId) (sequence : Nat) (sql : String) (parameters : List Value) :
    Result MutationPreparation := do
  let parsed ← liftSql (parseStatement sql)
  failIf (isMutatingStatement parsed.value = false)
    (.transactionControl "replicated proposals accept autocommit DDL/DML only")
  let fingerprint ← sqlFingerprint sql parameters
  match ← replayRecord database.requests clientId sequence fingerprint with
  | some record =>
    let result ← mutationResultFromRecord record database.engine.lastApplied
    return .replay result
  | none =>
    let command ← prepareCommand database leaderTerm clientId sequence fingerprint parsed parameters
    let bytes ← encodeCommand command
    return .propose bytes

variable (fault : Option StorageFault)

/-- The rows a replicated apply reports: those of the client's record. -/
def responseAffectedRows (requests : DurableRequests) (outcome : ApplyOutcome)
    (command : ReplicatedMutation) : Result Nat :=
  match outcome with
  | .applied _ | .duplicate _ => do
    let record ← orFail
      (requests[command.attempt.request.clientId]?.filter fun record =>
        record.sequence == command.attempt.request.sequence &&
          record.fingerprint == command.fingerprint)
      (.invariant "successful replicated apply has no matching durable request record")
    return record.affectedRows
  | .rejected _ | .noop => .ok command.affectedRows

/-- Apply a decoded command. At the index applied last this is a replay. -/
def applyCommand (index : Nat) (applyHash : Digest) (command : ReplicatedMutation) :
    DatabaseCall ExecutionResult := do
  let database ← get
  let request := command.attempt.request
  failIf (index < database.engine.lastApplied)
    (DatabaseError.corruption
      (s!"replicated apply index {index} is behind durable database index " ++
        s!"{database.engine.lastApplied}"))
  let (candidate, outcome) ← liftEngine
    (database.engine.applyWithRequestHash index applyHash command.fingerprint command.attempt)
  if index = database.engine.lastApplied then
    validateDurableReplay database.requests request.clientId request.sequence command.fingerprint
      command.affectedRows outcome
  else
    publishCandidate fault candidate outcome request.clientId request.sequence command.fingerprint
      command.affectedRows
  let database ← get
  let affectedRows ← responseAffectedRows database.requests outcome command
  replicatedOutcome outcome affectedRows index

def decodeCommand [Deserialize ReplicatedMutation] (bytes : Bytes) :
    Result ReplicatedMutation := do
  failIf (maxReplicatedCommandBytes < bytes.length)
    (.resourceLimit
      s!"replicated command is {bytes.length} bytes; maximum is {maxReplicatedCommandBytes}")
  let command ← (fromSlice (α := ReplicatedMutation) bytes).mapError fun error =>
    .corruption s!"replicated command decode failed: {error}"
  failIf (command.format ≠ replicatedMutationFormat)
    (.corruption s!"unsupported replicated command format {command.format}")
  return command

def applyReplicated [Deserialize ReplicatedMutation] (index : Nat) (bytes : Bytes) :
    DatabaseCall ExecutionResult := do
  let command ← decodeCommand bytes
  applyCommand fault index (Sha256.digest bytes) command

def applyRaftNoop (index term : Nat) : DatabaseCall Unit := do
  let database ← get
  failIf (index < database.engine.lastApplied)
    (DatabaseError.corruption
      s!"Raft no-op index {index} is behind durable database index {database.engine.lastApplied}")
  let (candidate, outcome) ← liftEngine (database.engine.applyNoop index (raftNoopHash index term))
  failIf (outcome ≠ .noop)
    (DatabaseError.invariant "Raft no-op produced a transaction outcome")
  if database.engine.lastApplied < index then
    let durable ← database.durable.persistState fault candidate database.requests
    set { database with engine := candidate, durable }

end Replication

section Snapshots

variable (fault : Option StorageFault)

def envelope (database : Database) : DatabaseSnapshotEnvelope where
  format := databaseSnapshotFormat
  engine := database.engine.snapshot
  requests := database.requests.toList.map fun entry => { clientId := entry.1, record := entry.2 }

def createSnapshot (database : Database) : Result DatabaseSnapshot := do
  failIf (database.active.isEmpty = false)
    (.resourceLimit "cannot snapshot while explicit transactions are active")
  Durable.unlessFault fault
  failIf (database.durable.appliedIndex ≠ database.engine.lastApplied)
    (.invariant "snapshot checkpoint disagrees with engine applied index")
  validateDurableRequests database.engine database.requests
  let stateHash ← orFail database.engine.lastApplyHash
    (.invariant "cannot snapshot the unapplied genesis state")
  let bytes := toVec database.envelope
  failIf (maxSnapshotBytes < bytes.length)
    (.resourceLimit s!"database snapshot is {bytes.length} bytes; maximum is {maxSnapshotBytes}")
  return { appliedIndex := database.engine.lastApplied, stateHash, bytes }

/-- Install a newer image; the image of the local index is compared. -/
def installDecodedSnapshot (engine : Engine) (requests : DurableRequests) : DatabaseCall Unit := do
  let database ← get
  failIf (database.active.isEmpty = false)
    (DatabaseError.resourceLimit "cannot install a snapshot while explicit transactions are active")
  match compare engine.lastApplied database.engine.lastApplied with
  | .lt => throw (.corruption (s!"snapshot index {engine.lastApplied} is behind local database " ++
      s!"index {database.engine.lastApplied}"))
  | .eq =>
    failIf (engine.snapshot ≠ database.engine.snapshot ∨ requests ≠ database.requests)
      (DatabaseError.corruption "snapshot at the local applied index has different state")
  | .gt =>
    let durable ← database.durable.installState fault engine requests
    set { database with engine, requests, durable }

variable [Deserialize DatabaseSnapshotEnvelope]

def installSnapshot (bytes : Bytes) : DatabaseCall Unit := do
  let (engine, requests) ← decodeDatabaseSnapshot bytes
  installDecodedSnapshot fault engine requests

end Snapshots

end Database

end AsterDatabase
