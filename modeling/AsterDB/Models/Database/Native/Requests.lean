import AsterDB.Models.Database.Native.Executor
import AsterDB.Models.Engine.Native.Json

/-!
# Requests of clients

The durable record of each client's last request, the fingerprints that tell requests
apart, and what a client is told. A request that comes again is answered from its record.
-/

namespace AsterDatabase

open AsterRaft (Bytes Digest Sha256)
open AsterEngine (ClientId Value Row Engine EngineSnapshot CommitResult ApplyOutcome TxnAttempt utf8
  putU64)
open Std
open Fallible Serde

def standaloneLeaderTerm : Nat := 1
def replicatedMutationFormat : Nat := 1
def databaseSnapshotFormat : Nat := 1
def maxReplicatedCommandBytes : Nat := 8 * 1024 * 1024
def maxSnapshotBytes : Nat := 256 * 1024 * 1024

structure QueryResult where
  columns : List String
  rows : List Row
  affectedRows : Nat
  appliedIndex : Nat
  deriving DecidableEq

structure TransactionInfo where
  transactionId : Nat
  readTs : Nat
  deriving DecidableEq

structure CommitInfo where
  commitIndex : Nat
  affectedRows : Nat
  schemaEpoch : Nat
  appliedIndex : Nat
  deriving DecidableEq

inductive ExecutionResult where
  | query (result : QueryResult)
  | transaction (info : TransactionInfo)
  | committed (info : CommitInfo)
  | rolledBack
  | explain (plan : String) (appliedIndex : Nat)
  deriving DecidableEq

/-- The last request of a client, with the rows it was told were affected. -/
structure DurableRequestRecord where
  sequence : Nat
  fingerprint : Digest
  result : CommitResult
  affectedRows : Nat
  deriving DecidableEq

abbrev DurableRequests := ExtTreeMap ClientId DurableRequestRecord

/-- A command in the replicated log. -/
structure ReplicatedMutation where
  format : Nat
  attempt : TxnAttempt
  fingerprint : Digest
  affectedRows : Nat
  deriving DecidableEq

structure DatabaseSnapshotRequest where
  clientId : ClientId
  record : DurableRequestRecord
  deriving DecidableEq

structure DatabaseSnapshotEnvelope where
  format : Nat
  engine : EngineSnapshot
  requests : List DatabaseSnapshotRequest
  deriving DecidableEq

section Json

instance : Serialize DurableRequestRecord where
  json record := .object [("sequence", json record.sequence),
    ("fingerprint", json record.fingerprint), ("result", json record.result),
    ("affected_rows", json record.affectedRows)]

instance : Serialize ReplicatedMutation where
  json command := .object [("format", json command.format), ("attempt", json command.attempt),
    ("fingerprint", json command.fingerprint), ("affected_rows", json command.affectedRows)]

instance : Serialize DatabaseSnapshotRequest where
  json request := .object [("client_id", json request.clientId), ("record", json request.record)]

instance : Serialize DatabaseSnapshotEnvelope where
  json envelope := .object [("format", json envelope.format), ("engine", json envelope.engine),
    ("requests", json envelope.requests)]

end Json

section Fingerprints

variable [Sha256]

def putFingerprintBytes (value : Bytes) : Bytes := putU64 value.length ++ value

def sqlFingerprint (sql : String) (parameters : List Value) : Result Digest := do
  let encoded ← liftCodec (AsterEngine.Codec.encodeRow ⟨parameters⟩)
  return Sha256.digest (utf8 "ASTDBREQ\x01SQL" ++ putFingerprintBytes (utf8 sql) ++
    putFingerprintBytes encoded)

def commitFingerprint (transactionId : Nat) : Digest :=
  Sha256.digest (utf8 "ASTDBREQ\x01COMMIT" ++ putU64 transactionId)

def raftNoopHash (index term : Nat) : Digest :=
  Sha256.digest (utf8 "ASTRAFTNOOP\x01" ++ putU64 index ++ putU64 term)

end Fingerprints

def statementOutput (output : StatementOutput) (appliedIndex : Nat) : ExecutionResult :=
  match output with
  | .query columns rows => .query { columns, rows, affectedRows := 0, appliedIndex }
  | .mutation affectedRows => .query { columns := [], rows := [], affectedRows, appliedIndex }
  | .explain plan => .explain plan appliedIndex

def commitInfoFromResult (result : CommitResult) (appliedIndex : Nat) :
    Result CommitInfo :=
  match result with
  | .committed commitIndex affectedRows schemaEpoch =>
    .ok { commitIndex, affectedRows, schemaEpoch, appliedIndex }
  | .aborted _ reason => .error (.transactionAborted reason)

/-- What is told of a mutation whose result is known. -/
def mutationResult (result : CommitResult) (affectedRows appliedIndex : Nat) :
    Result ExecutionResult := do
  let _ ← commitInfoFromResult result appliedIndex
  return .query { columns := [], rows := [], affectedRows, appliedIndex }

/-- The record of the same request, if it is the client's last one. -/
def replayRecord (requests : DurableRequests) (clientId : ClientId) (sequence : Nat)
    (fingerprint : Digest) : Result (Option DurableRequestRecord) :=
  match requests[clientId]? with
  | none => .ok none
  | some record =>
    if record.sequence ≠ sequence then .ok none
    else if record.fingerprint ≠ fingerprint then
      .error (.requestRejected (.sequenceHashMismatch sequence))
    else .ok (some record)

def mutationResultFromRecord (record : DurableRequestRecord) (appliedIndex : Nat) :
    Result ExecutionResult :=
  mutationResult record.result record.affectedRows appliedIndex

def replicatedOutcome (outcome : ApplyOutcome) (affectedRows appliedIndex : Nat) :
    Result ExecutionResult :=
  match outcome with
  | .applied result | .duplicate result => mutationResult result affectedRows appliedIndex
  | .rejected rejection => .error (.requestRejected rejection)
  | .noop => .error (.invariant "replicated transaction decoded as a Raft no-op")

/-- The records after an outcome. A duplicate keeps the record there is. -/
def recordOutcome (requests : DurableRequests) (outcome : ApplyOutcome)
    (clientId : ClientId) (sequence : Nat) (fingerprint : Digest) (affectedRows : Nat) :
    Result DurableRequests :=
  match outcome with
  | .applied result =>
    .ok (requests.insert clientId { sequence, fingerprint, result, affectedRows })
  | .duplicate result =>
    match requests[clientId]? with
    | some existing => do
      failIf (existing.sequence ≠ sequence ∨ existing.fingerprint ≠ fingerprint ∨
          existing.result ≠ result)
        (.invariant "engine duplicate disagrees with durable request fingerprint")
      return requests
    | none => .ok (requests.insert clientId { sequence, fingerprint, result, affectedRows })
  | .rejected _ => .ok requests
  | .noop => .error (.invariant "transaction publication received a Raft no-op")

/-- An entry that was applied before has the record its apply left. -/
def validateDurableReplay (requests : DurableRequests) (clientId : ClientId)
    (sequence : Nat) (fingerprint : Digest) (affectedRows : Nat) (outcome : ApplyOutcome) :
    Result Unit :=
  match outcome with
  | .applied result | .duplicate result => do
    let record ← orFail requests[clientId]?
      (.corruption "durable replicated apply has no request fingerprint")
    failIf (record.sequence ≠ sequence ∨ record.fingerprint ≠ fingerprint ∨
        record.affectedRows ≠ affectedRows ∨ record.result ≠ result)
      (.corruption "durable replicated request metadata disagrees with replay")
  | .rejected _ => .ok ()
  | .noop => .error (.corruption "transaction replay found a durable Raft no-op")

/-- A record agrees with the engine's record of the client. -/
def validateDurableRequest (engine : Engine)
    (entry : ClientId × DurableRequestRecord) : Result Unit := do
  let engineRecord ← orFail engine.clients[entry.1]?
    (.corruption "request fingerprint has no matching engine client record")
  failIf (entry.2.sequence ≠ engineRecord.sequence ∨
      entry.2.fingerprint ≠ engineRecord.requestHash ∨ entry.2.result ≠ engineRecord.result)
    (.corruption "request fingerprint disagrees with engine client result")

def validateDurableRequests (engine : Engine) (requests : DurableRequests) :
    Result Unit := do
  failIf (engine.clients.size ≠ requests.size)
    (.corruption (s!"engine has {engine.clients.size} client records but snapshot has " ++
      s!"{requests.size} request records"))
  requests.toList.forM (validateDurableRequest engine)

end AsterDatabase
