import AsterDB.Models.Engine.Native.Json

/-!
# Messages of the wire protocol

Requests and responses between clients and nodes, envelopes between nodes, and the
JSON forms their derived serialisers give them. Identifiers, terms and counters are
natural numbers.
-/

namespace AsterProtocol

open AsterRaft (Bytes NodeId)
open AsterEngine (ClientId Value)
open Fallible Serde

def maxSqlBytes : Nat := 1024 * 1024
def maxParameters : Nat := 65536
def maxRowsPerFrame : Nat := 16384

structure SessionRequest where
  clientId : ClientId
  sequence : Nat
  transactionId : Option Nat
  deriving DecidableEq

inductive ReadConsistency where
  | linearizable
  | stale
  deriving DecidableEq

inductive ClientOperation where
  | execute (sql : String) (parameters : List Value) (consistency : ReadConsistency)
  | begin
  | commit
  | rollback
  | status
  | ping
  deriving DecidableEq

structure ClientRequest where
  requestId : Nat
  session : Option SessionRequest
  operation : ClientOperation
  deriving DecidableEq

structure QueryResult where
  columns : List String
  rows : List (List Value)
  affectedRows : Nat
  appliedIndex : Nat
  hasMore : Bool
  deriving DecidableEq

structure NodeStatus where
  nodeId : NodeId
  role : String
  term : Nat
  leaderId : Option NodeId
  commitIndex : Nat
  appliedIndex : Nat
  lastLogIndex : Nat
  snapshotIndex : Nat
  databasePages : Nat
  walDurableLsn : Nat
  activeTransactions : Nat
  deriving DecidableEq

inductive ErrorCode where
  | invalidRequest
  | unsupported
  | constraint
  | conflict
  | notLeader
  | timeout
  | resourceExhausted
  | corruption
  | internal
  deriving DecidableEq

structure ProtocolError where
  code : ErrorCode
  message : String
  leaderHint : Option String
  retryable : Bool
  deriving DecidableEq

inductive ResponseResult where
  | query (result : QueryResult)
  | transaction (transactionId readTs : Nat)
  | committed (commitIndex : Nat)
  | rolledBack
  | status (status : NodeStatus)
  | pong
  | error (error : ProtocolError)
  deriving DecidableEq

structure ClientResponse where
  requestId : Nat
  result : ResponseResult
  deriving DecidableEq

structure PeerEnvelope where
  sender : NodeId
  receiver : NodeId
  term : Nat
  correlationId : Nat
  payload : Bytes
  deriving DecidableEq

inductive WireMessage where
  | request (request : ClientRequest)
  | response (response : ClientResponse)
  | peer (envelope : PeerEnvelope)
  deriving DecidableEq

inductive DecodeError where
  | incomplete
  | badMagic
  | version (number : Nat)
  | kind (number : Nat)
  | checksum
  | limit (text : String)
  | payload (text : String)
  | io (text : String)
  deriving DecidableEq, Repr

/-- Text of an error. -/
def DecodeError.display : DecodeError → String
  | .incomplete => "incomplete frame"
  | .badMagic => "bad frame magic"
  | .version number => s!"unsupported protocol version {number}"
  | .kind number => s!"unknown message kind {number}"
  | .checksum => "frame checksum mismatch"
  | .limit text => s!"resource limit exceeded: {text}"
  | .payload text => s!"malformed payload: {text}"
  | .io text => s!"I/O error: {text}"

def ClientRequest.validate (request : ClientRequest) : Except DecodeError Unit :=
  match request.operation with
  | .execute sql parameters _ => do
    failIf (maxSqlBytes < sql.utf8ByteSize)
      (.limit s!"SQL is {sql.utf8ByteSize} bytes; maximum is {maxSqlBytes}")
    failIf (maxParameters < parameters.length)
      (.limit s!"request has {parameters.length} parameters; maximum is {maxParameters}")
  | _ => .ok ()

def ClientResponse.validate (response : ClientResponse) : Except DecodeError Unit :=
  match response.result with
  | .query query =>
    failIf (maxRowsPerFrame < query.rows.length)
      (.limit s!"response has {query.rows.length} rows; maximum is {maxRowsPerFrame}")
  | _ => .ok ()

section Json

instance : Serialize SessionRequest where
  json request := .object [("client_id", json request.clientId),
    ("sequence", json request.sequence), ("transaction_id", optional request.transactionId)]

instance : Serialize ReadConsistency where
  json
    | .linearizable => .string "Linearizable"
    | .stale => .string "Stale"

instance : Serialize ClientOperation where
  json
    | .execute sql parameters consistency => .object [("Execute", .object [("sql", json sql),
        ("parameters", json parameters), ("consistency", json consistency)])]
    | .begin => .string "Begin"
    | .commit => .string "Commit"
    | .rollback => .string "Rollback"
    | .status => .string "Status"
    | .ping => .string "Ping"

instance : Serialize ClientRequest where
  json request := .object [("request_id", json request.requestId),
    ("session", optional request.session), ("operation", json request.operation)]

instance : Serialize QueryResult where
  json result := .object [("columns", json result.columns), ("rows", json result.rows),
    ("affected_rows", json result.affectedRows), ("applied_index", json result.appliedIndex),
    ("has_more", json result.hasMore)]

instance : Serialize NodeStatus where
  json status := .object [("node_id", json status.nodeId), ("role", json status.role),
    ("term", json status.term), ("leader_id", optional status.leaderId),
    ("commit_index", json status.commitIndex), ("applied_index", json status.appliedIndex),
    ("last_log_index", json status.lastLogIndex), ("snapshot_index", json status.snapshotIndex),
    ("database_pages", json status.databasePages), ("wal_durable_lsn", json status.walDurableLsn),
    ("active_transactions", json status.activeTransactions)]

instance : Serialize ErrorCode where
  json
    | .invalidRequest => .string "InvalidRequest"
    | .unsupported => .string "Unsupported"
    | .constraint => .string "Constraint"
    | .conflict => .string "Conflict"
    | .notLeader => .string "NotLeader"
    | .timeout => .string "Timeout"
    | .resourceExhausted => .string "ResourceExhausted"
    | .corruption => .string "Corruption"
    | .internal => .string "Internal"

instance : Serialize ProtocolError where
  json error := .object [("code", json error.code), ("message", json error.message),
    ("leader_hint", optional error.leaderHint), ("retryable", json error.retryable)]

instance : Serialize ResponseResult where
  json
    | .query result => .object [("Query", json result)]
    | .transaction transactionId readTs => .object [("Transaction",
        .object [("transaction_id", json transactionId), ("read_ts", json readTs)])]
    | .committed commitIndex =>
      .object [("Committed", .object [("commit_index", json commitIndex)])]
    | .rolledBack => .string "RolledBack"
    | .status status => .object [("Status", json status)]
    | .pong => .string "Pong"
    | .error error => .object [("Error", json error)]

instance : Serialize ClientResponse where
  json response :=
    .object [("request_id", json response.requestId), ("result", json response.result)]

instance : Serialize PeerEnvelope where
  json envelope := .object [("from", json envelope.sender), ("to", json envelope.receiver),
    ("term", json envelope.term), ("correlation_id", json envelope.correlationId),
    ("payload", json envelope.payload)]

end Json

end AsterProtocol
