import AsterDB.Core.Interleaving
import AsterDB.Models.Database.Native.Database
import AsterDB.Models.Protocol.Native.Message

/-!
# Requests to one database

How a server carries out the requests of its clients. Each request is handled in steps, and
the steps of several requests come in any order: a call of a database's method is one step,
and so is each use of the map that says which client a transaction belongs to. How an error
is put into the protocol's form is left out.
-/

namespace AsterServer

open AsterRaft (NodeId Sha256)
open AsterEngine (ClientId Value)
open AsterSql (Unicode)
open AsterDatabase AsterProtocol
open Std
open Fallible

/-- The client that each transaction belongs to. -/
abbrev Owners := ExtTreeMap Nat ClientId

/-- What the files say about themselves. -/
structure StorageStatus where
  appliedIndex : Nat
  databasePages : Nat
  walBytes : Nat

structure DatabaseStatus where
  appliedIndex : Nat
  activeTransactions : Nat
  databasePages : Nat
  walBytes : Nat

def databaseStatus (storage : Except DatabaseError StorageStatus) (database : Database) :
    Except DatabaseError DatabaseStatus := do
  let storage ← storage
  failIf (database.engine.lastApplied ≠ storage.appliedIndex)
    (.invariant "shared engine and durable pager have different applied indices")
  return { appliedIndex := database.engine.lastApplied
           activeTransactions := database.active.size
           databasePages := storage.databasePages
           walBytes := storage.walBytes }

/-- The steps that the handling of a request has yet to take. -/
inductive Handling where
  | respond (result : Except DatabaseError ResponseResult)
  | status (next : Except DatabaseError DatabaseStatus → Handling)
  | begin (next : Except DatabaseError TransactionInfo → Handling)
  | commit (clientId : ClientId) (sequence transactionId : Nat)
      (next : Except DatabaseError CommitInfo → Handling)
  | rollback (transactionId : Nat) (next : Except DatabaseError Unit → Handling)
  | execute (clientId : ClientId) (sequence : Nat) (transactionId : Option Nat)
    (sql : String)
      (parameters : List Value) (next : Except DatabaseError ExecutionResult → Handling)
  | getOwner (transactionId : Nat) (next : Option ClientId → Handling)
  | insertOwner (transactionId : Nat) (clientId : ClientId) (next : Handling)
  | removeOwner (transactionId : Nat) (next : Handling)

section Dispatch

/-- Go on with a value, or respond with the error. -/
def orRespond {α : Type} (result : Except DatabaseError α) (next : α → Handling) : Handling :=
  match result with
  | .error error => .respond (.error error)
  | .ok value => next value

def requireSession (session : Option SessionRequest) : Except DatabaseError SessionRequest := do
  let session ← orFail session
    (.transactionControl "SQL and transaction operations require a client session")
  failIf (session.sequence = 0) (.transactionControl "session sequence numbers start at one")
  return session

def requireTransaction (session : SessionRequest) : Except DatabaseError Nat :=
  orFail session.transactionId (.transactionControl "operation requires a transaction id")

/-- A transaction that belongs to no client passes. -/
def verifyOwner (transactionId : Nat) (clientId : ClientId) (next : Handling) : Handling :=
  .getOwner transactionId fun owner =>
    match owner with
    | some owner =>
      if owner ≠ clientId then
        .respond (.error (.transactionControl "transaction belongs to a different client"))
      else next
    | none => next

def mapExecution (execution : ExecutionResult) (clientId : ClientId)
    (activeTransaction : Option Nat) : Handling :=
  match execution with
  | .query query => .respond (.ok (.query {
      columns := query.columns
      rows := query.rows.map fun row => row.values
      affectedRows := query.affectedRows
      appliedIndex := query.appliedIndex
      hasMore := false }))
  | .transaction transaction =>
    .insertOwner transaction.transactionId clientId
      (.respond (.ok (.transaction transaction.transactionId transaction.readTs)))
  | .committed commit =>
    let response := Handling.respond (.ok (.committed commit.commitIndex))
    match activeTransaction with
    | some transactionId => .removeOwner transactionId response
    | none => response
  | .rolledBack =>
    let response := Handling.respond (.ok .rolledBack)
    match activeTransaction with
    | some transactionId => .removeOwner transactionId response
    | none => response
  | .explain plan appliedIndex => .respond (.ok (.query {
      columns := ["plan"]
      rows := [[.text plan]]
      affectedRows := 0
      appliedIndex
      hasMore := false }))

/-- A commit after which the transaction has no owner any more. -/
def commitEnds : Except DatabaseError CommitInfo → Bool
  | .ok _ | .error (.transactionAborted _) | .error (.transactionNotFound _) => true
  | .error _ => false

/-- A rollback after which the transaction has no owner any more. -/
def rollbackEnds : Except DatabaseError Unit → Bool
  | .ok _ | .error (.transactionNotFound _) => true
  | .error _ => false

def dispatchDatabase (nodeId : NodeId) (request : ClientRequest) : Handling :=
  match request.operation with
  | .ping => .respond (.ok .pong)
  | .status => .status fun status => .respond (status.map fun status => .status {
      nodeId
      role := "standalone"
      term := 1
      leaderId := some nodeId
      commitIndex := status.appliedIndex
      appliedIndex := status.appliedIndex
      lastLogIndex := status.appliedIndex
      snapshotIndex := 0
      databasePages := status.databasePages
      walDurableLsn := status.walBytes
      activeTransactions := status.activeTransactions })
  | .begin => orRespond (requireSession request.session) fun session =>
    if session.transactionId.isSome then
      .respond (.error (.transactionControl "BEGIN session already names a transaction"))
    else
      .begin fun begun => orRespond begun fun info =>
        .insertOwner info.transactionId session.clientId
          (.respond (.ok (.transaction info.transactionId info.readTs)))
  | .commit => orRespond (requireSession request.session) fun session =>
    orRespond (requireTransaction session) fun transactionId =>
      verifyOwner transactionId session.clientId <|
        .commit session.clientId session.sequence transactionId fun committed =>
          let response := Handling.respond (committed.map fun info => .committed info.commitIndex)
          if commitEnds committed then .removeOwner transactionId response else response
  | .rollback => orRespond (requireSession request.session) fun session =>
    orRespond (requireTransaction session) fun transactionId =>
      verifyOwner transactionId session.clientId <|
        .rollback transactionId fun rolledBack =>
          let response := Handling.respond (rolledBack.map fun _ => .rolledBack)
          if rollbackEnds rolledBack then .removeOwner transactionId response else response
  | .execute sql parameters _ => orRespond (requireSession request.session) fun session =>
    let run :=
      Handling.execute session.clientId session.sequence session.transactionId sql parameters
      fun execution => orRespond execution fun execution =>
        mapExecution execution session.clientId session.transactionId
    match session.transactionId with
    | some transactionId => verifyOwner transactionId session.clientId run
    | none => run

end Dispatch

/-- What all requests share. The transactions that clients began are noted here in order; the code
keeps no such list. -/
structure Server where
  database : Database
  owners : Owners
  begun : List (Nat × ClientId)

/-- What storage answers in one step. -/
structure Storage where
  fault : Option StorageFault
  status : Except DatabaseError StorageStatus

/-- A request and what is left of its handling. -/
structure Task where
  request : ClientRequest
  handling : Handling

namespace Handling

variable [Sha256] [Unicode]

/-- One step: what is left, the database and the owners after it. -/
def step (storage : Storage) (database : Database) (owners : Owners) :
    Handling → Handling × Database × Owners
  | .respond result => (.respond result, database, owners)
  | .status next => (next (databaseStatus storage.status database), database, owners)
  | .begin next =>
    let (result, database) := database.begin
    (next result, database, owners)
  | .commit clientId sequence transactionId next =>
    let (result, database) := Database.commit storage.fault clientId sequence transactionId database
    (next result, database, owners)
  | .rollback transactionId next =>
    let (result, database) := Database.rollback transactionId database
    (next result, database, owners)
  | .execute clientId sequence transactionId sql parameters next =>
    let (result, database) :=
      Database.execute storage.fault clientId sequence transactionId sql parameters database
    (next result, database, owners)
  | .getOwner transactionId next => (next owners[transactionId]?, database, owners)
  | .insertOwner transactionId clientId next =>
    (next, database, owners.insert transactionId clientId)
  | .removeOwner transactionId next => (next, database, owners.erase transactionId)

/-- The transaction that a step begins. -/
def begins (storage : Storage) (database : Database) : Handling → Option Nat
  | .begin _ =>
    match (Database.begin database).1 with
    | .ok info => some info.transactionId
    | .error _ => none
  | .execute clientId sequence transactionId sql parameters _ =>
    match (Database.execute storage.fault clientId sequence transactionId sql parameters
      database).1 with
    | .ok (.transaction info) => some info.transactionId
    | _ => none
  | _ => none

/-- The transaction that the next step executes a statement in, commits or rolls back. -/
def touches : Handling → Option Nat
  | .commit _ _ transactionId _ | .rollback transactionId _ => some transactionId
  | .execute _ _ transactionId _ _ _ => transactionId
  | _ => none

end Handling

namespace Task

variable [Sha256] [Unicode]

def start (nodeId : NodeId) (request : ClientRequest) : Task :=
  { request, handling := dispatchDatabase nodeId request }

/-- The transactions that clients began, after a step of a task. -/
def begun (storage : Storage) (task : Task) (server : Server) : List (Nat × ClientId) :=
  match task.handling.begins storage server.database, task.request.session with
  | some transactionId, some session => (transactionId, session.clientId) :: server.begun
  | _, _ => server.begun

def next (storage : Storage) (task : Task) (server : Server) : Task × Server :=
  let (handling, database, owners) := task.handling.step storage server.database server.owners
  ({ task with handling }, { database, owners, begun := task.begun storage server })

end Task

/-- A server on an opened database. -/
def serve (database : Database) : Interleaving.System Server Task where
  shared := { database, owners := ∅, begun := [] }
  tasks := []

end AsterServer
