import AsterDB.Models.Engine.Native.Engine

/-!
# Snapshots and runs

The logical image of an engine, restoring an engine from an image, and the runs of
an engine. A run records the attempts that took an index, with what came of them.
-/

namespace AsterEngine

open AsterRaft (Bytes Digest Sha256)
open Std
open Fallible

structure PrimarySnapshotEntry where
  tableId : Nat
  primaryKey : Bytes
  versions : List RowVersion
  deriving DecidableEq

structure SecondarySnapshotEntry where
  key : SecondaryKey
  versions : List SecondaryVersion
  deriving DecidableEq

structure ClientSnapshotEntry where
  clientId : ClientId
  record : ClientRecord
  deriving DecidableEq

structure EngineSnapshot where
  format : Nat
  catalog : Catalog
  primary : List PrimarySnapshotEntry
  secondary : List SecondarySnapshotEntry
  clients : List ClientSnapshotEntry
  lastApplied : Nat
  lastApplyHash : Option Digest
  lastApplyOutcome : Option ApplyOutcome
  retainedFloor : Nat
  nextTxnId : Nat
  stats : EngineStats
  deriving DecidableEq

/-- A chain is not empty, its commits go down, and they are in range. -/
def validChain {ν : Type} (commitIndex : ν → Nat) (lastApplied : Nat) (versions : List ν) : Bool :=
  !versions.isEmpty &&
    (versions.zip versions.tail).all (fun pair => commitIndex pair.2 < commitIndex pair.1) &&
    versions.all fun version => commitIndex version != 0 && commitIndex version ≤ lastApplied

def validateRowVersions (versions : List RowVersion) (lastApplied : Nat) :
    Result Unit :=
  failIf (validChain RowVersion.commitIndex lastApplied versions = false)
    (.invalidSnapshot "primary version chain is empty, unordered, or out of range")

def validateSecondaryVersions (versions : List SecondaryVersion) (lastApplied : Nat) :
    Result Unit :=
  failIf (validChain SecondaryVersion.commitIndex lastApplied versions = false)
    (.invalidSnapshot "secondary version chain is empty, unordered, or out of range")

namespace Engine

def snapshot (e : Engine) : EngineSnapshot where
  format := snapshotFormat
  catalog := e.catalog
  primary := e.primary.toList.map fun entry =>
    { tableId := entry.1.tableId, primaryKey := entry.1.primaryKey, versions := entry.2 }
  secondary := e.secondary.toList.map fun entry => { key := entry.1, versions := entry.2 }
  clients := e.clients.toList.map fun entry => { clientId := entry.1, record := entry.2 }
  lastApplied := e.lastApplied
  lastApplyHash := e.lastApplyHash
  lastApplyOutcome := e.lastApplyOutcome
  retainedFloor := e.retainedFloor
  nextTxnId := e.nextTxnId
  stats := e.stats

def restorePrimary (lastApplied : Nat) (primary : ExtTreeMap LogicalKey (List RowVersion))
    (entry : PrimarySnapshotEntry) :
    Result (ExtTreeMap LogicalKey (List RowVersion)) := do
  validateRowVersions entry.versions lastApplied
  let key := { tableId := entry.tableId, primaryKey := entry.primaryKey : LogicalKey }
  failIf (key ∈ primary) (.invalidSnapshot "duplicate primary version chain")
  return primary.insert key entry.versions

def restoreSecondary (catalog : Catalog) (lastApplied : Nat)
    (secondary : ExtTreeMap SecondaryKey (List SecondaryVersion)) (entry : SecondarySnapshotEntry) :
    Result (ExtTreeMap SecondaryKey (List SecondaryVersion)) := do
  validateSecondaryVersions entry.versions lastApplied
  failIf ((catalog.index entry.key.indexId).isNone = true)
    (.invalidSnapshot s!"secondary chain references missing index {entry.key.indexId}")
  failIf (entry.key ∈ secondary) (.invalidSnapshot "duplicate secondary version chain")
  return secondary.insert entry.key entry.versions

def restoreClient (clients : ExtTreeMap ClientId ClientRecord)
    (entry : ClientSnapshotEntry) :
    Result (ExtTreeMap ClientId ClientRecord) := do
  failIf (entry.record.sequence = 0) (.invalidSnapshot "client sequence zero cannot be durable")
  failIf (entry.clientId ∈ clients) (.invalidSnapshot "duplicate client record")
  return clients.insert entry.clientId entry.record

def fromSnapshot (snapshot : EngineSnapshot) : Result Engine := do
  failIf (snapshot.format ≠ snapshotFormat)
    (.invalidSnapshot s!"unsupported engine snapshot format {snapshot.format}")
  snapshot.catalog.validate
  failIf (snapshot.lastApplied < snapshot.retainedFloor)
    (.invalidSnapshot "retained floor exceeds last applied index")
  failIf ((snapshot.lastApplied = 0) ≠
      (snapshot.lastApplyHash = none ∧ snapshot.lastApplyOutcome = none))
    (.invalidSnapshot "last apply metadata is inconsistent")
  failIf (0 < snapshot.lastApplied ∧
      (snapshot.lastApplyHash = none ∨ snapshot.lastApplyOutcome = none))
    (.invalidSnapshot "last apply metadata is incomplete")
  let primary ← snapshot.primary.foldlM (restorePrimary snapshot.lastApplied) ∅
  let secondary ← snapshot.secondary.foldlM
    (restoreSecondary snapshot.catalog snapshot.lastApplied) ∅
  let clients ← snapshot.clients.foldlM restoreClient ∅
  return refreshVersionStats
    { catalog := snapshot.catalog, primary, secondary, clients
      lastApplied := snapshot.lastApplied, lastApplyHash := snapshot.lastApplyHash
      lastApplyOutcome := snapshot.lastApplyOutcome, retainedFloor := snapshot.retainedFloor
      nextTxnId := max snapshot.nextTxnId 1, stats := snapshot.stats }

end Engine

/-- An attempt that took an index, and what came of it. -/
structure Entry where
  index : Nat
  requestHash : Digest
  attempt : TxnAttempt
  outcome : ApplyOutcome
  deriving DecidableEq

/-- One step of an engine's run, with the entry it adds to the history. -/
inductive Engine.Step [Sha256] : Engine → List Entry → Engine → Prop
  | begin {e e' : Engine} {transaction : Transaction} (h : e.begin = .ok (e', transaction)) :
    Step e [] e'
  | beginAt {e e' : Engine} {transaction : Transaction} (readTs schemaEpoch : Nat)
    (h : e.beginAt readTs schemaEpoch = .ok (e', transaction)) : Step e [] e'
  | apply {e e' : Engine} {outcome : ApplyOutcome} (index : Nat) (hash : Digest)
    (attempt : TxnAttempt) (hnew : index ≠ e.lastApplied)
    (h : e.apply index hash attempt = .ok (e', outcome)) :
    Step e [{ index, requestHash := hash, attempt, outcome }] e'
  | applyAgain {e e' : Engine} {outcome : ApplyOutcome} (hash : Digest) (attempt : TxnAttempt)
    (h : e.apply e.lastApplied hash attempt = .ok (e', outcome)) : Step e [] e'
  | applyWithRequestHash {e e' : Engine} {outcome : ApplyOutcome} (index : Nat)
    (applyHash requestHash : Digest) (attempt : TxnAttempt) (hnew : index ≠ e.lastApplied)
    (h : e.applyWithRequestHash index applyHash requestHash attempt = .ok (e', outcome)) :
    Step e [{ index, requestHash, attempt, outcome }] e'
  | applyWithRequestHashAgain {e e' : Engine} {outcome : ApplyOutcome}
    (applyHash requestHash : Digest) (attempt : TxnAttempt)
    (h : e.applyWithRequestHash e.lastApplied applyHash requestHash attempt = .ok (e', outcome)) :
    Step e [] e'
  | applyNoop {e e' : Engine} {outcome : ApplyOutcome} (index : Nat) (hash : Digest)
    (h : e.applyNoop index hash = .ok (e', outcome)) : Step e [] e'
  | vacuumOffline {e e' : Engine} {report : VacuumReport} (retainFrom : Nat)
    (h : e.vacuumOffline retainFrom = .ok (e', report)) : Step e [] e'
  | restore {e e' : Engine} (h : Engine.fromSnapshot e.snapshot = .ok e') : Step e [] e'

/-- Runs from one engine to another, with the entries added on the way. -/
inductive Engine.Run [Sha256] : Engine → List Entry → Engine → Prop
  | refl (e : Engine) : Run e [] e
  | step {e e' e'' : Engine} {entries added : List Entry} (hrun : Run e entries e')
    (hstep : Step e' added e'') : Run e (entries ++ added) e''

/-- Engines reached from the start, with their history. -/
def Engine.Reached [Sha256] (e : Engine) (entries : List Entry) : Prop :=
  Engine.Run .new entries e

/-- Apply attempts one after another, each at the next index. -/
def Engine.applyAll (e : Engine) :
    List (Digest × Digest × TxnAttempt) → Result (Engine × List Entry)
  | [] => .ok (e, [])
  | (applyHash, requestHash, attempt) :: rest => do
    let index := e.lastApplied + 1
    let (next, outcome) ← e.applyWithRequestHash index applyHash requestHash attempt
    let (last, entries) ← next.applyAll rest
    return (last, { index, requestHash, attempt, outcome } :: entries)

end AsterEngine
