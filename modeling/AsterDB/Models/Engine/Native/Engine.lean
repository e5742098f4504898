import AsterDB.Models.Engine.Native.Transaction

/-!
# Engine

The multi-version state machine: version chains for rows and for secondary index
entries, newest first, the last request of each client, and the log index applied
last. Steps that may fail return the new engine with their result, so that a
failed step leaves the engine as it was.
-/

namespace AsterEngine

open AsterRaft (Bytes Digest Sha256)
open Std
open Fallible

def snapshotFormat : Nat := 2

inductive AbortReason where
  | writeConflict (tableId : Nat) (primaryKey : Value) (winningCommit : Nat)
  | schemaChanged (expected actual : Nat)
  | snapshotVacuumed (readTs retainedFloor : Nat)
  | validation (text : String)
  deriving DecidableEq

inductive CommitResult where
  | committed (commitIndex affectedRows schemaEpoch : Nat)
  | aborted (abortIndex : Nat) (reason : AbortReason)
  deriving DecidableEq

inductive RequestRejection where
  | firstSequenceMustBeOne (actual : Nat)
  | sequenceGap (expected actual : Nat)
  | sequenceTooOld (latest actual : Nat)
  | sequenceHashMismatch (sequence : Nat)
  deriving DecidableEq

inductive ApplyOutcome where
  | applied (result : CommitResult)
  | duplicate (result : CommitResult)
  | rejected (rejection : RequestRejection)
  | noop
  deriving DecidableEq

/-- The last request of a client and its result. -/
structure ClientRecord where
  sequence : Nat
  requestHash : Digest
  result : CommitResult
  deriving DecidableEq

structure EngineStats where
  committedTransactions : Nat := 0
  abortedTransactions : Nat := 0
  duplicateRequests : Nat := 0
  rejectedRequests : Nat := 0
  primaryVersions : Nat := 0
  secondaryVersions : Nat := 0
  vacuumedPrimaryVersions : Nat := 0
  vacuumedSecondaryVersions : Nat := 0
  deriving DecidableEq

structure VacuumReport where
  previousFloor : Nat
  retainedFloor : Nat
  primaryVersionsRemoved : Nat
  secondaryVersionsRemoved : Nat
  emptyPrimaryChainsRemoved : Nat
  emptySecondaryChainsRemoved : Nat
  deriving DecidableEq

/-- A row, or its absence, from a commit on. -/
structure RowVersion where
  commitIndex : Nat
  row : Option Row
  deriving DecidableEq

/-- An index, the ordered encoding of a column's value and that of a primary key. -/
structure SecondaryKey where
  indexId : Nat
  secondaryValue : Bytes
  primaryKey : Bytes
  deriving DecidableEq

namespace SecondaryKey

/-- By index, then by value, then by primary key. -/
instance : Ord SecondaryKey :=
  ⟨compareLex (compareOn indexId) (compareLex (compareOn secondaryValue) (compareOn primaryKey))⟩

instance : TransOrd SecondaryKey :=
  inferInstanceAs (TransCmp (compareLex (compareOn indexId)
    (compareLex (compareOn secondaryValue) (compareOn primaryKey))))

theorem compare_eq (a b : SecondaryKey) :
    compare a b = (compare a.indexId b.indexId).then
      ((compare a.secondaryValue b.secondaryValue).then (compare a.primaryKey b.primaryKey)) := rfl

instance : LawfulEqOrd SecondaryKey where
  eq_of_compare := by
    intro a b h
    simp only [compare_eq, Ordering.then_eq_eq, LawfulEqCmp.compare_eq_iff_eq] at h
    cases a
    cases b
    simp_all

end SecondaryKey

structure SecondaryVersion where
  commitIndex : Nat
  present : Bool
  deriving DecidableEq

instance transOrd_clientId : TransOrd ClientId := inferInstance

instance lawfulEqOrd_clientId : LawfulEqOrd ClientId := inferInstance

structure Engine where
  catalog : Catalog
  primary : ExtTreeMap LogicalKey (List RowVersion)
  secondary : ExtTreeMap SecondaryKey (List SecondaryVersion)
  clients : ExtTreeMap ClientId ClientRecord
  lastApplied : Nat
  lastApplyHash : Option Digest
  lastApplyOutcome : Option ApplyOutcome
  retainedFloor : Nat
  nextTxnId : Nat
  stats : EngineStats
  deriving DecidableEq

/-- The first version that is not newer than the reader. -/
def visibleRow (versions : List RowVersion) (readTs : Nat) : Option Row :=
  (versions.find? fun version => version.commitIndex ≤ readTs).bind RowVersion.row

def visibleSecondary (versions : List SecondaryVersion) (readTs : Nat) : Bool :=
  (versions.find? fun version => version.commitIndex ≤ readTs).any SecondaryVersion.present

def totalVersions {κ ν : Type} [Ord κ] [TransOrd κ] (map : ExtTreeMap κ (List ν)) : Nat :=
  (map.toList.map fun entry => entry.2.length).sum

def vacuumRows (versions : List RowVersion) (floor : Nat) : List RowVersion :=
  let retained := versions.takeWhile fun version => floor < version.commitIndex
  match (versions.find? fun version => version.commitIndex ≤ floor).filter (·.row.isSome) with
  | some baseline => retained ++ [baseline]
  | none => retained

def vacuumSecondary (versions : List SecondaryVersion) (floor : Nat) : List SecondaryVersion :=
  let retained := versions.takeWhile fun version => floor < version.commitIndex
  match (versions.find? fun version => version.commitIndex ≤ floor).filter (·.present) with
  | some baseline => retained ++ [baseline]
  | none => retained

/-- Vacuum every chain, and drop the chains left empty. -/
def vacuumChains {κ ν : Type} [Ord κ] [TransOrd κ] (vacuum : List ν → Nat → List ν) (floor : Nat)
    (map : ExtTreeMap κ (List ν)) : ExtTreeMap κ (List ν) :=
  (map.map fun _ versions => vacuum versions floor).filter fun _ versions => !versions.isEmpty

def displayValue : Value → String
  | .null => "NULL"
  | .int64 value => toString value
  | .bool value => toString value
  | .text value => s!"'{value}'"
  | .bytes value => s!"<{value.length} bytes>"

/-- What becomes of a request at the client table. -/
inductive Admission where
  | new
  | duplicate (result : CommitResult)
  | rejected (rejection : RequestRejection)
  deriving DecidableEq

/-- The first free id from `id` on; `fuel` bounds the ids taken. -/
def freeId (taken : Nat → Bool) : Nat → Nat → Option Nat
  | fuel, id =>
    if taken id then
      match fuel with
      | 0 => none
      | fuel + 1 => (checkedAdd id 1).bind (freeId taken fuel)
    else some id

namespace Engine

/-- An engine before any apply. -/
def new : Engine :=
  { catalog := .empty, primary := ∅, secondary := ∅, clients := ∅, lastApplied := 0
    lastApplyHash := none, lastApplyOutcome := none, retainedFloor := 0, nextTxnId := 1
    stats := {} }

/-- A transaction at a snapshot that is still retained. -/
def beginAt (e : Engine) (readTs schemaEpoch : Nat) :
    Result (Engine × Transaction) := do
  failIf (readTs < e.retainedFloor) (.snapshotTooOld readTs e.retainedFloor)
  failIf (e.lastApplied < readTs)
    (.core (.constraint s!"snapshot {readTs} is ahead of applied index {e.lastApplied}"))
  failIf (e.catalog.schemaEpoch < schemaEpoch)
    (.core (.constraint
      s!"schema epoch {schemaEpoch} is ahead of current epoch {e.catalog.schemaEpoch}"))
  let next ← orFail (checkedAdd e.nextTxnId 1) (.core (.invariant "transaction id overflow"))
  return ({ e with nextTxnId := next }, .new e.nextTxnId readTs schemaEpoch)

/-- A transaction at the current snapshot. -/
def begin (e : Engine) : Result (Engine × Transaction) :=
  e.beginAt e.lastApplied e.catalog.schemaEpoch

/-- A transaction at the current snapshot that takes no transaction id. -/
def prepareTransaction (e : Engine) : Result Transaction := do
  failIf (e.lastApplied < e.retainedFloor) (.snapshotTooOld e.lastApplied e.retainedFloor)
  return .new 0 e.lastApplied e.catalog.schemaEpoch

section Reads

variable (e : Engine) (transaction : Transaction)

def ensureTransactionSnapshot : Result Unit := do
  failIf (transaction.readTs < e.retainedFloor)
    (.snapshotTooOld transaction.readTs e.retainedFloor)
  failIf (e.lastApplied < transaction.readTs)
    (.core (.invariant "transaction reads a future snapshot"))

def tableForTransaction (tableId : Nat) : Result TableMeta :=
  orFail (transaction.stagedTable tableId <|> e.catalog.table tableId) (.unknownTable tableId)

def validatePrimaryKey (tableId : Nat) (primaryKey : Value) : Result Unit := do
  let table ← e.tableForTransaction transaction tableId
  let column := table.primaryColumn
  failIf (primaryKey.isNull = true ∨ primaryKey.dataType ≠ some column.dataType)
    (.core (.type
      (s!"primary key for `{table.name}` expects {column.dataType.display}, " ++
        s!"got {primaryKey.typeName}")))
  let _ ← liftCore (Codec.encodeValue primaryKey)

def validateRow (tableId : Nat) (row : Row) : Result Value := do
  e.ensureTransactionSnapshot transaction
  let table ← e.tableForTransaction transaction tableId
  liftCore (table.schema.validateRow row)
  let primaryKey := row.values.getD table.primaryKeyColumn .null
  e.validatePrimaryKey transaction tableId primaryKey
  return primaryKey

/-- A staged write hides the row below it. -/
def readKey (key : LogicalKey) : Option Row :=
  match transaction.overlay key with
  | some (.put row) => some row
  | some .delete => none
  | none => e.primary[key]?.bind fun versions => visibleRow versions transaction.readTs

def get (tableId : Nat) (primaryKey : Value) : Result (Option Row) := do
  e.ensureTransactionSnapshot transaction
  e.validatePrimaryKey transaction tableId primaryKey
  let key ← liftCore (LogicalKey.new tableId primaryKey)
  return e.readKey transaction key

/-- Keys of a table that a transaction may read. -/
def stagedKeys (tableId : Nat) : List LogicalKey :=
  transaction.writes.keys.filter fun key => key.tableId == tableId

/-- The rows under a set of keys, in key order. -/
def readKeys (keys : List LogicalKey) : List Row :=
  (ExtTreeSet.ofList keys).toList.filterMap (e.readKey transaction)

def scanTable (tableId : Nat) : Result (List Row) := do
  e.ensureTransactionSnapshot transaction
  let _ ← e.tableForTransaction transaction tableId
  let keys := e.primary.keys.filter fun key => key.tableId == tableId
  return e.readKeys transaction (keys ++ stagedKeys transaction tableId)

/-- Primary keys an index holds under a value at a snapshot. -/
def indexedKeys (index : IndexMeta) (indexId : Nat) (encodedValue : Bytes) (readTs : Nat) :
    List LogicalKey :=
  e.secondary.toList.filterMap fun entry =>
    if entry.1.indexId = indexId ∧ entry.1.secondaryValue = encodedValue ∧
        visibleSecondary entry.2 readTs then
      some { tableId := index.tableId, primaryKey := entry.1.primaryKey }
    else none

def scanSecondary (indexId : Nat) (value : Value) : Result (List Row) := do
  e.ensureTransactionSnapshot transaction
  let index ← orFail (e.catalog.index indexId <|> transaction.stagedIndex indexId)
    (.unknownIndex indexId)
  if value.isNull then
    return []
  else
    let _ ← liftCore (Codec.encodeValue value)
    let keys := e.indexedKeys index indexId (Codec.encodeOrdered value) transaction.readTs
    let rows := e.readKeys transaction (keys ++ stagedKeys transaction index.tableId)
    return rows.filter fun row => row.values[index.column]? == some value

end Reads

section Staging

variable (e : Engine) (transaction : Transaction)

def createTable (name : String) (schema : Schema) : Result (Transaction × Nat) := do
  e.ensureTransactionSnapshot transaction
  let id ← orFail
    (freeId (fun id => (transaction.stagedTable id).isSome) transaction.catalogMutations.length
      e.catalog.nextTableId)
    (.core (.invariant "table id overflow"))
  let table ← TableMeta.new id name schema
  let staged := transaction.catalogMutations.any fun
    | .createTable existing => eqIgnoreAsciiCase existing.name table.name
    | .createIndex _ => false
  failIf ((e.catalog.tableNamed table.name).isSome = true ∨ staged = true)
    (.core (.constraint s!"table `{table.name}` already exists"))
  return (transaction.stageCatalog (.createTable table), id)

def createIndex (name : String) (tableId column : Nat) :
    Result (Transaction × Nat) := do
  e.ensureTransactionSnapshot transaction
  let table ← e.tableForTransaction transaction tableId
  let id ← orFail
    (freeId (fun id => (transaction.stagedIndex id).isSome) transaction.catalogMutations.length
      e.catalog.nextIndexId)
    (.core (.invariant "index id overflow"))
  let index ← IndexMeta.new id name table column
  let staged := transaction.catalogMutations.any fun
    | .createTable _ => false
    | .createIndex existing => eqIgnoreAsciiCase existing.name index.name
  failIf ((e.catalog.indexNamed index.name).isSome = true ∨ staged = true)
    (.core (.constraint s!"index `{index.name}` already exists"))
  return (transaction.stageCatalog (.createIndex index), id)

def insert (tableId : Nat) (row : Row) : Result Transaction := do
  let primaryKey ← e.validateRow transaction tableId row
  let existing ← e.get transaction tableId primaryKey
  failIf (existing.isSome = true)
    (.core (.constraint s!"duplicate primary key {displayValue primaryKey}"))
  liftCore (transaction.stageWrite { tableId, primaryKey, mutation := .put row })

/-- Replace a row; `false` where there is none. -/
def update (tableId : Nat) (primaryKey : Value) (row : Row) :
    Result (Transaction × Bool) := do
  let existing ← e.get transaction tableId primaryKey
  if existing.isNone then
    return (transaction, false)
  else
    let rowKey ← e.validateRow transaction tableId row
    failIf (rowKey ≠ primaryKey)
      (.core (.constraint "UPDATE cannot change the primary-key column"))
    let staged ← liftCore (transaction.stageWrite { tableId, primaryKey, mutation := .put row })
    return (staged, true)

/-- Remove a row; `false` where there is none. -/
def delete (tableId : Nat) (primaryKey : Value) : Result (Transaction × Bool) := do
  let existing ← e.get transaction tableId primaryKey
  if existing.isNone then
    return (transaction, false)
  else
    let staged ← liftCore (transaction.stageWrite { tableId, primaryKey, mutation := .delete })
    return (staged, true)

end Staging

/-- Requests of a client come in sequence; the last one may be repeated. -/
def admitRequest (e : Engine) (request : ClientRequestId) (hash : Digest) : Admission :=
  match e.clients[request.clientId]? with
  | none =>
    if request.sequence = 1 then .new
    else .rejected (.firstSequenceMustBeOne request.sequence)
  | some record =>
    match compare request.sequence record.sequence with
    | .lt => .rejected (.sequenceTooOld record.sequence request.sequence)
    | .eq =>
      if hash = record.requestHash then .duplicate record.result
      else .rejected (.sequenceHashMismatch request.sequence)
    | .gt =>
      if request.sequence = saturatingAdd record.sequence 1 then .new
      else .rejected (.sequenceGap (saturatingAdd record.sequence 1) request.sequence)

/-- The commit of the newest version of a key. -/
def newestCommit (e : Engine) (key : LogicalKey) : Option Nat :=
  (e.primary[key]?.bind List.head?).map RowVersion.commitIndex

/-- A row that is put fits its table and stands under its own key. -/
def validatePut (table : TableMeta) (write : TxnWrite) : Except AbortReason Unit :=
  match write.mutation with
  | .put row => do
    (table.schema.validateRow row).mapError fun error => .validation error.display
    failIf (row.values.getD table.primaryKeyColumn .null ≠ write.primaryKey)
      (.validation s!"row primary key differs from write key in table `{table.name}`")
  | .delete => .ok ()

/-- One write of an attempt is well formed and no later commit wrote its key. -/
def validateWrite (e : Engine) (attempt : TxnAttempt) (nextCatalog : Catalog) (write : TxnWrite) :
    Except AbortReason Unit := do
  let table ← orFail (nextCatalog.table write.tableId)
    (.validation s!"unknown table {write.tableId}")
  failIf (write.primaryKey.isNull = true ∨
      write.primaryKey.dataType ≠ some table.primaryColumn.dataType)
    (.validation s!"invalid primary key for table `{table.name}`")
  validatePut table write
  let key ← write.logicalKey.mapError fun error => .validation error.display
  match (e.newestCommit key).filter fun commit => attempt.readTs < commit with
  | some winningCommit => .error (.writeConflict write.tableId write.primaryKey winningCommit)
  | none => .ok ()

/-- First committer wins: whether an attempt may still commit, and the catalog it leaves. -/
def validateAttemptForApply (e : Engine) (attempt : TxnAttempt) :
    Except AbortReason (Catalog × List IndexMeta) := do
  failIf (attempt.readTs < e.retainedFloor) (.snapshotVacuumed attempt.readTs e.retainedFloor)
  failIf (e.lastApplied < attempt.readTs)
    (.validation s!"read timestamp {attempt.readTs} is ahead of applied index {e.lastApplied}")
  failIf (attempt.schemaEpoch ≠ e.catalog.schemaEpoch)
    (.schemaChanged attempt.schemaEpoch e.catalog.schemaEpoch)
  attempt.validateCanonical.mapError fun error => .validation error.display
  let (nextCatalog, newIndexIds) ←
    (e.catalog.applyMutations attempt.catalogMutations).mapError fun error =>
      .validation error.display
  let newIndexes ← newIndexIds.mapM fun indexId =>
    orFail (nextCatalog.index indexId)
      (.validation s!"catalog mutation returned missing index {indexId}")
  attempt.writes.forM (e.validateWrite attempt nextCatalog)
  return (nextCatalog, newIndexes)

def pushSecondary (e : Engine) (indexId : Nat) (value : Value) (primaryKey : LogicalKey)
    (commitIndex : Nat) (present : Bool) : Engine :=
  { e with
    secondary := e.secondary.alter
      { indexId, secondaryValue := Codec.encodeOrdered value, primaryKey := primaryKey.primaryKey }
      fun versions => some ({ commitIndex, present } :: versions.getD []) }

/-- The value of a column, where it is not NULL. -/
def indexedValue (row : Option Row) (column : Nat) : Option Value :=
  row.bind fun row => row.values[column]?

def updateSecondary (e : Engine) (index : IndexMeta) (primaryKey : LogicalKey)
    (oldRow newRow : Option Row) (commitIndex : Nat) : Engine :=
  let oldValue := indexedValue oldRow index.column
  let newValue := indexedValue newRow index.column
  if oldValue = newValue then e
  else
    let e := match oldValue.filter fun value => !value.isNull with
      | some value => e.pushSecondary index.id value primaryKey commitIndex false
      | none => e
    match newValue.filter fun value => !value.isNull with
    | some value => e.pushSecondary index.id value primaryKey commitIndex true
    | none => e

/-- The rows of a table and the values an index of it has for them. -/
def backfillEntries (e : Engine) (commitIndex : Nat) (index : IndexMeta) :
    List (LogicalKey × Value) :=
  e.primary.toList.filterMap fun entry =>
    if entry.1.tableId = index.tableId then
      (visibleRow entry.2 commitIndex).bind fun row =>
        let value := row.values.getD index.column .null
        if value.isNull then none else some (entry.1, value)
    else none

/-- Entries of a new index for the rows there are. -/
def backfillIndex (e : Engine) (commitIndex : Nat) (index : IndexMeta) : Engine :=
  (e.backfillEntries commitIndex index).foldl
    (fun e entry => e.pushSecondary index.id entry.2 entry.1 commitIndex true) e

def refreshVersionStats (e : Engine) : Engine :=
  { e with stats := { e.stats with
      primaryVersions := totalVersions e.primary
      secondaryVersions := totalVersions e.secondary } }

/-- A new version in front of a row's chain. -/
def pushRow (e : Engine) (key : LogicalKey) (version : RowVersion) : Engine :=
  { e with primary := e.primary.alter key fun versions => some (version :: versions.getD []) }

/-- Carry out one write: the entries of the indexes there were before, then the row. -/
def applyWrite (e : Engine) (previousCatalog : Catalog) (index : Nat)
    (write : KeyedWrite) : Engine :=
  let newRow := write.1.mutation.row
  let e := (previousCatalog.indexesForTable write.1.tableId).foldl
    (fun e secondaryIndex => e.updateSecondary secondaryIndex write.2.1 write.2.2 newRow index) e
  e.pushRow write.2.1 { commitIndex := index, row := newRow }

/-- An attempt that does not commit. -/
def abort (e : Engine) (index : Nat) (reason : AbortReason) : Engine × CommitResult :=
  ({ e with stats := { e.stats with
      abortedTransactions := saturatingAdd e.stats.abortedTransactions 1 } },
    .aborted index reason)

/-- The rows that the writes of an attempt replace. -/
def beforeRows (e : Engine) (attempt : TxnAttempt) :
    Except CoreError (List (LogicalKey × Option Row)) :=
  attempt.writes.mapM fun write => do
    let key ← write.logicalKey
    return (key, e.primary[key]?.bind fun versions => visibleRow versions e.lastApplied)

/-- Publish the new catalog and carry out the writes of an attempt. -/
def applyWrites (e : Engine) (index : Nat) (nextCatalog : Catalog)
    (writes : List KeyedWrite) : Engine :=
  writes.foldl (fun next write => next.applyWrite e.catalog index write)
    { e with catalog := nextCatalog }

def backfillIndexes (e : Engine) (index : Nat) (newIndexes : List IndexMeta) : Engine :=
  newIndexes.foldl (fun e newIndex => e.backfillIndex index newIndex) e

def countCommit (e : Engine) : Engine :=
  refreshVersionStats { e with stats := { e.stats with
    committedTransactions := saturatingAdd e.stats.committedTransactions 1 } }

def evaluateAndApply (e : Engine) (index : Nat) (attempt : TxnAttempt) : Engine × CommitResult :=
  match e.validateAttemptForApply attempt with
  | .error reason => e.abort index reason
  | .ok (nextCatalog, newIndexes) =>
    match e.beforeRows attempt with
    | .error error => e.abort index (.validation error.display)
    | .ok beforeRows =>
      let written := e.applyWrites index nextCatalog (attempt.writes.zip beforeRows)
      let done := (written.backfillIndexes index newIndexes).countCommit
      (done, .committed index attempt.writes.length done.catalog.schemaEpoch)

/-- An apply at the index applied last is a replay; otherwise the next index is due. -/
def nextIndex (e : Engine) (index : Nat) : Result Unit := do
  let expected ← orFail (checkedAdd e.lastApplied 1) (.core (.invariant "applied index overflow"))
  failIf (index ≠ expected) (.applyGap expected index)

/-- Admit a request and carry it out. -/
def applyAdmitted (e : Engine) (index : Nat) (requestHash : Digest) (attempt : TxnAttempt) :
    Engine × ApplyOutcome :=
  match e.admitRequest attempt.request requestHash with
  | .new =>
    let evaluated := e.evaluateAndApply index attempt
    let record :=
      { sequence := attempt.request.sequence, requestHash, result := evaluated.2 : ClientRecord }
    ({ evaluated.1 with
        clients := evaluated.1.clients.insert attempt.request.clientId record },
      .applied evaluated.2)
  | .duplicate result =>
    ({ e with stats := { e.stats with
        duplicateRequests := saturatingAdd e.stats.duplicateRequests 1 } },
      .duplicate result)
  | .rejected rejection =>
    ({ e with stats := { e.stats with
        rejectedRequests := saturatingAdd e.stats.rejectedRequests 1 } },
      .rejected rejection)

/-- Take an index. -/
def advance (e : Engine) (index : Nat) (hash : Digest) (outcome : ApplyOutcome) : Engine :=
  { e with lastApplied := index, lastApplyHash := some hash, lastApplyOutcome := some outcome }

/-- Apply a committed entry. `applyHash` stands for the entry at `index`, `requestHash` for the
client's request. -/
def applyWithRequestHash (e : Engine) (index : Nat) (applyHash requestHash : Digest)
    (attempt : TxnAttempt) : Result (Engine × ApplyOutcome) := do
  attempt.validateCanonical
  if index = e.lastApplied then
    failIf (e.lastApplyHash ≠ some applyHash) (.applyHashMismatch index)
    let outcome ← orFail e.lastApplyOutcome (.invalidSnapshot "last apply outcome is missing")
    return (e, outcome)
  else
    e.nextIndex index
    let decided := e.applyAdmitted index requestHash attempt
    return (decided.1.advance index applyHash decided.2, decided.2)

def apply [Sha256] (e : Engine) (index : Nat) (commandHash : Digest) (attempt : TxnAttempt) :
    Result (Engine × ApplyOutcome) := do
  let actual ← attempt.commandHash
  failIf (actual ≠ commandHash) .commandHashMismatch
  e.applyWithRequestHash index commandHash commandHash attempt

/-- A leader's marker takes an index and changes nothing else. -/
def applyNoop (e : Engine) (index : Nat) (entryHash : Digest) :
    Result (Engine × ApplyOutcome) := do
  if index = e.lastApplied then
    failIf (e.lastApplyHash ≠ some entryHash ∨ e.lastApplyOutcome ≠ some .noop)
      (.applyHashMismatch index)
    return (e, .noop)
  else
    e.nextIndex index
    return (e.advance index entryHash .noop, .noop)

def vacuumOffline (e : Engine) (retainFrom : Nat) : Result (Engine × VacuumReport) := do
  failIf (e.lastApplied < retainFrom)
    (.core (.constraint
      s!"vacuum floor {retainFrom} is ahead of applied index {e.lastApplied}"))
  let floor := max retainFrom e.retainedFloor
  let primary := vacuumChains vacuumRows floor e.primary
  let secondary := vacuumChains vacuumSecondary floor e.secondary
  let primaryRemoved := totalVersions e.primary - totalVersions primary
  let secondaryRemoved := totalVersions e.secondary - totalVersions secondary
  let vacuumed := { e with
    primary := primary, secondary := secondary, retainedFloor := floor
    stats := { e.stats with
      vacuumedPrimaryVersions := saturatingAdd e.stats.vacuumedPrimaryVersions primaryRemoved
      vacuumedSecondaryVersions :=
        saturatingAdd e.stats.vacuumedSecondaryVersions secondaryRemoved } }
  return (vacuumed.refreshVersionStats,
    { previousFloor := e.retainedFloor, retainedFloor := floor
      primaryVersionsRemoved := primaryRemoved, secondaryVersionsRemoved := secondaryRemoved
      emptyPrimaryChainsRemoved := e.primary.size - primary.size
      emptySecondaryChainsRemoved := e.secondary.size - secondary.size })

end Engine

end AsterEngine
