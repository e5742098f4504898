import AsterDB.Core.Json
import AsterDB.Models.Engine.Native.Snapshot

/-!
# JSON of the engine's data

The JSON forms of attempts, of which replicated commands are made, and of engine
snapshots. Field names and their order are those of the derived serialisers.
-/

namespace AsterEngine

open Std
open Serde

section Data

instance : Serialize Value where
  json
    | .null => .string "Null"
    | .int64 value => .object [("Int64", json value)]
    | .bool value => .object [("Bool", json value)]
    | .text value => .object [("Text", json value)]
    | .bytes value => .object [("Bytes", json value)]

instance : Serialize DataType where
  json
    | .int64 => .string "Int64"
    | .bool => .string "Bool"
    | .text => .string "Text"
    | .bytes => .string "Bytes"

instance : Serialize Column where
  json column := .object [("name", json column.name), ("data_type", json column.dataType),
    ("nullable", json column.nullable), ("primary_key", json column.primaryKey)]

instance : Serialize Schema where
  json schema := .object [("columns", json schema.columns)]

instance : Serialize Row where
  json row := .object [("values", json row.values)]

instance : Serialize ClientRequestId where
  json request :=
    .object [("client_id", json request.clientId), ("sequence", json request.sequence)]

end Data

section Attempts

instance : Serialize TableMeta where
  json table := .object [("id", json table.id), ("name", json table.name),
    ("schema", json table.schema), ("primary_key_column", json table.primaryKeyColumn)]

instance : Serialize IndexMeta where
  json index := .object [("id", json index.id), ("name", json index.name),
    ("table_id", json index.tableId), ("column", json index.column)]

instance : Serialize CatalogMutation where
  json
    | .createTable table => .object [("CreateTable", json table)]
    | .createIndex index => .object [("CreateIndex", json index)]

instance : Serialize Mutation where
  json
    | .put row => .object [("Put", json row)]
    | .delete => .string "Delete"

instance : Serialize TxnWrite where
  json write := .object [("table_id", json write.tableId), ("primary_key", json write.primaryKey),
    ("mutation", json write.mutation)]

instance : Serialize TxnAttempt where
  json attempt := .object [("request", json attempt.request),
    ("leader_term", json attempt.leaderTerm), ("read_ts", json attempt.readTs),
    ("schema_epoch", json attempt.schemaEpoch), ("writes", json attempt.writes),
    ("catalog_mutations", json attempt.catalogMutations)]

end Attempts

section Outcomes

instance : Serialize AbortReason where
  json
    | .writeConflict tableId primaryKey winningCommit => .object [("WriteConflict",
        .object [("table_id", json tableId), ("primary_key", json primaryKey),
          ("winning_commit", json winningCommit)])]
    | .schemaChanged expected actual => .object [("SchemaChanged",
        .object [("expected", json expected), ("actual", json actual)])]
    | .snapshotVacuumed readTs retainedFloor => .object [("SnapshotVacuumed",
        .object [("read_ts", json readTs), ("retained_floor", json retainedFloor)])]
    | .validation text => .object [("Validation", json text)]

instance : Serialize CommitResult where
  json
    | .committed commitIndex affectedRows schemaEpoch => .object [("Committed",
        .object [("commit_index", json commitIndex), ("affected_rows", json affectedRows),
          ("schema_epoch", json schemaEpoch)])]
    | .aborted abortIndex reason => .object [("Aborted",
        .object [("abort_index", json abortIndex), ("reason", json reason)])]

instance : Serialize RequestRejection where
  json
    | .firstSequenceMustBeOne actual => .object [("FirstSequenceMustBeOne",
        .object [("actual", json actual)])]
    | .sequenceGap expected actual => .object [("SequenceGap",
        .object [("expected", json expected), ("actual", json actual)])]
    | .sequenceTooOld latest actual => .object [("SequenceTooOld",
        .object [("latest", json latest), ("actual", json actual)])]
    | .sequenceHashMismatch sequence => .object [("SequenceHashMismatch",
        .object [("sequence", json sequence)])]

instance : Serialize ApplyOutcome where
  json
    | .applied result => .object [("Applied", json result)]
    | .duplicate result => .object [("Duplicate", json result)]
    | .rejected rejection => .object [("Rejected", json rejection)]
    | .noop => .string "Noop"

end Outcomes

section Snapshots

instance : Serialize ClientRecord where
  json record := .object [("sequence", json record.sequence),
    ("request_hash", json record.requestHash), ("result", json record.result)]

instance : Serialize EngineStats where
  json stats := .object [("committed_transactions", json stats.committedTransactions),
    ("aborted_transactions", json stats.abortedTransactions),
    ("duplicate_requests", json stats.duplicateRequests),
    ("rejected_requests", json stats.rejectedRequests),
    ("primary_versions", json stats.primaryVersions),
    ("secondary_versions", json stats.secondaryVersions),
    ("vacuumed_primary_versions", json stats.vacuumedPrimaryVersions),
    ("vacuumed_secondary_versions", json stats.vacuumedSecondaryVersions)]

instance : Serialize RowVersion where
  json version :=
    .object [("commit_index", json version.commitIndex), ("row", optional version.row)]

instance : Serialize SecondaryKey where
  json key := .object [("index_id", json key.indexId), ("secondary_value", json key.secondaryValue),
    ("primary_key", json key.primaryKey)]

instance : Serialize SecondaryVersion where
  json version := .object [("commit_index", json version.commitIndex),
    ("present", json version.present)]

instance : Serialize PrimarySnapshotEntry where
  json entry := .object [("table_id", json entry.tableId), ("primary_key", json entry.primaryKey),
    ("versions", json entry.versions)]

instance : Serialize SecondarySnapshotEntry where
  json entry := .object [("key", json entry.key), ("versions", json entry.versions)]

instance : Serialize ClientSnapshotEntry where
  json entry := .object [("client_id", json entry.clientId), ("record", json entry.record)]

instance : Serialize Catalog where
  json catalog := .object [("schema_epoch", json catalog.schemaEpoch),
    ("tables", json catalog.tables), ("table_names", json catalog.tableNames),
    ("indexes", json catalog.indexes), ("index_names", json catalog.indexNames)]

instance : Serialize EngineSnapshot where
  json snapshot := .object [("format", json snapshot.format), ("catalog", json snapshot.catalog),
    ("primary", json snapshot.primary), ("secondary", json snapshot.secondary),
    ("clients", json snapshot.clients), ("last_applied", json snapshot.lastApplied),
    ("last_apply_hash", optional snapshot.lastApplyHash),
    ("last_apply_outcome", optional snapshot.lastApplyOutcome),
    ("retained_floor", json snapshot.retainedFloor), ("next_txn_id", json snapshot.nextTxnId),
    ("stats", json snapshot.stats)]

end Snapshots

end AsterEngine
