import AsterDB.Core.Json
import AsterDB.Models.Raft.Native.Types

/-!
# JSON of the consensus core

The JSON forms of messages between nodes. Field names and their order are those of the
derived serialisers; a set is written as the list of its elements.
-/

namespace AsterRaft

open Std
open Serde

instance : Serialize (ExtTreeSet NodeId) where
  json voters := json voters.toList
  json_injective _ _ h := ExtTreeSet.toList_inj.mp (json_inj.mp h)
  json_ne_null a := Serialize.json_ne_null a.toList

instance : Serialize Configuration where
  json configuration := .object [("participants", json configuration.participants),
    ("incoming", json configuration.incoming), ("outgoing", optional configuration.outgoing)]

instance : Serialize EntryPayload where
  json
    | .noop => .string "Noop"
    | .command id bytes => .object [("Command", .object [("id", json id), ("bytes", json bytes)])]

instance : Serialize LogEntry where
  json entry := .object [("index", json entry.index), ("term", json entry.term),
    ("payload", json entry.payload)]

instance : Serialize SnapshotMetadata where
  json metadata := .object [("last_included_index", json metadata.lastIncludedIndex),
    ("last_included_term", json metadata.lastIncludedTerm), ("byte_len", json metadata.byteLen),
    ("sha256", json metadata.sha256), ("configuration", json metadata.configuration)]

instance : Serialize Message where
  json
    | .preVoteRequest prospectiveTerm candidateId lastLogIndex lastLogTerm =>
      .object [("PreVoteRequest", .object [("prospective_term", json prospectiveTerm),
        ("candidate_id", json candidateId), ("last_log_index", json lastLogIndex),
        ("last_log_term", json lastLogTerm)])]
    | .preVoteResponse responderTerm prospectiveTerm granted =>
      .object [("PreVoteResponse", .object [("responder_term", json responderTerm),
        ("prospective_term", json prospectiveTerm), ("granted", json granted)])]
    | .requestVote term candidateId lastLogIndex lastLogTerm =>
      .object [("RequestVote", .object [("term", json term), ("candidate_id", json candidateId),
        ("last_log_index", json lastLogIndex), ("last_log_term", json lastLogTerm)])]
    | .requestVoteResponse term granted =>
      .object [("RequestVoteResponse", .object [("term", json term), ("granted", json granted)])]
    | .appendEntries term leaderId prevLogIndex prevLogTerm entries leaderCommit readContext =>
      .object [("AppendEntries", .object [("term", json term), ("leader_id", json leaderId),
        ("prev_log_index", json prevLogIndex), ("prev_log_term", json prevLogTerm),
        ("entries", json entries), ("leader_commit", json leaderCommit),
        ("read_context", optional readContext)])]
    | .appendEntriesResponse term success matchIndex conflictIndex conflictTerm readContext =>
      .object [("AppendEntriesResponse", .object [("term", json term), ("success", json success),
        ("match_index", json matchIndex), ("conflict_index", json conflictIndex),
        ("conflict_term", optional conflictTerm), ("read_context", optional readContext)])]
    | .installSnapshot term leaderId metadata offset data done =>
      .object [("InstallSnapshot", .object [("term", json term), ("leader_id", json leaderId),
        ("metadata", json metadata), ("offset", json offset), ("data", json data),
        ("done", json done)])]
    | .installSnapshotResponse term accepted nextOffset done matchIndex =>
      .object [("InstallSnapshotResponse", .object [("term", json term),
        ("accepted", json accepted), ("next_offset", json nextOffset), ("done", json done),
        ("match_index", json matchIndex)])]

end AsterRaft
