import AsterDB.Core.JsonSize
import AsterDB.Models.Database.Correctness.Replication
import AsterDB.Models.Runtime.Native.Peer

/-!
# Frames of log entries

Which AppendEntries messages go out. The bytes of a command are written as an array in the
message, and the text of the message as an array in the envelope, so that a byte of a command
takes between six and twelve bytes of a frame.
-/

namespace AsterDatabase

open AsterRaft (Bytes zeroHash)
open AsterEngine (Engine Transaction)
open AsterSql
open Std
open Fallible Serde Json

namespace Database

section Sample

def blobTable : AsterEngine.TableMeta where
  id := 1
  name := "blobs"
  schema := ⟨[{ name := "id", dataType := .int64, nullable := false, primaryKey := true },
    { name := "data", dataType := .bytes, nullable := false, primaryKey := false }]⟩
  primaryKeyColumn := 0

def createBlobs : ReplicatedMutation := sampleCommand 1 1 1 0 [] [.createTable blobTable] 0

def blobWrite (data : Bytes) : AsterEngine.TxnWrite where
  tableId := 1
  primaryKey := .int64 1
  mutation := .put ⟨[.int64 1, .bytes data]⟩

/-- What puts a row with some bytes into the table. -/
def blobCommand (data : Bytes) : ReplicatedMutation := sampleCommand 2 1 2 1 [blobWrite data] [] 1

theorem length_blobCommand (data : Bytes) :
    (toVec (blobCommand data)).length + 2 = (toVec (blobCommand [])).length + arraySize data := by
  have hempty : (json ([] : Bytes)).write.length = 2 := rfl
  have hdata : (json data).write.length = arraySize data := length_toVec_bytes data
  simp only [toVec, json, blobCommand, blobWrite, sampleCommand, write, writeFields, writeItems,
    List.map_cons, List.map_nil, List.length_append, List.length_cons] at hdata hempty ⊢
  omega

attribute [local instance] zeroHash asciiText

def insertBlobText : String := "INSERT INTO blobs VALUES (1, ?)"

def insertBlobStatement : Spanned Statement where
  value := .insert {
    table := ⟨"blobs", false, ⟨12, 17⟩⟩
    columns := none
    values := [.literal (.int64 1) ⟨26, 27⟩, .parameter 0 ⟨29, 30⟩] }
  span := ⟨0, 31⟩

/-- A database that took the marker of a leader. -/
def markedDatabase : Database := (applyRaftNoop none 1 1 (sampleReplica [])).2

/-- The database on which the table was then created. -/
def blobDatabase : Database :=
  (applyCommand none 2 (Vector.replicate 32 0) createBlobs markedDatabase).2

/-- What the transactions on that database find. -/
theorem blobDatabase_sample :
    markedDatabase.engine.lastApplied = 1 ∧ blobDatabase.engine.lastApplied = 2 ∧
    blobDatabase.engine.retainedFloor = 0 ∧ blobDatabase.engine.catalog.schemaEpoch = 1 ∧
    blobTable.schema.validate = .ok 0 ∧
    blobDatabase.engine.ensureTransactionSnapshot (.new 0 2 1) = .ok () ∧
    blobDatabase.engine.tableForTransaction (.new 0 2 1) 1 = .ok blobTable ∧
    blobDatabase.engine.validatePrimaryKey (.new 0 2 1) 1 (.int64 1) = .ok () ∧
    blobDatabase.engine.get (.new 0 2 1) 1 (.int64 1) = .ok none ∧
    replayRecord blobDatabase.requests (Vector.replicate 16 2) 1 (Vector.replicate 32 0) =
      .ok none ∧
    parseStatement insertBlobText = .ok insertBlobStatement ∧
    AsterSql.bind insertBlobStatement
      (EngineCatalog.new blobDatabase.engine (some (.new 0 2 1))).catalog =
        .ok { statement := .insert ⟨1, "blobs", blobTable.schema⟩
                [.literal (.int64 1) ⟨26, 27⟩, .parameter 0 (some .bytes) ⟨29, 30⟩]
              parameters := [⟨0, some .bytes, false⟩] } ∧
    createBlobs.format = replicatedMutationFormat ∧
    (toVec createBlobs).length ≤ maxReplicatedCommandBytes := by
  decide +kernel

theorem insert_blob (data : Bytes) : ∃ staged,
    blobDatabase.engine.insert (.new 0 2 1) 1 ⟨[.int64 1, .bytes data]⟩ = .ok staged ∧
      staged.intoAttempt ⟨Vector.replicate 16 2, 1⟩ 1 = (blobCommand data).attempt := by
  obtain ⟨-, -, -, -, hschema, hsnapshot, htable, hkey, hget, -⟩ := blobDatabase_sample
  have hrow : blobTable.schema.validateRow ⟨[.int64 1, .bytes data]⟩ = .ok () := by
    simp only [AsterEngine.Schema.validateRow, hschema]
    rfl
  have hvalid : blobDatabase.engine.validateRow (.new 0 2 1) 1 ⟨[.int64 1, .bytes data]⟩ =
      .ok (.int64 1) := by
    simp only [Engine.validateRow, bind_eq_ok, AsterEngine.liftCore_eq_ok, pure_eq_ok]
    exact ⟨(), hsnapshot, blobTable, htable, (), hrow, (), hkey, rfl⟩
  have hlogical : (blobWrite data).logicalKey =
    .ok ⟨1, AsterEngine.Codec.encodeOrdered (.int64 1)⟩ := rfl
  refine ⟨(Transaction.new 0 2 1).insertWrite _ _ hlogical, ?_, rfl⟩
  simp only [Engine.insert, bind_eq_ok, failIf_eq_ok, AsterEngine.liftCore_eq_ok]
  refine ⟨_, hvalid, none, hget, (), by simp, ?_⟩
  unfold Transaction.stageWrite
  split
  next key hkey =>
    cases hlogical.symm.trans hkey
    rfl
  next error herror => cases hlogical.symm.trans herror

theorem sqlFingerprint_insertBlob {data : Bytes} (hdata : data.length ≤ AsterEngine.maxValueBytes) :
    sqlFingerprint insertBlobText [.bytes data] = .ok (Vector.replicate 32 0) := by
  have hencode : ∃ bytes, AsterEngine.Codec.encodeRow ⟨[.bytes data]⟩ = .ok bytes := by
    have hvalue : AsterEngine.Codec.encodeBytes data =
        .ok (ByteString.leBytes 4 data.length ++ data) := by
      simp only [AsterEngine.Codec.encodeBytes, bind_eq_ok, failIf_eq_ok, pure_eq_ok]
      refine ⟨(), by omega, (), ?_, trivial⟩
      have hmax : AsterEngine.maxValueBytes ≤ AsterEngine.u32Max := by decide
      omega
    simp only [AsterEngine.Codec.encodeRow, AsterEngine.Codec.encodeValue, hvalue, List.mapM_cons]
    exact ⟨_, rfl⟩
  obtain ⟨bytes, hbytes⟩ := hencode
  simp only [sqlFingerprint, bind_eq_ok, liftCodec_eq_ok, hbytes, pure_eq_ok]
  exact ⟨bytes, rfl, rfl⟩

/-- A row with many bytes is accepted as a command. -/
theorem prepare_insertBlob {data : Bytes} (hdata : data.length ≤ AsterEngine.maxValueBytes)
    (hcommand : (toVec (blobCommand data)).length ≤ maxReplicatedCommandBytes) :
    blobDatabase.prepareReplicatedMutation 1 (Vector.replicate 16 2) 1 insertBlobText
      [.bytes data] = .ok (.propose (toVec (blobCommand data))) := by
  obtain ⟨-, happlied, hfloor, hepoch, -, -, -, -, -, hreplay, hparse, hbind, -⟩ :=
    blobDatabase_sample
  obtain ⟨staged, hinsert, hattempt⟩ := insert_blob data
  have houtput : prepareAndExecuteOutput blobDatabase.engine (.new 0 2 1) insertBlobStatement
      [.bytes data] = .ok (staged, .mutation 1) := by
    simp only [prepareAndExecuteOutput, bind_eq_ok, liftSql_eq_ok, hbind]
    refine ⟨_, rfl, (), rfl, (), rfl, ?_⟩
    simp only [executeBound, bind_eq_ok, liftEngine_eq_ok]
    exact ⟨_, rfl, staged, hinsert, rfl⟩
  have hprepare : blobDatabase.prepareCommand 1 (Vector.replicate 16 2) 1 (Vector.replicate 32 0)
      insertBlobStatement [.bytes data] = .ok (blobCommand data) := by
    have htransaction : blobDatabase.engine.prepareTransaction = .ok (.new 0 2 1) := by
      simp [Engine.prepareTransaction, happlied, hfloor, hepoch, failIf]
    simp only [prepareCommand, bind_eq_ok, liftEngine_eq_ok]
    refine ⟨_, htransaction, _, houtput, ?_⟩
    rw [hattempt]
    rfl
  simp only [prepareReplicatedMutation, bind_eq_ok, liftSql_eq_ok, hparse]
  refine ⟨_, rfl, (), rfl, _, sqlFingerprint_insertBlob hdata, none, hreplay, ?_⟩
  simp only [bind_eq_ok, encodeCommand, failIf_eq_ok, pure_eq_ok]
  exact ⟨_, hprepare, _, ⟨(), by omega, rfl⟩, rfl⟩

theorem replica_blob [Deserialize ReplicatedMutation] :
    Replica [(1, .noop 1), (2, .command (toVec createBlobs))] blobDatabase := by
  obtain ⟨hmark, happlied, -, -, -, -, -, -, -, -, -, -, hcommand⟩ := blobDatabase_sample
  have hmarked := Replica.noop replica_sample_nil
    (show applyRaftNoop none 1 1 (sampleReplica []) = (_, markedDatabase) from Prod.ext rfl rfl)
  rw [logAfter, hmark, if_pos (show (sampleReplica []).engine.lastApplied < 1 from Nat.zero_lt_one)]
    at hmarked
  have hcall : applyReplicated none 2 (toVec createBlobs) markedDatabase = (_, blobDatabase) :=
    (applyReplicated_sample hcommand 2 _).trans (Prod.ext rfl rfl)
  have hcreated := Replica.command hmarked hcall
  rwa [logAfter, hmark, happlied, if_pos (Nat.lt_succ_self 1)] at hcreated

end Sample

end Database

end AsterDatabase

namespace AsterRuntime

open AsterRaft AsterProtocol Std
open AsterDatabase (ReplicatedMutation)
open AsterDatabase.Database (Replica createBlobs blobCommand blobDatabase insertBlobText
  length_blobCommand replica_blob prepare_insertBlob)
open AsterSql (asciiText)
open Fallible Serde Json

section Sizes

/-- What an entry takes of a frame. -/
def entrySize (entry : LogEntry) : Nat :=
  3 * digits entry.index + 3 * digits entry.term +
    match entry.payload with
    | .noop => 124
    | .command id bytes => 202 + 3 * digits id + 3 * arraySize bytes

/-- What entries take of a frame, with brackets and commas. -/
def entriesSize (entries : List LogEntry) : Nat :=
  6 + (entries.map entrySize).sum + 3 * (entries.length - 1)

def contextSize : Option Bytes → Nat
  | none => 16
  | some context => 3 * arraySize context

/-- The length of a frame's payload that carries entries. -/
def frameSize (sender receiver : NodeId) (senderTerm correlationId term : Nat) (leaderId : NodeId)
    (prevLogIndex prevLogTerm : Nat) (entries : List LogEntry) (leaderCommit : Nat)
    (readContext : Option Bytes) : Nat :=
  485 + digits sender + digits receiver + digits senderTerm + digits correlationId +
    3 * (digits term + digits leaderId + digits prevLogIndex + digits prevLogTerm +
      digits leaderCommit) +
    entriesSize entries + contextSize readContext

theorem spelled_names :
    spelled (writeString "index") = 26 ∧ spelled (writeString "term") = 22 ∧
      spelled (writeString "payload") = 32 ∧ spelled (writeString "Noop") = 21 ∧
      spelled (writeString "Command") = 32 ∧ spelled (writeString "id") = 14 ∧
      spelled (writeString "bytes") = 25 ∧ spelled (writeString "AppendEntries") = 56 ∧
      spelled (writeString "leader_id") = 40 ∧ spelled (writeString "prev_log_index") = 60 ∧
      spelled (writeString "prev_log_term") = 56 ∧ spelled (writeString "entries") = 34 ∧
      spelled (writeString "leader_commit") = 55 ∧ spelled (writeString "read_context") = 51 := by
  decide

theorem digits_signs : digits (UInt8.toNat 123) = 3 ∧ digits (UInt8.toNat 125) = 3 ∧
    digits (UInt8.toNat 58) = 2 ∧ digits (UInt8.toNat 44) = 2 ∧ digits (UInt8.toNat 91) = 2 ∧
    digits (UInt8.toNat 93) = 2 := by
  decide

theorem length_names : (writeString "from").length = 6 ∧ (writeString "to").length = 4 ∧
    (writeString "term").length = 6 ∧ (writeString "correlation_id").length = 16 ∧
    (writeString "payload").length = 9 := by
  decide

theorem write_bytes (bytes : Bytes) : (json bytes).write = toVec bytes := rfl

theorem spelled_entry (entry : LogEntry) : spelled (json entry).write = entrySize entry := by
  obtain ⟨index, term, payload⟩ := entry
  cases payload with
  | noop =>
    change spelled (Json.object [("index", json index), ("term", json term),
      ("payload", .string "Noop")]).write = _
    simp only [write, writeFields, spelled_cons, spelled_append, spelled_nil, write_nat,
      spelled_decimal, spelled_names, digits_signs, entrySize]
    omega
  | command id bytes =>
    change spelled (Json.object [("index", json index), ("term", json term), ("payload",
      .object [("Command", .object [("id", json id), ("bytes", json bytes)])])]).write = _
    simp only [write, writeFields, spelled_cons, spelled_append, spelled_nil, write_nat,
      write_bytes, spelled_decimal, spelled_toVec_bytes, spelled_names, digits_signs, entrySize]
    omega

theorem spelled_writeEntries (entries : List LogEntry) :
    spelled (writeItems (entries.map json)) =
      3 + (entries.map entrySize).sum + 3 * entries.length := by
  induction entries with
  | nil => rfl
  | cons entry entries ih =>
    simp only [List.map_cons, writeItems, spelled_cons, spelled_append, spelled_entry, ih,
      digits_signs, List.sum_cons, List.length_cons]
    omega

theorem spelled_entries (entries : List LogEntry) :
    spelled (json entries).write = entriesSize entries := by
  change spelled (array (entries.map json)).write = _
  cases entries with
  | nil => rfl
  | cons entry entries =>
    simp only [List.map_cons, write, spelled_cons, spelled_append, spelled_entry,
      spelled_writeEntries, digits_signs, entriesSize, List.sum_cons, List.length_cons]
    omega

theorem spelled_context (readContext : Option Bytes) :
    spelled (Serde.optional readContext).write = contextSize readContext := by
  cases readContext with
  | none => rfl
  | some context => exact spelled_toVec_bytes context

variable {sender receiver leaderId : NodeId}
  {senderTerm correlationId term prevLogIndex prevLogTerm leaderCommit : Nat}
  {entries : List LogEntry} {readContext : Option Bytes}

theorem spelled_appendEntries :
    spelled (toVec (Message.appendEntries term leaderId prevLogIndex prevLogTerm entries
        leaderCommit readContext)) =
      432 + 3 * (digits term + digits leaderId + digits prevLogIndex + digits prevLogTerm +
        digits leaderCommit) + entriesSize entries + contextSize readContext := by
  change spelled (Json.object [("AppendEntries", .object [("term", json term),
    ("leader_id", json leaderId), ("prev_log_index", json prevLogIndex),
    ("prev_log_term", json prevLogTerm), ("entries", json entries),
    ("leader_commit", json leaderCommit), ("read_context", Serde.optional readContext)])]).write = _
  simp only [write, writeFields, spelled_cons, spelled_append, spelled_nil, write_nat,
    spelled_decimal, spelled_entries, spelled_context, spelled_names, digits_signs]
  omega

/-- The length of an envelope's text. -/
theorem length_envelope (envelope : PeerEnvelope) :
    (toVec envelope).length = 52 + digits envelope.sender + digits envelope.receiver +
      digits envelope.term + digits envelope.correlationId + arraySize envelope.payload := by
  obtain ⟨sender, receiver, term, correlationId, payload⟩ := envelope
  change (Json.object [("from", json sender), ("to", json receiver), ("term", json term),
    ("correlation_id", json correlationId), ("payload", json payload)]).write.length = _
  simp only [write, writeFields, List.length_cons, List.length_append, List.length_nil, write_nat,
    write_bytes, length_decimal, length_toVec_bytes, length_names]
  omega

end Sizes

section Sending

variable {peers : ExtTreeMap NodeId String} {nodeId leaderId receiver : NodeId}
  {senderTerm correlationId term prevLogIndex prevLogTerm leaderCommit : Nat}
  {entries : List LogEntry} {readContext : Option Bytes}

variable {message : Message} {envelope : PeerEnvelope} {config : RuntimeConfig}

theorem sendPeer_eq_ok :
    config.sendPeer senderTerm correlationId receiver message = .ok envelope ↔
      receiver ∈ config.peers ∧ (toVec message).length ≤ config.maxFrameBytes ∧
        envelope = ⟨config.nodeId, receiver, senderTerm, correlationId, toVec message⟩ := by
  simp only [RuntimeConfig.sendPeer, bind_eq_ok, failIf_eq_ok, pure_eq_ok, not_not, Nat.not_lt]
  constructor
  · rintro ⟨-, hpeer, -, hfits, rfl⟩
    exact ⟨hpeer, hfits, rfl⟩
  · rintro ⟨hpeer, hfits, rfl⟩
    exact ⟨(), hpeer, (), hfits, rfl⟩

/-- A message that is too long ends the runtime. -/
theorem sendPeer_of_lt (hpeer : receiver ∈ config.peers)
    (hlong : config.maxFrameBytes < (toVec message).length) : ∃ text,
      config.sendPeer senderTerm correlationId receiver message = .error (.limit text) := by
  unfold RuntimeConfig.sendPeer
  rw [failIf, if_neg (not_not.mpr hpeer)]
  dsimp only
  rw [failIf, if_pos hlong]
  exact ⟨_, rfl⟩

theorem exists_encode_peer [Crc32] :
    (∃ frame, encode (.peer envelope) defaultMaxFrameBytes = .ok frame) ↔
      (toVec envelope).length ≤ defaultMaxFrameBytes := by
  have hwire : defaultMaxFrameBytes < 2 ^ 32 := by decide
  have hlength := length_envelope envelope
  have hlonger := length_lt_arraySize envelope.payload
  simp only [encode, WireMessage.checkSend, bind_eq_ok, failIf_eq_ok, pure_eq_ok]
  dsimp only [WireMessage.toVec]
  constructor
  · rintro ⟨frame, _, -, _, hfits, -⟩
    exact Nat.not_lt.mp hfits
  · intro hfits
    exact ⟨_, (), by omega, (), by omega, (), by omega, rfl⟩

/-- A message goes out if and only if its envelope fits a frame. -/
theorem sends_iff [Crc32] :
    (RuntimeConfig.localhost nodeId peers).Sends senderTerm correlationId receiver message ↔
      receiver ∈ peers ∧ 52 + digits nodeId + digits receiver + digits senderTerm +
        digits correlationId + arraySize (toVec message) ≤ defaultMaxFrameBytes := by
  have hlonger := length_lt_arraySize (toVec message)
  simp only [RuntimeConfig.Sends, exists_and_left, sendPeer_eq_ok]
  constructor
  · rintro ⟨envelope, ⟨hpeer, -, rfl⟩, hframe⟩
    have hfits := exists_encode_peer.mp hframe
    rw [length_envelope] at hfits
    exact ⟨hpeer, hfits⟩
  · rintro ⟨hpeer, hfits⟩
    refine ⟨_, ⟨hpeer, ?_, rfl⟩, exists_encode_peer.mpr ((length_envelope _).trans_le hfits)⟩
    change (toVec message).length ≤ defaultMaxFrameBytes
    omega

/-- A message with entries goes out if and only if its frame is not too large. -/
theorem sends_appendEntries [Crc32] (hpeer : receiver ∈ peers) :
    (RuntimeConfig.localhost nodeId peers).Sends senderTerm correlationId receiver
        (.appendEntries term leaderId prevLogIndex prevLogTerm entries leaderCommit readContext) ↔
      frameSize nodeId receiver senderTerm correlationId term leaderId prevLogIndex prevLogTerm
        entries leaderCommit readContext ≤ defaultMaxFrameBytes := by
  have hnonempty : toVec (Message.appendEntries term leaderId prevLogIndex prevLogTerm entries
      leaderCommit readContext) ≠ [] := nofun
  rw [sends_iff, arraySize, if_neg hnonempty, spelled_appendEntries, frameSize]
  constructor
  · rintro ⟨-, hfits⟩
    omega
  · intro hfits
    exact ⟨hpeer, by omega⟩

section Turns

variable {raft : Raft} {progress : Progress} (hprogress : raft.progress[receiver]? = some progress)
  (hnext : raft.log.baseIndex < progress.nextIndex)
  (hprev : raft.log.term (min progress.nextIndex (raft.log.lastIndex + 1) - 1) = some prevLogTerm)
include hprogress hnext hprev

theorem sendAppend_actions : (Turn.sendAppend ⟨raft, []⟩ receiver readContext).actions =
    [.send receiver (.appendEntries raft.hardState.currentTerm raft.id
      (min progress.nextIndex (raft.log.lastIndex + 1) - 1) prevLogTerm
      (raft.log.entriesFrom (min progress.nextIndex (raft.log.lastIndex + 1)) maxAppendEntries)
      raft.hardState.commitIndex readContext)] := by
  simp only [Turn.sendAppend, hprogress, if_neg (Nat.not_le.mpr hnext), hprev]
  rfl

/-- The AppendEntries message to a peer goes out, if and only if its frame is not too large. -/
theorem sendAppend_sends_iff [Crc32] (hpeer : receiver ∈ peers) :
    (∀ peer message, .send peer message ∈
      (Turn.sendAppend ⟨raft, []⟩ receiver readContext).actions →
        (RuntimeConfig.localhost nodeId peers).Sends senderTerm correlationId peer message) ↔
      frameSize nodeId receiver senderTerm correlationId raft.hardState.currentTerm raft.id
        (min progress.nextIndex (raft.log.lastIndex + 1) - 1) prevLogTerm
        (raft.log.entriesFrom (min progress.nextIndex (raft.log.lastIndex + 1)) maxAppendEntries)
        raft.hardState.commitIndex readContext ≤ defaultMaxFrameBytes := by
  rw [← sends_appendEntries hpeer, sendAppend_actions hprogress hnext hprev]
  simp

end Turns

/-- A message is one and a half times as long as a command in it. -/
theorem length_lt_message {index entryTerm : Nat} {id : CommandId} {bytes : Bytes} :
    3 * bytes.length < 2 * (toVec (Message.appendEntries term leaderId prevLogIndex prevLogTerm
      [⟨index, entryTerm, .command id bytes⟩] leaderCommit readContext)).length := by
  have hlonger := length_lt_arraySize bytes
  have hlength := spelled_le_length (toVec (Message.appendEntries term leaderId prevLogIndex
    prevLogTerm [⟨index, entryTerm, .command id bytes⟩] leaderCommit readContext))
  rw [spelled_appendEntries] at hlength
  simp only [entriesSize, entrySize, List.map_cons, List.map_nil, List.sum_cons,
    List.sum_nil] at hlength
  omega

end Sending

section Sample

/-- The leader of the database with the table, and an entry that its peer does not have yet. -/
def blobLeader (bytes : Bytes) : Raft where
  id := 1
  configuration := { participants := .ofList [1, 2], incoming := .ofList [1, 2], outgoing := none }
  hardState := { currentTerm := 1, votedFor := some 1, commitIndex := 2 }
  log := {
    baseIndex := 0
    baseTerm := 0
    entries := [⟨1, 1, .noop⟩, ⟨2, 1, .command 1 (toVec createBlobs)⟩, ⟨3, 1, .command 2 bytes⟩] }
  snapshot := none
  appliedIndex := 2
  role := .leader
  leaderId := some 1
  campaignTerm := none
  votes := ∅
  progress := (ExtTreeMap.insert ∅ 1 ⟨3, 4, none⟩).insert 2 ⟨2, 3, none⟩
  recentActive := ∅
  pendingReads := ∅
  incomingSnapshot := none

theorem sendAppend_blobLeader (bytes : Bytes) :
    (Turn.sendAppend ⟨blobLeader bytes, []⟩ 2 none).actions =
      [.send 2 (.appendEntries 1 1 2 1 [⟨3, 1, .command 2 bytes⟩] 2 none)] :=
  sendAppend_actions (show (blobLeader bytes).progress[2]? = some ⟨2, 3, none⟩ from
    ExtTreeMap.getElem?_insert_self) (Nat.zero_lt_succ 2) rfl

theorem arraySize_replicate_zero (n : Nat) : arraySize (List.replicate (n + 1) 0) = 2 * n + 3 := by
  have hspelled : ∀ n, spelled (List.replicate n 0) = 2 * n := by
    intro n
    induction n with
    | zero => rfl
    | succ n ih =>
      rw [List.replicate_succ, spelled_cons, digits, UInt8.toNat_zero, Nat.log_zero_right]
      omega
  rw [arraySize, if_neg (by simp), hspelled]
  omega

/-- A row of three million bytes is accepted as a command, and the message that carries it ends the
leader. -/
theorem largeBlob_not_sent :
    let _ := zeroHash
    let _ := asciiText
    let _ := strictReader ReplicatedMutation
    ∃ data bytes message text,
      Replica [(1, .noop 1), (2, .command (toVec createBlobs))] blobDatabase ∧
      blobDatabase.prepareReplicatedMutation 1 (Vector.replicate 16 2) 1 insertBlobText
        [.bytes data] = .ok (.propose bytes) ∧
      (Turn.sendAppend ⟨blobLeader bytes, []⟩ 2 none).actions = [.send 2 message] ∧
      (RuntimeConfig.localhost 1 (.ofList [(1, "127.0.0.1:1"), (2, "127.0.0.1:2")])).sendPeer 1 0 2
        message = .error (.limit text) := by
  intro _ _ _
  obtain ⟨n, hn⟩ : ∃ n, n + 1 = 3000000 := ⟨2999999, rfl⟩
  have hsmall : (toVec (blobCommand [])).length < 1000 := by decide +kernel
  have hlength := length_blobCommand (List.replicate (n + 1) 0)
  rw [arraySize_replicate_zero] at hlength
  have hlimit : AsterDatabase.maxReplicatedCommandBytes = 8388608 := rfl
  have hmax : defaultMaxFrameBytes = 8388608 := rfl
  have hvalue : (List.replicate (n + 1) (0 : UInt8)).length ≤ AsterEngine.maxValueBytes := by
    rw [List.length_replicate, hn]
    decide
  have hmessage : ∀ {bytes : Bytes}, 5999999 ≤ bytes.length → defaultMaxFrameBytes <
      (toVec (Message.appendEntries 1 1 2 1 [⟨3, 1, .command 2 bytes⟩] 2 none)).length := by
    intro bytes hbytes
    have hlonger : 3 * bytes.length < 2 * (toVec (Message.appendEntries 1 1 2 1
      [⟨3, 1, .command 2 bytes⟩] 2 none)).length := length_lt_message
    omega
  have hlarge : 5999999 ≤ (toVec (blobCommand (List.replicate (n + 1) 0))).length := by omega
  have hstops : ∃ text, (RuntimeConfig.localhost 1
      (.ofList [(1, "127.0.0.1:1"), (2, "127.0.0.1:2")])).sendPeer 1 0 2 (.appendEntries 1 1 2 1
        [⟨3, 1, .command 2 (toVec (blobCommand (List.replicate (n + 1) 0)))⟩] 2 none) =
          .error (.limit text) :=
    sendPeer_of_lt (by decide) (hmessage hlarge)
  obtain ⟨text, hstops⟩ := hstops
  exact ⟨List.replicate (n + 1) 0, _, _, text, replica_blob,
    prepare_insertBlob hvalue (by omega), sendAppend_blobLeader _, hstops⟩

attribute [local instance] lengthSum

/-- A row of three bytes goes out. -/
theorem blobLeader_sends : ∃ peers : ExtTreeMap NodeId String, ∀ peer message,
    .send peer message ∈
      (Turn.sendAppend ⟨blobLeader (toVec (blobCommand [1, 2, 3])), []⟩ 2 none).actions →
        (RuntimeConfig.localhost 1 peers).Sends 1 0 peer message := by
  refine ⟨.ofList [(1, "127.0.0.1:1"), (2, "127.0.0.1:2")], ?_⟩
  refine (sendAppend_sends_iff (show (blobLeader _).progress[2]? = some ⟨2, 3, none⟩ from
    ExtTreeMap.getElem?_insert_self) (Nat.zero_lt_succ 2) rfl (by decide)).mpr ?_
  decide +kernel

end Sample

end AsterRuntime
