import AsterDB.Models.Raft.Native.Log

/-!
# The deterministic Raft state machine

A step threads the node and the actions pushed so far through the handlers of
the source. `Turn` is that pair: handlers change the node in memory first and
push the durable mutation, the messages and the client events afterwards.
-/

namespace AsterRaft

open Std

def maxAppendEntries : Nat := 64

def snapshotChunkBytes : Nat := 16 * 1024

def maxSnapshotBytes : Nat := 512 * 1024 * 1024

/-- What a leader knows about the log of one voter. -/
structure Progress where
  matchIndex : Nat
  nextIndex : Nat
  snapshotOffset : Option Nat

/-- A read waiting for its quorum barrier. -/
structure PendingRead where
  index : Nat
  acknowledgements : ExtTreeSet NodeId

/-- A snapshot transfer in progress. -/
structure IncomingSnapshot where
  metadata : SnapshotMetadata
  data : Bytes

structure Raft where
  id : NodeId
  configuration : Configuration
  hardState : HardState
  log : RaftLog
  snapshot : Option PersistentSnapshot
  appliedIndex : Nat
  role : Role
  leaderId : Option NodeId
  campaignTerm : Option Nat
  votes : ExtTreeSet NodeId
  progress : ExtTreeMap NodeId Progress
  recentActive : ExtTreeSet NodeId
  pendingReads : ExtTreeMap Bytes PendingRead
  incomingSnapshot : Option IncomingSnapshot

/-- A node in the middle of a step, with the actions pushed so far. -/
structure Turn where
  raft : Raft
  actions : List Action

namespace Raft

/-- Walk the stable entries, returning the error of the first bad one. -/
def checkEntries (currentTerm : Nat) : Nat → Nat → List LogEntry → Option RecoveryError
  | _, _, [] => none
  | expected, previousTerm, entry :: rest =>
    if entry.index ≠ expected then
      some (.invalidLog s!"expected index {expected}, found {entry.index}")
    else if entry.term < previousTerm then
      some (.invalidLog
        s!"term regressed from {previousTerm} to {entry.term} at index {entry.index}")
    else if entry.term > currentTerm then
      some (.invalidLog
        s!"entry {entry.index} has future term {entry.term} beyond hard-state term {currentTerm}")
    else checkEntries currentTerm (expected + 1) entry.term rest

/-- Recover a node from durable consensus and state-machine state. -/
def recover [Sha256] (id : NodeId) (configuration : Configuration) (stable : StableState) :
    Except RecoveryError Raft :=
  let log := RaftLog.new stable.snapshot stable.entries
  let base := log.baseIndex
  let last := log.lastIndex
  let commit := stable.hardState.commitIndex
  if !configuration.contains id then .error (.notVoter id)
  else if stable.snapshot.any fun s => !s.validate then
    .error (.invalidSnapshot "length or SHA-256 mismatch")
  else if stable.snapshot.any fun s => s.metadata.configuration ≠ configuration then
    .error (.invalidSnapshot "snapshot voter set differs from local configuration")
  else
    match checkEntries stable.hardState.currentTerm (base + 1) log.baseTerm stable.entries with
    | some error => .error error
    | none =>
      if commit < base ∨ last < commit then
        .error (.invalidIndexes s!"commit {commit} is outside [{base}, {last}]")
      else if stable.appliedIndex < base ∨ commit < stable.appliedIndex then
        .error (.invalidIndexes
          s!"applied {stable.appliedIndex} is outside [{base}, {commit}]")
      else .ok {
        id, configuration, log
        hardState := stable.hardState
        snapshot := stable.snapshot
        appliedIndex := stable.appliedIndex
        role := .follower
        leaderId := none
        campaignTerm := none
        votes := ∅
        progress := ∅
        recentActive := ∅
        pendingReads := ∅
        incomingSnapshot := none }

def term (r : Raft) : Nat := r.hardState.currentTerm

def commitIndex (r : Raft) : Nat := r.hardState.commitIndex

def stableState (r : Raft) : StableState where
  hardState := r.hardState
  snapshot := r.snapshot
  entries := r.log.entries
  appliedIndex := r.appliedIndex

def peers (r : Raft) : List NodeId := r.configuration.voters.toList.filter fun id => id ≠ r.id

def candidateLogIsUpToDate (r : Raft) (index term : Nat) : Bool :=
  r.log.lastTerm < term || (term == r.log.lastTerm && r.log.lastIndex ≤ index)

/-- Contiguous indices after `prevLogIndex`, with terms ascending up to the leader's. -/
def validEntrySequence (leaderTerm : Nat) : Nat → Nat → List LogEntry → Bool
  | _, _, [] => true
  | expected, previousTerm, entry :: rest =>
    if entry.index ≠ expected ∨ leaderTerm < entry.term ∨ entry.term < previousTerm then false
    else validEntrySequence leaderTerm (expected + 1) entry.term rest

end Raft

namespace Turn

/-- Push one action. -/
def push (t : Turn) (a : Action) : Turn := { t with actions := t.actions ++ [a] }

/-- Change the node in memory. -/
def modify (t : Turn) (f : Raft → Raft) : Turn := { t with raft := f t.raft }

/-- Push the durable write of the current hard state. -/
def persistHardState (t : Turn) : Turn := t.push (.persist (.hardState t.raft.hardState))

/-- Apply the next committed entries, at most `fuel` of them. -/
def applyCommittedLoop : Nat → Turn → Turn
  | 0, t => t
  | fuel + 1, t =>
    if t.raft.appliedIndex < t.raft.hardState.commitIndex then
      let next := t.raft.appliedIndex + 1
      match t.raft.log.entry next with
      | none => t.push (.fatal s!"committed entry {next} is unavailable for apply")
      | some entry =>
        let t := (t.modify fun r => { r with appliedIndex := next }).push (.apply entry)
        let t :=
          if t.raft.role = .leader then
            match entry.payload with
            | .command id _ => t.push (.proposalCommitted id entry.index)
            | .noop => t
          else t
        t.applyCommittedLoop fuel
    else t

def applyCommitted (t : Turn) : Turn :=
  t.applyCommittedLoop (t.raft.hardState.commitIndex - t.raft.appliedIndex)

def setCommit (t : Turn) (newCommit : Nat) : Turn :=
  if newCommit ≤ t.raft.hardState.commitIndex then t
  else if t.raft.log.lastIndex < newCommit then
    t.push (.fatal
      s!"attempted to commit {newCommit} beyond log end {t.raft.log.lastIndex}")
  else
    let t := t.modify fun r => { r with hardState := { r.hardState with commitIndex := newCommit } }
    t.persistHardState.applyCommitted

/-- The index a quorum of the voters is known to have matched. -/
def quorumIndex (t : Turn) : Nat :=
  t.raft.configuration.quorumIndex fun voter =>
    ((t.raft.progress[voter]?).map (·.matchIndex)).getD 0

def advanceLeaderCommit (t : Turn) : Turn :=
  if t.raft.role ≠ .leader then t
  else if t.raft.hardState.commitIndex < t.quorumIndex ∧
      t.raft.log.term t.quorumIndex = some t.raft.hardState.currentTerm then
    t.setCommit t.quorumIndex
  else t

def sendSnapshotChunk (t : Turn) (peer : NodeId) (offset : Nat) : Turn :=
  match t.raft.snapshot with
  | none => t.push (.fatal
      s!"peer {peer} requires index at/before compacted boundary, but no snapshot exists")
  | some snapshot =>
    let start := min offset snapshot.data.length
    let stop := min (start + snapshotChunkBytes) snapshot.data.length
    t.push (.send peer (.installSnapshot t.raft.hardState.currentTerm t.raft.id snapshot.metadata
      start ((snapshot.data.take stop).drop start) (stop == snapshot.data.length)))

def sendAppend (t : Turn) (peer : NodeId) (readContext : Option Bytes) : Turn :=
  match t.raft.progress[peer]? with
  | none => t
  | some progress =>
    if progress.nextIndex ≤ t.raft.log.baseIndex then
      t.sendSnapshotChunk peer (progress.snapshotOffset.getD 0)
    else
      let nextIndex := min progress.nextIndex (t.raft.log.lastIndex + 1)
      let prevLogIndex := nextIndex - 1
      match t.raft.log.term prevLogIndex with
      | none => t.push (.fatal s!"missing previous log term at {prevLogIndex}")
      | some prevLogTerm =>
        t.push (.send peer (.appendEntries t.raft.hardState.currentTerm t.raft.id prevLogIndex
          prevLogTerm (t.raft.log.entriesFrom nextIndex maxAppendEntries)
          t.raft.hardState.commitIndex readContext))

def broadcastAppend (t : Turn) (readContext : Option Bytes) : Turn :=
  t.raft.peers.foldl (fun t peer => t.sendAppend peer readContext) t

def becomeFollower (t : Turn) (term : Nat) (leaderId : Option NodeId) : Turn :=
  let wasRole := t.raft.role
  let t :=
    if t.raft.hardState.currentTerm < term then
      (t.modify fun r => { r with
        hardState := { r.hardState with currentTerm := term, votedFor := none } }).persistHardState
    else t
  let t :=
    if wasRole = .leader ∨ ¬ t.raft.pendingReads.isEmpty then
      (t.raft.pendingReads.toList.foldl
        (fun t p => t.push (.readRejected p.1 .leadershipLost)) t).modify
          fun r => { r with pendingReads := ∅ }
    else t
  let t := t.modify fun r => { r with
    role := .follower
    leaderId := leaderId
    campaignTerm := none
    votes := ∅
    progress := ∅
    recentActive := ∅ }
  if wasRole ≠ .follower then
    t.push (.roleChanged .follower t.raft.hardState.currentTerm)
  else t

/-- The marker a new leader writes first. -/
def leaderEntry (r : Raft) : LogEntry where
  index := r.log.lastIndex + 1
  term := r.hardState.currentTerm
  payload := .noop

/-- Progress of every voter at the start of a leadership. -/
def initialProgress (r : Raft) (entry : LogEntry) : ExtTreeMap NodeId Progress :=
  r.configuration.voters.toList.foldl (fun m voter => m.insert voter {
    matchIndex := if voter = r.id then entry.index else 0
    nextIndex := entry.index + 1
    snapshotOffset := none }) ∅

def becomeLeader (t : Turn) : Turn :=
  let entry := leaderEntry t.raft
  let t := (t.modify fun r => { r with
    role := .leader
    leaderId := some r.id
    votes := ∅
    pendingReads := ∅
    log := r.log.append [entry] }).push (.persist (.append [entry]))
  let t := t.modify fun r => { r with
    progress := initialProgress r entry
    recentActive := r.configuration.voters }
  let t := (t.push (.roleChanged t.raft.role t.raft.hardState.currentTerm)).push
    .resetHeartbeatTimer
  t.advanceLeaderCommit.broadcastAppend none

def startElection (t : Turn) (term : Nat) : Turn :=
  let t := (t.modify fun r => { r with
    hardState := { r.hardState with currentTerm := term, votedFor := some r.id }
    role := .candidate
    campaignTerm := none
    votes := (∅ : ExtTreeSet NodeId).insert r.id }).persistHardState
  let t := (t.push (.roleChanged t.raft.role term)).push .resetElectionTimer
  if t.raft.configuration.quorum t.raft.votes then t.becomeLeader
  else
    t.raft.peers.foldl (fun t peer => t.push (.send peer
      (.requestVote term t.raft.id t.raft.log.lastIndex t.raft.log.lastTerm))) t

def startPreVote (t : Turn) : Turn :=
  if u64Max ≤ t.raft.hardState.currentTerm then t.push (.fatal "term counter exhausted")
  else
    let prospectiveTerm := t.raft.hardState.currentTerm + 1
    let t := t.modify fun r => { r with
      role := .preCandidate
      leaderId := none
      campaignTerm := some prospectiveTerm
      votes := (∅ : ExtTreeSet NodeId).insert r.id }
    let t := (t.push (.roleChanged t.raft.role t.raft.hardState.currentTerm)).push
      .resetElectionTimer
    if t.raft.configuration.quorum t.raft.votes then t.startElection prospectiveTerm
    else
      t.raft.peers.foldl (fun t peer => t.push (.send peer
        (.preVoteRequest prospectiveTerm t.raft.id t.raft.log.lastIndex t.raft.log.lastTerm))) t

def onTick (t : Turn) : Tick → Turn
  | .election => if t.raft.role ≠ .leader then t.startPreVote else t
  | .heartbeat =>
    if t.raft.role = .leader then (t.broadcastAppend none).push .resetHeartbeatTimer else t
  | .checkQuorum =>
    if t.raft.role = .leader then
      if t.raft.configuration.quorum t.raft.recentActive then
        (t.modify fun r => { r with
          recentActive := (∅ : ExtTreeSet NodeId).insert r.id }).broadcastAppend none
      else (t.becomeFollower t.raft.hardState.currentTerm none).push .resetElectionTimer
    else t

def onPreVoteRequest (t : Turn) (sender : NodeId) (prospectiveTerm : Nat) (candidateId : NodeId)
    (lastLogIndex lastLogTerm : Nat) : Turn :=
  if candidateId ≠ sender then t
  else
    let granted := decide (t.raft.hardState.currentTerm < prospectiveTerm) &&
      t.raft.candidateLogIsUpToDate lastLogIndex lastLogTerm
    t.push (.send sender (.preVoteResponse t.raft.hardState.currentTerm prospectiveTerm granted))

def onPreVoteResponse (t : Turn) (sender : NodeId) (responderTerm prospectiveTerm : Nat)
    (granted : Bool) : Turn :=
  if t.raft.hardState.currentTerm < responderTerm then
    (t.becomeFollower responderTerm none).push .resetElectionTimer
  else if t.raft.role ≠ .preCandidate ∨ t.raft.campaignTerm ≠ some prospectiveTerm ∨ !granted then t
  else
    let t := t.modify fun r => { r with votes := r.votes.insert sender }
    if t.raft.configuration.quorum t.raft.votes then t.startElection prospectiveTerm else t

def onVoteRequest (t : Turn) (sender : NodeId) (term : Nat) (candidateId : NodeId)
    (lastLogIndex lastLogTerm : Nat) : Turn :=
  if candidateId ≠ sender then t
  else
    let t := if t.raft.hardState.currentTerm < term then t.becomeFollower term none else t
    let granted := decide (term = t.raft.hardState.currentTerm) &&
      decide (t.raft.hardState.votedFor = none ∨ t.raft.hardState.votedFor = some candidateId) &&
      t.raft.candidateLogIsUpToDate lastLogIndex lastLogTerm
    let t :=
      if granted then
        let t :=
          if t.raft.hardState.votedFor ≠ some candidateId then
            (t.modify fun r => { r with
              hardState := { r.hardState with votedFor := some candidateId } }).persistHardState
          else t
        (t.modify fun r => { r with leaderId := none }).push .resetElectionTimer
      else t
    t.push (.send sender (.requestVoteResponse t.raft.hardState.currentTerm granted))

def onVoteResponse (t : Turn) (sender : NodeId) (term : Nat) (granted : Bool) : Turn :=
  if t.raft.hardState.currentTerm < term then
    (t.becomeFollower term none).push .resetElectionTimer
  else if t.raft.role ≠ .candidate ∨ term ≠ t.raft.hardState.currentTerm ∨ !granted then t
  else
    let t := t.modify fun r => { r with votes := r.votes.insert sender }
    if t.raft.configuration.quorum t.raft.votes then t.becomeLeader else t

def rejectAppend (t : Turn) (receiver : NodeId) (readContext : Option Bytes) (conflictIndex : Nat)
    (conflictTerm : Option Nat) : Turn :=
  t.push (.send receiver (.appendEntriesResponse t.raft.hardState.currentTerm false 0 conflictIndex
    conflictTerm readContext))

/-- How a batch of entries compares with the local log. -/
inductive Scan where
  /-- Every entry is held with the same term. -/
  | held
  /-- The entry at this index and batch position differs or is missing. -/
  | changed (index position : Nat)
  /-- A missing entry does not follow the log's end. -/
  | gap
  /-- A differing entry is already committed here. -/
  | committed (index : Nat)
  deriving DecidableEq

def scanEntries (log : RaftLog) (commit : Nat) : Nat → List LogEntry → Scan
  | _, [] => .held
  | position, entry :: rest =>
    match log.term entry.index with
    | some localTerm =>
      if localTerm = entry.term then scanEntries log commit (position + 1) rest
      else if entry.index ≤ commit then .committed entry.index
      else .changed entry.index position
    | none =>
      if entry.index ≠ log.lastIndex + 1 then .gap else .changed entry.index position

/-- Replace or extend the log from `index` on and push the matching mutation. -/
def writeSuffix (t : Turn) (index : Nat) (suffix : List LogEntry) : Turn :=
  let replacing := index ≤ t.raft.log.lastIndex
  (t.modify fun r => { r with log := r.log.truncateAndAppend index suffix }).push
    (.persist (if replacing then .truncateAndAppend index suffix else .append suffix))

/-- The part of an accepted append after the log is written. -/
def finishAppend (t : Turn) (sender : NodeId) (matched leaderCommit : Nat)
    (readContext : Option Bytes) : Turn :=
  let newCommit := min leaderCommit t.raft.log.lastIndex
  let t := t.setCommit newCommit
  t.push (.send sender (.appendEntriesResponse t.raft.hardState.currentTerm true matched 0 none
    readContext))

def onAppendEntries (t : Turn) (sender : NodeId) (term : Nat) (leaderId : NodeId)
    (prevLogIndex prevLogTerm : Nat) (entries : List LogEntry) (leaderCommit : Nat)
    (readContext : Option Bytes) : Turn :=
  if leaderId ≠ sender then t
  else if term < t.raft.hardState.currentTerm then
    t.rejectAppend sender readContext (t.raft.log.lastIndex + 1) none
  else
    let t := (t.becomeFollower term (some sender)).push .resetElectionTimer
    if prevLogIndex < t.raft.log.baseIndex then
      t.rejectAppend sender readContext (t.raft.log.baseIndex + 1) (some t.raft.log.baseTerm)
    else
      match t.raft.log.term prevLogIndex with
      | none => t.rejectAppend sender readContext (t.raft.log.lastIndex + 1) none
      | some localPrevTerm =>
        if localPrevTerm ≠ prevLogTerm then
          t.rejectAppend sender readContext
            (t.raft.log.firstIndexOfTerm prevLogIndex localPrevTerm) (some localPrevTerm)
        else if !Raft.validEntrySequence term (prevLogIndex + 1) prevLogTerm entries then
          t.rejectAppend sender readContext (prevLogIndex + 1) none
        else
          let matched := prevLogIndex + entries.length
          match scanEntries t.raft.log t.raft.hardState.commitIndex 0 entries with
          | .committed index =>
            t.push (.fatal s!"leader attempted to replace committed index {index}")
          | .gap => t.rejectAppend sender readContext (t.raft.log.lastIndex + 1) none
          | .changed index position =>
            (t.writeSuffix index (entries.drop position)).finishAppend sender matched leaderCommit
              readContext
          | .held => t.finishAppend sender matched leaderCommit readContext

def completeRead (t : Turn) (context : Bytes) : Turn :=
  match t.raft.pendingReads[context]? with
  | none => t
  | some pending =>
    (t.modify fun r => { r with pendingReads := r.pendingReads.erase context }).push
      (.readReady context pending.index)

def acknowledgeRead (t : Turn) (sender : NodeId) (context : Bytes) : Turn :=
  match t.raft.pendingReads[context]? with
  | none => t
  | some pending =>
    let pending := { pending with acknowledgements := pending.acknowledgements.insert sender }
    let t := t.modify fun r => { r with pendingReads := r.pendingReads.insert context pending }
    if t.raft.configuration.quorum pending.acknowledgements then t.completeRead context else t

/-- Where to retry after a rejected append. -/
def retryIndex (log : RaftLog) (conflictIndex : Nat) (conflictTerm : Option Nat) : Nat :=
  max (match conflictTerm.bind log.lastIndexOfTerm with
    | some index => index + 1
    | none => conflictIndex) 1

def onAppendResponse (t : Turn) (sender : NodeId) (term : Nat) (success : Bool)
    (matchIndex conflictIndex : Nat) (conflictTerm : Option Nat) (readContext : Option Bytes) :
    Turn :=
  if t.raft.hardState.currentTerm < term then
    (t.becomeFollower term none).push .resetElectionTimer
  else if t.raft.role ≠ .leader ∨ term ≠ t.raft.hardState.currentTerm then t
  else
    let t := t.modify fun r => { r with recentActive := r.recentActive.insert sender }
    let t :=
      match readContext with
      | some context => t.acknowledgeRead sender context
      | none => t
    if success then
      let t := t.modify fun r => { r with
        progress := r.progress.modify sender fun p => {
          matchIndex := max p.matchIndex matchIndex
          nextIndex := max p.nextIndex (matchIndex + 1)
          snapshotOffset := none } }
      let t := t.advanceLeaderCommit
      if matchIndex < t.raft.log.lastIndex then t.sendAppend sender none else t
    else
      let nextIndex := retryIndex t.raft.log conflictIndex conflictTerm
      (t.modify fun r => { r with
        progress := r.progress.modify sender fun p => { p with
          nextIndex := min nextIndex (max (p.nextIndex - 1) 1)
          snapshotOffset := none } }).sendAppend sender none

def propose (t : Turn) (id : CommandId) (command : Bytes) : Turn :=
  if t.raft.role ≠ .leader then t.push (.proposalRejected id t.raft.leaderId)
  else
    let entry : LogEntry := {
      index := t.raft.log.lastIndex + 1
      term := t.raft.hardState.currentTerm
      payload := .command id command }
    let t := (t.modify fun r => { r with
      log := r.log.append [entry]
      progress := r.progress.modify r.id fun p => { p with
        matchIndex := entry.index
        nextIndex := entry.index + 1 } }).push (.persist (.append [entry]))
    t.advanceLeaderCommit.broadcastAppend none

def readIndex (t : Turn) (context : Bytes) : Turn :=
  if t.raft.role ≠ .leader then t.push (.readRejected context .notLeader)
  else if context.isEmpty ∨ context ∈ t.raft.pendingReads then
    t.push (.readRejected context .invalidContext)
  else if t.raft.log.term t.raft.hardState.commitIndex ≠ some t.raft.hardState.currentTerm then
    t.push (.readRejected context .leaderNotReady)
  else
    let pending : PendingRead := {
      index := t.raft.hardState.commitIndex
      acknowledgements := (∅ : ExtTreeSet NodeId).insert t.raft.id }
    let t := t.modify fun r => { r with pendingReads := r.pendingReads.insert context pending }
    if t.raft.configuration.quorum pending.acknowledgements then t.completeRead context
    else t.broadcastAppend (some context)

def snapshotBuilt [Sha256] (t : Turn) (snapshot : PersistentSnapshot) : Turn :=
  let metadata := snapshot.metadata
  if snapshot.validate ∧ metadata.configuration = t.raft.configuration ∧
      t.raft.log.baseIndex ≤ metadata.lastIncludedIndex ∧
      metadata.lastIncludedIndex ≤ t.raft.appliedIndex ∧
      t.raft.log.term metadata.lastIncludedIndex = some metadata.lastIncludedTerm then
    let t := t.modify fun r => { r with
      log := r.log.compact metadata.lastIncludedIndex metadata.lastIncludedTerm true
      snapshot := some snapshot }
    t.push (.persist (.compactSnapshot snapshot t.raft.log.entries))
  else
    t.push (.snapshotRejected "snapshot hash, membership, or applied log boundary is invalid")

def snapshotReply (t : Turn) (receiver : NodeId) (accepted : Bool) (nextOffset : Nat) (done : Bool)
    (matchIndex : Nat) : Turn :=
  t.push (.send receiver
    (.installSnapshotResponse t.raft.hardState.currentTerm accepted nextOffset done matchIndex))

/-- Replace the log around a completely received snapshot. -/
def installSnapshot (t : Turn) (snapshot : PersistentSnapshot) : Turn :=
  let metadata := snapshot.metadata
  let retainSuffix :=
    decide (t.raft.log.term metadata.lastIncludedIndex = some metadata.lastIncludedTerm)
  let t := t.modify fun r => { r with
    log := r.log.compact metadata.lastIncludedIndex metadata.lastIncludedTerm retainSuffix
    snapshot := some snapshot
    hardState := { r.hardState with
      commitIndex := max r.hardState.commitIndex metadata.lastIncludedIndex }
    appliedIndex := metadata.lastIncludedIndex }
  t.push (.persist (.installSnapshot snapshot t.raft.log.entries t.raft.hardState))

/-- Append one chunk to the transfer in progress and install a complete one. -/
def receiveChunk [Sha256] (t : Turn) (sender : NodeId) (incoming : IncomingSnapshot) (offset : Nat)
    (data : Bytes) (done : Bool) : Turn :=
  let metadata := incoming.metadata
  let expected := incoming.data.length
  if offset < expected then
    let duplicateMatches :=
      decide (offset + data.length ≤ expected ∧
        (incoming.data.take (offset + data.length)).drop offset = data)
    t.snapshotReply sender duplicateMatches expected false 0
  else if offset ≠ expected ∨ metadata.byteLen < expected + data.length then
    t.snapshotReply sender false expected false 0
  else
    let received := incoming.data ++ data
    let t := t.modify fun r => { r with
      incomingSnapshot := some { incoming with data := received } }
    if !done then t.snapshotReply sender true received.length false 0
    else if received.length ≠ metadata.byteLen ∨ Sha256.digest received ≠ metadata.sha256 then
      (t.modify fun r => { r with incomingSnapshot := none }).snapshotReply sender false 0 false 0
    else
      let t := t.modify fun r => { r with incomingSnapshot := none }
      let t := t.installSnapshot { metadata, data := received }
      t.snapshotReply sender true metadata.byteLen true metadata.lastIncludedIndex

def onInstallSnapshot [Sha256] (t : Turn) (sender : NodeId) (term : Nat) (leaderId : NodeId)
    (metadata : SnapshotMetadata) (offset : Nat) (data : Bytes) (done : Bool) : Turn :=
  if leaderId ≠ sender then t
  else if term < t.raft.hardState.currentTerm then t.snapshotReply sender false 0 false 0
  else
    let t := (t.becomeFollower term (some sender)).push .resetElectionTimer
    if metadata.configuration ≠ t.raft.configuration ∨ maxSnapshotBytes < metadata.byteLen ∨
        metadata.lastIncludedIndex = 0 then
      (t.modify fun r => { r with incomingSnapshot := none }).snapshotReply sender false 0 false 0
    else if metadata.lastIncludedIndex ≤ t.raft.appliedIndex then
      t.snapshotReply sender true metadata.byteLen true metadata.lastIncludedIndex
    else
      let sameTransfer := t.raft.incomingSnapshot.any fun i => i.metadata = metadata
      let t :=
        if offset = 0 ∧ !sameTransfer then
          t.modify fun r => { r with incomingSnapshot := some { metadata, data := [] } }
        else t
      match t.raft.incomingSnapshot with
      | none => t.snapshotReply sender false 0 false 0
      | some incoming =>
        if incoming.metadata ≠ metadata then t.snapshotReply sender false 0 false 0
        else t.receiveChunk sender incoming offset data done

def onSnapshotResponse (t : Turn) (sender : NodeId) (term : Nat) (accepted : Bool)
    (nextOffset : Nat) (done : Bool) (matchIndex : Nat) : Turn :=
  if t.raft.hardState.currentTerm < term then
    (t.becomeFollower term none).push .resetElectionTimer
  else if t.raft.role ≠ .leader ∨ term ≠ t.raft.hardState.currentTerm then t
  else
    let t := t.modify fun r => { r with recentActive := r.recentActive.insert sender }
    match t.raft.progress[sender]? with
    | none => t
    | some p =>
      let t :=
        if done ∧ accepted then
          (t.modify fun r => { r with
            progress := r.progress.insert sender {
              matchIndex := max p.matchIndex matchIndex
              nextIndex := max p.nextIndex (matchIndex + 1)
              snapshotOffset := none } }).advanceLeaderCommit
        else
          t.modify fun r => { r with
            progress := r.progress.insert sender { p with
              snapshotOffset := some (if accepted then nextOffset else 0) } }
      t.sendAppend sender none

def onMessage [Sha256] (t : Turn) (sender : NodeId) (message : Message) : Turn :=
  if !t.raft.configuration.contains sender ∨ sender = t.raft.id then t
  else
    match message with
    | .preVoteRequest prospectiveTerm candidateId lastLogIndex lastLogTerm =>
      t.onPreVoteRequest sender prospectiveTerm candidateId lastLogIndex lastLogTerm
    | .preVoteResponse responderTerm prospectiveTerm granted =>
      t.onPreVoteResponse sender responderTerm prospectiveTerm granted
    | .requestVote term candidateId lastLogIndex lastLogTerm =>
      t.onVoteRequest sender term candidateId lastLogIndex lastLogTerm
    | .requestVoteResponse term granted => t.onVoteResponse sender term granted
    | .appendEntries term leaderId prevLogIndex prevLogTerm entries leaderCommit readContext =>
      t.onAppendEntries sender term leaderId prevLogIndex prevLogTerm entries leaderCommit
        readContext
    | .appendEntriesResponse term success matchIndex conflictIndex conflictTerm readContext =>
      t.onAppendResponse sender term success matchIndex conflictIndex conflictTerm readContext
    | .installSnapshot term leaderId metadata offset data done =>
      t.onInstallSnapshot sender term leaderId metadata offset data done
    | .installSnapshotResponse term accepted nextOffset done matchIndex =>
      t.onSnapshotResponse sender term accepted nextOffset done matchIndex

end Turn

/-- One external event: replay committed entries first, then handle the input. -/
def Raft.step [Sha256] (r : Raft) (input : Input) : Raft × List Action :=
  let t := Turn.applyCommitted { raft := r, actions := [] }
  let t :=
    match input with
    | .tick tick => t.onTick tick
    | .message sender message => t.onMessage sender message
    | .propose id command => t.propose id command
    | .readIndex context => t.readIndex context
    | .snapshotBuilt snapshot => t.snapshotBuilt snapshot
  (t.raft, t.actions)

end AsterRaft
