import AsterDB.Models.Raft.Native.Cluster

/-!
# The runtime of one node

The runtime owns a consensus core, numbers the proposals and reads it hands to
the core, and executes the actions of every step in order. Database and network
are parameters: a database answers anything it likes. Requests carry no SQL
here; a proposal is the command its preparation produced.
-/

namespace AsterRuntime

open AsterRaft Std

inductive RuntimeError where
  | corruption (reason : String)
  | limit (reason : String)
  | database (error : String)
  | notLeader (leaderHint : Option NodeId)
  | proposalBusy
  | commandRejected (reason : String)
  | shutdown
  | fenced (reason : String)
  deriving DecidableEq, Repr

/-- The results of the crate. -/
abbrev Result : Type → Type := Except RuntimeError

variable {ρ : Type}

/-- What the database answers while one event is handled. -/
structure Database (ρ : Type) where
  /-- The result of a replicated command and the applied index reported after it. -/
  applyReplicated : Nat → Bytes → Except String ρ × Nat
  applyRaftNoop : Nat → Nat → Except String Unit
  /-- The applied index at the time of a read and the read's result. -/
  executeReadOnly : Bytes → Nat × Except String ρ
  appliedIndex : Nat
  /-- The boundary and the bytes of a snapshot. -/
  createSnapshot : Except String (Nat × Bytes)

/-- What preparing a mutation comes to: an earlier result or a command to propose. -/
inductive MutationPreparation (ρ : Type) where
  | replay (result : ρ)
  | propose (command : Bytes)

/-- A proposal whose caller waits. The command stands for the caller's response
channel, and the applied entry for its index. -/
structure PendingProposal (ρ : Type) where
  id : CommandId
  command : Bytes
  applied : Option (LogEntry × Result ρ)

/-- A proposal answered with the result of an applied entry. -/
structure Acknowledgement (ρ : Type) where
  node : NodeId
  id : CommandId
  index : Nat
  command : Bytes
  entry : LogEntry
  result : Result ρ

/-- What a caller is sent. -/
inductive Reply (ρ : Type) where
  | refused (error : RuntimeError)
  | replayed (result : ρ)
  | acknowledged (answer : Acknowledgement ρ)
  | read (result : Result ρ)

/-- A running node. -/
structure Runtime (ρ : Type) where
  nodeId : NodeId
  eventQueueCapacity : Nat
  raft : Raft
  nextCommand : Nat
  nextRead : Nat
  pendingProposal : Option (PendingProposal ρ)
  /-- Contexts of the reads whose callers wait. -/
  pendingReads : ExtTreeSet Bytes

/-- The owner in the upper 64 bits, the owner's counter in the lower. -/
def commandId (nodeId counter : Nat) : CommandId := (nodeId <<< 64) ||| counter

/-- The command identifier of an entry. -/
def commandId? (entry : LogEntry) : Option CommandId :=
  match entry.payload with
  | .noop => none
  | .command id _ => some id

/-- The first counter after those of the node's own commands on disk. -/
def nextCommandCounter (nodeId : NodeId) (state : StableState) : Result Nat :=
  let counters := state.entries.filterMap fun entry =>
    (commandId? entry).bind fun id =>
      if id >>> 64 = nodeId then some (id &&& u64Max) else none
  let maximum := counters.max?.getD 0
  if maximum = u64Max then .error (.limit "proposal id space exhausted") else .ok (maximum + 1)

/-- Eight bytes, the most significant first. -/
def beBytes (value : Nat) : Bytes :=
  (List.range 8).reverse.map fun i => UInt8.ofNat (value >>> (8 * i))

namespace Runtime

/-- A node as it starts, with nobody waiting. -/
def new (nodeId : NodeId) (eventQueueCapacity : Nat) (raft : Raft) (nextCommand : Nat) :
    Runtime ρ where
  nodeId := nodeId
  eventQueueCapacity := eventQueueCapacity
  raft := raft
  nextCommand := nextCommand
  nextRead := 1
  pendingProposal := none
  pendingReads := ∅

/-- Turn everyone away who waits. -/
def rejectPending (rt : Runtime ρ) (error : RuntimeError) : Runtime ρ × List (Reply ρ) :=
  ({ rt with pendingProposal := none, pendingReads := ∅ },
    (rt.pendingProposal.toList.map fun _ => .refused error) ++
      rt.pendingReads.toList.map fun _ => .refused error)

/-- Number a prepared command and hand it to the core. -/
def propose (rt : Runtime ρ) (preparation : Except String (MutationPreparation ρ)) :
    Result (Runtime ρ × List (Reply ρ) × Option Input) :=
  if rt.raft.role ≠ .leader then .ok (rt, [.refused (.notLeader rt.raft.leaderId)], none)
  else if rt.pendingProposal.isSome then .ok (rt, [.refused .proposalBusy], none)
  else
    match preparation with
    | .error error => .ok (rt, [.refused (.database error)], none)
    | .ok (.replay result) => .ok (rt, [.replayed result], none)
    | .ok (.propose command) =>
      let id := commandId rt.nodeId rt.nextCommand
      if rt.nextCommand = u64Max then .error (.limit "proposal id space exhausted")
      else .ok ({ rt with
        nextCommand := rt.nextCommand + 1
        pendingProposal := some { id, command, applied := none } }, [], some (.propose id command))

/-- Number a read and hand its context to the core. -/
def read (rt : Runtime ρ) : Result (Runtime ρ × List (Reply ρ) × Option Input) :=
  if rt.raft.role ≠ .leader then .ok (rt, [.refused (.notLeader rt.raft.leaderId)], none)
  else if rt.eventQueueCapacity ≤ rt.pendingReads.size then
    .ok (rt, [.refused (.limit "pending ReadIndex request limit reached")], none)
  else
    let context := beBytes rt.nodeId ++ beBytes rt.nextRead
    if rt.nextRead = u64Max then .error (.limit "read context space exhausted")
    else .ok ({ rt with
      nextRead := rt.nextRead + 1
      pendingReads := rt.pendingReads.insert context }, [], some (.readIndex context))

/-- Offer the core a snapshot at its applied index. -/
def maybeSnapshot [Sha256] (rt : Runtime ρ) (stable : StableState) (database : Database ρ) :
    Result (Runtime ρ × List (Reply ρ) × Option Input) :=
  let appliedIndex := rt.raft.appliedIndex
  if appliedIndex = 0 ∨ stable.snapshot.any fun s => appliedIndex ≤ s.metadata.lastIncludedIndex
  then .ok (rt, [], none)
  else if database.appliedIndex ≠ appliedIndex then
    .error (.fenced
      s!"cannot snapshot Raft index {appliedIndex} while database is at {database.appliedIndex}")
  else
    match (RaftLog.new stable.snapshot stable.entries).term appliedIndex with
    | none => .error (.corruption
        s!"durable Raft log has no term at snapshot boundary {appliedIndex}")
    | some includedTerm =>
      match database.createSnapshot with
      | .error error => .error (.database error)
      | .ok (boundary, bytes) =>
        if boundary ≠ appliedIndex then
          .error (.fenced
            s!"database snapshot boundary {boundary} changed while Raft expected {appliedIndex}")
        else .ok (rt, [], some (.snapshotBuilt
          (.new appliedIndex includedTerm rt.raft.configuration bytes)))

/-- Apply a committed entry and remember its result for the caller of its proposal. -/
def applyEntry (rt : Runtime ρ) (database : Database ρ) (entry : LogEntry) :
    Result (Runtime ρ) :=
  match entry.payload with
  | .noop =>
    match database.applyRaftNoop entry.index entry.term with
    | .error error => .error (.database error)
    | .ok _ => .ok rt
  | .command id bytes =>
    -- The waiting caller gets the result; a refused command counts as applied.
    let remember (result : Result ρ) : Runtime ρ := { rt with
      pendingProposal := rt.pendingProposal.map fun pending =>
        if pending.id = id then { pending with applied := some (entry, result) } else pending }
    match database.applyReplicated entry.index bytes with
    | (.ok result, _) => .ok (remember (.ok result))
    | (.error error, appliedIndex) =>
      if appliedIndex = entry.index then .ok (remember (.error (.commandRejected error)))
      else .error (.database error)

/-- Execute one action; a storage mutation or a packet is performed by the world. -/
def executeAction (rt : Runtime ρ) (database : Database ρ) :
    Action → Result (Runtime ρ × List (Reply ρ))
  | .roleChanged role _ =>
    if role = .leader then .ok (rt, []) else .ok (rt.rejectPending (.notLeader rt.raft.leaderId))
  | .apply entry => (rt.applyEntry database entry).map fun rt => (rt, [])
  | .proposalCommitted id index =>
    match rt.pendingProposal with
    | none => .ok (rt, [])
    | some pending =>
      if pending.id ≠ id then .ok (rt, [])
      else
        match pending.applied with
        | none => .error (.fenced s!"proposal {id} acknowledged before local database apply")
        | some (entry, result) =>
          if entry.index ≠ index then
            .error (.fenced s!"proposal {id} applied at {entry.index}, committed at {index}")
          else .ok ({ rt with pendingProposal := none }, [.acknowledged {
            node := rt.nodeId
            id, index, entry, result
            command := pending.command }])
  | .proposalRejected id leaderHint =>
    match rt.pendingProposal with
    | none => .ok (rt, [])
    | some pending =>
      if pending.id = id then
        .ok ({ rt with pendingProposal := none }, [.refused (.notLeader leaderHint)])
      else .ok (rt, [])
  | .readReady context index =>
    if context ∈ rt.pendingReads then
      let (appliedIndex, result) := database.executeReadOnly context
      if appliedIndex < index then
        .error (.fenced s!"ReadIndex {index} became ready before durable database apply")
      else .ok ({ rt with pendingReads := rt.pendingReads.erase context },
        [.read (result.mapError .database)])
    else .ok (rt, [])
  | .readRejected context _ =>
    if context ∈ rt.pendingReads then
      .ok ({ rt with pendingReads := rt.pendingReads.erase context },
        [.refused (.notLeader rt.raft.leaderId)])
    else .ok (rt, [])
  | .snapshotRejected reason => .error (.fenced s!"locally built snapshot was rejected: {reason}")
  | .fatal reason => .error (.fenced reason)
  | .persist _ | .send _ _ | .resetElectionTimer | .resetHeartbeatTimer => .ok (rt, [])

end Runtime

end AsterRuntime
