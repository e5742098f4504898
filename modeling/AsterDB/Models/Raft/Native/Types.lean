import Mathlib.Algebra.Group.Nat.Defs
import Mathlib.Data.Nat.Basic
import Std.Data.ExtTreeMap
import Std.Data.ExtTreeSet

/-!
# Values of the consensus core

Configurations, log entries, snapshots, messages, inputs and actions. Ordered
maps and sets are extensional trees, so equal contents are equal values.
Indices and terms are natural numbers; the one place where the 64-bit bound is
tested, the term counter, tests it explicitly. SHA-256 is a parameter.
-/

namespace AsterRaft

open Std

/-- Voter identifiers. -/
abbrev NodeId := Nat

/-- Proposal identifiers, 128 bits wide. -/
abbrev CommandId := Nat

/-- Byte strings. -/
abbrev Bytes := List UInt8

/-- A SHA-256 value. -/
abbrev Digest := Vector UInt8 32

/-- The hash function snapshots are checked with. -/
class Sha256 where
  /-- The digest of a byte string. -/
  digest : Bytes → Digest

/-- A placeholder for SHA-256 in runs that are evaluated. -/
@[reducible] def zeroHash : Sha256 := ⟨fun _ => Vector.replicate 32 0⟩

/-- The largest 64-bit value. -/
def u64Max : Nat := 2 ^ 64 - 1

/-- The immutable voters of one process lifetime, fixed or joint. -/
structure Configuration where
  participants : ExtTreeSet NodeId
  incoming : ExtTreeSet NodeId
  outgoing : Option (ExtTreeSet NodeId)
  deriving DecidableEq

/-- Reasons to refuse a voter set. -/
inductive ConfigError where
  | empty
  | emptyJointSide
  deriving DecidableEq, Repr

namespace Configuration

/-- A validated fixed membership. -/
def new (voters : List NodeId) : Except ConfigError Configuration :=
  let voters := ExtTreeSet.ofList voters
  if voters.isEmpty then .error .empty
  else .ok { participants := voters, incoming := voters, outgoing := none }

/-- The joint phase of a membership transition. -/
def joint (outgoing incoming : List NodeId) : Except ConfigError Configuration :=
  let outgoing := ExtTreeSet.ofList outgoing
  let incoming := ExtTreeSet.ofList incoming
  if outgoing.isEmpty || incoming.isEmpty then .error .emptyJointSide
  else .ok { participants := outgoing ∪ incoming, incoming, outgoing := some outgoing }

def voters (c : Configuration) : ExtTreeSet NodeId := c.participants

def contains (c : Configuration) (id : NodeId) : Bool := c.participants.contains id

/-- More than half of the members voted. -/
def hasMajority (members votes : ExtTreeSet NodeId) : Bool :=
  (members.toList.filter fun v => votes.contains v).length > members.size / 2

/-- Independent majorities of both sides of the configuration. -/
def quorum (c : Configuration) (votes : ExtTreeSet NodeId) : Bool :=
  hasMajority c.incoming votes &&
    match c.outgoing with
    | none => true
    | some outgoing => hasMajority outgoing votes

/-- The largest reported index that a quorum of the voters has reached. -/
def quorumIndex (c : Configuration) (matched : NodeId → Nat) : Nat :=
  let matched := c.participants.toList.map fun voter => (voter, matched voter)
  let indexes := (ExtTreeSet.ofList (matched.map (·.2))).toList
  (indexes.reverse.find? fun index =>
    c.quorum (ExtTreeSet.ofList ((matched.filter fun p => index ≤ p.2).map (·.1)))).getD 0

end Configuration

/-- Durable election state and the highest index known committed. -/
structure HardState where
  currentTerm : Nat
  votedFor : Option NodeId
  commitIndex : Nat
  deriving DecidableEq, Repr

instance : Inhabited HardState := ⟨{ currentTerm := 0, votedFor := none, commitIndex := 0 }⟩

/-- What a log entry carries: a new leader's marker or a client command. -/
inductive EntryPayload where
  | noop
  | command (id : CommandId) (bytes : Bytes)
  deriving DecidableEq, Repr

structure LogEntry where
  index : Nat
  term : Nat
  payload : EntryPayload
  deriving DecidableEq, Repr

structure SnapshotMetadata where
  lastIncludedIndex : Nat
  lastIncludedTerm : Nat
  byteLen : Nat
  sha256 : Digest
  configuration : Configuration
  deriving DecidableEq

structure PersistentSnapshot where
  metadata : SnapshotMetadata
  data : Bytes
  deriving DecidableEq

namespace PersistentSnapshot

variable [Sha256]

def new (lastIncludedIndex lastIncludedTerm : Nat) (configuration : Configuration)
    (data : Bytes) : PersistentSnapshot where
  metadata := {
    lastIncludedIndex
    lastIncludedTerm
    byteLen := data.length
    sha256 := Sha256.digest data
    configuration }
  data := data

/-- The recorded length and hash are those of the data. -/
def validate (s : PersistentSnapshot) : Bool :=
  s.metadata.byteLen == s.data.length && s.metadata.sha256 == Sha256.digest s.data

end PersistentSnapshot

/-- Everything needed to restart a node. -/
structure StableState where
  hardState : HardState
  snapshot : Option PersistentSnapshot
  entries : List LogEntry
  appliedIndex : Nat
  deriving DecidableEq

/-- The state of a node that never wrote anything. -/
def StableState.default : StableState where
  hardState := { currentTerm := 0, votedFor := none, commitIndex := 0 }
  snapshot := none
  entries := []
  appliedIndex := 0

inductive Role where
  | follower
  | preCandidate
  | candidate
  | leader
  deriving DecidableEq, Repr

/-- Timers fired by the environment. -/
inductive Tick where
  | election
  | heartbeat
  | checkQuorum
  deriving DecidableEq, Repr

inductive Message where
  | preVoteRequest (prospectiveTerm : Nat) (candidateId : NodeId) (lastLogIndex lastLogTerm : Nat)
  | preVoteResponse (responderTerm prospectiveTerm : Nat) (granted : Bool)
  | requestVote (term : Nat) (candidateId : NodeId) (lastLogIndex lastLogTerm : Nat)
  | requestVoteResponse (term : Nat) (granted : Bool)
  | appendEntries (term : Nat) (leaderId : NodeId) (prevLogIndex prevLogTerm : Nat)
      (entries : List LogEntry) (leaderCommit : Nat) (readContext : Option Bytes)
  | appendEntriesResponse (term : Nat) (success : Bool) (matchIndex conflictIndex : Nat)
      (conflictTerm : Option Nat) (readContext : Option Bytes)
  | installSnapshot (term : Nat) (leaderId : NodeId) (metadata : SnapshotMetadata)
      (offset : Nat) (data : Bytes) (done : Bool)
  | installSnapshotResponse (term : Nat) (accepted : Bool) (nextOffset : Nat) (done : Bool)
      (matchIndex : Nat)
  deriving DecidableEq

inductive Input where
  | tick (tick : Tick)
  | message (sender : NodeId) (message : Message)
  | propose (id : CommandId) (command : Bytes)
  | readIndex (context : Bytes)
  | snapshotBuilt (snapshot : PersistentSnapshot)
  deriving DecidableEq

inductive StorageMutation where
  | hardState (hardState : HardState)
  | append (entries : List LogEntry)
  | truncateAndAppend (start : Nat) (entries : List LogEntry)
  | compactSnapshot (snapshot : PersistentSnapshot) (retainedEntries : List LogEntry)
  | installSnapshot (snapshot : PersistentSnapshot) (retainedEntries : List LogEntry)
      (hardState : HardState)
  deriving DecidableEq

inductive ReadError where
  | notLeader
  | leaderNotReady
  | invalidContext
  | leadershipLost
  deriving DecidableEq, Repr

/-- Ordered effects of one step; a persist completes before the next action starts. -/
inductive Action where
  | persist (mutation : StorageMutation)
  | send (receiver : NodeId) (message : Message)
  | resetElectionTimer
  | resetHeartbeatTimer
  | roleChanged (role : Role) (term : Nat)
  | apply (entry : LogEntry)
  | proposalCommitted (id : CommandId) (index : Nat)
  | proposalRejected (id : CommandId) (leaderHint : Option NodeId)
  | readReady (context : Bytes) (index : Nat)
  | readRejected (context : Bytes) (error : ReadError)
  | snapshotRejected (reason : String)
  | fatal (reason : String)
  deriving DecidableEq

inductive RecoveryError where
  | notVoter (id : NodeId)
  | invalidSnapshot (reason : String)
  | invalidLog (reason : String)
  | invalidIndexes (reason : String)
  deriving DecidableEq, Repr

end AsterRaft
