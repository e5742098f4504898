import AsterDB.Core.Runs
import AsterDB.Models.Raft.Native.Node

/-!
# A cluster of nodes under crashes and an unreliable network

Every packet ever sent stays available, so loss, duplication, delay and
reordering are choices of which packet to deliver next, if any. A step of a
node performs its actions in list order; a crash may cut them after any prefix
and then only the performed persists and applies survive.
-/

namespace AsterRaft

open Std

/-- A message on the wire. -/
structure Packet where
  sender : NodeId
  receiver : NodeId
  message : Message
  deriving DecidableEq

/-- What one storage mutation leaves on disk. -/
def StableState.mutate (s : StableState) : StorageMutation → StableState
  | .hardState hardState => { s with hardState }
  | .append entries => { s with entries := s.entries ++ entries }
  | .truncateAndAppend start entries =>
    { s with
      entries :=
        s.entries.take (start - ((RaftLog.new s.snapshot s.entries).baseIndex + 1)) ++ entries }
  | .compactSnapshot snapshot retainedEntries =>
    { s with snapshot := some snapshot, entries := retainedEntries }
  | .installSnapshot snapshot retainedEntries hardState =>
    { hardState
      snapshot := some snapshot
      entries := retainedEntries
      appliedIndex := snapshot.metadata.lastIncludedIndex }

/-- The durable effect of one performed action. -/
def StableState.perform (s : StableState) : Action → StableState
  | .persist mutation => s.mutate mutation
  | .apply entry => { s with appliedIndex := entry.index }
  | _ => s

/-- History of a run: inputs as they are given and actions as they are performed. -/
inductive Event where
  /-- Node `node`, in term `term`, is handed an input. -/
  | given (node : NodeId) (term : Nat) (input : Input)
  /-- An action is performed by a node that wrote `before` to disk so far. -/
  | performed (node : NodeId) (role : Role) (before : StableState) (action : Action)
  deriving DecidableEq

namespace Event

/-- A commit index raised by a leader, with the log the leader had on disk. -/
structure Commit where
  node : NodeId
  term : Nat
  index : Nat
  log : RaftLog
  deriving DecidableEq, Repr

/-- A leader persists a higher commit index. A raise that a crash cut off before its `persist` does
not count. -/
def commit? : Event → Option Commit
  | .performed node .leader before (.persist (.hardState hardState)) =>
    if before.hardState.commitIndex < hardState.commitIndex then some {
      node
      term := hardState.currentTerm
      index := hardState.commitIndex
      log := RaftLog.new before.snapshot before.entries }
    else none
  | _ => none

/-- An entry into the leader role, with the log the new leader had on disk. -/
structure Election where
  node : NodeId
  term : Nat
  log : RaftLog
  deriving DecidableEq, Repr

/-- A node announces itself leader of a term. -/
def election? : Event → Option Election
  | .performed node _ before (.roleChanged .leader term) => some {
      node
      term
      log := RaftLog.new before.snapshot before.entries }
  | _ => none

/-- A vote of `node` in `term`. -/
structure Vote where
  node : NodeId
  term : Nat
  candidate : NodeId
  deriving DecidableEq, Repr

/-- A vote is written to disk or granted on the wire. -/
def vote? : Event → Option Vote
  | .performed node _ _ (.persist (.hardState hardState)) =>
    hardState.votedFor.map fun candidate => { node, term := hardState.currentTerm, candidate }
  | .performed node _ _ (.persist (.installSnapshot _ _ hardState)) =>
    hardState.votedFor.map fun candidate => { node, term := hardState.currentTerm, candidate }
  | .performed node _ _ (.send candidate (.requestVoteResponse term true)) =>
    some { node, term, candidate }
  | _ => none

/-- An entry handed to the state machine. -/
def applied? : Event → Option LogEntry
  | .performed _ _ _ (.apply entry) => some entry
  | _ => none

/-- A read request as it is given to a node in a term. -/
structure Read where
  node : NodeId
  term : Nat
  context : Bytes
  deriving DecidableEq, Repr

def read? : Event → Option Read
  | .given node term (.readIndex context) => some { node, term, context }
  | _ => none

/-- A read answered at an index, with the apply index of the node at that moment. -/
structure Ready where
  node : NodeId
  context : Bytes
  index : Nat
  appliedIndex : Nat
  deriving DecidableEq, Repr

def ready? : Event → Option Ready
  | .performed node _ before (.readReady context index) =>
    some { node, context, index, appliedIndex := before.appliedIndex }
  | _ => none

end Event

/-- What survives crashes, with the network and the history. -/
structure World where
  disk : ExtTreeMap NodeId StableState
  /-- Packets in the order they were sent. -/
  network : List Packet
  /-- Events, the latest first. -/
  history : List Event

namespace World

/-- The stable state of a node; nodes start with the default one. -/
def stable (w : World) (n : NodeId) : StableState := (w.disk[n]?).getD .default

/-- Perform one action of node `n`, whose memory has role `role`. -/
def perform (w : World) (n : NodeId) (role : Role) (a : Action) : World where
  disk := w.disk.insert n ((w.stable n).perform a)
  network :=
    match a with
    | .send receiver message => w.network ++ [{ sender := n, receiver, message }]
    | _ => w.network
  history := .performed n role (w.stable n) a :: w.history

/-- Record an input of node `n` in the history. -/
def given (w : World) (n : NodeId) (term : Nat) (input : Input) : World :=
  { w with history := .given n term input :: w.history }

/-- Perform actions in list order. -/
def performAll (w : World) (n : NodeId) (role : Role) (actions : List Action) : World :=
  actions.foldl (fun w a => w.perform n role a) w

end World

structure Cluster where
  world : World
  /-- Nodes that are up, in memory. -/
  memory : ExtTreeMap NodeId Raft

namespace Cluster

def init : Cluster where
  world := { disk := ∅, network := [], history := [] }
  memory := ∅

/-- One transition of the cluster. -/
inductive Label where
  /-- Hand a local input to a node and perform all actions. -/
  | input (node : NodeId) (input : Input)
  /-- Deliver the packet at a position of the network and perform all actions. -/
  | deliver (packet : Nat)
  /-- As `input`, but crash after `count` actions. -/
  | inputCrash (node : NodeId) (input : Input) (count : Nat)
  /-- As `deliver`, but crash after `count` actions. -/
  | deliverCrash (packet count : Nat)
  | crash (node : NodeId)
  | restart (node : NodeId)
  deriving DecidableEq

/-- Inputs that do not come from the network. -/
def localInput : Input → Bool
  | .message _ _ => false
  | _ => true

/-- Entries into the leader role, the latest first. -/
def elections (c : Cluster) : List Event.Election := c.world.history.filterMap Event.election?

/-- Commits raised by leaders, the latest first. -/
def commits (c : Cluster) : List Event.Commit := c.world.history.filterMap Event.commit?

/-- Votes written or sent, the latest first. -/
def votes (c : Cluster) : List Event.Vote := c.world.history.filterMap Event.vote?

/-- Entries handed to state machines, the latest first. -/
def applied (c : Cluster) : List LogEntry := c.world.history.filterMap Event.applied?

/-- Reads given to nodes, the latest first. -/
def reads (c : Cluster) : List Event.Read := c.world.history.filterMap Event.read?

variable [Sha256]

/-- Run one input on node `n`; with `count` the node crashes after that many actions. -/
def run (c : Cluster) (n : NodeId) (input : Input) (count : Option Nat) : Option Cluster :=
  match c.memory[n]? with
  | none => none
  | some r =>
    let (r', actions) := r.step input
    let world := c.world.given n r.term input
    match count with
    | none => some {
        world := world.performAll n r'.role actions
        memory := c.memory.insert n r' }
    | some k => some {
        world := world.performAll n r'.role (actions.take k)
        memory := c.memory.erase n }

/-- The successor of a cluster, if the transition is enabled. -/
def next (configuration : Configuration) (c : Cluster) : Label → Option Cluster
  | .input n input => if localInput input then c.run n input none else none
  | .deliver k =>
    match c.world.network[k]? with
    | none => none
    | some p => c.run p.receiver (.message p.sender p.message) none
  | .inputCrash n input count => if localInput input then c.run n input (some count) else none
  | .deliverCrash k count =>
    match c.world.network[k]? with
    | none => none
    | some p => c.run p.receiver (.message p.sender p.message) (some count)
  | .crash n => some { c with memory := c.memory.erase n }
  | .restart n =>
    match c.memory[n]? with
    | some _ => none
    | none =>
      match Raft.recover n configuration (c.world.stable n) with
      | .error _ => none
      | .ok r => some { c with memory := c.memory.insert n r }

/-- Clusters reached by transitions that all meet a condition. -/
abbrev ReachableIf (configuration : Configuration) : (Cluster → Label → Prop) → Cluster → Prop :=
  Runs.ReachableIf init (next configuration)

/-- Clusters reached by any transitions. -/
abbrev Reachable (configuration : Configuration) : Cluster → Prop :=
  ReachableIf configuration fun _ _ => True

end Cluster

end AsterRaft
