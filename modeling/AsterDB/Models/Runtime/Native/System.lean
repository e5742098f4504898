import AsterDB.Models.Runtime.Native.Node

/-!
# Runtimes on one network

Runtimes share the world of the consensus cores: their disks, the packets ever
sent and the history. A step hands one input to a core and executes its actions
in order. An error stops the node where it stands; so does a crash, after any
number of actions.
-/

namespace AsterRuntime

open AsterRaft Std

variable {ρ : Type}

/-- Execute actions until one of them fails. -/
def executeActions (n : NodeId) (role : Role) (database : Database ρ) :
    List Action → World → Runtime ρ → World × Result (Runtime ρ) × List (Reply ρ)
  | [], w, rt => (w, .ok rt, [])
  | a :: rest, w, rt =>
    match rt.executeAction database a with
    | .error error => (w, .error error, [])
    | .ok (rt, replies) =>
      let (w, rt, more) := executeActions n role database rest (w.perform n role a) rt
      (w, rt, replies ++ more)

/-- What a node meets besides packets. -/
inductive RuntimeEvent (ρ : Type) where
  | timer (tick : Tick)
  | propose (preparation : Except String (MutationPreparation ρ))
  | query
  /-- The retained log has outgrown its limits. -/
  | snapshot

/-- Timers that fire in a role. -/
def firesIn (role : Role) : Tick → Bool
  | .election => role ≠ .leader
  | .heartbeat | .checkQuorum => role = .leader

/-- What a node does with an event before its core takes a step. -/
def Runtime.onEvent [Sha256] (rt : Runtime ρ) (stable : StableState) (database : Database ρ) :
    RuntimeEvent ρ → Result (Runtime ρ × List (Reply ρ) × Option Input)
  | .timer tick => .ok (rt, [], if firesIn rt.raft.role tick then some (.tick tick) else none)
  | .propose preparation => rt.propose preparation
  | .query => rt.read
  | .snapshot => rt.maybeSnapshot stable database

structure System (ρ : Type) where
  world : World
  /-- Nodes that are up. -/
  memory : ExtTreeMap NodeId (Runtime ρ)
  /-- Everything sent to callers, in order. -/
  replies : List (Reply ρ)

namespace System

def init : System ρ where
  world := Cluster.init.world
  memory := ∅
  replies := []

/-- One transition. With `count` the node crashes after that many actions. -/
inductive Label (ρ : Type) where
  | event (node : NodeId) (event : RuntimeEvent ρ) (database : Database ρ) (count : Option Nat)
  /-- Deliver the packet at a position of the network. -/
  | deliver (packet : Nat) (database : Database ρ) (count : Option Nat)
  | start (node : NodeId) (database : Database ρ) (count : Option Nat)
  | shutdown (node : NodeId)
  | crash (node : NodeId)

/-- Proposals answered with the result of an applied entry. -/
def acknowledgements (c : System ρ) : List (Acknowledgement ρ) :=
  c.replies.filterMap fun
    | .acknowledged answer => some answer
    | _ => none

variable [Sha256]

/-- A step of the core of node `n`, up or about to be, and the execution of its actions. -/
def step (c : System ρ) (n : NodeId) (rt : Runtime ρ) (replies : List (Reply ρ)) (input : Input)
    (database : Database ρ) (count : Option Nat) : System ρ :=
  let (raft, actions) := rt.raft.step input
  let world := c.world.given n rt.raft.term input
  let (world, outcome, more) := executeActions n raft.role database
    (match count with
      | none => actions
      | some k => actions.take k) world { rt with raft }
  { world
    memory :=
      match count, outcome with
      | none, .ok rt => c.memory.insert n rt
      | _, _ => c.memory.erase n
    replies := c.replies ++ replies ++ more }

/-- The successor of a system, if the transition is enabled. -/
def next (configuration : Configuration) (capacity : Nat) (c : System ρ) :
    Label ρ → Option (System ρ)
  | .event n event database count =>
    match c.memory[n]? with
    | none => none
    | some rt =>
      match rt.onEvent (c.world.stable n) database event with
      | .error _ => some { c with memory := c.memory.erase n }
      | .ok (rt, replies, none) => some { c with
          memory := c.memory.insert n rt
          replies := c.replies ++ replies }
      | .ok (rt, replies, some input) => some (c.step n rt replies input database count)
  | .deliver k database count =>
    match c.world.network[k]? with
    | none => none
    | some p =>
      match c.memory[p.receiver]? with
      | none => none
      | some rt => some (c.step p.receiver rt [] (.message p.sender p.message) database count)
  | .start n database count =>
    match c.memory[n]? with
    | some _ => none
    | none =>
      match nextCommandCounter n (c.world.stable n), Raft.recover n configuration (c.world.stable n)
      with
      | .ok nextCommand, .ok raft =>
        some (c.step n (.new n capacity raft nextCommand) [] (.tick .heartbeat) database count)
      | _, _ => none
  | .shutdown n =>
    match c.memory[n]? with
    | none => none
    | some rt => some { c with
        memory := c.memory.erase n
        replies := c.replies ++ (rt.rejectPending .shutdown).2 }
  | .crash n => some { c with memory := c.memory.erase n }

/-- Systems reached by transitions that all meet a condition. -/
abbrev ReachableIf (configuration : Configuration) (capacity : Nat) :
    (System ρ → Label ρ → Prop) → System ρ → Prop :=
  Runs.ReachableIf init (next configuration capacity)

/-- Systems reached by any transitions. -/
abbrev Reachable (configuration : Configuration) (capacity : Nat) : System ρ → Prop :=
  ReachableIf configuration capacity fun _ _ => True

end System

end AsterRuntime
