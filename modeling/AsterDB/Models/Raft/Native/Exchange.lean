import AsterDB.Models.Raft.Native.Node

/-!
# Two nodes that exchange messages

A leader and one follower, and the message of the leader that is on its way. A round
delivers it, and then the reply to it. Nothing is lost, and nobody else speaks.
-/

namespace AsterRaft

/-- The first message to a node among actions. -/
def sentTo (receiver : NodeId) : List Action → Option Message
  | [] => none
  | .send other message :: rest =>
    if other = receiver then some message else sentTo receiver rest
  | _ :: rest => sentTo receiver rest

/-- What the leader sends to a peer next. -/
def Raft.messageFor (r : Raft) (peer : NodeId) : Option Message :=
  sentTo peer (Turn.sendAppend { raft := r, actions := [] } peer none).actions

structure Exchange where
  leader : Raft
  follower : Raft
  message : Option Message

namespace Exchange

/-- The leader turns to the follower. -/
def start (leader follower : Raft) : Exchange where
  leader := leader
  follower := follower
  message := leader.messageFor follower.id

variable [Sha256]

/-- What the message on its way makes of the follower. -/
def delivered (x : Exchange) : Raft × List Action :=
  match x.message with
  | none => (x.follower, [])
  | some message => x.follower.step (.message x.leader.id message)

/-- One message and the reply to it. -/
def round (x : Exchange) : Exchange :=
  let (follower, replies) := x.delivered
  match sentTo x.leader.id replies with
  | none => { x with follower, message := none }
  | some reply =>
    let (leader, sent) := x.leader.step (.message x.follower.id reply)
    { leader, follower, message := sentTo x.follower.id sent }

end Exchange

end AsterRaft
