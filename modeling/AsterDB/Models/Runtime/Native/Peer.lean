import AsterDB.Models.Protocol.Native.Frame
import AsterDB.Models.Raft.Native.Json
import AsterDB.Models.Runtime.Native.Node

/-!
# Sending to peers

How a message of the consensus core goes out: its JSON text becomes the payload of an
envelope, and the envelope is framed by a task of its own, which drops it if it cannot be
encoded. Of the configuration only what sending reads is here.
-/

namespace AsterRuntime

open AsterRaft AsterProtocol Std
open Fallible Serde

/-- The fields of a configuration that sending reads; an address is its text. -/
structure RuntimeConfig where
  nodeId : NodeId
  peers : ExtTreeMap NodeId String
  maxFrameBytes : Nat

namespace RuntimeConfig

def localhost (nodeId : NodeId) (peers : ExtTreeMap NodeId String) : RuntimeConfig where
  nodeId := nodeId
  peers := peers
  maxFrameBytes := defaultMaxFrameBytes

variable (config : RuntimeConfig)

/-- The envelope that is handed to the sending task, or the error that ends the runtime. -/
def sendPeer (term correlationId : Nat) (receiver : NodeId) (message : Message) :
    Result PeerEnvelope := do
  failIf (receiver ∉ config.peers)
    (.fenced s!"Raft attempted to send to unknown voter {receiver}")
  let payload := toVec message
  failIf (config.maxFrameBytes < payload.length)
    (.limit s!"peer message is {payload.length} bytes; frame maximum is {config.maxFrameBytes}")
  return { sender := config.nodeId, receiver, term, correlationId, payload }

/-- A message goes out: no error ends the runtime, and the sending task writes a frame. -/
def Sends [Crc32] (term correlationId : Nat) (receiver : NodeId) (message : Message) : Prop :=
  ∃ envelope frame, config.sendPeer term correlationId receiver message = .ok envelope ∧
    encode (.peer envelope) config.maxFrameBytes = .ok frame

end RuntimeConfig

end AsterRuntime
