import AsterDB.Core.Framing
import AsterDB.Models.Protocol.Native.Message

/-!
# Frames of the wire protocol

A frame is a header with magic, version, kind, length and checksum, and the message as
JSON. The decoder collects bytes and takes one frame at a time off their front.
-/

namespace AsterProtocol

open AsterRaft (Bytes)
open ByteString Fallible Serde

def protocolVersion : Nat := 1
def defaultMaxFrameBytes : Nat := 8 * 1024 * 1024
def magic : Bytes := [0x41, 0x53, 0x44, 0x42]
def headerBytes : Nat := 16

/-- The largest length of a buffer. -/
def usizeMax : Nat := 2 ^ 64 - 1

/-- The checksum of payloads. -/
class Crc32 where
  hash : Bytes → UInt32

/-- A placeholder for CRC-32 in runs that are evaluated. -/
@[reducible] def lengthSum : Crc32 := ⟨fun payload => .ofNat payload.length⟩

namespace WireMessage

def kind : WireMessage → UInt8
  | request _ => 1
  | response _ => 2
  | peer _ => 3

def toVec : WireMessage → Bytes
  | request value => Serde.toVec value
  | response value => Serde.toVec value
  | peer value => Serde.toVec value

/-- What the sender checks before it serialises. -/
def checkSend (maxFrameBytes : Nat) : WireMessage → Except DecodeError Unit
  | request value => value.validate
  | response value => value.validate
  | peer value =>
    failIf (maxFrameBytes < value.payload.length) (.limit "peer payload exceeds frame limit")

/-- What the receiver checks after it deserialised. -/
def checkReceived : WireMessage → Except DecodeError Unit
  | request value => value.validate
  | response value => value.validate
  | peer _ => .ok ()

end WireMessage

variable [Crc32]

/-- The header in front of a payload. -/
def frameHeader (kind : UInt8) (payload : Bytes) : Bytes :=
  magic ++ beBytes 2 protocolVersion ++ [kind, 0] ++ beBytes 4 payload.length ++
    beBytes 4 (Crc32.hash payload).toNat

def encode (message : WireMessage) (maxFrameBytes : Nat) : Except DecodeError Bytes := do
  message.checkSend maxFrameBytes
  let payload := message.toVec
  failIf (maxFrameBytes < payload.length)
    (.limit s!"frame has {payload.length} payload bytes; maximum is {maxFrameBytes}")
  failIf (2 ^ 32 ≤ payload.length) (.limit "payload does not fit wire length")
  return frameHeader message.kind payload ++ payload

structure FrameDecoder where
  buffer : Bytes
  maxFrameBytes : Nat

namespace FrameDecoder

def new (maxFrameBytes : Nat) : FrameDecoder := { buffer := [], maxFrameBytes }

def feed (bytes : Bytes) (decoder : FrameDecoder) : FrameDecoder :=
  { decoder with buffer := decoder.buffer ++ bytes }

def bufferedBytes (decoder : FrameDecoder) : Nat := decoder.buffer.length

variable [Deserialize ClientRequest] [Deserialize ClientResponse] [Deserialize PeerEnvelope]

/-- The message a payload holds. -/
def readPayload (kind : UInt8) (payload : Bytes) : Except DecodeError WireMessage :=
  match kind.toNat with
  | 1 => .request <$> (fromSlice payload).mapError DecodeError.payload
  | 2 => .response <$> (fromSlice payload).mapError DecodeError.payload
  | 3 => .peer <$> (fromSlice payload).mapError DecodeError.payload
  | other => .error (.kind other)

/-- The message at the front of the buffer and the length of its frame, or nothing if the frame
is not complete. -/
def frontFrame (buffer : Bytes) (maxFrameBytes : Nat) :
    Except DecodeError (Option (WireMessage × Nat)) :=
  if buffer.length < headerBytes then .ok none
  else do
    failIf (slice buffer 0 4 ≠ magic) .badMagic
    let version := beNat (slice buffer 4 2)
    failIf (version ≠ protocolVersion) (.version version)
    failIf (buffer.getD 7 0 ≠ 0) (.payload "nonzero reserved frame flags")
    let payloadLen := beNat (slice buffer 8 4)
    failIf (maxFrameBytes < payloadLen)
      (.limit s!"declared payload is {payloadLen} bytes; maximum is {maxFrameBytes}")
    failIf (usizeMax < headerBytes + payloadLen) (.limit "frame length overflow")
    let total := headerBytes + payloadLen
    if buffer.length < total then return none
    else
      let checksum := beNat (slice buffer 12 4)
      let payload := slice buffer headerBytes payloadLen
      failIf ((Crc32.hash payload).toNat ≠ checksum) .checksum
      let message ← readPayload (buffer.getD 6 0) payload
      return some (message, total)

/-- Take a frame off the buffer. A message that fails its own checks is taken off all the same. -/
def decode (decoder : FrameDecoder) : Except DecodeError (Option WireMessage) × FrameDecoder :=
  match frontFrame decoder.buffer decoder.maxFrameBytes with
  | .error e => (.error e, decoder)
  | .ok none => (.ok none, decoder)
  | .ok (some (message, total)) =>
    let decoder := { decoder with buffer := decoder.buffer.drop total }
    match message.checkReceived with
    | .error e => (.error e, decoder)
    | .ok () => (.ok (some message), decoder)

/-- Fill a buffer from a reader, which is at the end of the file once its bytes are out. -/
def readExact (count : Nat) (reader : Bytes) : Option Bytes × Bytes :=
  if reader.length < count then (none, []) else (some (reader.take count), reader.drop count)

/-- The message of a frame that was read in two parts. -/
def decodeFrame (maxFrameBytes : Nat) (header payload : Bytes) :
    Except DecodeError (Option WireMessage) :=
  match (((new maxFrameBytes).feed header).feed payload).decode.1 with
  | .ok none => .error .incomplete
  | answer => answer

/-- Read a header and then the payload it announces. The end of the file before the header is
complete is taken as the end of the stream. -/
def readMessage (maxFrameBytes : Nat) (reader : Bytes) :
    Except DecodeError (Option WireMessage) × Bytes :=
  match readExact headerBytes reader with
  | (none, reader) => (.ok none, reader)
  | (some header, reader) =>
    let payloadLen := beNat (slice header 8 4)
    if slice header 0 4 ≠ magic then (.error .badMagic, reader)
    else if maxFrameBytes < payloadLen then
      (.error (.limit s!"declared payload is {payloadLen} bytes; maximum is {maxFrameBytes}"),
        reader)
    else
      match readExact payloadLen reader with
      | (none, reader) => (.error (.io "early eof"), reader)
      | (some payload, reader) => (decodeFrame maxFrameBytes header payload, reader)

/-- The decoder as it is used: fed and asked. -/
def stream : Framing.Decoder FrameDecoder UInt8 WireMessage DecodeError where
  feed := feed
  decode := decode

end FrameDecoder

end AsterProtocol
