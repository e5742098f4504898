import AsterDB.Models.Protocol.Native.Frame

/-!
# Frames in a buffer

An encoded message at the front of a buffer is taken off it, and a part of one is
waited for. So the decoder takes frames off a stream.
-/

namespace AsterProtocol

open AsterRaft (Bytes)
open ByteString Fallible Serde

section Header

variable [Crc32] {kind : UInt8} {payload : Bytes}

/-- The fields of a header in their order, and what stands behind it. -/
def headerParts (kind : UInt8) (payload tail : Bytes) : List Bytes := [
  magic, beBytes 2 protocolVersion, [kind], [0], beBytes 4 payload.length,
  beBytes 4 (Crc32.hash payload).toNat, tail]

theorem frameHeader_append (kind : UInt8) (payload tail : Bytes) :
    frameHeader kind payload ++ tail = (headerParts kind payload tail).flatten := by
  simp [frameHeader, headerParts]

@[simp]
theorem length_frameHeader (kind : UInt8) (payload : Bytes) :
    (frameHeader kind payload).length = headerBytes := by
  simp [frameHeader, magic, headerBytes]

/-- A field is found behind the fields before it. -/
theorem slice_header {tail part : Bytes} {start count : Nat} (k : Nat)
    (hpart : (headerParts kind payload tail)[k]? = some part)
    (hstart : ((headerParts kind payload tail).take k).flatten.length = start)
    (hcount : part.length = count) :
    slice (frameHeader kind payload ++ tail) start count = part := by
  rw [frameHeader_append]
  exact slice_flatten k hpart hstart hcount

variable [Deserialize ClientRequest] [Deserialize ClientResponse] [Deserialize PeerEnvelope]

/-- A header is understood, and then the payload it announces counts. -/
theorem frontFrame_header {maxFrameBytes : Nat} (tail : Bytes)
    (hmax : payload.length ≤ maxFrameBytes) (hwire : payload.length < 2 ^ 32) :
    FrameDecoder.frontFrame (frameHeader kind payload ++ tail) maxFrameBytes =
      if tail.length < payload.length then .ok none
      else do
        failIf ((Crc32.hash (tail.take payload.length)).toNat ≠ (Crc32.hash payload).toNat)
          .checksum
        let message ← FrameDecoder.readPayload kind (tail.take payload.length)
        return some (message, headerBytes + payload.length) := by
  have hlength : (frameHeader kind payload ++ tail).length = headerBytes + tail.length := by simp
  have hmagic : slice (frameHeader kind payload ++ tail) 0 4 = magic := slice_header 0 rfl rfl rfl
  have hversion : slice (frameHeader kind payload ++ tail) 4 2 = beBytes 2 protocolVersion :=
    slice_header 1 rfl rfl rfl
  have hkind : slice (frameHeader kind payload ++ tail) 6 1 = [kind] := slice_header 2 rfl rfl rfl
  have hflags : slice (frameHeader kind payload ++ tail) 7 1 = [0] := slice_header 3 rfl rfl rfl
  have hpayload : slice (frameHeader kind payload ++ tail) 8 4 = beBytes 4 payload.length :=
    slice_header 4 rfl rfl (length_beBytes ..)
  have hchecksum : slice (frameHeader kind payload ++ tail) 12 4 =
      beBytes 4 (Crc32.hash payload).toNat :=
    slice_header 5 rfl (by simp [headerParts, magic]) (length_beBytes ..)
  have hslice : slice (frameHeader kind payload ++ tail) headerBytes payload.length =
      tail.take payload.length := by
    rw [slice, List.drop_left' (length_frameHeader kind payload)]
  have husize : ¬usizeMax < headerBytes + payload.length := by
    simp only [usizeMax, headerBytes]
    omega
  unfold FrameDecoder.frontFrame
  rw [if_neg (by omega)]
  simp only [hmagic, hversion, getD_eq_slice, hflags, hpayload, hchecksum, hslice, hkind, hlength,
    beNat_beBytes_of_lt (show protocolVersion < 256 ^ 2 by decide),
    beNat_beBytes_of_lt (show payload.length < 256 ^ 4 from hwire),
    beNat_beBytes_of_lt (show (Crc32.hash payload).toNat < 256 ^ 4 from UInt32.toNat_lt _),
    husize, Nat.not_lt.mpr hmax, List.head?_cons, Option.getD_some, ne_eq, not_true_eq_false,
    failIf, if_false, Nat.add_lt_add_iff_left]
  rfl

end Header

variable {message : WireMessage} {maxFrameBytes : Nat}

/-- What the sender accepted is short enough and framed as it is. -/
theorem encode_eq_ok [Crc32] {frame : Bytes} :
    encode message maxFrameBytes = .ok frame ↔
      message.checkSend maxFrameBytes = .ok () ∧ message.toVec.length ≤ maxFrameBytes ∧
        message.toVec.length < 2 ^ 32 ∧
        frame = frameHeader message.kind message.toVec ++ message.toVec := by
  unfold encode
  simp only [bind_eq_ok, failIf_eq_ok, pure_eq_ok, Nat.not_lt, Nat.not_le]
  constructor
  · rintro ⟨_, hcheck, _, hmax, _, hwire, rfl⟩
    exact ⟨hcheck, hmax, hwire, rfl⟩
  · rintro ⟨hcheck, hmax, hwire, rfl⟩
    exact ⟨(), hcheck, (), hmax, (), hwire, rfl⟩

/-- The receiver's checks are among the sender's. -/
theorem checkReceived_of_checkSend
    (h : message.checkSend maxFrameBytes = .ok ()) : message.checkReceived = .ok () := by
  cases message with
  | request value => exact h
  | response value => exact h
  | peer value => rfl

namespace FrameDecoder

variable [Deserialize ClientRequest] [Deserialize ClientResponse] [Deserialize PeerEnvelope]

/-- A payload is read as the message that was written. -/
theorem readPayload_toVec (message : WireMessage) :
    readPayload message.kind message.toVec = .ok message := by
  cases message <;>
    simp [readPayload, WireMessage.kind, WireMessage.toVec, fromSlice_toVec, Except.mapError]

/-- The decoder holds these bytes and has this limit. -/
def Holds (maxFrameBytes : Nat) (held : Bytes) (decoder : FrameDecoder) : Prop :=
  decoder = { buffer := held, maxFrameBytes }

/-- The decoder takes the frames the sender makes under the same limit. -/
theorem stream_takes [Crc32] (maxFrameBytes : Nat) :
    Framing.Takes stream (Holds maxFrameBytes)
      fun message frame => encode message maxFrameBytes = .ok frame where
  feed := by
    rintro held bytes decoder rfl
    rfl
  ready := by
    rintro message frame rest decoder hframe rfl
    obtain ⟨hcheck, hmax, hwire, rfl⟩ := encode_eq_ok.mp hframe
    refine ⟨_, ?_, rfl⟩
    have hfront : frontFrame (frameHeader message.kind message.toVec ++ message.toVec ++ rest)
        maxFrameBytes = .ok (some (message, headerBytes + message.toVec.length)) := by
      rw [List.append_assoc, frontFrame_header _ hmax hwire, if_neg (by simp), List.take_left,
        readPayload_toVec]
      exact bind_eq_ok.mpr ⟨(), failIf_eq_ok.mpr (not_not.mpr rfl), rfl⟩
    have hdrop : (frameHeader message.kind message.toVec ++ message.toVec ++ rest).drop
        (headerBytes + message.toVec.length) = rest := List.drop_left' (by simp)
    simp only [stream, decode, hfront, checkReceived_of_checkSend hcheck, hdrop]
  waits := by
    rintro message frame held decoder hframe rfl hshort hne
    obtain ⟨hcheck, hmax, hwire, rfl⟩ := encode_eq_ok.mp hframe
    have hfront : frontFrame held maxFrameBytes = .ok none := by
      by_cases hheader : held.length < headerBytes
      · rw [frontFrame, if_pos hheader]
      · have hprefix : frameHeader message.kind message.toVec <+: held :=
          List.prefix_of_prefix_length_le (List.prefix_append _ _) hshort
            (by rw [length_frameHeader]; omega)
        obtain ⟨tail, rfl⟩ := hprefix
        have htail : tail <+: message.toVec := (List.prefix_append_right_inj _).mp hshort
        have hlt : tail.length < message.toVec.length :=
          Nat.lt_of_le_of_ne htail.length_le fun hlength =>
            hne (congrArg _ (htail.eq_of_length hlength))
        rw [frontFrame_header _ hmax hwire, if_pos hlt]
    simp only [stream, decode, hfront]
  empty := by
    rintro decoder rfl
    rfl

end FrameDecoder

end AsterProtocol
