import AsterDB.Models.Protocol.Correctness.Streams

/-!
# The end of a stream

A reader of a connection that ends in the middle of a frame: it returns the messages before
it and then fails, unless the header of the frame is cut, which passes for the end.
-/

namespace AsterProtocol

open AsterRaft (Bytes)
open ByteString Fallible Serde FrameDecoder

/-- The number of complete frames at the front of some bytes, and what follows them. -/
def complete : List Bytes → Bytes → Nat × Bytes
  | [], bytes => (0, bytes)
  | frame :: frames, bytes =>
    if frame <+: bytes then
      let (count, part) := complete frames (bytes.drop frame.length)
      (count + 1, part)
    else (0, bytes)

section

variable [Crc32] [Deserialize ClientRequest] [Deserialize ClientResponse]
  [Deserialize PeerEnvelope]

/-- The answers to some calls in a row. -/
def readMessages (maxFrameBytes : Nat) :
    Nat → Bytes → List (Except DecodeError (Option WireMessage))
  | 0, _ => []
  | count + 1, reader =>
    let (answer, reader) := readMessage maxFrameBytes reader
    answer :: readMessages maxFrameBytes count reader

/-- The messages whose frames are complete are returned, and then the end of the stream if it is
there, and an error otherwise. -/
def Truthful (maxFrameBytes : Nat) (messages : List WireMessage) (frames : List Bytes)
    (before : Bytes) : Prop :=
  ∃ last, readMessages maxFrameBytes ((complete frames before).1 + 1) before =
      (messages.take (complete frames before).1).map (fun message => .ok (some message)) ++ [last] ∧
    (last = .ok none ↔ (complete frames before).2 = []) ∧
    ((complete frames before).2 ≠ [] → ∃ e, last = .error e)

/-- What a reader says at the end of the file. -/
def lastAnswer (part : Bytes) : Except DecodeError (Option WireMessage) :=
  if part.length < headerBytes then .ok none else .error (.io "early eof")

variable {maxFrameBytes : Nat} {message : WireMessage} {frame : Bytes}

/-- Behind a header the payload is read. -/
theorem readMessage_header (tail : Bytes) (hmax : message.toVec.length ≤ maxFrameBytes)
    (hwire : message.toVec.length < 2 ^ 32) :
    readMessage maxFrameBytes (frameHeader message.kind message.toVec ++ tail) =
      if tail.length < message.toVec.length then (.error (.io "early eof"), [])
      else (decodeFrame maxFrameBytes (frameHeader message.kind message.toVec)
        (tail.take message.toVec.length), tail.drop message.toVec.length) := by
  have hmagic : slice (frameHeader message.kind message.toVec ++ []) 0 4 = magic :=
    slice_header 0 rfl rfl rfl
  have hlength : slice (frameHeader message.kind message.toVec ++ []) 8 4 =
    beBytes 4 message.toVec.length := slice_header 4 rfl rfl (length_beBytes ..)
  rw [List.append_nil] at hmagic hlength
  unfold readMessage readExact
  rw [if_neg (by simp), List.take_left' (length_frameHeader ..),
    List.drop_left' (length_frameHeader ..)]
  dsimp only
  rw [hmagic, hlength, beNat_beBytes_of_lt (show _ < 256 ^ 4 from hwire), if_neg (not_not.mpr rfl),
    if_neg (Nat.not_lt.mpr hmax)]
  by_cases hshort : tail.length < message.toVec.length
  · rw [if_pos hshort, if_pos hshort]
  · rw [if_neg hshort, if_neg hshort]

/-- A complete frame is read as its message. -/
theorem readMessage_frame (hframe : encode message maxFrameBytes = .ok frame) (rest : Bytes) :
    readMessage maxFrameBytes (frame ++ rest) = (.ok (some message), rest) := by
  obtain ⟨-, hmax, hwire, rfl⟩ := encode_eq_ok.mp hframe
  have hholds : Holds maxFrameBytes (frameHeader message.kind message.toVec ++ message.toVec ++ [])
      (((new maxFrameBytes).feed (frameHeader message.kind message.toVec)).feed message.toVec) := by
    simp [Holds, feed, new]
  obtain ⟨_, hdecode, -⟩ := (stream_takes maxFrameBytes).ready hframe hholds
  rw [List.append_assoc, readMessage_header _ hmax hwire, if_neg (by simp), List.take_left,
    List.drop_left, decodeFrame, show decode _ = _ from hdecode]

/-- A part of a frame is the end of the file. -/
theorem readMessage_part {part : Bytes} (hframe : encode message maxFrameBytes = .ok frame)
    (hpart : part <+: frame) (hne : ¬frame <+: part) :
    (readMessage maxFrameBytes part).1 = lastAnswer part := by
  obtain ⟨-, hmax, hwire, rfl⟩ := encode_eq_ok.mp hframe
  unfold lastAnswer
  split
  · rw [readMessage, readExact, if_pos ‹_›]
  · obtain ⟨tail, rfl⟩ := List.prefix_of_prefix_length_le (List.prefix_append _ _) hpart
      ((length_frameHeader ..).trans_le (Nat.le_of_not_lt ‹_›))
    rw [List.prefix_append_right_inj] at hpart hne
    have hshort : tail.length < message.toVec.length :=
      Nat.lt_of_le_of_ne hpart.length_le fun hlength =>
        hne (hpart.eq_of_length hlength ▸ List.prefix_rfl)
    rw [readMessage_header _ hmax hwire, if_pos hshort]

/-- The complete frames come out, and then it depends on how much of a header there is. -/
theorem readMessages_complete {messages : List WireMessage} {frames : List Bytes} {before : Bytes}
    (hframes : List.Forall₂ (fun message frame => encode message maxFrameBytes = .ok frame)
      messages frames) (hcut : before <+: frames.flatten) :
    readMessages maxFrameBytes ((complete frames before).1 + 1) before =
      (messages.take (complete frames before).1).map (fun message => .ok (some message)) ++
        [lastAnswer (complete frames before).2] := by
  induction hframes generalizing before with
  | nil =>
    obtain rfl : before = [] := List.prefix_nil.mp hcut
    rfl
  | @cons message frame messages frames hframe _ ih =>
    unfold complete
    split
    · rename_i hthere
      obtain ⟨rest, rfl⟩ := hthere
      have hrest := ih ((List.prefix_append_right_inj _).mp hcut)
      rw [List.drop_left' rfl]
      rw [readMessages, readMessage_frame hframe]
      dsimp only
      rw [hrest]
      rfl
    · rename_i hnot
      have hpart :=
        (List.prefix_or_prefix_of_prefix hcut (List.prefix_append _ _)).resolve_right hnot
      exact congrArg ([·]) (readMessage_part hframe hpart hnot)

/-- The end of the file is reported as it is unless a header is cut. -/
theorem end_of_stream {messages : List WireMessage} {frames : List Bytes}
    (hframes : messages.mapM (encode · maxFrameBytes) = .ok frames) {before : Bytes}
    (hcut : before <+: frames.flatten) :
    Truthful maxFrameBytes messages frames before ↔
      (complete frames before).2 = [] ∨ headerBytes ≤ (complete frames before).2.length := by
  have hread := readMessages_complete (mapM_eq_ok.mp hframes) hcut
  rw [Truthful, hread]
  generalize (complete frames before).2 = part
  simp only [List.append_cancel_left_eq, List.cons.injEq, and_true, exists_eq_left', lastAnswer]
  rcases Nat.lt_or_ge part.length headerBytes with hlt | hge
  · simp [hlt, Nat.not_le.mpr hlt]
  · have hne : part ≠ [] := List.ne_nil_of_length_pos (Nat.lt_of_lt_of_le (by decide) hge)
    simp [Nat.not_lt.mpr hge, hge, hne]

end

attribute [local instance] lengthSum

/-- The frames of the two requests are cut after some bytes. -/
def pingCut (count : Nat) : Bytes := pingFrames.flatten.take count

/-- A frame that is cut after its first byte passes for the end of the stream. -/
theorem header_cut :
    let _ := strictReader ClientRequest
    let _ := strictReader ClientResponse
    let _ := strictReader PeerEnvelope
    [ping 1, ping 2].mapM (encode · 1024) = .ok pingFrames ∧
      readMessages 1024 1 (pingCut 1) = [.ok none] ∧
      ¬Truthful 1024 [ping 1, ping 2] pingFrames (pingCut 1) := by
  intro _ _ _
  have hend : readMessages 1024 1 (pingCut 1) = [.ok none] := by decide +kernel
  have hcomplete : complete pingFrames (pingCut 1) = (0, pingCut 1) := by decide +kernel
  refine ⟨by decide +kernel, hend, ?_⟩
  rintro ⟨last, hread, hnone, -⟩
  cases hend.symm.trans hread
  exact absurd (hnone.mp rfl) (by decide)

/-- A frame and a header come out as a message and an error. -/
theorem end_of_stream_ping :
    let _ := strictReader ClientRequest
    let _ := strictReader ClientResponse
    let _ := strictReader PeerEnvelope
    Truthful 1024 [ping 1, ping 2] pingFrames (pingCut 100) := by
  intro _ _ _
  have hframes : [ping 1, ping 2].mapM (encode · 1024) = .ok pingFrames := by decide +kernel
  have hcut : pingCut 100 <+: pingFrames.flatten := List.take_prefix _ _
  exact (end_of_stream hframes hcut).mpr (by decide +kernel)

end AsterProtocol
