import AsterDB.Models.Protocol.Interpretation.Frame

/-!
# Messages come out of a stream as they went in

However a connection cuts the bytes of a sequence of messages, and however often the
decoder is asked in between, it returns the messages in order and without an error.
-/

namespace AsterProtocol

open AsterRaft (Bytes)
open ByteString Fallible Framing Serde

section

variable [Crc32] [Deserialize ClientRequest] [Deserialize ClientResponse]
  [Deserialize PeerEnvelope]

/-- The answers of a new decoder to some calls, and the decoder after them. -/
def FrameDecoder.runCalls (maxFrameBytes : Nat) (calls : List (Call UInt8)) :
    List (Except DecodeError (Option WireMessage)) × FrameDecoder :=
  run FrameDecoder.stream calls (FrameDecoder.new maxFrameBytes)

/-- After any calls that feed a part of the stream, no call has failed, the first `count` messages
are out and the decoder holds what follows their frames. The next call returns the next message
exactly if its last byte has been fed, and a message is out once its last byte has been fed and
the decoder was asked often enough since. -/
theorem messages_in_order {maxFrameBytes : Nat} {messages : List WireMessage} {frames : List Bytes}
    (hframes : messages.mapM (encode · maxFrameBytes) = .ok frames) {calls : List (Call UInt8)}
    (hfed : fed calls <+: frames.flatten) :
    ∃ count ≤ messages.length,
      (∀ answer ∈ (FrameDecoder.runCalls maxFrameBytes calls).1, ∃ message, answer = .ok message) ∧
      returned (FrameDecoder.runCalls maxFrameBytes calls).1 = messages.take count ∧
      fed calls = (frames.take count).flatten ++
        (FrameDecoder.runCalls maxFrameBytes calls).2.buffer ∧
      ((FrameDecoder.runCalls maxFrameBytes calls).2.decode).1 =
        .ok (if (frames.take (count + 1)).flatten <+: fed calls then messages[count]? else none) ∧
      (∀ before after wanted, calls = before ++ after → wanted ≤ messages.length →
        (frames.take wanted).flatten <+: fed before →
        wanted ≤ (returned (FrameDecoder.runCalls maxFrameBytes before).1).length + decodes after →
        wanted ≤ count) ∧
      (count = messages.length →
        (FrameDecoder.runCalls maxFrameBytes calls).2.bufferedBytes = 0) := by
  have htakes := FrameDecoder.stream_takes maxFrameBytes
  have hpairs := mapM_eq_ok.mp hframes
  have hnew : FrameDecoder.Holds maxFrameBytes [] (FrameDecoder.new maxFrameBytes) := rfl
  obtain ⟨count, hprogress⟩ := exists_progress htakes hpairs hnew hfed
  obtain ⟨held, hheld, hholds⟩ := hprogress.held
  have hbuffer : (FrameDecoder.runCalls maxFrameBytes calls).2.buffer = held :=
    congrArg FrameDecoder.buffer hholds
  refine ⟨count, hprogress.bounded, hprogress.succeeds, hprogress.returned, hbuffer ▸ hheld, ?_, ?_,
    ?_⟩
  · rcases hprogress.next htakes hpairs hfed with
      ⟨-, hthere, message, s', rest, hmessage, hdecode, -⟩ | ⟨hnot, hdecode⟩
    · rw [if_pos hthere, hmessage]
      exact congrArg Prod.fst hdecode
    · refine (congrArg Prod.fst hdecode).trans (congrArg Except.ok ?_)
      split
      case isFalse => rfl
      case isTrue hthere =>
        exact (List.getElem?_eq_none (Nat.le_of_not_lt fun hlt => hnot ⟨hlt, hthere⟩)).symm
  · rintro before after wanted rfl hwanted hthere hasked
    have hbefore : fed before <+: frames.flatten :=
      (fed_append before after ▸ List.prefix_append _ _).trans hfed
    obtain ⟨earlier, hearlier⟩ := exists_progress htakes hpairs hnew hbefore
    obtain ⟨later, hlater, hprogress'⟩ := hearlier.asked htakes hpairs hfed hwanted hthere
      (hearlier.length_returned ▸ hasked)
    rwa [← hprogress.length_returned, hprogress'.length_returned]
  · rintro rfl
    have hlength := congrArg List.length hheld
    have hle := hfed.length_le
    rw [List.take_of_length_le hpairs.length_eq.ge, List.length_append] at hlength
    rw [FrameDecoder.bufferedBytes, hbuffer]
    omega

end

/-- A request that only asks for an answer. -/
def ping (requestId : Nat) :
    WireMessage := .request { requestId, session := none, operation := .ping }

attribute [local instance] lengthSum

/-- The frames of two requests. -/
def pingFrames : List Bytes :=
  [1, 2].map fun id => frameHeader 1 (ping id).toVec ++ (ping id).toVec

/-- Two frames cut inside the first header, with a call too early and two calls at the end. -/
def pingCalls : List (Call UInt8) :=
  [.feed (pingFrames.flatten.take 10), .decode, .feed (pingFrames.flatten.drop 10)] ++
    [.decode, .decode]

theorem messages_in_order_pings :
    let _ := strictReader ClientRequest
    let _ := strictReader ClientResponse
    let _ := strictReader PeerEnvelope
    returned (FrameDecoder.runCalls 1024 pingCalls).1 = [ping 1, ping 2] ∧
      (FrameDecoder.runCalls 1024 pingCalls).2.bufferedBytes = 0 := by
  intro _ _ _
  have hframes : [ping 1, ping 2].mapM (encode · 1024) = .ok pingFrames := by decide +kernel
  have hfed : fed pingCalls <+: pingFrames.flatten := by decide +kernel
  obtain ⟨count, hle, -, hreturned, -, -, hasked, hempty⟩ := messages_in_order hframes hfed
  have hall : 2 ≤ count := hasked _ _ 2 rfl (by decide) (by decide +kernel) (by simp [decodes])
  obtain rfl : count = 2 := Nat.le_antisymm hle hall
  exact ⟨hreturned, hempty rfl⟩

end AsterProtocol
