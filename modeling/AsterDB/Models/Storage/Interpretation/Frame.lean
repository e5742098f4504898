import AsterDB.Models.Storage.Interpretation.Page

/-!
# Frames in bytes

An encoded frame decodes to itself, a cut one is a torn tail, and so the frames
of a cut log are those that are complete.
-/

namespace AsterStorage

open AsterRaft (Bytes u64Max)
open ByteString

namespace Frame

variable {frame : Frame} {offset : Nat}

/-- The length of a frame in bytes. -/
def size (frame : Frame) : Nat := frameFixed + frame.payload.length

/-- The bytes up to the checksum. -/
def body (frame : Frame) : Bytes := frameBody frame.kind frame.lsn frame.applyIndex frame.payload

def bytes (frame : Frame) : Bytes :=
  leBytes 4 frame.size ++ frame.body ++ leBytes 4 (crc32 frame.body) ++ leBytes 4 frame.size

/-- A frame that stands at an offset, with values of the width they are written in. -/
structure At (frame : Frame) (offset : Nat) : Prop where
  lsn : frame.lsn = offset
  lsn_le : offset ≤ u64Max
  applyIndex : frame.applyIndex ≤ u64Max
  size_le : frame.size ≤ maxFrame
  endLsn : frame.endLsn = offset + frame.size

theorem encodeFrame_eq (h : frame.size ≤ maxFrame) :
    encodeFrame frame.kind frame.lsn frame.applyIndex frame.payload = .ok frame.bytes := by
  exact if_neg (Nat.not_lt.mpr h)

@[simp]
theorem length_body (frame : Frame) : frame.body.length = 28 + frame.payload.length := by
  simp only [body, frameBody, List.length_append, length_leBytes, List.length_cons,
    List.length_nil, frameMagic]

@[simp]
theorem length_bytes (frame : Frame) : frame.bytes.length = frame.size := by
  simp only [bytes, List.length_append, length_leBytes, length_body, size, frameFixed]
  omega

theorem size_lt (h : frame.size ≤ maxFrame) : frame.size < 256 ^ 4 :=
  lt_of_le_of_lt h (by decide)

variable {count : Nat}

/-- The start of a frame says how long it is. -/
theorem leNat_length (h : frame.size ≤ maxFrame) (hcount : 4 ≤ count)
    (rest : Bytes) : leNat (slice ((frame.bytes ++ rest).take count) 0 4) = frame.size := by
  have hslice : slice ((frame.bytes ++ rest).take count) 0 4 = leBytes 4 frame.size := by
    simp only [slice, List.drop_zero, List.take_take, Nat.min_eq_left hcount, bytes,
      List.append_assoc]
    exact List.take_left' (by simp)
  rw [hslice, leNat_leBytes_of_lt (size_lt h)]

/-- A frame that is not complete is a torn tail. -/
theorem decodeFrame_cut (h : frame.size ≤ maxFrame) (hcount : count < frame.size) :
    decodeFrame offset (frame.bytes.take count) = .ok none := by
  have hlen : (frame.bytes.take count).length = count := by simp; omega
  unfold decodeFrame
  by_cases hshort : count < 4
  · rw [if_pos (by omega)]
  · have hlength : leNat (slice (frame.bytes.take count) 0 4) = frame.size := by
      simpa using leNat_length h (Nat.le_of_not_lt hshort) []
    rw [if_neg (by omega)]
    rw [hlength, hlen, if_neg (not_not.mpr ⟨by simp [size], h⟩), if_pos hcount]

/-- The fields of a frame in their order. -/
def parts (frame : Frame) : List Bytes := [
  leBytes 4 frame.size, frameMagic, leBytes 2 walVersion, [frame.kind.toByte], [0],
  leBytes 8 frame.lsn, leBytes 8 frame.applyIndex, leBytes 4 frame.payload.length, frame.payload,
  leBytes 4 (crc32 frame.body), leBytes 4 frame.size]

theorem bytes_eq (frame : Frame) : frame.bytes = frame.parts.flatten := by
  simp [bytes, parts, body, frameBody]

/-- A field is found behind the fields before it. -/
theorem slice_bytes {part : Bytes} {start : Nat} (k : Nat)
    (hpart : frame.parts[k]? = some part) (hstart : (frame.parts.take k).flatten.length = start)
    (hcount : part.length = count) : slice frame.bytes start count = part := by
  rw [bytes_eq]
  exact slice_flatten k hpart hstart hcount

theorem slice_body (frame : Frame) :
    slice frame.bytes 4 (28 + frame.payload.length) = frame.body := by
  rw [slice, bytes, List.append_assoc, List.append_assoc,
    List.drop_left' (length_leBytes ..), List.take_left' (length_body frame)]

/-- A complete frame is decoded. -/
theorem decodeFrame_bytes (h : frame.At offset) (rest : Bytes) :
    decodeFrame offset (frame.bytes ++ rest) = .ok (some frame) := by
  have hlt : ∀ {value : Nat}, value ≤ u64Max → value < 256 ^ 8 := fun hle =>
    lt_of_le_of_lt hle u64Max_lt
  have hlen : (frame.bytes ++ rest).length = frame.size + rest.length := by simp
  have hlength : leNat (slice (frame.bytes ++ rest) 0 4) = frame.size := by
    have hle : 4 ≤ frame.size + rest.length := by simp only [size, frameFixed]; omega
    simpa [List.take_of_length_le] using leNat_length h.size_le hle rest
  have hframe : (frame.bytes ++ rest).take frame.size = frame.bytes :=
    List.take_left' (length_bytes frame)
  have hpayload : frame.payload.length < 256 ^ 4 := by
    have hlt := size_lt h.size_le
    simp only [size] at hlt
    omega
  have hkind : FrameKind.ofByte (frame.bytes.getD 10 0) = .ok frame.kind := by
    have hslice : slice frame.bytes 10 1 = [frame.kind.toByte] :=
      slice_bytes 3 rfl (by simp [parts, frameMagic]) rfl
    rw [getD_eq_slice, hslice]
    cases frame.kind <;> rfl
  have hflags : frame.bytes.getD 11 0 = 0 := by
    have hslice : slice frame.bytes 11 1 = [0] :=
      slice_bytes 4 rfl (by simp [parts, frameMagic]) rfl
    rfl
  have hmagic : slice frame.bytes 4 4 = frameMagic :=
    slice_bytes 1 rfl (by simp [parts]) rfl
  have hversion : slice frame.bytes 8 2 = leBytes 2 walVersion :=
    slice_bytes 2 rfl (by simp [parts, frameMagic]) (by simp)
  have hlsn : slice frame.bytes 12 8 = leBytes 8 frame.lsn :=
    slice_bytes 5 rfl (by simp [parts, frameMagic]) (by simp)
  have hindex : slice frame.bytes 20 8 = leBytes 8 frame.applyIndex :=
    slice_bytes 6 rfl (by simp [parts, frameMagic]) (by simp)
  have hpayloadLen : slice frame.bytes 28 4 = leBytes 4 frame.payload.length :=
    slice_bytes 7 rfl (by simp [parts, frameMagic]) (by simp)
  have hpayload' : slice frame.bytes 32 frame.payload.length = frame.payload :=
    slice_bytes 8 rfl (by simp [parts, frameMagic]) rfl
  have hchecksum : slice frame.bytes (32 + frame.payload.length) 4 =
      leBytes 4 (crc32 frame.body) :=
    slice_bytes 9 rfl (by simp [parts, frameMagic]; omega) (by simp)
  have hfooter : slice frame.bytes (32 + frame.payload.length + 4) 4 = leBytes 4 frame.size :=
    slice_bytes 10 rfl (by simp [parts, frameMagic]; omega) (by simp)
  unfold decodeFrame
  rw [if_neg (by rw [hlen]; simp only [size, frameFixed]; omega)]
  rw [hlength, if_neg (not_not.mpr ⟨by simp [size], h.size_le⟩), if_neg (by omega), hframe,
    if_neg (not_not.mpr hmagic), hversion, if_neg (not_not.mpr (leNat_leBytes_of_lt (by decide))),
    if_neg (not_not.mpr hflags), hkind]
  dsimp only
  rw [hlsn, h.lsn, leNat_leBytes_of_lt (hlt h.lsn_le), if_neg (not_not.mpr rfl), hpayloadLen,
    leNat_leBytes_of_lt hpayload, hindex, leNat_leBytes_of_lt (hlt h.applyIndex),
    if_neg (by simp only [size]; omega), hchecksum, leNat_leBytes_of_lt (crc32_lt _),
    show 32 + frame.payload.length - 4 = 28 + frame.payload.length by omega, slice_body,
    hfooter, leNat_leBytes_of_lt (size_lt h.size_le), if_neg (by simp), hpayload', ← h.endLsn,
    ← h.lsn]

end Frame

/-! ## Frames one after the other -/

def framesBytes (frames : List Frame) : Bytes := frames.flatMap Frame.bytes

@[simp]
theorem framesBytes_nil : framesBytes [] = [] := rfl

@[simp]
theorem framesBytes_cons (frame : Frame) (frames : List Frame) :
    framesBytes (frame :: frames) = frame.bytes ++ framesBytes frames := rfl

@[simp]
theorem framesBytes_append (first second : List Frame) :
    framesBytes (first ++ second) = framesBytes first ++ framesBytes second :=
  List.flatMap_append ..

/-- Frames that stand one after the other from an offset on. -/
def Chain : Nat → List Frame → Prop
  | _, [] => True
  | offset, frame :: frames => frame.At offset ∧ Chain (offset + frame.size) frames

variable {offset : Nat}

theorem Chain.append {first second : List Frame} :
    Chain offset (first ++ second) ↔
      Chain offset first ∧ Chain (offset + (framesBytes first).length) second := by
  induction first generalizing offset with
  | nil => simp [Chain]
  | cons frame first ih =>
    simp only [List.cons_append, Chain, ih, framesBytes_cons, List.length_append,
      Frame.length_bytes, and_assoc, Nat.add_assoc]

variable {frames : List Frame} {frame : Frame}

section

variable (h : Chain offset frames) (hmem : frame ∈ frames)
include h hmem

/-- A frame of a chain lies between its ends. -/
theorem Chain.bounds :
    offset ≤ frame.lsn ∧ frame.lsn + frame.size ≤ offset + (framesBytes frames).length := by
  induction frames generalizing offset with
  | nil => cases hmem
  | cons first frames ih =>
    obtain ⟨hat, hrest⟩ := h
    simp only [framesBytes_cons, List.length_append, Frame.length_bytes]
    rcases List.mem_cons.mp hmem with rfl | hmem
    · have hlsn := hat.lsn
      omega
    · have hbounds := ih hrest hmem
      omega

/-- A frame of a chain says where it ends. -/
theorem Chain.endLsn : frame.endLsn = frame.lsn + frame.size := by
  induction frames generalizing offset with
  | nil => cases hmem
  | cons first frames ih =>
    obtain ⟨hat, hrest⟩ := h
    rcases List.mem_cons.mp hmem with rfl | hmem
    · rw [hat.endLsn, hat.lsn]
    · exact ih hrest hmem

theorem Chain.applyIndex : frame.applyIndex ≤ u64Max := by
  induction frames generalizing offset with
  | nil => cases hmem
  | cons first frames ih =>
    obtain ⟨hat, hrest⟩ := h
    rcases List.mem_cons.mp hmem with rfl | hmem
    · exact hat.applyIndex
    · exact ih hrest hmem

end

/-- What is left of a frame that a crash cut. -/
def Cut (tail : Bytes) : Prop :=
  ∃ (frame : Frame) (count : Nat), frame.size ≤ maxFrame ∧ count < frame.size ∧
    tail = frame.bytes.take count

theorem cut_nil : Cut [] :=
  ⟨⟨.beginApply, 0, 0, [], 0⟩, 0, by decide, by decide, rfl⟩

theorem decodeFramesFrom_eq (hchain : Chain offset frames) {tail : Bytes} (htail : Cut tail)
    (acc : List Frame) {fuel : Nat} (hfuel : frames.length + tail.length ≤ fuel) :
    ∃ torn, decodeFramesFrom fuel offset (framesBytes frames ++ tail) acc =
      .ok (acc ++ frames, torn) := by
  induction frames generalizing offset acc fuel with
  | nil =>
    simp only [framesBytes_nil, List.nil_append, List.append_nil]
    cases fuel with
    | zero => exact ⟨none, rfl⟩
    | succ fuel =>
      unfold decodeFramesFrom
      by_cases hnil : tail = []
      · exact ⟨none, if_pos hnil⟩
      · obtain ⟨frame, count, hsize, hcount, rfl⟩ := htail
        rw [if_neg hnil, Frame.decodeFrame_cut hsize hcount]
        exact ⟨some offset, rfl⟩
  | cons frame frames ih =>
    obtain ⟨hat, hchain⟩ := hchain
    simp only [List.length_cons] at hfuel
    obtain ⟨fuel, rfl⟩ : ∃ n, fuel = n + 1 := ⟨fuel - 1, by omega⟩
    have hne : framesBytes (frame :: frames) ++ tail ≠ [] := by
      intro hnil
      have hlen := congrArg List.length hnil
      simp [Frame.size, frameFixed] at hlen
    have hdrop : (frame.bytes ++ (framesBytes frames ++ tail)).drop (frame.endLsn - offset) =
        framesBytes frames ++ tail := by
      rw [hat.endLsn, Nat.add_sub_cancel_left]
      exact List.drop_left' (Frame.length_bytes frame)
    unfold decodeFramesFrom
    rw [framesBytes_cons, List.append_assoc, Frame.decodeFrame_bytes hat]
    dsimp only
    rw [hdrop, hat.endLsn]
    have hrest : frames.length + tail.length ≤ fuel := by omega
    obtain ⟨torn, htorn⟩ := ih hchain (acc ++ [frame]) hrest
    exact ⟨torn, by rw [htorn, List.append_assoc]; rfl⟩

theorem length_le_framesBytes (frames : List Frame) :
    frames.length ≤ (framesBytes frames).length := by
  induction frames with
  | nil => simp
  | cons frame frames ih =>
    simp only [List.length_cons, framesBytes_cons, List.length_append, Frame.length_bytes,
      Frame.size, frameFixed]
    omega

/-- The frames of a cut log are those that are complete. -/
theorem decodeFrames_eq (hchain : Chain 0 frames) {tail : Bytes} (htail : Cut tail) :
    ∃ torn, decodeFrames (framesBytes frames ++ tail) = .ok (frames, torn) := by
  have hle := length_le_framesBytes frames
  have hfuel : frames.length + tail.length ≤ (framesBytes frames ++ tail).length := by
    simp only [List.length_append]
    omega
  obtain ⟨torn, htorn⟩ := decodeFramesFrom_eq hchain htail [] hfuel
  exact ⟨torn, by simpa [decodeFrames] using htorn⟩

/-- A prefix of frames is some complete frames and a cut one. -/
theorem take_framesBytes (hchain : Chain offset frames) (count : Nat) :
    ∃ (k : Nat) (tail : Bytes), Cut tail ∧
    (framesBytes frames).take count = framesBytes (frames.take k) ++ tail ∧
    (k < frames.length ∨ tail = []) := by
  induction frames generalizing offset count with
  | nil => exact ⟨0, [], cut_nil, by simp, .inr rfl⟩
  | cons frame frames ih =>
    obtain ⟨hat, hchain⟩ := hchain
    by_cases hcount : count < frame.size
    · refine ⟨0, frame.bytes.take count, ⟨frame, count, hat.size_le, hcount, rfl⟩, ?_, ?_⟩
      · rw [framesBytes_cons, List.take_append_of_le_length (by simp; omega)]
        simp
      · exact .inl (by simp)
    · obtain ⟨k, tail, hcut, htake, hk⟩ := ih hchain (count - frame.size)
      refine ⟨k + 1, tail, hcut, ?_, ?_⟩
      · rw [framesBytes_cons, List.take_append, List.take_of_length_le (by simp; omega),
          Frame.length_bytes, htake]
        simp
      · rcases hk with hk | hk
        · exact .inl (by simpa using hk)
        · exact .inr hk

end AsterStorage
