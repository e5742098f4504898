import AsterDB.Models.Engine.Native.Value

/-!
# The row codec

Each step of the decoder takes exactly what the encoder put there, so decoding and
encoding are inverse to each other in both directions.
-/

namespace AsterEngine

open AsterRaft (Bytes)
open ByteString Fallible Decoding

theorem fromUTF8?_eq_some {bytes : ByteArray} {value : String} :
    String.fromUTF8? bytes = some value ↔ value.toByteArray = bytes := by
  unfold String.fromUTF8?
  constructor
  · intro h
    split at h
    · cases h
      rfl
    · cases h
  · rintro rfl
    rw [dif_pos value.isValidUTF8]
    rfl

namespace Codec

variable {input rest : Bytes}

theorem take_eq_ok {count : Nat} {taken : Bytes} :
    take count input = .ok (taken, rest) ↔ taken.length = count ∧ input = taken ++ rest := by
  unfold take
  split
  next hshort =>
    simp only [reduceCtorEq, false_iff, not_and]
    rintro rfl rfl
    rw [List.length_append] at hshort
    omega
  next hlong =>
    simp only [Except.ok.injEq, Prod.mk.injEq]
    constructor
    · rintro ⟨rfl, rfl⟩
      exact ⟨List.length_take_of_le (by omega), (List.take_append_drop count input).symm⟩
    · rintro ⟨rfl, rfl⟩
      exact ⟨List.take_left, List.drop_left⟩

theorem byte_eq_ok {tag : UInt8} : byte input = .ok (tag, rest) ↔ input = tag :: rest := by
  simp only [byte, stateBind_eq_ok, statePure_eq_ok, take_eq_ok, List.length_eq_one_iff]
  constructor
  · rintro ⟨_, _, ⟨⟨first, rfl⟩, rfl⟩, rfl, rfl⟩
    rfl
  · rintro rfl
    exact ⟨[tag], rest, ⟨⟨tag, rfl⟩, rfl⟩, rfl, rfl⟩

/-- A number of `width` bytes. -/
theorem take_leNat_eq_ok {width value : Nat} :
    (∃ taken, take width input = .ok (taken, rest) ∧ leNat taken = value) ↔
      value < 256 ^ width ∧ input = leBytes width value ++ rest := by
  simp only [take_eq_ok]
  constructor
  · rintro ⟨taken, ⟨rfl, rfl⟩, rfl⟩
    exact ⟨leNat_lt taken, by rw [leBytes_leNat]⟩
  · rintro ⟨hlt, rfl⟩
    exact ⟨_, ⟨length_leBytes width value, rfl⟩, leNat_leBytes_of_lt hlt⟩

theorem u32_eq_ok {value : Nat} :
    u32 input = .ok (value, rest) ↔ value < 256 ^ 4 ∧ input = leBytes 4 value ++ rest := by
  rw [← take_leNat_eq_ok]
  simp only [u32, stateBind_eq_ok, statePure_eq_ok]
  constructor
  · rintro ⟨taken, _, htaken, rfl, rfl⟩
    exact ⟨taken, htaken, rfl⟩
  · rintro ⟨taken, htaken, rfl⟩
    exact ⟨taken, rest, htaken, rfl, rfl⟩

theorem i64_eq_ok {value : Int64} :
    i64 input = .ok (value, rest) ↔ input = leBytes 8 value.toUInt64.toNat ++ rest := by
  have hlt : value.toUInt64.toNat < 256 ^ 8 := value.toUInt64.toNat_lt
  have htake : i64 input = .ok (value, rest) ↔
      ∃ taken, take 8 input = .ok (taken, rest) ∧ leNat taken = value.toUInt64.toNat := by
    simp only [i64, stateBind_eq_ok, statePure_eq_ok]
    constructor
    · rintro ⟨taken, _, htaken, rfl, rfl⟩
      have hbound := leNat_lt taken
      rw [(take_eq_ok.mp htaken).1] at hbound
      exact ⟨taken, htaken, by simp [UInt64.toNat_ofNat_of_lt' hbound]⟩
    · rintro ⟨taken, htaken, hvalue⟩
      exact ⟨taken, rest, htaken, by rw [hvalue]; simp, rfl⟩
  rw [htake, take_leNat_eq_ok, and_iff_right hlt]

/-- Bytes behind their length. -/
theorem reads_lengthPrefixed : Reads encodeBytes lengthPrefixed := by
  intro input rest value
  simp only [lengthPrefixed, encodeBytes, stateBind_eq_ok, stateLift_eq_ok, bind_eq_ok,
    failIf_eq_ok, pure_eq_ok, u32_eq_ok, take_eq_ok, exists_const, Nat.not_lt]
  constructor
  · rintro ⟨_, _, ⟨hlt, rfl⟩, _, ⟨hle, rfl⟩, rfl, rfl⟩
    exact ⟨_, ⟨hle, Nat.le_of_lt_succ hlt, rfl⟩, (List.append_assoc ..).symm⟩
  · rintro ⟨_, ⟨hle, hlt, rfl⟩, rfl⟩
    exact ⟨_, _, ⟨Nat.lt_succ_of_le hlt, List.append_assoc ..⟩, _, ⟨hle, rfl⟩, rfl, rfl⟩

theorem fromUtf8_eq_ok {bytes : Bytes} {value : String} :
    fromUtf8 bytes = .ok value ↔ utf8 value = bytes := by
  rw [fromUtf8, orFail_eq_ok, fromUTF8?_eq_some, utf8]
  constructor
  · intro h
    rw [h]
  · rintro rfl
    rfl

/-- Every value is found behind its tag. -/
theorem decodeValue_append {value : Value} {encoded : Bytes} (h : encodeValue value = .ok encoded) :
    decodeValue (encoded ++ rest) = .ok (value, rest) := by
  simp only [decodeValue, stateBind_eq_ok, byte_eq_ok]
  cases value with
  | null =>
    cases h
    exact ⟨null, rest, rfl, rfl⟩
  | int64 value =>
    cases h
    refine ⟨int64, _, rfl, ?_⟩
    rw [if_neg (by decide), if_pos rfl]
    simp only [stateBind_eq_ok, statePure_eq_ok]
    exact ⟨value, rest, i64_eq_ok.mpr rfl, rfl, rfl⟩
  | bool value =>
    cases value with
    | false =>
      cases h
      exact ⟨boolFalse, rest, rfl, rfl⟩
    | true =>
      cases h
      exact ⟨boolTrue, rest, rfl, rfl⟩
  | text value =>
    obtain ⟨bytes, hbytes, rfl⟩ := map_eq_ok.mp h
    refine ⟨text, bytes ++ rest, rfl, ?_⟩
    rw [if_neg (by decide), if_neg (by decide), if_neg (by decide), if_neg (by decide), if_pos rfl]
    simp only [stateBind_eq_ok, stateLift_eq_ok, statePure_eq_ok, fromUtf8_eq_ok]
    exact ⟨utf8 value, rest, reads_lengthPrefixed.mpr ⟨bytes, hbytes, rfl⟩, value, rest, ⟨rfl, rfl⟩,
      rfl, rfl⟩
  | bytes value =>
    obtain ⟨bytes, hbytes, rfl⟩ := map_eq_ok.mp h
    refine ⟨Codec.bytes, bytes ++ rest, rfl, ?_⟩
    rw [if_neg (by decide), if_neg (by decide), if_neg (by decide), if_neg (by decide),
      if_neg (by decide), if_pos rfl]
    simp only [stateBind_eq_ok, statePure_eq_ok]
    exact ⟨value, rest, reads_lengthPrefixed.mpr ⟨bytes, hbytes, rfl⟩, rfl, rfl⟩

/-- A decoded value is one whose encoding was there. -/
theorem encodeValue_of_decodeValue {value : Value} (h : decodeValue input = .ok (value, rest)) :
    ∃ encoded, encodeValue value = .ok encoded ∧ input = encoded ++ rest := by
  simp only [decodeValue, stateBind_eq_ok, byte_eq_ok] at h
  obtain ⟨tag, behind, rfl, h⟩ := h
  -- one case a tag, in the order the decoder asks
  by_cases hnull : tag = null
  · rw [if_pos hnull] at h
    obtain ⟨rfl, rfl⟩ := h
    exact ⟨[null], rfl, by rw [hnull]; rfl⟩
  rw [if_neg hnull] at h
  by_cases hint64 : tag = int64
  · rw [if_pos hint64] at h
    simp only [stateBind_eq_ok, statePure_eq_ok, i64_eq_ok] at h
    obtain ⟨value, _, rfl, rfl, rfl⟩ := h
    exact ⟨_, rfl, by rw [hint64]; rfl⟩
  rw [if_neg hint64] at h
  by_cases hfalse : tag = boolFalse
  · rw [if_pos hfalse] at h
    obtain ⟨rfl, rfl⟩ := h
    exact ⟨[boolFalse], rfl, by rw [hfalse]; rfl⟩
  rw [if_neg hfalse] at h
  by_cases htrue : tag = boolTrue
  · rw [if_pos htrue] at h
    obtain ⟨rfl, rfl⟩ := h
    exact ⟨[boolTrue], rfl, by rw [htrue]; rfl⟩
  rw [if_neg htrue] at h
  by_cases htext : tag = text
  · rw [if_pos htext] at h
    simp only [stateBind_eq_ok, stateLift_eq_ok, statePure_eq_ok, fromUtf8_eq_ok] at h
    obtain ⟨_, _, hbytes, value, _, ⟨rfl, rfl⟩, rfl, rfl⟩ := h
    obtain ⟨bytes, hencode, rfl⟩ := reads_lengthPrefixed.mp hbytes
    exact ⟨_, map_eq_ok.mpr ⟨bytes, hencode, rfl⟩, by rw [htext]; rfl⟩
  rw [if_neg htext] at h
  by_cases hbytes : tag = bytes
  · rw [if_pos hbytes] at h
    simp only [stateBind_eq_ok, statePure_eq_ok] at h
    obtain ⟨value, _, hvalue, rfl, rfl⟩ := h
    obtain ⟨bytes, hencode, rfl⟩ := reads_lengthPrefixed.mp hvalue
    exact ⟨_, map_eq_ok.mpr ⟨bytes, hencode, rfl⟩, by rw [hbytes]; rfl⟩
  rw [if_neg hbytes, stateThrow_eq_ok] at h
  exact h.elim

theorem reads_decodeValue : Reads encodeValue decodeValue := by
  intro input rest value
  constructor
  · exact encodeValue_of_decodeValue
  · rintro ⟨encoded, hencoded, rfl⟩
    exact decodeValue_append hencoded

theorem finish_eq_ok {u : Unit} : finish input = .ok (u, rest) ↔ input = [] ∧ rest = [] := by
  unfold finish
  split
  next hnil => simp [hnil, eq_comm]
  next hne => simp [hne]

/-- A row in front of other bytes. -/
def readRow : Cursor Row := do
  let count ← u32
  failIf (maxRowColumns < count) (CoreError.limitExceeded s!"encoded row contains {count} values")
  let values ← times decodeValue count
  return ⟨values⟩

theorem reads_readRow : Reads encodeRow readRow := by
  intro input rest row
  simp only [readRow, encodeRow, stateBind_eq_ok, stateLift_eq_ok, statePure_eq_ok, failIf_eq_ok,
    bind_eq_ok, pure_eq_ok, u32_eq_ok, exists_const, times_eq_ok reads_decodeValue, Nat.not_lt]
  constructor
  · rintro ⟨_, _, ⟨hlt, rfl⟩, _, ⟨hle, rfl⟩, values, _, ⟨rfl, parts, hparts, rfl⟩, rfl, rfl⟩
    exact ⟨_, ⟨hle, Nat.le_of_lt_succ hlt, parts, hparts, rfl⟩, (List.append_assoc ..).symm⟩
  · rintro ⟨_, ⟨hle, hlt, parts, hparts, rfl⟩, rfl⟩
    exact ⟨_, _, ⟨Nat.lt_succ_of_le hlt, List.append_assoc ..⟩, _, ⟨hle, rfl⟩, row.values, _,
      ⟨rfl, parts, hparts, rfl⟩, rfl, rfl⟩

/-- Decoding undoes encoding, and accepts nothing else. -/
theorem decodeRow_eq_ok {row : Row} : decodeRow input = .ok row ↔ encodeRow row = .ok input := by
  have hread : decodeRow input = .ok row ↔ readRow input = .ok (row, []) := by
    simp only [decodeRow, readRow, map_eq_ok, StateT.run, stateBind_eq_ok, stateLift_eq_ok,
      statePure_eq_ok, finish_eq_ok, Prod.exists]
    constructor
    · rintro ⟨_, _, ⟨count, _, hcount, _, _, hle, values, _, hvalues, _, _, ⟨rfl, rfl⟩, rfl, rfl⟩,
        rfl⟩
      exact ⟨count, _, hcount, _, _, hle, values, _, hvalues, rfl, rfl⟩
    · rintro ⟨count, _, hcount, _, _, hle, values, _, hvalues, rfl, rfl⟩
      exact ⟨_, [], ⟨count, _, hcount, _, _, hle, values, _, hvalues, (), [], ⟨rfl, rfl⟩, rfl, rfl⟩,
        rfl⟩
  rw [hread, reads_readRow]
  constructor
  · rintro ⟨bytes, hbytes, rfl⟩
    rwa [List.append_nil]
  · intro h
    exact ⟨input, h, (List.append_nil input).symm⟩

end Codec

end AsterEngine
