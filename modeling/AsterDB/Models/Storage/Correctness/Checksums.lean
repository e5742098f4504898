import AsterDB.Core.ShiftRegister
import AsterDB.Models.Storage.Interpretation.Page

/-!
# Checksums detect bursts

The checksum loop is a shift register over the bits of the bytes, so byte strings
that differ only within 32 consecutive bits have different checksums, and a
sealed page changed in such a place no longer decodes.
-/

namespace AsterStorage

open AsterRaft (Bytes)
open ByteString ShiftRegister

/-- The bits of a byte, from the least significant one on. -/
def byteBits (byte : UInt8) : List Bool := (List.range 8).map byte.toBitVec.getLsbD

def bits (bytes : Bytes) : List Bool := bytes.flatMap byteBits

/-- All bits in which the strings differ are among the 32 from `start` on. -/
def Burst (x y : Bytes) (start : Nat) : Prop :=
  ∀ k, (bits x)[k]? ≠ (bits y)[k]? → start ≤ k ∧ k < start + 32

variable {x y : Bytes} {start : Nat}

theorem getElem?_bits (x : Bytes) (k : Nat) :
    (bits x)[k]? = x[k / 8]?.map (·.toBitVec.getLsbD (k % 8)) := by
  induction x generalizing k with
  | nil => rfl
  | cons byte x ih =>
    rw [bits, List.flatMap_cons, byteBits]
    by_cases hk : k < 8
    · rw [List.getElem?_append_left (by simpa using hk), Nat.div_eq_of_lt hk, Nat.mod_eq_of_lt hk]
      simp [hk]
    · obtain ⟨k, rfl⟩ := Nat.exists_eq_add_of_le' (Nat.le_of_not_lt hk)
      rw [List.getElem?_append_right (by simp), List.length_map, List.length_range, ← bits, ih,
        Nat.add_div_right k (by decide), Nat.add_mod_right]
      rfl

/-! ## The register -/

theorem toBitVec_crcShift (crc : UInt32) :
    ((crc >>> 1) ^^^ (0xedb88320 &&& (0 - (crc &&& 1)))).toBitVec =
      step 0xedb88320#32 crc.toBitVec false := by
  have hmask : (0#32 - (crc.toBitVec &&& 1#32)) =
      if crc.toBitVec.getLsbD 0 then BitVec.allOnes 32 else 0#32 := by
    rw [BitVec.and_one_eq_setWidth_ofBool_getLsbD]
    cases crc.toBitVec.getLsbD 0 <;> rfl
  change (crc.toBitVec >>> 1) ^^^ (0xedb88320#32 &&& (0#32 - (crc.toBitVec &&& 1#32))) = _
  rw [hmask, step, Bool.xor_false]
  split
  · rw [BitVec.and_allOnes]
  · rw [BitVec.and_zero, BitVec.xor_zero]

theorem toBitVec_crc32Byte (crc : UInt32) (byte : UInt8) :
    (crc32Byte crc byte).toBitVec = (byteBits byte).foldl (step 0xedb88320#32) crc.toBitVec := by
  have hload : load 32 (byteBits byte) = byte.toUInt32.toBitVec := by
    apply BitVec.eq_of_getLsbD_eq
    intro i hi
    rw [getLsbD_load]
    by_cases h : i < 8
    · simp [byteBits, hi, h]
    · simp [byteBits, h, BitVec.getLsbD_of_ge byte.toBitVec i (Nat.le_of_not_lt h)]
  calc (crc32Byte crc byte).toBitVec
      = (List.range 8).foldl (fun s _ => step 0xedb88320#32 s false)
          (crc.toBitVec ^^^ byte.toUInt32.toBitVec) :=
        (List.foldl_hom UInt32.toBitVec fun crc _ => (toBitVec_crcShift crc).symm).symm
    _ = (byteBits byte).foldl (step 0xedb88320#32) crc.toBitVec := by
        rw [← hload, foldl_step_eq_load (by simp [byteBits] : (byteBits byte).length ≤ 32)]
        rfl

theorem toBitVec_foldl_crc32Byte (x : Bytes) (crc : UInt32) :
    (x.foldl crc32Byte crc).toBitVec = (bits x).foldl (step 0xedb88320#32) crc.toBitVec := by
  rw [bits, List.foldl_flatMap]
  exact (List.foldl_hom UInt32.toBitVec fun crc byte => (toBitVec_crc32Byte crc byte).symm).symm

section Equal

variable (hlength : x.length = y.length)

include hlength

/-- Bytes that differ do so in a bit. -/
theorem exists_bit_ne {i : Nat} (h : x[i]? ≠ y[i]?) :
    ∃ j < 8, (bits x)[8 * i + j]? ≠ (bits y)[8 * i + j]? := by
  by_contra hnone
  push Not at hnone
  apply h
  by_cases hi : i < x.length
  · have hbits (j : Nat) (hj : j < 8) : x[i].toBitVec.getLsbD j = y[i].toBitVec.getLsbD j := by
      have hbit := hnone j hj
      rw [getElem?_bits, getElem?_bits, Nat.mul_add_div (by decide), Nat.mul_add_mod,
        Nat.div_eq_of_lt hj, Nat.mod_eq_of_lt hj] at hbit
      simpa [hi, hlength ▸ hi] using hbit
    rw [List.getElem?_eq_getElem hi, List.getElem?_eq_getElem (hlength ▸ hi)]
    congr 1
    exact UInt8.eq_of_toBitVec_eq (BitVec.eq_of_getLsbD_eq hbits)
  · rw [List.getElem?_eq_none (by omega), List.getElem?_eq_none (by omega)]

theorem crc32_ne_of_burst (hne : x ≠ y) (hburst : Burst x y start) : crc32 x ≠ crc32 y := by
  have hbits : bits x ≠ bits y := by
    intro h
    apply hne
    ext i : 1
    by_contra hi
    obtain ⟨j, -, hj⟩ := exists_bit_ne hlength hi
    exact hj (by rw [h])
  have hpoly : (0xedb88320#32).msb = true := by decide
  have hregister := foldl_step_ne hpoly (by simp [bits, byteBits, hlength]) hbits hburst
    (~~~0 : UInt32).toBitVec
  rw [← toBitVec_foldl_crc32Byte, ← toBitVec_foldl_crc32Byte] at hregister
  intro h
  exact hregister (congrArg UInt32.toBitVec (UInt32.not_inj.mp (UInt32.toNat_inj.mp h)))

/-! ## Sealed pages -/

variable (hburst : Burst x y start) {offset : Nat}
  (hclear : start + 32 ≤ 8 * offset ∨ 8 * (offset + 4) ≤ start)

include hburst hclear

/-- A burst that stays clear of four bytes leaves them. -/
theorem getElem?_of_clear {i : Nat} (hi : offset ≤ i ∧ i < offset + 4) : x[i]? = y[i]? := by
  by_contra hne
  obtain ⟨j, hj, hbit⟩ := exists_bit_ne hlength hne
  have := hburst _ hbit
  omega

/-- Four bytes that a burst stays clear of may be overwritten. -/
theorem crc32_overwrite_ne {zeros : Bytes} (hzeros : zeros.length = 4) (hne : x ≠ y) :
    crc32 (overwrite x offset zeros) ≠ crc32 (overwrite y offset zeros) := by
  have hburst' : Burst (overwrite x offset zeros) (overwrite y offset zeros) start := by
    intro k hk
    apply hburst
    contrapose! hk
    rw [getElem?_bits, getElem?_bits] at hk ⊢
    rw [getElem?_overwrite, getElem?_overwrite, hlength]
    split
    · rfl
    · exact hk
  refine crc32_ne_of_burst (by simpa using hlength) ?_ hburst'
  intro h
  apply hne
  ext i : 1
  by_cases hi : offset ≤ i ∧ i < offset + 4
  · exact getElem?_of_clear hlength hburst hclear hi
  · have hbyte := congrArg (·[i]?) h
    simp only [getElem?_overwrite] at hbyte
    rwa [if_neg (by omega), if_neg (by omega)] at hbyte

end Equal

/-- Strings that differ in a burst have different checksums, and a sealed page in which a burst
changes anything outside the checksum does not decode. -/
theorem burst_detected :
    (∀ (x y : Bytes) (start : Nat), x.length = y.length → x ≠ y → Burst x y start →
      crc32 x ≠ crc32 y) ∧
    ∀ (page : Page) (bytes : PageArray) (start : Nat), bytes ≠ page.seal.array →
      Burst page.seal.asBytes bytes.val start →
      start + 32 ≤ 8 * checksumOffset ∨ 8 * (checksumOffset + 4) ≤ start →
      ∃ e, Page.decode bytes = .error e := by
  refine ⟨fun x y start => crc32_ne_of_burst, ?_⟩
  intro page bytes start hne hburst hclear
  have hlength : page.seal.asBytes.length = bytes.val.length :=
    page.seal.array.property.trans bytes.property.symm
  cases hdecode : Page.decode bytes with
  | error e => exact ⟨e, rfl⟩
  | ok changed =>
    exfalso
    obtain ⟨rfl, hvalid⟩ := Page.decode_eq_ok.mp hdecode
    have hget : page.seal.get checksumOffset 4 = Page.get ⟨bytes⟩ checksumOffset 4 := by
      ext i : 1
      rw [Page.get, Page.get, getElem?_slice, getElem?_slice]
      split
      · exact getElem?_of_clear hlength hburst hclear (by omega)
      · rfl
    have hsum : page.seal.computedChecksum = Page.computedChecksum ⟨bytes⟩ := by
      rw [← hvalid.checksum, Page.getNat, ← hget, Page.computedChecksum_seal]
      exact (Page.getNat_seal_checksum page).symm
    exact crc32_overwrite_ne hlength hburst hclear (by simp) (fun h => hne (Subtype.ext h.symm))
      hsum

end AsterStorage
