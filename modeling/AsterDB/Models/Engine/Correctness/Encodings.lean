import AsterDB.Models.Engine.Interpretation.Codec
import AsterDB.Models.Engine.Interpretation.Keys

/-!
# Encodings of rows and keys

Rows and their encodings correspond one to one. The ordered encoding of values keeps their
order, also in front of the complemented timestamp of a version key.
-/

namespace AsterEngine

open Std
open ByteString Fallible

/-- Decoding an encoded row gives it back, an accepted byte string is the encoding of what it
decodes to, and no accepted byte string continues another. -/
theorem canonical_rows :
    (∀ row bytes, Codec.encodeRow row = .ok bytes → Codec.decodeRow bytes = .ok row) ∧
    (∀ bytes row, Codec.decodeRow bytes = .ok row → Codec.encodeRow row = .ok bytes) ∧
    (∀ bytes bytes' row, Codec.decodeRow bytes = .ok row → Codec.decodeRow bytes' = .ok row →
      bytes = bytes') ∧
    ∀ bytes bytes' row row', Codec.decodeRow bytes = .ok row → Codec.decodeRow bytes' = .ok row' →
      bytes <+: bytes' → bytes = bytes' := by
  refine ⟨fun row bytes => Codec.decodeRow_eq_ok.mpr, fun bytes row => Codec.decodeRow_eq_ok.mp,
    ?_, ?_⟩
  · intro bytes bytes' row h h'
    rw [Codec.decodeRow_eq_ok] at h h'
    exact Except.ok.inj (h.symm.trans h')
  · rintro bytes _ row row' h h' ⟨rest, rfl⟩
    rw [Codec.decodeRow_eq_ok] at h h'
    have happend : bytes ++ rest = (bytes ++ rest) ++ [] := (List.append_nil _).symm
    rw [(Codec.reads_readRow.append_inj h h' happend).2, List.append_nil]

section Ordered

/-- Neither of two ordered encodings continues the other. -/
theorem encodeOrdered_prefix {a b : Value} (h : Codec.encodeOrdered a <+: Codec.encodeOrdered b) :
    Codec.encodeOrdered a = Codec.encodeOrdered b := by
  obtain ⟨rest, hrest⟩ := h
  rw [← List.append_nil (Codec.encodeOrdered b)] at hrest
  rw [(encodeOrdered_append hrest).1]

/-- Values of one type are ordered by their comparison. -/
theorem order_eq_lt {a b : Value} (h : a.dataType = b.dataType) :
    a.order b = .lt ↔ a.checkedCmp b = .ok (some .lt) := by
  constructor
  · intro hlt
    cases a <;> cases b <;> try cases h
    all_goals simp_all [Value.order, Value.checkedCmp]
  · exact Value.checkedCmp_eq_order

theorem compare_not (a b : UInt64) :
    compare (~~~a).toNat (~~~b).toNat = compare b.toNat a.toNat := by
  have ha := a.toNat_lt
  have hb := b.toNat_lt
  have hsize : UInt64.size = 2 ^ 64 := rfl
  rw [UInt64.toNat_not, UInt64.toNat_not]
  rcases Nat.lt_trichotomy a.toNat b.toNat with hlt | heq | hgt
  · rw [Nat.compare_eq_gt.mpr hlt, Nat.compare_eq_gt.mpr (by omega)]
  · rw [Nat.compare_eq_eq.mpr heq.symm, Nat.compare_eq_eq.mpr (by omega)]
  · rw [Nat.compare_eq_lt.mpr hgt, Nat.compare_eq_lt.mpr (by omega)]

/-- Version keys compare by table, then by key, then by timestamp downwards. -/
theorem compare_encodeMvccKey (table table' : UInt64) (key key' : Value) (time time' : UInt64) :
    compare (Codec.encodeMvccKey table key time) (Codec.encodeMvccKey table' key' time') =
      (compare table.toNat table'.toNat).then
        ((key.order key').then (compare time'.toNat time.toNat)) := by
  have hwidth : ∀ {a b : Nat}, beBytes 8 a <+: beBytes 8 b → beBytes 8 a = beBytes 8 b :=
    fun hprefix => hprefix.eq_of_length (by simp [beBytes])
  rw [Codec.encodeMvccKey, Codec.encodeMvccKey, List.append_assoc, List.append_assoc,
    compare_append hwidth hwidth, compare_append encodeOrdered_prefix encodeOrdered_prefix,
    compare_encodeOrdered, compare_beBytes_of_lt table.toNat_lt table'.toNat_lt,
    compare_beBytes_of_lt (~~~time).toNat_lt (~~~time').toNat_lt, compare_not]

/-- Ordered encodings are equal only for equal values and none continues another. For values of one
type they are ordered as the values are, and version keys by table and key upwards and by
timestamp downwards. -/
theorem ordered_keys :
    (∀ a b, Codec.encodeOrdered a = Codec.encodeOrdered b ↔ a = b) ∧
    (∀ a b, Codec.encodeOrdered a <+: Codec.encodeOrdered b →
      Codec.encodeOrdered a = Codec.encodeOrdered b) ∧
    (∀ a b : Value, a.dataType = b.dataType →
      (compare (Codec.encodeOrdered a) (Codec.encodeOrdered b) = .lt ↔
        a.checkedCmp b = .ok (some .lt))) ∧
    ∀ (table table' : UInt64) (key key' : Value) (time time' : UInt64),
      key.dataType = key'.dataType →
      (compare (Codec.encodeMvccKey table key time) (Codec.encodeMvccKey table' key' time') = .lt ↔
        (table < table' ∨ table = table' ∧ key.checkedCmp key' = .ok (some .lt)) ∨
          table = table' ∧ key = key' ∧ time' < time) := by
  refine ⟨fun a b => ⟨encodeOrdered_injective, congrArg _⟩, fun a b => encodeOrdered_prefix, ?_, ?_⟩
  · intro a b h
    rw [compare_encodeOrdered, order_eq_lt h]
  · intro table table' key key' time time' h
    have horder : key.order key' = .eq ↔ key = key' :=
      ⟨Value.eq_of_order, by rintro rfl; rw [← compare_encodeOrdered, ReflOrd.compare_self]⟩
    rw [compare_encodeMvccKey, Ordering.then_eq_lt, Ordering.then_eq_lt, Nat.compare_eq_lt,
      Nat.compare_eq_lt, Nat.compare_eq_eq, horder, order_eq_lt h, UInt64.toNat_inj,
        ← UInt64.lt_iff_toNat_lt]
    tauto

end Ordered

end AsterEngine
