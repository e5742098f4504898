import AsterDB.Models.Engine.Native.Transaction
import Mathlib.Data.Nat.Bitwise

/-!
# Order of keys

The ordered encoding of values compares as the values do, so it is injective, and
the logical keys of a table come in the order of its primary keys.
-/

namespace AsterEngine

open AsterRaft (Bytes)
open Std
open ByteString Fallible

/-- Types come in this order. -/
def Value.rank : Value → Nat
  | null => 0
  | int64 _ => 1
  | bool _ => 2
  | text _ => 3
  | bytes _ => 4

/-- Values of one type by the order of the type, else by type. -/
def Value.order : Value → Value → Ordering
  | int64 a, int64 b => compare a b
  | bool a, bool b => compare a b
  | text a, text b => compare (utf8 a) (utf8 b)
  | bytes a, bytes b => compare a b
  | a, b => compare a.rank b.rank

variable {a b : Value}

/-- Where values can be compared in SQL, this is their order. -/
theorem Value.checkedCmp_eq_order {ordering : Ordering}
    (h : a.checkedCmp b = .ok (some ordering)) : a.order b = ordering := by
  cases a <;> cases b <;> first | cases h; done | exact Option.some.inj (Except.ok.inj h)

theorem utf8_injective {a b : String} (h : utf8 a = utf8 b) : a = b := by
  exact String.toByteArray_inj.mp (ByteArray.ext (Array.toList_inj.mp h))

theorem Value.eq_of_order (h : a.order b = .eq) : a = b := by
  cases a <;> cases b <;> simp only [order, rank, LawfulEqCmp.compare_eq_iff_eq] at h <;>
    first
    | rfl
    | exact absurd h (by decide)
    | rw [h]
    | rw [utf8_injective h]

section Integers

theorem xor_two_pow {v i : Nat} (h : v < 2 ^ i) : v ^^^ 2 ^ i = v + 2 ^ i := by
  have hor : v ^^^ 2 ^ i = v ||| 2 ^ i := by
    apply Nat.eq_of_testBit_eq
    intro j
    rw [Nat.testBit_xor, Nat.testBit_or]
    by_cases hj : i = j
    · subst hj
      rw [Nat.testBit_lt_two_pow h, Bool.false_xor, Bool.false_or]
    · simp [hj]
  have hadd := Nat.two_pow_add_eq_or_of_lt h 1
  rw [Nat.mul_one] at hadd
  rw [hor, Nat.or_comm, ← hadd, Nat.add_comm]

/-- Flipping the sign bit moves an integer up by `2 ^ 63`. -/
theorem toNat_sortable (value : Int64) :
    ((Codec.sortable value).toNat : Int) = value.toInt + 2 ^ 63 := by
  have hxor : (Codec.sortable value).toNat = value.toUInt64.toNat ^^^ 2 ^ 63 := by
    rfl
  have hint : value.toInt = value.toBitVec.toInt := rfl
  have hnat : value.toBitVec.toNat = value.toUInt64.toNat := rfl
  rw [hxor, hint, BitVec.toInt_eq_toNat_cond, hnat]
  by_cases hsign : value.toUInt64.toNat < 2 ^ 63
  · rw [xor_two_pow hsign, if_pos (by omega)]
    omega
  · obtain ⟨low, hlow⟩ : ∃ low, value.toUInt64.toNat = low + 2 ^ 63 :=
      ⟨_, (Nat.sub_add_cancel (by omega)).symm⟩
    rw [hlow, ← xor_two_pow (by omega), Nat.xor_xor_cancel_right, xor_two_pow (by omega)]
    omega

theorem compare_sortable (a b : Int64) :
    compare (Codec.sortable a).toNat (Codec.sortable b).toNat = compare a b := by
  have ha := toNat_sortable a
  have hb := toNat_sortable b
  change _ = compareOfLessAndEq a b
  rw [compareOfLessAndEq]
  simp only [Int64.lt_iff_toInt_lt, ← Int64.toInt_inj]
  by_cases hlt : a.toInt < b.toInt
  · rw [if_pos hlt]
    exact Nat.compare_eq_lt.mpr (by omega)
  · rw [if_neg hlt]
    by_cases heq : a.toInt = b.toInt
    · rw [if_pos heq]
      exact Nat.compare_eq_eq.mpr (by omega)
    · rw [if_neg heq]
      exact Nat.compare_eq_gt.mpr (by omega)

end Integers

theorem zero_lt_of_ne_zero {byte : UInt8} (h : byte ≠ 0) : compare (0 : UInt8) byte = .lt := by
  rw [UInt8.compare_eq_toNat_compare_toNat, Nat.compare_eq_lt]
  exact Nat.pos_of_ne_zero fun hzero => h (UInt8.toNat_inj.mp hzero)

/-- Escaped strings compare as the strings do: the end mark is below every continuation. -/
theorem compare_encodeMemcomparable (a b : Bytes) :
    compare (Codec.encodeMemcomparable a) (Codec.encodeMemcomparable b) = compare a b := by
  have hnil : ∀ (y : UInt8) (ys : Bytes),
      compare (Codec.encodeMemcomparable []) (Codec.encodeMemcomparable (y :: ys)) = .lt := by
    intro y ys
    by_cases hy : y = 0
    · simp only [Codec.encodeMemcomparable, hy, if_true]
      rfl
    · simp only [Codec.encodeMemcomparable, if_neg hy, List.compare_cons_cons,
        zero_lt_of_ne_zero hy]
      rfl
  induction a generalizing b with
  | nil =>
    cases b with
    | nil => rfl
    | cons y ys => exact hnil y ys
  | cons x xs ih =>
    cases b with
    | nil =>
      have hswap : compare (Codec.encodeMemcomparable (x :: xs)) (Codec.encodeMemcomparable []) =
          (compare (Codec.encodeMemcomparable []) (Codec.encodeMemcomparable (x :: xs))).swap :=
        OrientedCmp.eq_swap
      rw [hswap, hnil x xs]
      rfl
    | cons y ys =>
      rw [List.compare_cons_cons, ← ih ys]
      by_cases hx : x = 0
      · by_cases hy : y = 0
        · simp [Codec.encodeMemcomparable, hx, hy, List.compare_cons_cons]
        · simp only [Codec.encodeMemcomparable, hx, if_true, if_neg hy, List.compare_cons_cons,
            zero_lt_of_ne_zero hy, Ordering.lt_then]
      · have hgt : compare x 0 = .gt := OrientedCmp.gt_of_lt (zero_lt_of_ne_zero hx)
        by_cases hy : y = 0
        · simp only [Codec.encodeMemcomparable, hy, if_true, if_neg hx, List.compare_cons_cons, hgt,
            Ordering.gt_then]
        · simp only [Codec.encodeMemcomparable, if_neg hx, if_neg hy, List.compare_cons_cons]

/-- The ordered encoding compares as the values do. -/
theorem compare_encodeOrdered (a b : Value) :
    compare (Codec.encodeOrdered a) (Codec.encodeOrdered b) = a.order b := by
  have hsortable : ∀ value : Int64, (Codec.sortable value).toNat < 256 ^ 8 :=
    fun value => (Codec.sortable value).toNat_lt
  cases a with
  | int64 x =>
    cases b with
    | int64 y =>
      simp only [Codec.encodeOrdered, Value.order, List.compare_cons_cons, ReflOrd.compare_self,
        Ordering.eq_then, compare_beBytes_of_lt (hsortable x) (hsortable y), compare_sortable]
    | bool y => cases y <;> rfl
    | _ => rfl
  | text x =>
    cases b with
    | text y =>
      simp only [Codec.encodeOrdered, Value.order, List.compare_cons_cons, ReflOrd.compare_self,
        Ordering.eq_then, compare_encodeMemcomparable]
    | bool y => cases y <;> rfl
    | _ => rfl
  | bytes x =>
    cases b with
    | bytes y =>
      simp only [Codec.encodeOrdered, Value.order, List.compare_cons_cons, ReflOrd.compare_self,
        Ordering.eq_then, compare_encodeMemcomparable]
    | bool y => cases y <;> rfl
    | _ => rfl
  | bool x =>
    cases b with
    | bool y => cases x <;> cases y <;> rfl
    | _ => cases x <;> rfl
  | null =>
    cases b with
    | bool y => cases y <;> rfl
    | _ => rfl

/-- The end of an escaped string is found in front of anything. -/
theorem encodeMemcomparable_append {a b x y : Bytes}
    (h : Codec.encodeMemcomparable a ++ x = Codec.encodeMemcomparable b ++ y) : a = b ∧ x = y := by
  induction a generalizing b with
  | nil =>
    cases b with
    | nil => simpa [Codec.encodeMemcomparable] using h
    | cons byte rest =>
      by_cases hbyte : byte = 0
      · simp [Codec.encodeMemcomparable, hbyte] at h
      · simp [Codec.encodeMemcomparable, hbyte, eq_comm] at h
  | cons first others ih =>
    cases b with
    | nil =>
      by_cases hfirst : first = 0
      · simp [Codec.encodeMemcomparable, hfirst] at h
      · simp [Codec.encodeMemcomparable, hfirst] at h
    | cons byte rest =>
      by_cases hfirst : first = 0
      · by_cases hbyte : byte = 0
        · simp only [Codec.encodeMemcomparable, hfirst, hbyte, if_true, List.cons_append,
            List.cons.injEq, true_and] at h ⊢
          exact ih h
        · simp [Codec.encodeMemcomparable, hfirst, hbyte, eq_comm] at h
      · by_cases hbyte : byte = 0
        · simp [Codec.encodeMemcomparable, hfirst, hbyte] at h
        · simp only [Codec.encodeMemcomparable, if_neg hfirst, if_neg hbyte, List.cons_append,
            List.cons.injEq] at h ⊢
          exact ⟨⟨h.1, (ih h.2).1⟩, (ih h.2).2⟩

/-- The end of an ordered encoding is found in front of anything. -/
theorem encodeOrdered_append {x y : Bytes}
    (h : Codec.encodeOrdered a ++ x = Codec.encodeOrdered b ++ y) : a = b ∧ x = y := by
  cases a with
  | int64 first =>
    cases b with
    | int64 second =>
      obtain ⟨hnumber, hrest⟩ := List.append_inj (List.cons.inj h).2 (by simp [beBytes])
      have hsame :=
        beBytes_injective (Codec.sortable first).toNat_lt (Codec.sortable second).toNat_lt hnumber
      have hfirst := toNat_sortable first
      have hsecond := toNat_sortable second
      exact ⟨congrArg _ (Int64.toInt_inj.mp (by omega)), hrest⟩
    | bool second => cases second <;> cases h
    | _ => cases h
  | text first =>
    cases b with
    | text second =>
      obtain ⟨htext, hrest⟩ := encodeMemcomparable_append (List.cons.inj h).2
      exact ⟨congrArg _ (utf8_injective htext), hrest⟩
    | bool second => cases second <;> cases h
    | _ => cases h
  | bytes first =>
    cases b with
    | bytes second =>
      obtain ⟨hbytes, hrest⟩ := encodeMemcomparable_append (List.cons.inj h).2
      exact ⟨congrArg _ hbytes, hrest⟩
    | bool second => cases second <;> cases h
    | _ => cases h
  | bool first =>
    cases b with
    | bool second =>
      cases first <;> cases second <;> cases h
      all_goals exact ⟨rfl, rfl⟩
    | _ => cases first <;> cases h
  | null =>
    cases b with
    | null =>
      cases h
      exact ⟨rfl, rfl⟩
    | bool second => cases second <;> cases h
    | _ => cases h

theorem encodeOrdered_injective (h : Codec.encodeOrdered a = Codec.encodeOrdered b) : a = b := by
  refine Value.eq_of_order ?_
  rw [← compare_encodeOrdered, h, ReflOrd.compare_self]

namespace LogicalKey

variable {tableId : Nat} {value value' : Value} {key key' : LogicalKey}

theorem new_eq_ok : LogicalKey.new tableId value = .ok key ↔
    (∃ bytes, Codec.encodeValue value = .ok bytes) ∧
      key = { tableId, primaryKey := Codec.encodeOrdered value } := by
  simp only [LogicalKey.new, bind_eq_ok, pure_eq_ok]
  exact ⟨fun ⟨bytes, h, heq⟩ => ⟨⟨bytes, h⟩, heq.symm⟩, fun ⟨⟨bytes, h⟩, heq⟩ =>
    ⟨bytes, h, heq.symm⟩⟩

theorem new_injective (h : LogicalKey.new tableId value = .ok key)
    (h' : LogicalKey.new tableId value' = .ok key) : value = value' := by
  obtain ⟨-, rfl⟩ := new_eq_ok.mp h
  obtain ⟨-, heq⟩ := new_eq_ok.mp h'
  exact encodeOrdered_injective (congrArg LogicalKey.primaryKey heq)

/-- Keys of one table compare as their values do. -/
theorem compare_new (h : LogicalKey.new tableId value = .ok key)
    (h' : LogicalKey.new tableId value' = .ok key') : compare key key' = value.order value' := by
  obtain ⟨-, rfl⟩ := new_eq_ok.mp h
  obtain ⟨-, rfl⟩ := new_eq_ok.mp h'
  rw [compare_eq, compare_encodeOrdered, ReflOrd.compare_self, Ordering.eq_then]

end LogicalKey

end AsterEngine
