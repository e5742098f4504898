import AsterDB.Core.Json
import Mathlib.Data.Nat.Digits.Lemmas

/-!
# Sizes of JSON texts

How long the text of a byte string is, which is written as an array of decimal numbers, and
how long the text of a text: a text that is itself sent as a byte string is written twice.
-/

namespace Json

open Serde

/-- The number of decimal digits. -/
def digits (value : Nat) : Nat := Nat.log 10 value + 1

variable (value : Nat)

theorem length_decimal : (decimal value).length = digits value := by
  unfold decimal
  split
  case isTrue h =>
    subst h
    rfl
  case isFalse h => simp [digits, Nat.length_digits 10 value (by decide) h]

theorem digits_eq_two {value : Nat} (hlow : 10 ≤ value) (hhigh : value < 100) :
    digits value = 2 := by
  rw [digits, Nat.log_eq_of_pow_le_of_lt_pow (m := 1) hlow hhigh]

/-- The bytes that a text takes inside an array, each number with the sign next to it. -/
def spelled (bytes : List UInt8) : Nat := (bytes.map fun byte => digits byte.toNat + 1).sum

@[simp]
theorem spelled_nil : spelled [] = 0 := rfl

@[simp]
theorem spelled_cons (byte : UInt8) (bytes : List UInt8) :
    spelled (byte :: bytes) = digits byte.toNat + 1 + spelled bytes := rfl

@[simp]
theorem spelled_append (left right : List UInt8) :
    spelled (left ++ right) = spelled left + spelled right := by
  simp [spelled]

/-- Two digits and a sign for each byte below `d`. -/
theorem spelled_eq {bytes : List UInt8} (h : ∀ byte ∈ bytes, 10 ≤ byte.toNat ∧ byte.toNat < 100) :
    spelled bytes = 3 * bytes.length := by
  induction bytes with
  | nil => rfl
  | cons byte bytes ih =>
    obtain ⟨hlow, hhigh⟩ := h byte List.mem_cons_self
    rw [spelled_cons, ih fun other hmem => h other (List.mem_cons_of_mem _ hmem),
      digits_eq_two hlow hhigh, List.length_cons]
    omega

@[simp]
theorem spelled_decimal : spelled (decimal value) = 3 * digits value := by
  rw [spelled_eq, length_decimal]
  intro byte hmem
  obtain ⟨hlow, hhigh⟩ := isDigit_of_mem_decimal hmem
  omega

theorem writeNumber_natCast : writeNumber value = decimal value := by
  rw [writeNumber, if_neg (by omega), Int.natAbs_natCast]

theorem write_nat : (json value).write = decimal value := by
  change (number value).write = _
  rw [write, writeNumber_natCast]

theorem write_byte (byte : UInt8) : (json byte).write = decimal byte.toNat := by
  change (number byte.toNat).write = _
  rw [write, writeNumber_natCast]

/-- The length of a byte string's text. -/
def arraySize (bytes : List UInt8) : Nat := if bytes = [] then 2 else spelled bytes + 1

variable (bytes : List UInt8)

theorem length_le_spelled : 2 * bytes.length ≤ spelled bytes := by
  induction bytes with
  | nil => exact Nat.le_refl _
  | cons byte bytes ih =>
    rw [spelled_cons, List.length_cons, digits]
    omega

theorem spelled_le_length : spelled bytes ≤ 4 * bytes.length := by
  induction bytes with
  | nil => exact Nat.le_refl _
  | cons byte bytes ih =>
    have hlog : Nat.log 10 byte.toNat < 3 :=
      Nat.log_lt_of_lt_pow' (by decide) (byte.toNat_lt.trans (by decide))
    rw [spelled_cons, List.length_cons, digits]
    omega

theorem length_lt_arraySize : 2 * bytes.length < arraySize bytes := by
  unfold arraySize
  split
  case isTrue h =>
    subst h
    exact Nat.zero_lt_two
  case isFalse => exact Nat.lt_succ_of_le (length_le_spelled bytes)

theorem length_writeItems : (writeItems (bytes.map json)).length = spelled bytes + 1 := by
  induction bytes with
  | nil => rfl
  | cons byte bytes ih =>
    rw [List.map_cons, writeItems, List.length_cons, List.length_append, write_byte, length_decimal,
      spelled_cons]
    omega

theorem length_toVec_bytes : (toVec bytes).length = arraySize bytes := by
  change (array (bytes.map json)).write.length = _
  cases bytes with
  | nil => rfl
  | cons byte bytes =>
    rw [List.map_cons, write, List.length_cons, List.length_append, length_writeItems, write_byte,
      length_decimal, arraySize, if_neg (List.cons_ne_nil _ _), spelled_cons]
    omega

theorem spelled_writeItems : spelled (writeItems (bytes.map json)) = 3 * (spelled bytes + 1) := by
  induction bytes with
  | nil => rfl
  | cons byte bytes ih =>
    rw [List.map_cons, writeItems, spelled_cons, spelled_append, write_byte, spelled_decimal,
      spelled_cons, digits_eq_two (by decide) (by decide)]
    omega

/-- The text of a byte string, inside an array, takes three bytes for each of its own. -/
theorem spelled_toVec_bytes : spelled (toVec bytes) = 3 * arraySize bytes := by
  change spelled (array (bytes.map json)).write = _
  cases bytes with
  | nil => rfl
  | cons byte bytes =>
    rw [List.map_cons, write, spelled_cons, spelled_append, spelled_writeItems, write_byte,
      spelled_decimal, arraySize, if_neg (List.cons_ne_nil _ _), spelled_cons,
      digits_eq_two (by decide) (by decide)]
    omega

end Json
