import Mathlib.Data.List.Basic
import Mathlib.Tactic.Ring

/-!
# Byte strings

Numbers as byte strings and their order, ranges of a byte string, and overwriting a
range in place.
-/

namespace ByteString

/-- The little-endian bytes of a number, `width` of them. -/
def leBytes : Nat → Nat → List UInt8
  | 0, _ => []
  | width + 1, value => UInt8.ofNat value :: leBytes width (value / 256)

/-- The number a little-endian byte string stands for. -/
def leNat : List UInt8 → Nat
  | [] => 0
  | byte :: rest => byte.toNat + 256 * leNat rest

@[simp]
theorem length_leBytes (width value : Nat) : (leBytes width value).length = width := by
  induction width generalizing value with
  | zero => rfl
  | succ width ih => simp [leBytes, ih]

theorem leNat_lt (bytes : List UInt8) : leNat bytes < 256 ^ bytes.length := by
  induction bytes with
  | nil => simp [leNat]
  | cons byte rest ih =>
    have hbyte := byte.toNat_lt
    simp only [leNat, List.length_cons, pow_succ]
    omega

theorem leNat_leBytes (width value : Nat) : leNat (leBytes width value) = value % 256 ^ width := by
  induction width generalizing value with
  | zero => simp [leBytes, leNat, Nat.mod_one]
  | succ width ih =>
    have hbyte : (UInt8.ofNat value).toNat = value % 256 := by simp
    simp only [leBytes, leNat, ih, hbyte]
    rw [pow_succ, mul_comm (256 ^ width), Nat.mod_mul]

/-- A number that fits is read back. -/
theorem leNat_leBytes_of_lt {width value : Nat} (h : value < 256 ^ width) :
    leNat (leBytes width value) = value := by
  rw [leNat_leBytes, Nat.mod_eq_of_lt h]

/-- A byte string is the encoding of its number. -/
theorem leBytes_leNat (bytes : List UInt8) : leBytes bytes.length (leNat bytes) = bytes := by
  induction bytes with
  | nil => rfl
  | cons byte rest ih =>
    have hbyte := byte.toNat_lt
    have hlow : UInt8.ofNat (byte.toNat + 256 * leNat rest) = byte := by
      apply UInt8.toNat_inj.mp
      rw [UInt8.toNat_ofNat']
      omega
    have hhigh : (byte.toNat + 256 * leNat rest) / 256 = leNat rest := by omega
    rw [leNat, List.length_cons, leBytes, hlow, hhigh, ih]

section BigEndian

/-- The big-endian bytes of a number, `width` of them. -/
def beBytes (width value : Nat) : List UInt8 := (leBytes width value).reverse

/-- The number a big-endian byte string stands for. -/
def beNat (bytes : List UInt8) : Nat := leNat bytes.reverse

@[simp]
theorem length_beBytes (width value : Nat) : (beBytes width value).length = width := by
  simp [beBytes]

variable {width : Nat}

theorem beNat_beBytes_of_lt {value : Nat} (h : value < 256 ^ width) :
    beNat (beBytes width value) = value := by
  rw [beNat, beBytes, List.reverse_reverse, leNat_leBytes_of_lt h]

theorem leBytes_append (width value : Nat) :
    leBytes (width + 1) value = leBytes width value ++ [UInt8.ofNat (value / 256 ^ width)] := by
  induction width generalizing value with
  | zero => simp [leBytes]
  | succ width ih =>
    rw [leBytes, ih, leBytes, Nat.div_div_eq_div_mul, List.cons_append, pow_succ, Nat.mul_comm 256]

theorem beBytes_succ (width value : Nat) :
    beBytes (width + 1) value = UInt8.ofNat (value / 256 ^ width) :: beBytes width value := by
  rw [beBytes, leBytes_append, List.reverse_append]
  rfl

/-- Numbers compare by their leading digit first. -/
theorem compare_digits {base high high' low low' : Nat} (hlow : low < base) (hlow' : low' < base) :
    compare (low + base * high) (low' + base * high') =
      (compare high high').then (compare low low') := by
  rcases Nat.lt_trichotomy high high' with hlt | rfl | hgt
  · have hmul := Nat.mul_le_mul_left base hlt
    rw [Nat.mul_succ] at hmul
    rw [Nat.compare_eq_lt.mpr hlt, Nat.compare_eq_lt.mpr (by omega)]
    rfl
  · rw [Nat.compare_eq_eq.mpr rfl, Ordering.eq_then, Nat.compare_eq_ite_lt, Nat.compare_eq_ite_lt]
    simp only [Nat.add_lt_add_iff_right]
  · have hmul := Nat.mul_le_mul_left base hgt
    rw [Nat.mul_succ] at hmul
    rw [Nat.compare_eq_gt.mpr hgt, Nat.compare_eq_gt.mpr (by omega)]
    rfl

/-- Big-endian bytes compare as the numbers do. -/
theorem compare_beBytes (width a b : Nat) :
    compare (beBytes width a) (beBytes width b) = compare (a % 256 ^ width) (b % 256 ^ width) := by
  induction width with
  | zero => simp [beBytes, leBytes, Nat.mod_one]
  | succ width ih =>
    have hbase : 0 < 256 ^ width := Nat.pow_pos (by decide)
    rw [beBytes_succ, beBytes_succ, List.compare_cons_cons, ih,
      UInt8.compare_eq_toNat_compare_toNat, pow_succ, Nat.mod_mul, Nat.mod_mul,
      compare_digits (Nat.mod_lt _ hbase) (Nat.mod_lt _ hbase)]
    simp

variable {a b : Nat} (ha : a < 256 ^ width) (hb : b < 256 ^ width)
include ha hb

theorem compare_beBytes_of_lt : compare (beBytes width a) (beBytes width b) = compare a b := by
  rw [compare_beBytes, Nat.mod_eq_of_lt ha, Nat.mod_eq_of_lt hb]

theorem beBytes_injective (h : beBytes width a = beBytes width b) : a = b := by
  have hle : leBytes width a = leBytes width b := List.reverse_injective h
  rw [← leNat_leBytes_of_lt ha, hle, leNat_leBytes_of_lt hb]

end BigEndian

/-- Byte strings neither of which continues the other compare in front of any continuations. -/
theorem compare_append {s t : List UInt8} (hst : s <+: t → s = t) (hts : t <+: s → t = s)
    (x y : List UInt8) : compare (s ++ x) (t ++ y) = (compare s t).then (compare x y) := by
  induction s generalizing t with
  | nil =>
    cases hst List.nil_prefix
    rfl
  | cons a s ih =>
    cases t with
    | nil => cases hts List.nil_prefix
    | cons b t =>
      rw [List.cons_append, List.cons_append, List.compare_cons_cons, List.compare_cons_cons]
      cases hab : compare a b with
      | lt => rfl
      | gt => rfl
      | eq =>
        cases Std.LawfulEqCmp.compare_eq_iff_eq.mp hab
        simp only [List.cons_prefix_cons, true_and, List.cons.injEq] at hst hts
        rw [Ordering.eq_then, Ordering.eq_then, ih hst hts]

section Ranges

variable {α : Type}

/-- The `count` bytes from `start` on. -/
def slice (bytes : List α) (start count : Nat) : List α := (bytes.drop start).take count

/-- Copy `data` over the bytes from `start` on. -/
def overwrite (bytes : List α) (start : Nat) (data : List α) : List α :=
  bytes.mapIdx fun i byte => if i < start then byte else (data[i - start]?).getD byte

variable (bytes : List α)

@[simp]
theorem length_overwrite (start : Nat) (data : List α) :
    (overwrite bytes start data).length = bytes.length := by
  simp [overwrite]

variable {start count : Nat}

theorem length_slice {bytes : List α} (h : start + count ≤ bytes.length) :
    (slice bytes start count).length = count := by
  simp only [slice, List.length_take, List.length_drop]
  omega

theorem getElem?_slice (start count i : Nat) :
    (slice bytes start count)[i]? = if i < count then bytes[start + i]? else none := by
  simp only [slice, List.getElem?_take, List.getElem?_drop]

theorem getElem?_overwrite (start : Nat) (data : List α) (i : Nat) :
    (overwrite bytes start data)[i]? =
      if start ≤ i ∧ i < start + data.length ∧ i < bytes.length then data[i - start]?
      else bytes[i]? := by
  simp only [overwrite, List.getElem?_mapIdx]
  by_cases hbytes : i < bytes.length
  · rw [List.getElem?_eq_getElem hbytes, Option.map_some]
    by_cases hstart : i < start
    · rw [if_pos hstart, if_neg (by omega)]
    · rw [if_neg hstart]
      by_cases hdata : i < start + data.length
      · rw [if_pos ⟨by omega, hdata, hbytes⟩, List.getElem?_eq_getElem (by omega)]
        rfl
      · rw [if_neg (by omega), List.getElem?_eq_none (by omega)]
        rfl
  · have hnone : bytes[i]? = none := List.getElem?_eq_none (by omega)
    rw [hnone, if_neg (by omega)]
    rfl

/-- What was written is read back. -/
theorem slice_overwrite_self {bytes data : List α} (hcount : data.length = count)
    (h : start + count ≤ bytes.length) : slice (overwrite bytes start data) start count = data := by
  ext i : 1
  rw [getElem?_slice, getElem?_overwrite]
  by_cases hi : i < count
  · rw [if_pos hi, if_pos ⟨by omega, by omega, by omega⟩]
    congr 1
    omega
  · rw [if_neg hi, List.getElem?_eq_none (by omega)]

/-- A range the write does not touch stays. -/
theorem slice_overwrite_of_disjoint {bytes data : List α} {at' : Nat}
    (h : at' + count ≤ start ∨ start + data.length ≤ at') :
    slice (overwrite bytes start data) at' count = slice bytes at' count := by
  ext i : 1
  rw [getElem?_slice, getElem?_slice, getElem?_overwrite]
  by_cases hi : i < count
  · rw [if_pos hi, if_pos hi, if_neg (by omega)]
  · rw [if_neg hi, if_neg hi]

/-- A later write of the same length at the same place wins. -/
theorem overwrite_overwrite {bytes first second : List α} (h : first.length = second.length) :
    overwrite (overwrite bytes start first) start second = overwrite bytes start second := by
  ext i : 1
  simp only [getElem?_overwrite, length_overwrite, h]
  split
  · rfl
  · rfl

/-- A part of a concatenation, found at the length of the parts before it. -/
theorem slice_flatten {parts : List (List α)} {part : List α} (k : Nat)
    (hpart : parts[k]? = some part) (hstart : (parts.take k).flatten.length = start)
    (hcount : part.length = count) : slice parts.flatten start count = part := by
  obtain ⟨hlt, rfl⟩ := List.getElem?_eq_some_iff.mp hpart
  have hsplit : parts = parts.take k ++ parts[k] :: parts.drop (k + 1) := by
    rw [List.getElem_cons_drop, List.take_append_drop]
  have hflatten : parts.flatten =
      (parts.take k).flatten ++ (parts[k] ++ (parts.drop (k + 1)).flatten) := by
    conv => lhs; rw [hsplit, List.flatten_append, List.flatten_cons]
  rw [slice, hflatten, ← hstart, ← hcount, List.drop_left, List.take_left]

theorem getD_eq_slice (i : Nat) (default : α) :
    bytes.getD i default = ((slice bytes i 1).head?).getD default := by
  simp [slice, List.head?_take, List.head?_drop]

end Ranges

end ByteString
