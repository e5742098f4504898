import Mathlib.Data.List.Basic
import Mathlib.Data.Nat.Notation

/-!
# Shift registers with feedback

A register of `w` bits takes a string bit by bit: it shifts right, and the
polynomial is added when the outgoing bit and the incoming one differ. Taking up
to `w` bits is loading them at once and shifting, and shifting can be undone, so
strings that differ only within a window of `w` bits leave different registers.
-/

namespace ShiftRegister

variable {w : ℕ}

/-- The register after one bit. -/
def step (poly s : BitVec w) (bit : Bool) : BitVec w :=
  if s.getLsbD 0 ^^ bit then (s >>> 1) ^^^ poly else s >>> 1

/-- Bits to be loaded at once. -/
def load (w : ℕ) (u : List Bool) : BitVec w := (BitVec.ofBoolListLE u).setWidth w

theorem getLsbD_load (u : List Bool) (i : ℕ) :
    (load w u).getLsbD i = (decide (i < w) && u.getD i false) := by
  rw [load, BitVec.getLsbD_setWidth, BitVec.getLsbD_ofBoolListLE]

variable {u v : List Bool} (hle : u.length ≤ w)

include hle in
theorem load_injective (hlength : u.length = v.length) (h : load w u = load w v) : u = v := by
  apply List.ext_getElem hlength
  intro i hu hv
  have hbit : (load w u).getLsbD i = (load w v).getLsbD i := by rw [h]
  rw [getLsbD_load, getLsbD_load] at hbit
  simpa [hu, hv, Nat.lt_of_lt_of_le hu hle] using hbit

variable {poly s t : BitVec w}

include hle in
/-- Taking the bits one by one is loading them and shifting. -/
theorem foldl_step_eq_load (s : BitVec w) : u.foldl (step poly) s =
    (List.replicate u.length false).foldl (step poly) (s ^^^ load w u) := by
  induction u generalizing s with
  | nil =>
    rw [show load w [] = 0#w from BitVec.setWidth_zero .., BitVec.xor_zero]
    rfl
  | cons a u ih =>
    rw [List.length_cons] at hle
    have hbit : (load w (a :: u)).getLsbD 0 = a := by
      rw [getLsbD_load]
      simp [show 0 < w by omega]
    have hshift : load w (a :: u) >>> 1 = load w u := by
      apply BitVec.eq_of_getLsbD_eq
      intro i hi
      rw [BitVec.getLsbD_ushiftRight, getLsbD_load, getLsbD_load, Nat.add_comm]
      by_cases hw : i + 1 < w
      · simp [hi, hw]
      · simp [hw, List.getElem?_eq_none (show u.length ≤ i by omega)]
    rw [List.foldl_cons, ih (by omega), List.length_cons, List.replicate_succ, List.foldl_cons]
    simp only [step, BitVec.getLsbD_xor, hbit, Bool.xor_false, BitVec.ushiftRight_xor_distrib,
      hshift]
    split
    · rw [BitVec.xor_assoc, BitVec.xor_assoc, BitVec.xor_comm poly]
    · rfl

section Feedback

variable (hpoly : poly.msb = true)

include hpoly

/-- The top bit shows the feedback, so a step can be undone. -/
theorem step_injective {a : Bool} (h : step poly s a = step poly t a) : s = t := by
  have htop (s : BitVec w) : (step poly s a).msb = (s.getLsbD 0 ^^ a) := by
    have hshifted : (s >>> 1).msb = false := by simp [BitVec.msb_ushiftRight]
    unfold step
    cases s.getLsbD 0 ^^ a with
    | true => rw [if_pos rfl, BitVec.msb_xor, hshifted, hpoly, Bool.false_xor]
    | false => exact hshifted
  have hbit : (s.getLsbD 0 ^^ a) = (t.getLsbD 0 ^^ a) := by rw [← htop, h, htop]
  have hshift : s >>> 1 = t >>> 1 := by
    rw [step, step, hbit] at h
    split at h
    · exact (BitVec.xor_left_inj _).mp h
    · exact h
  apply BitVec.eq_of_getLsbD_eq
  intro i _
  cases i with
  | zero => exact Bool.xor_left_inj.mp hbit
  | succ i => simpa [Nat.add_comm 1] using congrArg (·.getLsbD i) hshift

theorem eq_of_foldl_eq (x : List Bool)
    (h : x.foldl (step poly) s = x.foldl (step poly) t) : s = t := by
  induction x generalizing s t with
  | nil => exact h
  | cons a x ih => exact step_injective hpoly (ih h)

/-- Strings of one length that differ, and only within a window of the register's width. -/
theorem foldl_step_ne {x y : List Bool} {start : ℕ} (hlength : x.length = y.length) (hne : x ≠ y)
    (hwindow : ∀ k, x[k]? ≠ y[k]? → start ≤ k ∧ k < start + w) (s : BitVec w) :
    x.foldl (step poly) s ≠ y.foldl (step poly) s := by
  have hsame (k : ℕ) (hk : ¬(start ≤ k ∧ k < start + w)) : x[k]? = y[k]? := by
    by_contra h
    exact hk (hwindow k h)
  have htake : x.take start = y.take start := by
    ext k : 1
    rw [List.getElem?_take, List.getElem?_take]
    split
    · exact hsame k (by omega)
    · rfl
  have hdrop : (x.drop start).drop w = (y.drop start).drop w := by
    ext k : 1
    simp only [List.getElem?_drop]
    exact hsame _ (by omega)
  have hlengths : ((x.drop start).take w).length = ((y.drop start).take w).length := by
    simp [hlength]
  intro h
  apply hne
  rw [← List.take_append_drop start x, ← List.take_append_drop start y, htake,
    ← List.take_append_drop w (x.drop start), ← List.take_append_drop w (y.drop start),
      hdrop] at h ⊢
  simp only [List.foldl_append] at h
  have hloaded := eq_of_foldl_eq hpoly _ h
  rw [foldl_step_eq_load (List.length_take_le ..), foldl_step_eq_load (List.length_take_le ..),
    hlengths] at hloaded
  rw [load_injective (List.length_take_le ..) hlengths
    ((BitVec.xor_right_inj _).mp (eq_of_foldl_eq hpoly _ hloaded))]

end Feedback

end ShiftRegister
