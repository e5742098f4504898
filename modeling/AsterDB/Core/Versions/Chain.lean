import Mathlib.Data.List.Basic
import Mathlib.Order.Basic

/-!
# Version chains

A chain holds the versions of one item, newest first, each with the time it was
written at. A reader at some time sees the newest version that is not newer. A
chain may be vacuumed up to a floor: readers from the floor on see the same, where
a version that stands for absence counts as none.
-/

namespace Versions

variable {ν : Type} (time : ν → Nat)

/-- What a reader at time `t` finds. -/
def seen (chain : List ν) (t : Nat) : Option ν := chain.find? fun v => time v ≤ t

/-- Drop what no reader from the floor on can see, and absence at the floor. -/
def vacuum (live : ν → Bool) (chain : List ν) (floor : Nat) : List ν :=
  chain.takeWhile (fun v => floor < time v) ++ ((seen time chain floor).filter live).toList

variable {time} {chain : List ν} {t floor : Nat} {v : ν}

/-- A newer version is not seen by older readers. -/
theorem seen_cons_of_lt (h : t < time v) : seen time (v :: chain) t = seen time chain t :=
  List.find?_cons_of_neg (by simpa using h)

/-- A version is seen by readers from its time on. -/
theorem seen_cons_of_le (h : time v ≤ t) : seen time (v :: chain) t = some v :=
  List.find?_cons_of_pos (by simpa using h)

/-- Readers from the last version on all see it. -/
theorem seen_of_bounded {t' : Nat} (h : ∀ v ∈ chain, time v ≤ t) (hle : t ≤ t') :
    seen time chain t' = seen time chain t := by
  cases chain with
  | nil => rfl
  | cons v chain =>
    have hv := h v List.mem_cons_self
    rw [seen_cons_of_le hv, seen_cons_of_le (Nat.le_trans hv hle)]

theorem mem_of_seen (h : seen time chain t = some v) : v ∈ chain :=
  List.mem_of_find?_eq_some h

variable {live : ν → Bool}

theorem mem_vacuum (h : v ∈ vacuum time live chain floor) : v ∈ chain := by
  rcases List.mem_append.mp h with h | h
  · exact (List.takeWhile_sublist _).mem h
  · simp only [Option.mem_toList, Option.filter_eq_some_iff] at h
    exact mem_of_seen h.1

/-- Readers from the floor on see the same live version. -/
theorem seen_vacuum (live : ν → Bool) (chain : List ν) (hle : floor ≤ t) :
    (seen time (vacuum time live chain floor) t).filter live = (seen time chain t).filter live := by
  induction chain with
  | nil => rfl
  | cons v chain ih =>
    by_cases hv : floor < time v
    · rw [vacuum, List.takeWhile_cons_of_pos (by simpa using hv), seen_cons_of_lt hv,
        List.cons_append]
      by_cases ht : time v ≤ t
      · rw [seen_cons_of_le ht, seen_cons_of_le ht]
      · rw [seen_cons_of_lt (by omega), seen_cons_of_lt (by omega)]
        exact ih
    · rw [vacuum, List.takeWhile_cons_of_neg (by simpa using hv),
        seen_cons_of_le (t := floor) (by omega), seen_cons_of_le (t := t) (by omega)]
      cases hlive : live v with
      | false => simp [Option.filter, hlive, seen]
      | true =>
        have hsome : (some v).filter live = some v := by simp [hlive]
        rw [hsome, Option.toList_some, List.nil_append, seen_cons_of_le (by omega), hsome]

/-- Versions beyond the floor stay. -/
theorem head_vacuum (h : chain.head? = some v) (hv : floor < time v) :
    (vacuum time live chain floor).head? = some v := by
  cases chain with
  | nil => cases h
  | cons w chain =>
    cases h
    rw [vacuum, List.takeWhile_cons_of_pos (by simpa using hv)]
    rfl

end Versions
