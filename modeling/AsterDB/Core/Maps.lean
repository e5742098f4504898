import Std.Data.ExtTreeMap

/-!
# Lookups after a change

What a lookup finds in a map after one key was inserted, erased or modified.
-/

namespace Maps

open Std

variable {κ ν : Type} {cmp : κ → κ → Ordering} [TransCmp cmp] [LawfulEqCmp cmp]
  {m : ExtTreeMap κ ν cmp} {k a : κ} {v x : ν}

theorem insert_of_ne (h : a ≠ k) : (m.insert k v)[a]? = m[a]? := by
  rw [ExtTreeMap.getElem?_insert, if_neg fun heq => h (LawfulEqCmp.eq_of_compare heq).symm]

theorem of_insert (h : (m.insert k v)[a]? = some x) :
    (a = k ∧ x = v) ∨ (a ≠ k ∧ m[a]? = some x) := by
  by_cases hk : a = k
  · subst hk
    rw [ExtTreeMap.getElem?_insert_self, Option.some.injEq] at h
    exact Or.inl ⟨rfl, h.symm⟩
  · rw [insert_of_ne hk] at h
    exact Or.inr ⟨hk, h⟩

theorem erase_of_ne (h : a ≠ k) : (m.erase k)[a]? = m[a]? := by
  rw [ExtTreeMap.getElem?_erase, if_neg fun heq => h (LawfulEqCmp.eq_of_compare heq).symm]

theorem of_erase (h : (m.erase k)[a]? = some x) : a ≠ k ∧ m[a]? = some x := by
  have hk : a ≠ k := by
    rintro rfl
    rw [ExtTreeMap.getElem?_erase_self] at h
    cases h
  rw [erase_of_ne hk] at h
  exact ⟨hk, h⟩

theorem modify_of_ne {f : ν → ν} (h : a ≠ k) : (m.modify k f)[a]? = m[a]? := by
  rw [ExtTreeMap.getElem?_modify, if_neg fun heq => h (LawfulEqCmp.eq_of_compare heq).symm]

theorem of_modify {f : ν → ν} (h : (m.modify k f)[a]? = some x) :
    (a = k ∧ ∃ y, m[k]? = some y ∧ x = f y) ∨ (a ≠ k ∧ m[a]? = some x) := by
  by_cases hk : a = k
  · subst hk
    rw [ExtTreeMap.getElem?_modify_self, Option.map_eq_some_iff] at h
    obtain ⟨y, hy, rfl⟩ := h
    exact Or.inl ⟨rfl, y, hy, rfl⟩
  · rw [modify_of_ne hk] at h
    exact Or.inr ⟨hk, h⟩

end Maps
