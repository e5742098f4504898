import AsterDB.Core.Fallible
import Mathlib.Data.List.Induction

/-!
# Grouping by a key

Elements are put into the bucket of their key, in the order they come. An element may have
no key, and the computation of a key may fail. The bucket of a key is then the list
filtered by it, and there is one for each key that occurs.
-/

namespace Grouping

open Std
open Fallible

variable {ε α κ : Type}

section Steps

variable [Ord κ] [TransOrd κ]

/-- Put an element into the bucket of its key. -/
def bucket (key : α → Except ε (Option κ)) (buckets : ExtTreeMap κ (List α)) (a : α) :
    Except ε (ExtTreeMap κ (List α)) := do
  match ← key a with
  | none => return buckets
  | some k => return buckets.insert k (buckets.getD k [] ++ [a])

variable {key : α → Except ε (Option κ)}

theorem bucket_eq_ok {buckets buckets' : ExtTreeMap κ (List α)} {a : α} :
    bucket key buckets a = .ok buckets' ↔ key a = .ok none ∧ buckets = buckets' ∨
      ∃ k, key a = .ok (some k) ∧ buckets.insert k (buckets.getD k [] ++ [a]) = buckets' := by
  unfold bucket
  rw [bind_eq_ok]
  constructor
  · rintro ⟨found, hkey, h⟩
    cases found with
    | none => exact .inl ⟨hkey, pure_eq_ok.mp h⟩
    | some k => exact .inr ⟨k, hkey, pure_eq_ok.mp h⟩
  · rintro (⟨hkey, rfl⟩ | ⟨k, hkey, rfl⟩)
    · exact ⟨none, hkey, rfl⟩
    · exact ⟨some k, hkey, rfl⟩

/-- A list is grouped if the keys of all its elements can be computed. -/
theorem exists_foldlM_bucket {list : List α} (h : ∀ a ∈ list, ∃ k, key a = .ok k)
    (start : ExtTreeMap κ (List α)) : ∃ buckets, list.foldlM (bucket key) start = .ok buckets := by
  induction list generalizing start with
  | nil => exact ⟨start, rfl⟩
  | cons a list ih =>
    rw [List.forall_mem_cons] at h
    obtain ⟨next, hnext⟩ : ∃ next, bucket key start a = .ok next := by
      obtain ⟨found, hfound⟩ := h.1
      cases found with
      | none => exact ⟨start, bucket_eq_ok.mpr (.inl ⟨hfound, rfl⟩)⟩
      | some k => exact ⟨_, bucket_eq_ok.mpr (.inr ⟨k, hfound, rfl⟩)⟩
    obtain ⟨buckets, hbuckets⟩ := ih h.2 next
    exact ⟨buckets, by rw [List.foldlM_cons, hnext]; exact hbuckets⟩

end Steps

section Contents

variable {key : α → Except ε (Option κ)} [DecidableEq κ] [DecidableEq ε]

/-- The elements of a list that have a key. -/
def withKey (key : α → Except ε (Option κ)) (k : κ) (list : List α) : List α :=
  list.filter fun a => key a = .ok (some k)

variable {list : List α}

theorem mem_withKey {k : κ} {a : α} : a ∈ withKey key k list ↔ a ∈ list ∧ key a = .ok (some k) := by
  simp [withKey]

variable [Ord κ] [TransOrd κ]

/-- What a list was grouped into. -/
structure Buckets (key : α → Except ε (Option κ)) (list : List α)
    (buckets : ExtTreeMap κ (List α)) : Prop where
  keyed : ∀ a ∈ list, ∃ k, key a = .ok k
  getD : ∀ k, buckets.getD k [] = withKey key k list
  mem : ∀ k, k ∈ buckets ↔ ∃ a ∈ list, key a = .ok (some k)

theorem Buckets.nil : Buckets key [] ∅ where
  keyed := nofun
  getD := by simp [withKey]
  mem := by simp

variable [LawfulEqOrd κ]

/-- One more element, of the step `bucket`. -/
theorem Buckets.snoc {a : α} {buckets buckets' : ExtTreeMap κ (List α)}
    (h : Buckets key list buckets) (hstep : bucket key buckets a = .ok buckets') :
    Buckets key (list ++ [a]) buckets' := by
  have hkeyed {found : Option κ} (hkey : key a = .ok found) :
      ∀ b ∈ list ++ [a], ∃ k, key b = .ok k := by
    intro b hb
    rcases List.mem_append.mp hb with hb | hb
    · exact h.keyed b hb
    · exact ⟨found, by rwa [List.mem_singleton.mp hb]⟩
  rcases bucket_eq_ok.mp hstep with ⟨hkey, rfl⟩ | ⟨k, hkey, rfl⟩
  · refine ⟨hkeyed hkey, fun k => ?_, fun k => ?_⟩
    · rw [h.getD, withKey, withKey, List.filter_append]
      simp [hkey]
    · rw [h.mem]
      simp [hkey, or_and_right, exists_or]
  · refine ⟨hkeyed hkey, fun k' => ?_, fun k' => ?_⟩
    · rw [ExtTreeMap.getD_insert, h.getD, h.getD, withKey, withKey, withKey, List.filter_append]
      by_cases hk : k = k'
      · subst hk
        simp [hkey]
      · simp [hkey, hk]
    · rw [ExtTreeMap.mem_insert, LawfulEqCmp.compare_eq_iff_eq, h.mem]
      simp [hkey, or_and_right, exists_or, or_comm]

/-- The buckets of a list. -/
theorem buckets_of_foldlM {buckets : ExtTreeMap κ (List α)}
    (h : list.foldlM (bucket key) ∅ = .ok buckets) : Buckets key list buckets := by
  induction list using List.reverseRecOn generalizing buckets with
  | nil =>
    cases h
    exact .nil
  | append_singleton list a ih =>
    rw [List.foldlM_append, bind_eq_ok] at h
    obtain ⟨before, hbefore, h⟩ := h
    rw [List.foldlM_cons, bind_eq_ok] at h
    obtain ⟨after, hafter, h⟩ := h
    cases h
    exact (ih hbefore).snoc hafter

end Contents

end Grouping
