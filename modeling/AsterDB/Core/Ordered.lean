import Mathlib.Data.List.Sort
import Std.Data.ExtTreeSet

/-!
# Reading through ordered keys

A partial function read along a set of keys, in key order. What is read depends only
on the keys where the function is defined.
-/

namespace Ordered

open Std

variable {κ ρ : Type} [Ord κ] [TransOrd κ] {keys keys' : List κ}

/-- Keys in strict order are known by what is among them. -/
theorem eq_of_mem_iff (h : keys.Pairwise fun a b => compare a b = .lt)
    (h' : keys'.Pairwise fun a b => compare a b = .lt) (hmem : ∀ key, key ∈ keys ↔ key ∈ keys') :
    keys = keys' := by
  have : Antisymm fun a b : κ => compare a b = .lt := ⟨fun a b hab hba => by
    have hgt : compare a b = .gt := OrientedCmp.gt_of_lt hba
    exact absurd (hab.symm.trans hgt) (by decide)⟩
  have : Irrefl fun a b : κ => compare a b = .lt := ⟨fun a ha => by
    rw [ReflOrd.compare_self] at ha
    cases ha⟩
  exact h.eq_of_mem_iff h' hmem

/-- The keys and values met along a set of keys. -/
def along (keys : List κ) (f : κ → Option ρ) : List (κ × ρ) :=
  (ExtTreeSet.ofList keys).toList.filterMap fun key => (f key).map (key, ·)

/-- Pairs with keys in strict order. -/
def Below (a b : κ × ρ) : Prop := compare a.1 b.1 = .lt

instance : Antisymm (Below : κ × ρ → κ × ρ → Prop) where
  antisymm a b hab hba := by
    have hgt : compare a.1 b.1 = .gt := OrientedCmp.gt_of_lt hba
    exact absurd (Eq.symm hab |>.trans hgt) (by decide)

instance : Irrefl (Below : κ × ρ → κ × ρ → Prop) where
  irrefl a h := by
    rw [Below, ReflOrd.compare_self] at h
    cases h

theorem along_map_snd (keys : List κ) (f : κ → Option ρ) :
    (along keys f).map Prod.snd = (ExtTreeSet.ofList keys).toList.filterMap f := by
  rw [along, List.map_filterMap]
  congr 1
  funext key
  cases f key <;> rfl

theorem pairwise_along (keys : List κ) (f : κ → Option ρ) : (along keys f).Pairwise Below := by
  refine List.Pairwise.filterMap _ ?_ (ExtTreeSet.ordered_toList (t := ExtTreeSet.ofList keys))
  intro key key' hlt pair hpair pair' hpair'
  obtain ⟨_, -, rfl⟩ := Option.map_eq_some_iff.mp hpair
  obtain ⟨_, -, rfl⟩ := Option.map_eq_some_iff.mp hpair'
  exact hlt

variable [LawfulEqOrd κ] [DecidableEq κ] {f : κ → Option ρ}

theorem mem_along {keys : List κ} {key : κ} {value : ρ} :
    (key, value) ∈ along keys f ↔ key ∈ keys ∧ f key = some value := by
  simp only [along, List.mem_filterMap, ExtTreeSet.mem_toList, ExtTreeSet.mem_ofList,
    List.contains_iff_mem, Option.map_eq_some_iff, Prod.mk.injEq]
  constructor
  · rintro ⟨key', hmem, _, hvalue, rfl, rfl⟩
    exact ⟨hmem, hvalue⟩
  · rintro ⟨hmem, hvalue⟩
    exact ⟨key, hmem, value, hvalue, rfl, rfl⟩

/-- Two readings with the same keys and values are the same. -/
theorem along_eq_of_iff {f g : κ → Option ρ}
    (h : ∀ key value, (key ∈ keys ∧ f key = some value) ↔ (key ∈ keys' ∧ g key = some value)) :
    along keys f = along keys' g := by
  refine (pairwise_along keys f).eq_of_mem_iff (pairwise_along keys' g) ?_
  rintro ⟨key, value⟩
  rw [mem_along, mem_along]
  exact h key value

/-- A reading along fewer keys is part of the reading. -/
theorem along_subperm (hsub : ∀ key value, key ∈ keys → f key = some value → key ∈ keys') :
    (along keys f).Subperm (along keys' f) := by
  have hnodup : (along keys f).Nodup :=
    (pairwise_along keys f).imp fun {a b} (hlt : Below a b) (heq : a = b) =>
      Irrefl.irrefl (r := Below) a (heq ▸ hlt)
  refine List.subperm_of_subset hnodup ?_
  rintro ⟨key, value⟩ hpair
  rw [mem_along] at hpair ⊢
  exact ⟨hsub key value hpair.1 hpair.2, hpair.2⟩

/-- If it is as long it misses none of the values. -/
theorem mem_of_length_along (hsub : ∀ key value, key ∈ keys → f key = some value → key ∈ keys')
    (hlength : (along keys' f).length ≤ (along keys f).length) {key : κ} {value : ρ}
    (hmem : key ∈ keys') (hvalue : f key = some value) : key ∈ keys := by
  have hperm := (along_subperm hsub).perm_of_length_le hlength
  exact (mem_along.mp (hperm.mem_iff.mpr (mem_along.mpr ⟨hmem, hvalue⟩))).1

omit [LawfulEqOrd κ] [DecidableEq κ] in
/-- The values that satisfy a condition, met along the keys. -/
theorem filter_map_along (keys : List κ) (f : κ → Option ρ) (p : ρ → Bool) :
    ((along keys f).map Prod.snd).filter p =
      (along keys fun key => (f key).filter p).map Prod.snd := by
  rw [along_map_snd, along_map_snd, List.filter_filterMap]

/-- Keys that differ only where the condition fails give the same values. -/
theorem filter_along {p : ρ → Bool}
    (h : ∀ key value, f key = some value → p value = true → (key ∈ keys ↔ key ∈ keys')) :
    ((along keys f).map Prod.snd).filter p = ((along keys' f).map Prod.snd).filter p := by
  rw [filter_map_along, filter_map_along]
  congr 1
  refine along_eq_of_iff fun key value => ?_
  rw [Option.filter_eq_some_iff]
  exact ⟨fun ⟨hmem, hvalue, hp⟩ => ⟨(h key value hvalue hp).mp hmem, hvalue, hp⟩,
    fun ⟨hmem, hvalue, hp⟩ => ⟨(h key value hvalue hp).mpr hmem, hvalue, hp⟩⟩

section Sorting

variable {α β : Type} {S : α → β → Prop} {r : α → α → Prop} {r' : β → β → Prop} [DecidableRel r]
  [DecidableRel r']

/-- Lists that correspond stay so when they are sorted by orders that do. -/
theorem forall₂_insertionSort (horder : ∀ a a' b b', S a a' → S b b' → (r a b ↔ r' a' b'))
    {list : List α} {list' : List β} (h : List.Forall₂ S list list') :
    List.Forall₂ S (list.insertionSort r) (list'.insertionSort r') := by
  have hinsert {a : α} {a' : β} (ha : S a a') {list : List α} {list' : List β}
      (h : List.Forall₂ S list list') :
      List.Forall₂ S (list.orderedInsert r a) (list'.orderedInsert r' a') := by
    induction h with
    | nil => exact .cons ha .nil
    | @cons b b' rest rest' hb hrest ih =>
      rw [List.orderedInsert_cons, List.orderedInsert_cons]
      by_cases hr : r a b
      · rw [if_pos hr, if_pos ((horder _ _ _ _ ha hb).mp hr)]
        exact .cons ha (.cons hb hrest)
      · rw [if_neg hr, if_neg (mt (horder _ _ _ _ ha hb).mpr hr)]
        exact .cons hb ih
  induction h with
  | nil => exact .nil
  | cons hhead _ ih => exact hinsert hhead ih

end Sorting

end Ordered
