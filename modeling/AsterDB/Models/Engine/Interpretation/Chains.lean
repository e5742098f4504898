import AsterDB.Core.Versions.Chain
import AsterDB.Models.Engine.Native.Snapshot

/-!
# Chains of an engine

Rows and index entries as version chains: what a push and a vacuum do to them, and
what readers see afterwards.
-/

namespace AsterEngine

open Std
open Versions

/-- The versions of a row. -/
def Engine.chain (e : Engine) (key : LogicalKey) : List RowVersion := e.primary[key]?.getD []

/-- The versions of an index entry. -/
def Engine.entries (e : Engine) (key : SecondaryKey) : List SecondaryVersion :=
  e.secondary[key]?.getD []

section Visibility

variable {floor readTs : Nat}

theorem visibleRow_eq_seen (versions : List RowVersion) :
    visibleRow versions readTs =
      ((seen RowVersion.commitIndex versions readTs).filter (·.row.isSome)).bind
      RowVersion.row := by
  rw [visibleRow, seen]
  cases versions.find? fun version => version.commitIndex ≤ readTs with
  | none => rfl
  | some version => cases hrow : version.row <;> simp [Option.filter, hrow]

variable (versions : List SecondaryVersion)

theorem visibleSecondary_eq_seen :
    visibleSecondary versions readTs =
      ((seen SecondaryVersion.commitIndex versions readTs).filter (·.present)).isSome := by
  rw [visibleSecondary, seen]
  cases versions.find? fun version => version.commitIndex ≤ readTs with
  | none => rfl
  | some version => cases hpresent : version.present <;> simp [Option.filter, hpresent]

theorem vacuumRows_eq (versions : List RowVersion) :
    vacuumRows versions floor =
      vacuum RowVersion.commitIndex (·.row.isSome) versions floor := by
  unfold vacuumRows vacuum
  dsimp only [seen]
  split
  next h => rw [h, Option.toList_some]
  next h => rw [h, Option.toList_none, List.append_nil]

theorem vacuumSecondary_eq :
    vacuumSecondary versions floor =
      vacuum SecondaryVersion.commitIndex (·.present) versions floor := by
  unfold vacuumSecondary vacuum
  dsimp only [seen]
  split
  next h => rw [h, Option.toList_some]
  next h => rw [h, Option.toList_none, List.append_nil]

/-- Readers from the floor on see the same row. -/
theorem visibleRow_vacuumRows (versions : List RowVersion) (h : floor ≤ readTs) :
    visibleRow (vacuumRows versions floor) readTs = visibleRow versions readTs := by
  rw [visibleRow_eq_seen, visibleRow_eq_seen, vacuumRows_eq, seen_vacuum _ _ h]

/-- Readers from the floor on see the same index entry. -/
theorem visibleSecondary_vacuumSecondary (h : floor ≤ readTs) :
    visibleSecondary (vacuumSecondary versions floor) readTs =
      visibleSecondary versions readTs := by
  rw [visibleSecondary_eq_seen, visibleSecondary_eq_seen, vacuumSecondary_eq, seen_vacuum _ _ h]

@[simp]
theorem visibleRow_nil : visibleRow [] readTs = none := rfl

theorem visibleRow_cons (version : RowVersion) (versions : List RowVersion) :
    visibleRow (version :: versions) readTs =
      if version.commitIndex ≤ readTs then version.row else visibleRow versions readTs := by
  unfold visibleRow
  by_cases h : version.commitIndex ≤ readTs <;> simp [h]

theorem visibleSecondary_cons (version : SecondaryVersion) (versions : List SecondaryVersion) :
    visibleSecondary (version :: versions) readTs =
      if version.commitIndex ≤ readTs then version.present
      else visibleSecondary versions readTs := by
  unfold visibleSecondary
  by_cases h : version.commitIndex ≤ readTs <;> simp [h]

/-- Readers beyond the newest version all see the same row. -/
theorem visibleRow_of_bounded {versions : List RowVersion} {t : Nat}
    (hbound : ∀ version ∈ versions, version.commitIndex ≤ t) (h : t ≤ readTs) :
    visibleRow versions readTs = visibleRow versions t := by
  rw [visibleRow_eq_seen, visibleRow_eq_seen, seen_of_bounded hbound h]

theorem visibleSecondary_of_bounded {versions : List SecondaryVersion} {t : Nat}
    (hbound : ∀ version ∈ versions, version.commitIndex ≤ t) (h : t ≤ readTs) :
    visibleSecondary versions readTs = visibleSecondary versions t := by
  rw [visibleSecondary_eq_seen, visibleSecondary_eq_seen, seen_of_bounded hbound h]

end Visibility

section Maps

variable {κ ν : Type} [Ord κ] [TransOrd κ] [LawfulEqOrd κ]

/-- Vacuuming a map vacuums each chain. -/
theorem getD_vacuumChains {vacuum : List ν → Nat → List ν} {floor : Nat}
    (hnil : vacuum [] floor = []) (map : ExtTreeMap κ (List ν)) (key : κ) :
    (vacuumChains vacuum floor map)[key]?.getD [] = vacuum (map[key]?.getD []) floor := by
  rw [vacuumChains, ExtTreeMap.getElem?_filter', ExtTreeMap.getElem?_map]
  cases map[key]? with
  | none => simpa using hnil.symm
  | some versions =>
    simp only [Option.map_some, Option.filter_some, Option.getD_some]
    cases hempty : (vacuum versions floor).isEmpty with
    | false => simp
    | true => simpa using (List.isEmpty_iff.mp hempty).symm

/-- A version put in front of one chain. -/
theorem getD_alter_push [DecidableEq κ] (map : ExtTreeMap κ (List ν)) (key key' : κ) (version : ν) :
    (map.alter key fun versions => some (version :: versions.getD []))[key']?.getD [] =
      if key = key' then version :: map[key']?.getD [] else map[key']?.getD [] := by
  rw [ExtTreeMap.getElem?_alter]
  by_cases h : key = key'
  · rw [if_pos (LawfulEqCmp.compare_eq_iff_eq.mpr h), if_pos h, h]
    rfl
  · rw [if_neg (mt LawfulEqCmp.compare_eq_iff_eq.mp h), if_neg h]

end Maps

namespace Engine

variable (e : Engine)

theorem chain_pushRow (key key' : LogicalKey) (version : RowVersion) :
    (e.pushRow key version).chain key' =
      if key = key' then version :: e.chain key' else e.chain key' :=
  getD_alter_push e.primary key key' version

theorem entries_pushSecondary (indexId : Nat) (value : Value) (primaryKey : LogicalKey)
    (commitIndex : Nat) (present : Bool) (key : SecondaryKey) :
    (e.pushSecondary indexId value primaryKey commitIndex present).entries key =
      if { indexId, secondaryValue := Codec.encodeOrdered value,
           primaryKey := primaryKey.primaryKey } = key then
        { commitIndex, present } :: e.entries key
      else e.entries key :=
  getD_alter_push e.secondary _ key _

theorem visibleRow_chain (key : LogicalKey) (readTs : Nat) :
    (e.primary[key]?.bind fun versions => visibleRow versions readTs) =
      visibleRow (e.chain key) readTs := by
  unfold chain
  cases e.primary[key]? <;> rfl

/-- A row is read from the chain of its key. -/
theorem readKey_eq (transaction : Transaction) (key : LogicalKey) :
    e.readKey transaction key =
      match transaction.overlay key with
      | some mutation => mutation.row
      | none => visibleRow (e.chain key) transaction.readTs := by
  unfold readKey
  cases transaction.overlay key with
  | none => exact e.visibleRow_chain key transaction.readTs
  | some mutation => cases mutation <;> rfl

/-- Only keys with a chain have rows below the overlay. -/
theorem mem_primary_of_chain_ne_nil {key : LogicalKey} (h : e.chain key ≠ []) :
    key ∈ e.primary := by
  by_contra hmem
  rw [chain, ExtTreeMap.getElem?_eq_none hmem] at h
  exact h rfl

end Engine

end AsterEngine
