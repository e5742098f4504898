import AsterDB.Models.Engine.Interpretation.Change

/-!
# Stored rows

Every stored row fits the schema of its table and stands under the key that its primary
column gives it.
-/

namespace AsterEngine

open Std
open Fallible Versions

/-- A row belongs under a key of a table of a catalog. -/
def Belongs (catalog : Catalog) (key : LogicalKey) (row : Row) : Prop :=
  ∃ table, catalog.table key.tableId = some table ∧ table.schema.validateRow row = .ok () ∧
    LogicalKey.new key.tableId (row.values.getD table.primaryKeyColumn .null) = .ok key

def RowsFit (e : Engine) : Prop :=
  ∀ key, ∀ version ∈ e.chain key, ∀ row, version.row = some row → Belongs e.catalog key row

/-- A row that is visible is in its chain. -/
theorem mem_of_visibleRow {versions : List RowVersion} {readTs : Nat} {row : Row}
    (h : visibleRow versions readTs = some row) : ∃ version ∈ versions, version.row = some row := by
  rw [visibleRow, Option.bind_eq_some_iff] at h
  obtain ⟨version, hversion, hrow⟩ := h
  exact ⟨version, List.mem_of_find?_eq_some hversion, hrow⟩

namespace RowsFit

variable {e e' : Engine} {added : List Entry}

theorem new : RowsFit .new := by
  intro key version hversion
  simp [Engine.chain, Engine.new] at hversion

theorem visible (h : RowsFit e) {key : LogicalKey} {readTs : Nat} {row : Row}
    (hrow : visibleRow (e.chain key) readTs = some row) : Belongs e.catalog key row := by
  obtain ⟨version, hversion, hrow⟩ := mem_of_visibleRow hrow
  exact h key version hversion row hrow

theorem keep (h : RowsFit e) (hcatalog : e'.catalog = e.catalog)
    (hprimary : e'.primary = e.primary) : RowsFit e' := by
  intro key version hversion row hrow
  rw [Engine.chain, hprimary] at hversion
  rw [hcatalog]
  exact h key version hversion row hrow

/-- A commit adds rows that were validated. -/
theorem commits {index : Nat} {attempt : TxnAttempt} (h : RowsFit e)
    (hcommits : Commits e index attempt e') : RowsFit e' := by
  intro key version hversion row hrow
  rw [hcommits.chain, List.mem_append, Option.mem_toList, Option.map_eq_some_iff] at hversion
  rcases hversion with ⟨write, hwrite, rfl⟩ | hversion
  · obtain ⟨hmem, hkey⟩ :=
      (writeAt_eq_some_iff (distinct_of_canonical hcommits.canonical)).mp hwrite
    obtain ⟨table, htable, hput⟩ := hcommits.fits write hmem
    have hmutation : write.mutation = .put row := by
      cases hmutation : write.mutation with
      | put other =>
        rw [hmutation] at hrow
        cases hrow
        rfl
      | delete =>
        rw [hmutation] at hrow
        cases hrow
    simp only [Engine.validatePut, hmutation, bind_eq_ok, mapError_eq_ok, failIf_eq_ok,
      not_not] at hput
    obtain ⟨_, hvalid, hprimary⟩ := hput
    rw [← tableId_of_logicalKey hkey] at htable
    refine ⟨table, htable, hvalid, ?_⟩
    rw [hprimary, tableId_of_logicalKey hkey]
    exact hkey
  · obtain ⟨table, htable, hfits⟩ := h key version hversion row hrow
    exact ⟨table, hcommits.mutates.grows.table htable, hfits⟩

theorem change (h : RowsFit e) (hchange : Change e added e') : RowsFit e' := by
  cases hchange with
  | quiet same | duplicate _ _ _ _ same | rejected _ _ _ _ same | aborted _ _ _ _ same =>
    exact h.keep same.catalog same.primary
  | committed _ _ _ _ _ commits same => exact (h.commits commits).keep same.catalog same.primary
  | vacuumed floor vacuums =>
    intro key version hversion row hrow
    rw [vacuums.chain, vacuumRows_eq] at hversion
    rw [vacuums.catalog]
    exact h key version (mem_vacuum hversion) row hrow

end RowsFit

end AsterEngine
