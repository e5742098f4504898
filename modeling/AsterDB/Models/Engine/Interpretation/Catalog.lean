import AsterDB.Models.Engine.Native.Engine

/-!
# How a catalog grows

Mutations add tables and indexes and never change or remove one. Each attempt with
mutations raises the schema epoch by one.
-/

namespace AsterEngine

open Std
open Fallible

theorem liftCore_eq_ok {α : Type} {result : Except CoreError α} {a : α} :
    liftCore result = .ok a ↔ result = .ok a := by
  cases result <;> simp [liftCore]

/-- The id of the index a mutation makes. -/
def CatalogMutation.newIndexId : CatalogMutation → Option Nat
  | createTable _ => none
  | createIndex index => some index.id

namespace Catalog

/-- Indexes are kept under their ids, over columns of tables there are. -/
structure Ok (catalog : Catalog) : Prop where
  indexId : ∀ {id : Nat} {index : IndexMeta}, catalog.index id = some index → index.id = id
  table : ∀ {id : Nat} {index : IndexMeta}, catalog.index id = some index →
    ∃ table, catalog.table index.tableId = some table

/-- What a catalog held stays. -/
structure Grows (before after : Catalog) : Prop where
  table : ∀ {id : Nat} {table : TableMeta}, before.table id = some table →
    after.table id = some table
  index : ∀ {id : Nat} {index : IndexMeta}, before.index id = some index →
    after.index id = some index
  epoch : before.schemaEpoch ≤ after.schemaEpoch

theorem Grows.refl (catalog : Catalog) : Grows catalog catalog := ⟨id, id, Nat.le_refl _⟩

theorem Grows.trans {a b c : Catalog} (hab : Grows a b) (hbc : Grows b c) : Grows a c :=
  ⟨fun h => hbc.table (hab.table h), fun h => hbc.index (hab.index h),
    Nat.le_trans hab.epoch hbc.epoch⟩

theorem ok_empty : Ok empty := by
  constructor <;> intro id index h <;> simp [Catalog.index, empty] at h

/-- What a list of mutations does to a catalog. -/
structure Mutates (before : Catalog) (mutations : List CatalogMutation) (after : Catalog) :
    Prop where
  grows : Grows before after
  index_iff : ∀ {id : Nat} {index : IndexMeta}, after.index id = some index ↔
    before.index id = some index ∨ .createIndex index ∈ mutations ∧ index.id = id
  fresh : ∀ {index : IndexMeta}, .createIndex index ∈ mutations → before.index index.id = none
  ok : Ok before → Ok after

theorem Mutates.refl (catalog : Catalog) : Mutates catalog [] catalog where
  grows := .refl catalog
  index_iff := by simp
  fresh := by simp
  ok := id

theorem Mutates.trans {a b c : Catalog} {first second : List CatalogMutation}
    (hab : Mutates a first b) (hbc : Mutates b second c) : Mutates a (first ++ second) c where
  grows := hab.grows.trans hbc.grows
  index_iff := by
    intro id index
    rw [hbc.index_iff, hab.index_iff, List.mem_append]
    tauto
  fresh := by
    intro index h
    rcases List.mem_append.mp h with h | h
    · exact hab.fresh h
    · -- an index there was before would still be there
      have hnone := hbc.fresh h
      cases hbefore : a.index index.id with
      | none => rfl
      | some old => rw [hab.grows.index hbefore] at hnone; cases hnone
  ok := fun h => hbc.ok (hab.ok h)

variable {catalog next : Catalog}

theorem createTable_mutates {table : TableMeta}
    (h : catalog.createTable table = .ok next) : Mutates catalog [.createTable table] next := by
  simp only [createTable, bind_eq_ok, failIf_eq_ok, pure_eq_ok, exists_const] at h
  obtain ⟨-, -, hnew, -, rfl⟩ := h
  have hgrows : ∀ {id : Nat} {old : TableMeta}, catalog.table id = some old →
      (catalog.tables.insert table.id table)[id]? = some old := by
    intro id old hold
    refine (Maps.insert_of_ne ?_).trans hold
    rintro rfl
    rw [← ExtTreeMap.isSome_getElem?_iff_mem] at hnew
    exact hnew (Option.isSome_of_eq_some hold)
  exact {
    grows := ⟨hgrows, id, Nat.le_refl _⟩
    index_iff := by simp [Catalog.index]
    fresh := by simp
    ok := fun hok => ⟨hok.indexId, fun hindex =>
      (hok.table hindex).imp fun _ hold => hgrows hold⟩ }

variable {index : IndexMeta}

theorem createIndex_mutates
    (h : catalog.createIndex index = .ok next) : Mutates catalog [.createIndex index] next := by
  simp only [createIndex, bind_eq_ok, failIf_eq_ok, orFail_eq_ok, pure_eq_ok, exists_const] at h
  obtain ⟨-, -, -, hnew, -, table, htable, -, rfl⟩ := h
  have hnone : catalog.index index.id = none := ExtTreeMap.getElem?_eq_none hnew
  have hiff : ∀ {id : Nat} {other : IndexMeta},
      (catalog.indexes.insert index.id index)[id]? = some other ↔
        catalog.index id = some other ∨ .createIndex other ∈ [CatalogMutation.createIndex index] ∧
          other.id = id := by
    intro id other
    rw [ExtTreeMap.getElem?_insert]
    simp only [List.mem_singleton, CatalogMutation.createIndex.injEq]
    by_cases hid : index.id = id
    · subst hid
      rw [if_pos (LawfulEqCmp.compare_eq_iff_eq.mpr rfl), hnone]
      simp only [Option.some.injEq, reduceCtorEq, false_or]
      constructor
      · rintro rfl
        exact ⟨rfl, rfl⟩
      · rintro ⟨rfl, -⟩
        rfl
    · rw [if_neg (mt LawfulEqCmp.compare_eq_iff_eq.mp hid)]
      constructor
      · exact .inl
      · rintro (h | ⟨rfl, h⟩)
        · exact h
        · exact absurd h hid
  exact {
    grows := ⟨id, fun hold => hiff.mpr (.inl hold), Nat.le_refl _⟩
    index_iff := hiff
    fresh := by
      intro other hother
      cases List.mem_singleton.mp hother
      exact hnone
    ok := fun hok => by
      constructor <;> intro id other hother <;> rcases hiff.mp hother with hold | ⟨hmem, hid⟩
      · exact hok.indexId hold
      · exact hid
      · exact hok.table hold
      · cases List.mem_singleton.mp hmem
        exact ⟨table, htable⟩ }

variable {ids : List Nat}

/-- One mutation, and the index it makes. -/
theorem applyMutation_spec {ids' : List Nat} {mutation : CatalogMutation}
    (h : applyMutation (catalog, ids) mutation = .ok (next, ids')) :
    Mutates catalog [mutation] next ∧ next.schemaEpoch = catalog.schemaEpoch ∧
      ids' = ids ++ mutation.newIndexId.toList := by
  cases mutation with
  | createTable table =>
    simp only [applyMutation, bind_eq_ok, pure_eq_ok, Prod.mk.injEq] at h
    obtain ⟨next', hnext, rfl, rfl⟩ := h
    refine ⟨createTable_mutates hnext, ?_, by simp [CatalogMutation.newIndexId]⟩
    simp only [createTable, bind_eq_ok, pure_eq_ok] at hnext
    obtain ⟨_, -, _, -, _, -, rfl⟩ := hnext
    rfl
  | createIndex index =>
    simp only [applyMutation, bind_eq_ok, pure_eq_ok, Prod.mk.injEq] at h
    obtain ⟨next', hnext, rfl, rfl⟩ := h
    refine ⟨createIndex_mutates hnext, ?_, rfl⟩
    simp only [createIndex, bind_eq_ok, pure_eq_ok] at hnext
    obtain ⟨_, -, _, -, _, -, _, -, _, -, _, -, rfl⟩ := hnext
    rfl

variable {mutations : List CatalogMutation}

theorem foldlM_applyMutation_spec
    {ids' : List Nat} (h : mutations.foldlM applyMutation (catalog, ids) = .ok (next, ids')) :
    Mutates catalog mutations next ∧ next.schemaEpoch = catalog.schemaEpoch ∧
      ids' = ids ++ mutations.filterMap CatalogMutation.newIndexId := by
  induction mutations generalizing catalog ids with
  | nil =>
    cases h
    exact ⟨.refl next, rfl, by simp⟩
  | cons mutation rest ih =>
    rw [List.foldlM_cons, bind_eq_ok] at h
    obtain ⟨⟨middle, middleIds⟩, hfirst, hrest⟩ := h
    obtain ⟨hmut, hepoch, rfl⟩ := applyMutation_spec hfirst
    obtain ⟨hmut', hepoch', rfl⟩ := ih hrest
    refine ⟨hmut.trans hmut', hepoch'.trans hepoch, ?_⟩
    cases hid : mutation.newIndexId <;> simp [hid]

/-- The mutations of an attempt add to the catalog, and raise the epoch if there are any. -/
theorem applyMutations_spec (h : catalog.applyMutations mutations = .ok (next, ids)) :
    Mutates catalog mutations next ∧ ids = mutations.filterMap CatalogMutation.newIndexId ∧
      next.schemaEpoch = if mutations = [] then catalog.schemaEpoch else catalog.schemaEpoch +
        1 := by
  simp only [applyMutations, bind_eq_ok] at h
  obtain ⟨⟨middle, middleIds⟩, hfold, h⟩ := h
  obtain ⟨hmut, hepoch, rfl⟩ := foldlM_applyMutation_spec hfold
  by_cases hempty : mutations = []
  · rw [if_pos hempty, pure_eq_ok] at h
    obtain ⟨rfl, rfl⟩ := h
    exact ⟨hmut, by simp, by rw [if_pos hempty, hepoch]⟩
  · rw [if_neg hempty, bind_eq_ok] at h
    obtain ⟨epoch, hadd, h⟩ := h
    rw [checkedAdd] at hadd
    split at hadd <;> cases hadd
    cases h
    refine ⟨⟨⟨hmut.grows.table, hmut.grows.index, ?_⟩, hmut.index_iff, hmut.fresh, ?_⟩, by simp, ?_⟩
    · rw [hepoch]
      exact Nat.le_succ _
    · exact fun hok => ⟨(hmut.ok hok).indexId, (hmut.ok hok).table⟩
    · rw [if_neg hempty, ← hepoch]

/-- The indexes of a table. -/
theorem mem_indexesForTable (hok : Ok catalog) {tableId : Nat} :
    index ∈ catalog.indexesForTable tableId ↔
      catalog.index index.id = some index ∧ index.tableId = tableId := by
  simp only [indexesForTable, List.mem_filter, List.mem_map, Prod.exists, beq_iff_eq]
  constructor
  · rintro ⟨⟨id, other, hmem, rfl⟩, rfl⟩
    have hget : catalog.index id = some other := ExtTreeMap.mem_toList_iff_getElem?_eq_some.mp hmem
    rw [hok.indexId hget]
    exact ⟨hget, rfl⟩
  · rintro ⟨hget, rfl⟩
    exact ⟨⟨index.id, index, ExtTreeMap.mem_toList_iff_getElem?_eq_some.mpr hget, rfl⟩, rfl⟩

end Catalog

end AsterEngine
