import AsterDB.Models.Database.Interpretation.Statements
import AsterDB.Models.Engine.Correctness.Reads
import AsterDB.Models.Engine.Interpretation.Restore
import AsterDB.Models.Engine.Interpretation.Rows

/-!
# What a mutation stages

A statement that creates or inserts stages something. An UPDATE or DELETE stages something if
it selects a row: the row is found again under the key that its primary column gives.
-/

namespace AsterDatabase

open AsterEngine (Value Engine Transaction RowsFit Column Row Schema TableMeta TxnWrite get_eq_ok
  liftCore_eq_ok visibleRow)
open AsterSql
open Std
open Fallible

/-- A statement that selects a row, if it is one of those that go over rows. -/
def Affects (engine : Engine) (transaction : Transaction) (parameters : List Value) :
    BoundStatement → Prop
  | .update table _ selection | .delete table selection =>
    ∃ rows, engine.scanTable transaction table.id = .ok rows ∧
      ∃ row ∈ rows, selected parameters selection (.plain row) = .ok true
  | _ => True

section Staged

variable {engine : Engine} {transaction staged : Transaction} {tableId : Nat}

theorem isReadOnly_stageWrite {write : TxnWrite}
    (h : transaction.stageWrite write = .ok staged) : staged.isReadOnly = false := by
  unfold Transaction.stageWrite at h
  split at h
  next key hkey =>
    cases h
    simp [Transaction.isReadOnly, Transaction.insertWrite]
  next => cases h

theorem isReadOnly_stageCatalog (mutation : AsterEngine.CatalogMutation) :
    (transaction.stageCatalog mutation).isReadOnly = false := by
  have hne : ((transaction.catalogMutations ++ [mutation]).insertionSort
      fun left right => ¬right.before left) ≠ [] := by
    intro hnil
    have hlength := congrArg List.length hnil
    simp [List.length_insertionSort] at hlength
  rw [Transaction.isReadOnly, Bool.and_eq_false_iff]
  exact .inr (List.isEmpty_eq_false_iff.mpr hne)

theorem isReadOnly_createTable {name : String} {schema : Schema} {id : Nat}
    (h : engine.createTable transaction name schema = .ok (staged, id)) :
    staged.isReadOnly = false := by
  simp only [Engine.createTable, bind_eq_ok, pure_eq_ok, Prod.mk.injEq] at h
  obtain ⟨-, -, -, -, -, -, -, -, rfl, -⟩ := h
  exact isReadOnly_stageCatalog _

theorem isReadOnly_createIndex {name : String} {column id : Nat}
    (h : engine.createIndex transaction name tableId column = .ok (staged, id)) :
    staged.isReadOnly = false := by
  simp only [Engine.createIndex, bind_eq_ok, pure_eq_ok, Prod.mk.injEq] at h
  obtain ⟨-, -, -, -, -, -, -, -, -, -, rfl, -⟩ := h
  exact isReadOnly_stageCatalog _

theorem isReadOnly_insert {row : Row}
    (h : engine.insert transaction tableId row = .ok staged) : staged.isReadOnly = false := by
  simp only [Engine.insert, bind_eq_ok, liftCore_eq_ok] at h
  obtain ⟨primaryKey, -, _, -, _, -, hstaged⟩ := h
  exact isReadOnly_stageWrite hstaged

/-- A row is replaced where there is one. -/
theorem update_cases {key : Value} {row : Row} {found : Bool}
    (h : engine.update transaction tableId key row = .ok (staged, found)) :
    engine.get transaction tableId key = .ok none ∧ staged = transaction ∨
      staged.isReadOnly = false := by
  simp only [Engine.update, bind_eq_ok] at h
  obtain ⟨existing, hget, h⟩ := h
  cases existing with
  | none =>
    cases h
    exact .inl ⟨hget, rfl⟩
  | some row =>
    simp only [Option.isNone_some, Bool.false_eq_true, if_false, bind_eq_ok, pure_eq_ok] at h
    obtain ⟨-, -, -, -, staged, hstaged, h⟩ := h
    cases h
    exact .inr (isReadOnly_stageWrite (liftCore_eq_ok.mp hstaged))

/-- A row is removed where there is one. -/
theorem delete_cases {key : Value} {found : Bool}
    (h : engine.delete transaction tableId key = .ok (staged, found)) :
    engine.get transaction tableId key = .ok none ∧ staged = transaction ∨
      staged.isReadOnly = false := by
  simp only [Engine.delete, bind_eq_ok] at h
  obtain ⟨existing, hget, h⟩ := h
  cases existing with
  | none =>
    cases h
    exact .inl ⟨hget, rfl⟩
  | some row =>
    simp only [Option.isNone_some, Bool.false_eq_true, if_false, bind_eq_ok, pure_eq_ok] at h
    obtain ⟨staged, hstaged, h⟩ := h
    cases h
    exact .inr (isReadOnly_stageWrite (liftCore_eq_ok.mp hstaged))

variable {parameters : List Value} {primaryKey : Nat} {assignments : List (Nat × BoundExpr)}
  {selection : Option BoundExpr} {state state' : Transaction × Nat} {row : Row}

/-- A row stages something, unless it is not selected or not found. -/
def RowStages (engine : Engine) (parameters : List Value) (tableId primaryKey : Nat)
    (selection : Option BoundExpr) (state : Transaction × Nat) (row : Row)
    (state' : Transaction × Nat) : Prop :=
  state'.1.isReadOnly = false ∨ state'.1 = state.1 ∧
    (selected parameters selection (.plain row) = .ok true →
      ∃ key, rowKey primaryKey row = .ok key ∧ engine.get state.1 tableId key = .ok none)

theorem rowStages_updateRow
    (h : updateRow engine parameters tableId primaryKey assignments selection state row =
      .ok state') :
    RowStages engine parameters tableId primaryKey selection state row state' := by
  simp only [updateRow, bind_eq_ok] at h
  obtain ⟨_ | _, hkeep, h⟩ := h
  · cases h
    exact .inr ⟨rfl, fun hselected => by cases hkeep.symm.trans hselected⟩
  · simp only [if_true, bind_eq_ok, liftEngine_eq_ok] at h
    obtain ⟨updated, -, key, hkey, ⟨staged, found⟩, hupdate, h⟩ := h
    cases h
    exact (update_cases hupdate).elim (fun h => .inr ⟨h.2, fun _ => ⟨key, hkey, h.1⟩⟩) .inl

theorem rowStages_deleteRow
    (h : deleteRow engine parameters tableId primaryKey selection state row = .ok state') :
    RowStages engine parameters tableId primaryKey selection state row state' := by
  simp only [deleteRow, bind_eq_ok] at h
  obtain ⟨_ | _, hkeep, h⟩ := h
  · cases h
    exact .inr ⟨rfl, fun hselected => by cases hkeep.symm.trans hselected⟩
  · simp only [if_true, bind_eq_ok, liftEngine_eq_ok] at h
    obtain ⟨key, hkey, ⟨staged, found⟩, hdelete, h⟩ := h
    cases h
    exact (delete_cases hdelete).elim (fun h => .inr ⟨h.2, fun _ => ⟨key, hkey, h.1⟩⟩) .inl

/-- Going over rows of which one is selected and found stages something. -/
theorem isReadOnly_foldlM
    {step : Transaction × Nat → Row → Result (Transaction × Nat)}
    {rows : List Row} (hstep : ∀ state row state', step state row = .ok state' →
      RowStages engine parameters tableId primaryKey selection state row state')
    (hmem : row ∈ rows) (hselected : selected parameters selection (.plain row) = .ok true)
    (hfound : ∀ key, rowKey primaryKey row = .ok key →
      engine.get transaction tableId key ≠ .ok none)
    (h : rows.foldlM step (transaction, 0) = .ok state') : state'.1.isReadOnly = false := by
  refine foldlM_reaches (P := fun state => state.1 = transaction)
    (Q := fun state => state.1.isReadOnly = false) hmem ?_ ?_ ?_ h rfl
  · intro state other _ next hnext hstaged
    rcases hstep state other next hnext with hnew | ⟨hsame, -⟩
    · exact hnew
    · rwa [hsame]
  · intro state other _ next hnext hsame
    rcases hstep state other next hnext with hnew | ⟨hkept, -⟩
    · exact .inr hnew
    · exact .inl (hkept.trans hsame)
  · intro state next hnext hsame
    rcases hstep state row next hnext with hnew | ⟨-, hnone⟩
    · exact hnew
    · obtain ⟨key, hkey, hget⟩ := hnone hselected
      rw [hsame] at hget
      exact absurd hget (hfound key hkey)

end Staged

section Tables

variable {engine : Engine}

/-- A schema has its primary key where its check says. -/
theorem findIdx?_of_validate {schema : Schema} {position : Nat}
    (h : schema.validate = .ok position) :
    schema.columns.findIdx? (fun column => column.primaryKey) = some position := by
  simp only [Schema.validate, bind_eq_ok] at h
  obtain ⟨-, -, -, -, h⟩ := h
  split at h
  next primary index hfilter =>
    simp only [bind_eq_ok, pure_eq_ok] at h
    obtain ⟨-, -, -, -, rfl⟩ := h
    have hmem (column : Column) (i : Nat) :
        (column, i) = (primary, index) ↔ schema.columns[i]? = some column ∧ column.primaryKey := by
      rw [← List.mem_singleton, ← hfilter, List.mem_filter, List.mem_zipIdx_iff_getElem?]
    obtain ⟨hindex, hprimary⟩ := (hmem primary index).mp rfl
    obtain ⟨hlt, hget⟩ := List.getElem?_eq_some_iff.mp hindex
    rw [List.findIdx?_eq_some_iff_getElem]
    refine ⟨hlt, by rw [hget]; exact hprimary, fun j hj hother => ?_⟩
    have hsame := (hmem schema.columns[j] j).mpr ⟨List.getElem?_eq_getElem _, hother⟩
    exact Nat.ne_of_lt hj (Prod.ext_iff.mp hsame).2
  next => cases h

variable {id readTs schemaEpoch : Nat} {table : TableDef}

/-- A table that a new transaction sees is in the catalog. -/
theorem table_of_resolveTable {name : Ident}
    (h : (EngineCatalog.new engine (some (.new id readTs schemaEpoch))).catalog.resolveTable name =
      some table) :
    ∃ (key : Nat) (stored : TableMeta), engine.catalog.tables[key]? = some stored ∧
      table = EngineCatalog.tableDef stored := by
  have hmem := List.mem_of_find?_eq_some h
  simp only [EngineCatalog.new, List.mem_insertionSort, List.mem_map, Prod.exists,
    Option.toList_some, List.flatMap_cons, List.flatMap_nil, List.append_nil,
    EngineCatalog.stagedTables, Transaction.new, List.filterMap_nil,
    ExtTreeMap.mem_toList_iff_getElem?_eq_some] at hmem
  obtain ⟨key, stored, hstored, rfl⟩ := hmem
  exact ⟨key, stored, hstored, rfl⟩

variable {rows : List Row}

/-- A scanned row is found under the key in its primary column. -/
theorem get_of_scanTable {row : Row} {table : TableMeta} {key : Value}
    (hrows : RowsFit engine) (htable : engine.catalog.table table.id = some table)
    (hscan : engine.scanTable (.new id readTs schemaEpoch) table.id = .ok rows)
    (hmem : row ∈ rows) (hkey : rowKey table.primaryKeyColumn row = .ok key) :
    engine.get (.new id readTs schemaEpoch) table.id key ≠ .ok none := by
  obtain ⟨-, -, rfl⟩ := AsterEngine.scanTable_eq_ok.mp hscan
  obtain ⟨⟨logical, other⟩, hpair, rfl⟩ := List.mem_map.mp hmem
  obtain ⟨hlogical, hread⟩ := Ordered.mem_along.mp hpair
  have htableId := AsterEngine.tableId_of_mem_scanKeys hlogical
  have hvisible : visibleRow (engine.chain logical) readTs = some other := by
    rw [Engine.readKey_eq] at hread
    exact hread
  obtain ⟨table', htable', -, hown⟩ := hrows.visible hvisible
  rw [htableId, htable] at htable'
  cases htable'
  rw [rowKey, orFail_eq_ok] at hkey
  rw [htableId, List.getD_eq_getElem?_getD, hkey, Option.getD_some] at hown
  intro hget
  obtain ⟨-, -, found, hfound, hnone⟩ := get_eq_ok.mp hget
  rw [hown] at hfound
  cases hfound
  rw [hread] at hnone
  cases hnone

/-- The rows that an UPDATE or DELETE selects are found. -/
theorem found_of_affects {primaryKey : Nat} {name : Ident} {row : Row} {key : Value}
    (hvalid : engine.catalog.Valid) (hrows : RowsFit engine)
    (hresolve : (EngineCatalog.new engine (some (.new id readTs schemaEpoch))).catalog.resolveTable
      name = some table) (hprimary : primaryKeyColumn table = .ok primaryKey)
    (hscan : engine.scanTable (.new id readTs schemaEpoch) table.id = .ok rows) (hmem : row ∈ rows)
    (hkey : rowKey primaryKey row = .ok key) :
    engine.get (.new id readTs schemaEpoch) table.id key ≠ .ok none := by
  obtain ⟨position, stored, hstored, rfl⟩ := table_of_resolveTable hresolve
  obtain ⟨rfl, hstoredValid⟩ := hvalid.table hstored
  simp only [TableMeta.validate, bind_eq_ok, liftCore_eq_ok, failIf_eq_ok,
    not_not] at hstoredValid
  obtain ⟨-, -, -, -, actual, hactual, rfl⟩ := hstoredValid
  rw [primaryKeyColumn, orFail_eq_ok] at hprimary
  have hposition := (findIdx?_of_validate hactual).symm.trans hprimary
  cases hposition
  exact get_of_scanTable hrows hstored hscan hmem hkey

/-- A mutation in a new transaction stages something. -/
theorem isReadOnly_of_affects {parsed : Spanned Statement}
    {parameters : List Value} {staged : Transaction} {output : StatementOutput}
    (hvalid : engine.catalog.Valid) (hrows : RowsFit engine)
    (hmutating : isMutatingStatement parsed.value = true)
    (haffects : ∀ bound, AsterSql.bind parsed
      (EngineCatalog.new engine (some (.new id readTs schemaEpoch))).catalog = .ok bound →
        Affects engine (.new id readTs schemaEpoch) parameters bound.statement)
    (h : prepareAndExecuteOutput engine (.new id readTs schemaEpoch) parsed parameters =
      .ok (staged, output)) : staged.isReadOnly = false := by
  obtain ⟨bound, hbound, -, ⟨hread, -⟩ | hrun⟩ := prepareAndExecuteOutput_eq_ok h
  · rw [hmutating] at hread
    cases hread
  replace haffects := haffects bound hbound
  obtain ⟨hmutates, htarget⟩ := of_bind hbound
  rw [hmutating] at hmutates
  generalize bound.statement = statement at hmutates htarget haffects hrun
  cases statement with
  | createTable name schema =>
    simp only [executeBound, bind_eq_ok, liftEngine_eq_ok] at hrun
    obtain ⟨_, hcreate, hstate⟩ := hrun
    cases hstate
    exact isReadOnly_createTable hcreate
  | createIndex name table columnIndex =>
    simp only [executeBound, bind_eq_ok, liftEngine_eq_ok] at hrun
    obtain ⟨_, hcreate, hstate⟩ := hrun
    cases hstate
    exact isReadOnly_createIndex hcreate
  | insert table values =>
    simp only [executeBound, bind_eq_ok, liftEngine_eq_ok] at hrun
    obtain ⟨_, -, _, hinsert, hstate⟩ := hrun
    cases hstate
    exact isReadOnly_insert hinsert
  | update table assignments selection =>
    obtain ⟨rows, hscan, row, hmem, hselected⟩ := haffects
    obtain ⟨name, hresolve⟩ := htarget table rfl
    simp only [executeBound, bind_eq_ok, liftEngine_eq_ok, hscan] at hrun
    obtain ⟨_, ⟨⟩, primaryKey, hprimary, state, hfold, hstate⟩ := hrun
    cases hstate
    exact isReadOnly_foldlM (fun _ _ _ => rowStages_updateRow) hmem hselected
      (fun key hkey => found_of_affects hvalid hrows hresolve hprimary hscan hmem hkey) hfold
  | delete table selection =>
    obtain ⟨rows, hscan, row, hmem, hselected⟩ := haffects
    obtain ⟨name, hresolve⟩ := htarget table rfl
    simp only [executeBound, bind_eq_ok, liftEngine_eq_ok, hscan] at hrun
    obtain ⟨_, ⟨⟩, primaryKey, hprimary, state, hfold, hstate⟩ := hrun
    cases hstate
    exact isReadOnly_foldlM (fun _ _ _ => rowStages_deleteRow) hmem hselected
      (fun key hkey => found_of_affects hvalid hrows hresolve hprimary hscan hmem hkey) hfold
  | query | explain | transaction => cases hmutates

end Tables

end AsterDatabase
