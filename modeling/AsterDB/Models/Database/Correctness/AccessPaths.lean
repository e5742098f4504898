import AsterDB.Models.Database.Interpretation.Execution
import AsterDB.Models.Engine.Correctness.Indexes

/-!
# Access paths

The planner chooses among the indexes that are committed when the statement runs, while
the statement reads the snapshot of its transaction. The two plans of a query agree if
the index was made before the snapshot or misses no row that the query keeps.
-/

namespace AsterDatabase

open AsterRaft (Sha256 zeroHash)
open AsterEngine
open AsterSql
open Std
open Fallible Ordered

/-- The catalog of a planner that knows no index: every scan is sequential. -/
def withoutIndexes (catalog : AsterSql.Catalog) : AsterSql.Catalog :=
  { catalog with indexesForTable := fun _ => [] }

theorem chooseIndex_withoutIndexes (catalog : AsterSql.Catalog) (table : BoundTable)
    (predicate : BoundExpr) : chooseIndex (withoutIndexes catalog) table predicate = none := by
  cases h : chooseIndex (withoutIndexes catalog) table predicate with
  | none => rfl
  | some choice => cases (chosen_of_chooseIndex h).listed

/-- What an index access needs to stand for a scan. The value it looks up is there and can be
encoded; and either the index is no newer than the snapshot, or no committed row that the
transaction sees satisfies the predicate. -/
def Serves (e : Engine) (entries : List Entry) (transaction : Transaction) (parameters : List Value)
    (table : BoundTable) (predicate : BoundExpr) (index : IndexDef) (constraint : IndexConstraint) :
    Prop :=
  ∃ value, evaluateExec .empty parameters constraint.value = .ok value ∧
    (constraint.operator = .eq → value.isNull = false →
      (∃ bytes, Codec.encodeValue value = .ok bytes) ∧
      ((∀ entry ∈ entries, ∀ made commit, made.id = index.id → entry.Creates made commit →
          commit ≤ transaction.readTs) ∨
        ∀ key row, key.tableId = table.table.id → transaction.overlay key = none →
          visibleRow (e.chain key) transaction.readTs = some row →
          predicateExec (.plain row) parameters predicate ≠ .ok true))

section Filter

variable {e : Engine} {entries : List Entry} {transaction : Transaction} {parameters : List Value}
  {catalog : AsterSql.Catalog} {table : BoundTable} {predicate : BoundExpr} {index : IndexDef}
  {constraint : IndexConstraint} {made : IndexMeta} {value : Value}

/-- An access through an index over the one column of an equality. -/
structure Access (e : Engine) (parameters : List Value) (table : BoundTable) (predicate : BoundExpr)
    (index : IndexDef) (constraint : IndexConstraint) (made : IndexMeta) (value : Value) :
    Prop where
  committed : e.catalog.index index.id = some made
  tableId : made.tableId = table.table.id
  lookup : evaluateExec .empty parameters constraint.value = .ok value
  equal : constraint.operator = .eq
  null : value.isNull = false
  column : ∀ row, keeps parameters predicate (.plain row) = true →
    row.values[made.column]? = some value

theorem access_of_chosen (hok : e.catalog.Ok)
    (h : Chosen (EngineCatalog.new e none).catalog table predicate index constraint)
    (hslot : table.slotOffset = 0) (hcolumns : predicate.Columns (BoundColumn.Of table))
    (hscalar : predicate.containsAggregate = false)
    (hvalue : evaluateExec .empty parameters constraint.value = .ok value)
    (hequal : constraint.operator = .eq) (hnull : value.isNull = false) :
    ∃ made, Access e parameters table predicate index constraint made value := by
  obtain ⟨made, hmade, htable, hcolumn⟩ := index_of_mem_catalog hok h.listed
  refine ⟨made, hmade, htable, hvalue, hequal, hnull, fun row hkeeps => ?_⟩
  have htrue := (predicateExec_plain hscalar).mp (keeps_eq_true.mp hkeeps)
  obtain ⟨found, hfound, hrow⟩ := h.equal hslot hcolumns hequal htrue
  rw [← evaluateExec_constant h.constant .empty row] at hfound
  rw [hcolumn, h.column, hrow, ← Except.ok.inj (hfound.symm.trans hvalue)]

/-- The keys of an index access that have rows are keys of the scan. -/
theorem mem_scanKeys_of_mem_indexKeys {key : LogicalKey} {row : Row}
    (htable : made.tableId = table.table.id) (h : key ∈ indexKeys e transaction index.id made value)
    (hrow : e.readKey transaction key = some row) :
    key ∈ scanKeys e transaction table.table.id := by
  rw [← htable, ← tableId_of_mem_indexKeys h]
  exact mem_scanKeys_of_readKey hrow

namespace Access

variable (access : Access e parameters table predicate index constraint made value)
include access

theorem indexRows_eq : indexRows e transaction parameters table index constraint =
    liftEngine (e.scanSecondary transaction index.id value) := by
  rw [indexRows, access.lookup]
  exact if_pos ⟨access.equal, access.null⟩

/-- Going back to the rows drops none that the predicate keeps. -/
theorem filter_filter (rows : List Row) :
    (rows.filter fun row => row.values[made.column]? == some value).filter
      (fun row => keeps parameters predicate (.plain row)) =
    rows.filter fun row => keeps parameters predicate (.plain row) := by
  rw [List.filter_filter]
  refine List.filter_congr fun row _ => ?_
  cases hkeeps : keeps parameters predicate (.plain row) with
  | false => rfl
  | true => simp [access.column row hkeeps]

variable {kept kept' : List ExecRow}

/-- Every row that is kept is found through the index. -/
theorem mem_indexKeys (hok : IndexesOk e entries) (hfloor : e.retainedFloor ≤ transaction.readTs)
    (hlast : transaction.readTs ≤ e.lastApplied)
    (hserves : Serves e entries transaction parameters table predicate index constraint)
    {key : LogicalKey} {row : Row} (htable : key.tableId = table.table.id)
    (hrow : e.readKey transaction key = some row)
    (hkeeps : keeps parameters predicate (.plain row) = true) :
    key ∈ indexKeys e transaction index.id made value := by
  have hid : made.id = index.id := hok.catalog.indexId access.committed
  obtain ⟨_, hvalue, hserves⟩ := hserves
  cases access.lookup.symm.trans hvalue
  refine mem_indexKeys_of_readKey hrow (htable.trans access.tableId.symm) fun hnone hvisible => ?_
  rcases (hserves access.equal access.null).2 with hold | hmissing
  · obtain ⟨entry, hentry, commit, hcreates⟩ := hok.creator access.committed
    rw [← hid]
    exact hok.shown entry hentry made commit hcreates transaction.readTs
      (hold entry hentry made commit hid hcreates) hfloor hlast (htable.trans access.tableId.symm)
      hvisible (access.column row hkeeps) access.null
  · exact absurd (keeps_eq_true.mp hkeeps) (hmissing key row htable hnone hvisible)

/-- The filter over the index keeps the rows of the filter over the scan. -/
theorem filter_index (hok : IndexesOk e entries)
    (hserves : Serves e entries transaction parameters table predicate index constraint)
    (h : executePlan e transaction parameters (.filter (.seqScan table) predicate) = .ok kept) :
    executePlan e transaction parameters (.filter (.indexScan table index constraint) predicate) =
      .ok kept := by
  obtain ⟨rows, hrows, hlength, hall, rfl⟩ := filteredRows_eq_ok.mp h
  obtain ⟨⟨hfloor, hlast⟩, -, rfl⟩ := scanTable_eq_ok.mp (mapError_eq_ok.mp hrows)
  have ⟨_, hvalue, hencodes⟩ := hserves
  cases access.lookup.symm.trans hvalue
  obtain ⟨⟨bytes, hbytes⟩, -⟩ := hencodes access.equal access.null
  have hsub := along_subperm fun key row (hmem : key ∈ indexKeys e transaction index.id made value)
    (hrow : e.readKey transaction key = some row) =>
      mem_scanKeys_of_mem_indexKeys access.tableId hmem hrow
  have hindexRows := congrArg liftEngine
    (scanSecondary_eq hfloor hlast access.committed access.null hbytes)
  refine filteredRows_eq_ok.mpr ⟨_, access.indexRows_eq.trans hindexRows, ?_, ?_, ?_⟩
  · refine (List.length_filter_le ..).trans ?_
    rw [List.length_map] at hlength ⊢
    exact hsub.length_le.trans hlength
  · intro row hrow
    obtain ⟨pair, hpair, rfl⟩ := List.mem_map.mp (List.mem_filter.mp hrow).1
    exact hall _ (List.mem_map_of_mem (hsub.subset hpair))
  · rw [access.filter_filter]
    congr 1
    refine filter_along fun key row hrow hkeeps => ⟨fun hmem => ?_, fun hmem => ?_⟩
    · exact mem_scanKeys_of_mem_indexKeys access.tableId hmem hrow
    · exact access.mem_indexKeys hok hfloor hlast hserves (tableId_of_mem_scanKeys hmem) hrow hkeeps

/-- Filters that keep as many rows were served. -/
theorem serves_of_length (hentries : EntriesOk e entries)
    (h : executePlan e transaction parameters (.filter (.seqScan table) predicate) = .ok kept)
    (h' : executePlan e transaction parameters
      (.filter (.indexScan table index constraint) predicate) = .ok kept')
    (hlength : kept'.length = kept.length) :
    Serves e entries transaction parameters table predicate index constraint := by
  obtain ⟨rows, hrows, -, -, rfl⟩ := filteredRows_eq_ok.mp h
  obtain ⟨⟨hfloor, hlast⟩, -, rfl⟩ := scanTable_eq_ok.mp (mapError_eq_ok.mp hrows)
  obtain ⟨rows', hrows', -, -, rfl⟩ := filteredRows_eq_ok.mp h'
  rw [access.indexRows_eq] at hrows'
  obtain ⟨bytes, hbytes⟩ := encodeValue_of_scanSecondary access.null (mapError_eq_ok.mp hrows')
  rw [scanSecondary_eq hfloor hlast access.committed access.null hbytes] at hrows'
  cases hrows'
  rw [access.filter_filter, filter_map_along, filter_map_along] at hlength
  simp only [List.length_map] at hlength
  refine ⟨value, access.lookup, fun _ _ => ⟨⟨bytes, hbytes⟩, ?_⟩⟩
  by_cases hnew : ∀ entry ∈ entries, ∀ made commit, made.id = index.id → entry.Creates made commit →
      commit ≤ transaction.readTs
  · exact .inl hnew
  · refine .inr fun key row htable hnone hvisible htrue => ?_
    push Not at hnew
    obtain ⟨entry, hentry, made', commit, hid, hcreates, hlt⟩ := hnew
    have hrow : e.readKey transaction key = some row := by
      rw [Engine.readKey_eq, hnone]; exact hvisible
    have hmem : key ∈ indexKeys e transaction index.id made value := by
      refine mem_of_length_along (fun key row hmem hkept => ?_) hlength.ge
        (htable ▸ mem_scanKeys_of_readKey hrow)
        (Option.filter_eq_some_iff.mpr ⟨hrow, keeps_eq_true.mpr htrue⟩)
      exact mem_scanKeys_of_mem_indexKeys access.tableId hmem (Option.filter_eq_some_iff.mp hkept).1
    obtain ⟨shown, hshown, hvisible⟩ := visible_of_mem_indexKeys hmem hnone
    rw [visibleSecondary_eq_false hentries hentry hcreates hlt (hshown.trans hid.symm)] at hvisible
    cases hvisible

end Access

end Filter

/-- The index that the planner chooses for a query, if it chooses one, serves the query. -/
def Served (e : Engine) (entries : List Entry) (transaction : Transaction) (parameters : List Value)
    (plan : LogicalPlan) : Prop :=
  ∀ table predicate index constraint, plan.filtered = some (table, predicate) →
    chooseIndex (EngineCatalog.new e none).catalog table predicate = some (index, constraint) →
    Serves e entries transaction parameters table predicate index constraint

section Query

variable {e : Engine} {entries : List Entry} {transaction : Transaction} {parameters : List Value}
  {table : BoundTable} {predicate : BoundExpr} {kept kept' : List ExecRow}

/-- The filter of a query over the chosen access path. -/
theorem filter_of_serves (hok : IndexesOk e entries) (hslot : table.slotOffset = 0)
    (hcolumns : predicate.Columns (BoundColumn.Of table))
    (hscalar : predicate.containsAggregate = false) (hserved : ∀ index constraint,
      chooseIndex (EngineCatalog.new e none).catalog table predicate = some (index, constraint) →
      Serves e entries transaction parameters table predicate index constraint)
    (h : executePlan e transaction parameters (.filter (.seqScan table) predicate) = .ok kept) :
    executePlan e transaction parameters
      (optimize (EngineCatalog.new e none).catalog (.filter (.scan table) predicate)) =
      .ok kept := by
  rw [optimize]
  cases hchoice : chooseIndex (EngineCatalog.new e none).catalog table predicate with
  | none => exact h
  | some choice =>
    obtain ⟨index, constraint⟩ := choice
    have hserves := hserved index constraint hchoice
    obtain ⟨value, hvalue, -⟩ := id hserves
    by_cases hlookup : constraint.operator = .eq ∧ value.isNull = false
    · obtain ⟨made, access⟩ := access_of_chosen hok.catalog (chosen_of_chooseIndex hchoice) hslot
        hcolumns hscalar hvalue hlookup.1 hlookup.2
      exact access.filter_index hok hserves h
    · -- without a lookup the table is scanned
      have hscan : indexRows e transaction parameters table index constraint =
          liftEngine (e.scanTable transaction table.table.id) := by
        rw [indexRows, hvalue]
        exact if_neg hlookup
      exact (congrArg (filteredRows parameters predicate) hscan).trans h

theorem serves_of_filter (hok : IndexesOk e entries) (hentries : EntriesOk e entries)
    (hslot : table.slotOffset = 0) (hcolumns : predicate.Columns (BoundColumn.Of table))
    (hscalar : predicate.containsAggregate = false)
    (h : executePlan e transaction parameters (.filter (.seqScan table) predicate) = .ok kept)
    (h' : executePlan e transaction parameters
      (optimize (EngineCatalog.new e none).catalog (.filter (.scan table) predicate)) = .ok kept')
    (hlength : kept'.length = kept.length) {index : IndexDef} {constraint : IndexConstraint}
    (hchoice : chooseIndex (EngineCatalog.new e none).catalog table predicate =
      some (index, constraint)) :
    Serves e entries transaction parameters table predicate index constraint := by
  rw [optimize, hchoice] at h'
  obtain ⟨rows, hrows, -⟩ := filteredRows_eq_ok.mp h'
  obtain ⟨value, hvalue, -⟩ := bind_eq_ok.mp hrows
  by_cases hlookup : constraint.operator = .eq ∧ value.isNull = false
  · obtain ⟨made, access⟩ := access_of_chosen hok.catalog (chosen_of_chooseIndex hchoice) hslot
      hcolumns hscalar hvalue hlookup.1 hlookup.2
    exact access.serves_of_length hentries h h' hlength
  · exact ⟨value, hvalue, fun hequal hnull => absurd ⟨hequal, hnull⟩ hlookup⟩

end Query

/-- Where the plan of sequential scans returns rows, so does the plan with the index that the
planner chose, if the index serves the query; and a query that returns one row for each row of its
filter returns the same rows only then. -/
theorem optimize_agrees [Sha256] {e : Engine} {entries : List Entry} (h : e.Reached entries)
    {transaction : Transaction} {select : Select} {span : Span} {selection : Expr}
    (hjoins : select.joins = []) (hselection : select.selection = some selection)
    {plan : LogicalPlan} {output : List NamedExpr} {specifications : List ParameterSpec}
    (hbind : bind ⟨.select select, span⟩ (EngineCatalog.new e (some transaction)).catalog =
      .ok ⟨.query plan output, specifications⟩) {parameters : List Value} {rows : List ExecRow}
    (hrows : executePlan e transaction parameters
      (optimize (withoutIndexes (EngineCatalog.new e none).catalog) plan) = .ok rows) :
    (Served e entries transaction parameters plan →
      executePlan e transaction parameters
        (optimize (EngineCatalog.new e none).catalog plan) = .ok rows) ∧
    (plan.rowwise →
      executePlan e transaction parameters
        (optimize (EngineCatalog.new e none).catalog plan) = .ok rows →
      Served e entries transaction parameters plan) := by
  have hok := indexesOk_of_reached h
  have hentries := entriesOk_of_reached h
  simp only [AsterSql.bind, bind_eq_ok, pure_eq_ok, BindOutput.mk.injEq, Prod.exists] at hbind
  obtain ⟨bound, parameters', hselect, rfl, -⟩ := hbind
  obtain ⟨plan', output', table, predicate, hquery, hfiltered, hslot, hcolumns, hscalar⟩ :=
    bindSelect_single hjoins hselection hselect
  cases hquery
  have hseq : optimize (withoutIndexes (EngineCatalog.new e none).catalog)
      (.filter (.scan table) predicate) = .filter (.seqScan table) predicate := by
    rw [optimize, chooseIndex_withoutIndexes]
  constructor
  · intro hserved
    refine executePlan_optimize_mono hfiltered (fun kept hkept => ?_) hrows
    rw [hseq] at hkept
    exact filter_of_serves hok hslot hcolumns hscalar
      (fun index constraint => hserved table predicate index constraint hfiltered) hkept
  · intro hrowwise hrows' table' predicate' index constraint hfiltered' hchoice
    cases hfiltered.symm.trans hfiltered'
    obtain ⟨kept, hkept, hlength⟩ := length_of_rowwise hfiltered hrowwise hrows
    obtain ⟨kept', hkept', hlength'⟩ := length_of_rowwise hfiltered hrowwise hrows'
    rw [hseq] at hkept
    exact serves_of_filter hok hentries hslot hcolumns hscalar hkept hkept'
      (hlength'.trans hlength.symm) hchoice

section Sample

def itemsSource : BoundTable :=
  { table := EngineCatalog.tableDef itemsTable, aliasName := "items", slotOffset := 0 }

def itemsColumn (position : Nat) (column : Column) : BoundExpr :=
  .column { tableId := 1, tableName := "items", tableAlias := "items", columnIndex := position
            inputSlot := position, column } .default

/-- `SELECT id FROM items WHERE tag = 'red'` -/
def redItems : Select where
  projection := [.expr (.column none ⟨"id", false, .default⟩ .default) none]
  source := ⟨⟨"items", false, .default⟩, none, .default⟩
  joins := []
  selection := some (.binary (.column none ⟨"tag", false, .default⟩ .default) .eq
    (.literal (.text "red") .default) .default)
  groupBy := []
  orderBy := []
  limit := none

def redPredicate : BoundExpr :=
  .binary (itemsColumn 1 ⟨"tag", .text, true, false⟩) .eq (.literal (.text "red") .default) .default

def redOutput : List NamedExpr := [⟨itemsColumn 0 ⟨"id", .int64, false, true⟩, "id"⟩]

def redPlan : LogicalPlan := .project (.filter (.scan itemsSource) redPredicate) redOutput

/-- What the planner chooses with the index of the sample runs. -/
def redChoice : IndexDef × IndexConstraint :=
  (EngineCatalog.indexDef itemsTag,
    { columnIndex := 1, operator := .eq, value := .literal (.text "red") .default })

/-- The index of the sample run is as old as the table. -/
theorem optimize_agrees_sample : ∃ e rows, @Engine.Reached zeroHash e sampleEntries ∧
    Served e sampleEntries (.new 3 1 1) [] redPlan ∧
    executePlan e (.new 3 1 1) [] (optimize (EngineCatalog.new e none).catalog redPlan) =
      .ok rows := by
  set e := afterRun sampleRun
  obtain ⟨hbind, hrows, hchoice⟩ : bind ⟨.select redItems, .default⟩
        (EngineCatalog.new e (some (.new 3 1 1))).catalog = .ok ⟨.query redPlan redOutput, []⟩ ∧
      executePlan e (.new 3 1 1) []
        (optimize (withoutIndexes (EngineCatalog.new e none).catalog) redPlan) =
      .ok [.plain ⟨[.int64 1]⟩] ∧
      chooseIndex (EngineCatalog.new e none).catalog itemsSource redPredicate = some redChoice := by
    decide +kernel
  have hserved : Served e sampleEntries (.new 3 1 1) [] redPlan := by
    intro table predicate index constraint hfiltered hchosen
    cases hfiltered
    cases hchosen.symm.trans hchoice
    refine ⟨.text "red", rfl, fun _ _ => ⟨⟨_, rfl⟩, .inl ?_⟩⟩
    rintro entry hentry made commit - ⟨⟨rows, epoch, houtcome⟩, hcreates⟩
    rcases List.mem_cons.mp hentry with rfl | hentry
    · cases houtcome
      exact Nat.le_refl 1
    · cases List.mem_singleton.mp hentry
      cases hcreates
  let _ := zeroHash
  exact ⟨e, _, reached_sampleRun, hserved,
    (optimize_agrees reached_sampleRun rfl rfl hbind hrows).1 hserved⟩

/-- A table with a row, then an index. -/
def lateIndexRun : List (AsterRaft.Digest × AsterRaft.Digest × TxnAttempt) :=
  [(.replicate 32 0, .replicate 32 1, attemptOf 1 0 0 [putItem 1 "red"] [.createTable itemsTable]),
    (.replicate 32 0, .replicate 32 2, attemptOf 2 1 1 [] [.createIndex itemsTag])]

/-- A transaction that began before the index was made does not find its row through it. -/
theorem optimize_late_index : ∃ e entries, @Engine.Reached zeroHash e entries ∧
    e.retainedFloor ≤ 1 ∧ 1 ≤ e.lastApplied ∧
    bind ⟨.select redItems, .default⟩ (EngineCatalog.new e (some (.new 3 1 1))).catalog =
      .ok ⟨.query redPlan redOutput, []⟩ ∧
    validateParameters [] [] = .ok () ∧
    executePlan e (.new 3 1 1) []
      (optimize (withoutIndexes (EngineCatalog.new e none).catalog) redPlan) =
        .ok [.plain ⟨[.int64 1]⟩] ∧
    executePlan e (.new 3 1 1) [] (optimize (EngineCatalog.new e none).catalog redPlan) =
      .ok [] := by
  let _ := zeroHash
  exact ⟨afterRun lateIndexRun, (Prod.snd <$> Engine.new.applyAll lateIndexRun).toOption.getD [],
    reached_afterRun (by decide +kernel), by decide +kernel⟩

end Sample

end AsterDatabase
