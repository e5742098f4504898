import AsterDB.Models.Database.Native.Executor
import AsterDB.Models.Engine.Interpretation.Catalog
import AsterDB.Models.Sql.Interpretation.Access

/-!
# Queries over one table

The nodes above the filter of a query see its rows only. What two plans of a query have in
common therefore follows from what their filters return.
-/

namespace AsterDatabase

open AsterEngine (Value Row Engine Transaction)
open AsterSql
open Std
open Fallible

namespace Executor

/-! The executor's copies of the evaluator's and the binder's helpers agree with them. -/

theorem truth_eq (value : Value) (span : Span) :
    truth value span = liftSql (AsterSql.truth value span) := by
  cases value with
  | bool b => cases b <;> rfl
  | _ => rfl

theorem compare_eq (left : Value) (operator : BinaryOp) (right : Value) (span : Span) :
    compare left operator right span = liftSql (compareValues left operator right span) := by
  unfold compare compareValues
  cases left.checkedCmp right with
  | error => rfl
  | ok ordering => cases ordering <;> cases operator <;> rfl

theorem containsAggregate_eq (expression : BoundExpr) :
    containsAggregate expression = expression.containsAggregate := by
  induction expression with
  | unary _ _ _ ih | isNull _ _ _ ih => exact ih
  | binary _ _ _ _ ihLeft ihRight =>
    rw [containsAggregate, ihLeft, ihRight, BoundExpr.containsAggregate]
  | _ => rfl

theorem sameExpression_eq (left right : BoundExpr) :
    sameExpression left right = left.sameExpression right := by
  fun_induction sameExpression left right <;> simp_all [BoundExpr.sameExpression]

end Executor

section Filter

variable {parameters : List Value} {predicate : BoundExpr}

/-- A row that the predicate keeps. -/
def keeps (parameters : List Value) (predicate : BoundExpr) (row : ExecRow) : Bool :=
  (predicateExec row parameters predicate).toOption == some true

theorem keeps_eq_true {row : ExecRow} :
    keeps parameters predicate row = true ↔ predicateExec row parameters predicate = .ok true := by
  unfold keeps
  cases predicateExec row parameters predicate <;> simp [Except.toOption]

theorem filterRows_eq_ok {rows kept : List ExecRow} :
    filterRows predicate parameters rows = .ok kept ↔
      (∀ row ∈ rows, ∃ keep, predicateExec row parameters predicate = .ok keep) ∧
      rows.filter (keeps parameters predicate) = kept := by
  induction rows generalizing kept with
  | nil => simp [filterRows]
  | cons row rest ih =>
    simp only [filterRows, bind_eq_ok, pure_eq_ok, List.forall_mem_cons]
    constructor
    · rintro ⟨keep, hkeep, others, hrest, rfl⟩
      obtain ⟨hall, rfl⟩ := ih.mp hrest
      refine ⟨⟨⟨keep, hkeep⟩, hall⟩, ?_⟩
      cases keep <;> simp [keeps, hkeep, Except.toOption]
    · rintro ⟨⟨⟨keep, hkeep⟩, hall⟩, rfl⟩
      refine ⟨keep, hkeep, _, ih.mpr ⟨hall, rfl⟩, ?_⟩
      cases keep <;> simp [keeps, hkeep, Except.toOption]

theorem bounded_eq_ok {rows bound : List ExecRow} :
    bounded rows = .ok bound ↔ rows.length ≤ maxIntermediateRows ∧ rows = bound := by
  simp only [bounded, ensureIntermediateBound, bind_eq_ok, failIf_eq_ok, pure_eq_ok, exists_const,
    Nat.not_lt]

/-- The filter over a scan. -/
def filteredRows (parameters : List Value) (predicate : BoundExpr)
    (source : Result (List Row)) : Result (List ExecRow) := do
  let rows ← source >>= fun rows => bounded (rows.map .plain)
  let rows ← filterRows predicate parameters rows
  bounded rows

theorem filteredRows_eq_ok {source : Result (List Row)} {kept : List ExecRow} :
    filteredRows parameters predicate source = .ok kept ↔
      ∃ rows, source = .ok rows ∧ rows.length ≤ maxIntermediateRows ∧
        (∀ row ∈ rows, ∃ keep, predicateExec (.plain row) parameters predicate = .ok keep) ∧
        (rows.filter fun row => keeps parameters predicate (.plain row)).map .plain = kept := by
  simp only [filteredRows, bind_eq_ok, bounded_eq_ok, filterRows_eq_ok]
  constructor
  · rintro ⟨_, ⟨rows, hsource, hlength, rfl⟩, _, ⟨hall, rfl⟩, -, rfl⟩
    refine ⟨rows, hsource, by simpa using hlength, by simpa using hall, ?_⟩
    rw [List.filter_map]
    rfl
  · rintro ⟨rows, hsource, hlength, hall, rfl⟩
    refine ⟨_, ⟨rows, hsource, by simpa using hlength, rfl⟩, _, ⟨by simpa using hall, rfl⟩, ?_, ?_⟩
    · refine (List.length_filter_le ..).trans ?_
      rwa [List.length_map]
    · rw [List.filter_map]
      rfl

/-- On a plain row a predicate without aggregates is true if it evaluates to true. -/
theorem predicateExec_plain (hscalar : predicate.containsAggregate = false) {row : Row} :
    predicateExec (.plain row) parameters predicate = .ok true ↔
      evaluate ⟨row, parameters⟩ predicate = .ok (.bool true) := by
  rw [predicateExec, Executor.containsAggregate_eq, hscalar, ← predicateMatches_eq_true]
  exact mapError_eq_ok

/-- A constant has the same value in every row. -/
theorem evaluateExec_constant {expression : BoundExpr} (h : expression.IsConstant)
    (row : ExecRow) (row' : Row) {value : Value} :
    evaluateExec row parameters expression = .ok value ↔
      evaluate ⟨row', parameters⟩ expression = .ok value := by
  have hscalar : Executor.containsAggregate expression = false := by
    cases expression <;> first | rfl | cases h
  rw [evaluateExec.eq_def, hscalar, evaluate_constant h row' row.row]
  exact mapError_eq_ok

end Filter

section Nodes

variable {engine : Engine} {transaction : Transaction} {parameters : List Value}
  {catalog catalog' : Catalog} {plan : LogicalPlan} {table : BoundTable} {predicate : BoundExpr}
  {rows : List ExecRow}

/-- If one filter returns what another does, so do the queries over them. -/
theorem executePlan_optimize_mono (h : plan.filtered = some (table, predicate)) (hfilter : ∀ kept,
      executePlan engine transaction parameters
        (optimize catalog (.filter (.scan table) predicate)) = .ok kept →
      executePlan engine transaction parameters
        (optimize catalog' (.filter (.scan table) predicate)) = .ok kept) :
    executePlan engine transaction parameters (optimize catalog plan) = .ok rows →
    executePlan engine transaction parameters (optimize catalog' plan) = .ok rows := by
  induction plan generalizing rows with
  | scan other => cases h
  | join left right on => cases h
  | filter input other ih =>
    cases input with
    | scan other =>
      cases h
      exact hfilter rows
    | _ => exact bind_mono fun rows => ih h
  | aggregate input groupBy aggregates ih | sort input orderBy ih | limit input limit ih
  | project input expressions ih => exact bind_mono fun rows => ih h

variable {input : List ExecRow}

theorem length_sortRows {orderBy : List BoundOrder}
    (h : sortRows orderBy parameters input = .ok rows) : rows.length = input.length := by
  simp only [sortRows, bind_eq_ok, pure_eq_ok] at h
  obtain ⟨keyed, hkeyed, rfl⟩ := h
  rw [List.length_map, List.length_insertionSort]
  exact (mapM_eq_ok.mp hkeyed).length_eq.symm

theorem length_projectRows {expressions : List NamedExpr}
    (h : projectRows expressions parameters input = .ok rows) : rows.length = input.length :=
  (mapM_eq_ok.mp h).length_eq.symm

/-- Sorting and projecting keep the number of rows. -/
theorem length_of_rowwise (h : plan.filtered = some (table, predicate)) (hrowwise : plan.rowwise)
    (hrows : executePlan engine transaction parameters (optimize catalog plan) = .ok rows) :
    ∃ kept, executePlan engine transaction parameters
      (optimize catalog (.filter (.scan table) predicate)) = .ok kept ∧
        kept.length = rows.length := by
  induction plan generalizing rows with
  | filter input other ih =>
    cases input with
    | scan other =>
      cases h
      exact ⟨rows, hrows, rfl⟩
    | _ => cases hrowwise
  | sort input orderBy ih =>
    simp only [optimize, executePlan, bind_eq_ok, bounded_eq_ok] at hrows
    obtain ⟨before, hbefore, sorted, hsorted, -, rfl⟩ := hrows
    obtain ⟨kept, hkept, hlength⟩ := ih h hrowwise hbefore
    exact ⟨kept, hkept, hlength.trans (length_sortRows hsorted).symm⟩
  | project input expressions ih =>
    simp only [optimize, executePlan, bind_eq_ok, bounded_eq_ok] at hrows
    obtain ⟨before, hbefore, projected, hprojected, -, rfl⟩ := hrows
    obtain ⟨kept, hkept, hlength⟩ := ih h hrowwise hbefore
    exact ⟨kept, hkept, hlength.trans (length_projectRows hprojected).symm⟩
  | _ => cases hrowwise

end Nodes

/-- The planner is given the committed indexes. -/
theorem index_of_mem_catalog {engine : Engine} (hok : engine.catalog.Ok) {tableId : Nat}
    {index : IndexDef}
    (h : index ∈ (EngineCatalog.new engine none).catalog.indexesForTable tableId) :
    ∃ found, engine.catalog.index index.id = some found ∧ found.tableId = tableId ∧
      found.column = index.columnIndex := by
  obtain ⟨hmem, htable⟩ := List.mem_filter.mp h
  have hmem := (List.mem_insertionSort _).mp hmem
  simp only [Option.toList_none, List.flatMap_nil, List.append_nil, List.mem_map,
    Prod.exists] at hmem
  obtain ⟨id, found, hfound, rfl⟩ := hmem
  rw [ExtTreeMap.mem_toList_iff_getElem?_eq_some] at hfound
  refine ⟨found, ?_, beq_iff_eq.mp htable, rfl⟩
  rw [EngineCatalog.indexDef, hok.indexId hfound]
  exact hfound

end AsterDatabase
