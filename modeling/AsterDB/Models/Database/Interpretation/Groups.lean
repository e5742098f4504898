import AsterDB.Core.Grouping
import AsterDB.Models.Database.Interpretation.Execution
import AsterDB.Models.Engine.Interpretation.Codec
import AsterDB.Models.Sql.Interpretation.Alike

/-!
# Groups of rows

Rows are grouped by the encoding of their GROUP BY values. A group is the input filtered by
a key, and the keys come in order; without GROUP BY and without rows there is one group of
no rows.
-/

namespace AsterDatabase

open AsterRaft (Bytes)
open AsterEngine (Value Engine Transaction)
open AsterSql
open Std
open Fallible

/-- A failure that is passed on ends a sequence as before. -/
theorem liftSql_bind {α β : Type} (x : Except SqlError α) (f : α → Except SqlError β) :
    liftSql (x >>= f) = liftSql x >>= fun a => liftSql (f a) := by
  cases x <;> rfl

section Values

variable (row : ExecRow) (parameters : List Value)

/-- Without aggregates an expression is evaluated on the row. -/
theorem evaluateExec_scalar {expression : BoundExpr} (h : expression.containsAggregate = false) :
    evaluateExec row parameters expression =
      liftSql (evaluate ⟨row.row, parameters⟩ expression) := by
  rw [evaluateExec.eq_def, Executor.containsAggregate_eq, h]
  rfl

/-! The value of an expression in terms of its operands, with or without aggregates. -/

variable (expr : BoundExpr)

theorem evaluateExec_not (span : Span) :
    evaluateExec row parameters (.unary .not expr span) = (do
      let value ← evaluateExec row parameters expr
      let value ← liftSql (truth value span)
      return value.not.intoValue) := by
  cases h : BoundExpr.containsAggregate (.unary .not expr span) with
  | true =>
    rw [evaluateExec.eq_def, Executor.containsAggregate_eq, if_pos h]
    simp only [Executor.truth_eq]
  | false =>
    have hexpr : evaluateExec row parameters expr = _ := evaluateExec_scalar row parameters h
    rw [evaluateExec_scalar row parameters h, hexpr, evaluate]
    simp only [liftSql_bind]
    rfl

theorem evaluateExec_negate (span : Span) :
    evaluateExec row parameters (.unary .negate expr span) = (do
      let value ← evaluateExec row parameters expr
      liftSql (negate value span)) := by
  cases h : BoundExpr.containsAggregate (.unary .negate expr span) with
  | true =>
    rw [evaluateExec.eq_def, Executor.containsAggregate_eq, if_pos h]
    refine congrArg (evaluateExec row parameters expr >>= ·) (funext fun value => ?_)
    cases value with
    | int64 n =>
      rw [negate, apply_ite liftSql]
      rfl
    | _ => rfl
  | false =>
    have hexpr : evaluateExec row parameters expr = _ := evaluateExec_scalar row parameters h
    rw [evaluateExec_scalar row parameters h, hexpr, evaluate, liftSql_bind]

theorem evaluateExec_isNull (negated : Bool) (span : Span) :
    evaluateExec row parameters (.isNull expr negated span) = (do
      let value ← evaluateExec row parameters expr
      return isNullValue value negated) := by
  cases h : BoundExpr.containsAggregate (.isNull expr negated span) with
  | true =>
    rw [evaluateExec.eq_def, Executor.containsAggregate_eq, if_pos h]
    rfl
  | false =>
    have hexpr : evaluateExec row parameters expr = _ := evaluateExec_scalar row parameters h
    rw [evaluateExec_scalar row parameters h, hexpr, evaluate, liftSql_bind]
    rfl

/-- The value of a binary expression without aggregates. -/
theorem evaluateExec_binary_scalar {left right : BoundExpr} {op : BinaryOp} {span : Span}
    (h : BoundExpr.containsAggregate (.binary left op right span) = false) :
    evaluateExec row parameters left = liftSql (evaluate ⟨row.row, parameters⟩ left) ∧
      evaluateExec row parameters right = liftSql (evaluate ⟨row.row, parameters⟩ right) := by
  rw [BoundExpr.containsAggregate, Bool.or_eq_false_iff] at h
  exact ⟨evaluateExec_scalar row parameters h.1, evaluateExec_scalar row parameters h.2⟩

variable (left right : BoundExpr)

theorem evaluateExec_and (span : Span) :
    evaluateExec row parameters (.binary left .and right span) = (do
      let left ← evaluateExec row parameters left
      let left ← liftSql (truth left span)
      if left = .false then return .bool false
      else
        let right ← evaluateExec row parameters right
        let right ← liftSql (truth right span)
        return (left.and right).intoValue) := by
  cases h : BoundExpr.containsAggregate (.binary left .and right span) with
  | true =>
    rw [evaluateExec.eq_def, Executor.containsAggregate_eq, if_pos h]
    simp only [Executor.truth_eq]
  | false =>
    obtain ⟨hleft, hright⟩ := evaluateExec_binary_scalar row parameters h
    rw [evaluateExec_scalar row parameters h, hleft, hright, evaluate]
    simp only [liftSql_bind, apply_ite liftSql]
    rfl

theorem evaluateExec_or (span : Span) :
    evaluateExec row parameters (.binary left .or right span) = (do
      let left ← evaluateExec row parameters left
      let left ← liftSql (truth left span)
      if left = .true then return .bool true
      else
        let right ← evaluateExec row parameters right
        let right ← liftSql (truth right span)
        return (left.or right).intoValue) := by
  cases h : BoundExpr.containsAggregate (.binary left .or right span) with
  | true =>
    rw [evaluateExec.eq_def, Executor.containsAggregate_eq, if_pos h]
    simp only [Executor.truth_eq]
  | false =>
    obtain ⟨hleft, hright⟩ := evaluateExec_binary_scalar row parameters h
    rw [evaluateExec_scalar row parameters h, hleft, hright, evaluate]
    simp only [liftSql_bind, apply_ite liftSql]
    rfl

theorem evaluateExec_comparison {op : BinaryOp} (hop : op.isComparison = true)
    (span : Span) : evaluateExec row parameters (.binary left op right span) = (do
      let left ← evaluateExec row parameters left
      let right ← evaluateExec row parameters right
      liftSql (compareValues left op right span)) := by
  cases h : BoundExpr.containsAggregate (.binary left op right span) with
  | true =>
    rw [evaluateExec.eq_def, Executor.containsAggregate_eq, if_pos h]
    cases op with
    | and | or => cases hop
    | _ => simp only [Executor.compare_eq]
  | false =>
    obtain ⟨hleft, hright⟩ := evaluateExec_binary_scalar row parameters h
    rw [evaluateExec_scalar row parameters h, hleft, hright]
    cases op with
    | and | or => cases hop
    | _ => simp only [evaluate, liftSql_bind]

variable (function : AggregateFunction)

theorem evaluateExec_aggregateStar (span : Span) :
    evaluateExec row parameters (.aggregateStar function span) =
      aggregateValue row (.aggregateStar function span) := by
  rfl

theorem evaluateExec_aggregate (argument : BoundExpr) (span : Span) :
    evaluateExec row parameters (.aggregate function argument span) =
      aggregateValue row (.aggregate function argument span) := by
  rfl

/-- An aggregate call has the value that was computed for it. -/
theorem evaluateExec_call {call expression : BoundExpr} (h : call ∈ collectAggregates expression) :
    evaluateExec row parameters call = aggregateValue row call := by
  induction expression with
  | aggregateStar function span =>
    cases List.mem_singleton.mp h
    exact evaluateExec_aggregateStar row parameters function span
  | aggregate function argument span ih =>
    cases List.mem_singleton.mp h
    exact evaluateExec_aggregate row parameters function argument span
  | unary _ _ _ ih | isNull _ _ _ ih => exact ih h
  | binary _ _ _ _ ihLeft ihRight => exact (List.mem_append.mp h).elim ihLeft ihRight
  | _ => cases h

variable (expression : BoundExpr)

theorem aggregateValue_unspanned :
    aggregateValue row expression.unspanned = aggregateValue row expression := by
  simp only [aggregateValue, Executor.sameExpression_eq, BoundExpr.sameExpression_unspanned]

/-- The value of an expression does not depend on the places it was written in. -/
theorem toOption_evaluateExec_unspanned :
    (evaluateExec row parameters expression.unspanned).toOption =
      (evaluateExec row parameters expression).toOption := by
  have htruth (value : Value) (span span' : Span) :
      (liftSql (truth value span)).toOption = (liftSql (truth value span')).toOption := by
    simp only [liftSql, toOption_mapError, toOption_truth _ span span']
  induction expression with
  | literal | parameter | column =>
    rw [evaluateExec_scalar row parameters rfl, evaluateExec_scalar row parameters rfl, liftSql,
      liftSql, toOption_mapError, toOption_mapError, toOption_evaluate_unspanned]
  | unary op expr span ih =>
    cases op with
    | not =>
      simp only [BoundExpr.unspanned, evaluateExec_not, toOption_bind, ih, htruth _ .default span]
    | negate =>
      simp only [BoundExpr.unspanned, evaluateExec_negate, toOption_bind, ih, liftSql,
        toOption_mapError, toOption_negate _ .default span]
  | binary left op right span ihLeft ihRight =>
    by_cases hop : op.isComparison = true
    · rw [BoundExpr.unspanned, evaluateExec_comparison row parameters _ _ hop,
        evaluateExec_comparison row parameters _ _ hop]
      simp only [toOption_bind, ihLeft, ihRight, liftSql, toOption_mapError,
        toOption_compareValues _ _ _ .default span]
    · cases op with
      | and =>
        simp only [BoundExpr.unspanned, evaluateExec_and, toOption_bind, ihLeft, ihRight,
          apply_ite Except.toOption, htruth _ .default span]
      | or =>
        simp only [BoundExpr.unspanned, evaluateExec_or, toOption_bind, ihLeft, ihRight,
          apply_ite Except.toOption, htruth _ .default span]
      | _ => exact absurd rfl hop
  | isNull expr negated span ih =>
    simp only [BoundExpr.unspanned, evaluateExec_isNull, toOption_bind, ih]
  | aggregateStar function span =>
    rw [evaluateExec_aggregateStar, ← aggregateValue_unspanned, BoundExpr.unspanned,
      evaluateExec_aggregateStar]
  | aggregate function argument span =>
    rw [evaluateExec_aggregate, ← aggregateValue_unspanned, BoundExpr.unspanned,
      evaluateExec_aggregate]

end Values

section Aggregates

theorem toOption_addToSum (sum : Option Int64) (value : Value) (span span' : Span) :
    (addToSum span sum value).toOption = (addToSum span' sum value).toOption := by
  cases value with
  | int64 value =>
    simp only [addToSum]
    split <;> rfl
  | _ => rfl

variable (parameters : List Value) (rows : List ExecRow)

/-- The value of an aggregate call does not depend on the places it was written in. -/
theorem toOption_computeAggregate_unspanned (call : BoundExpr) :
    (computeAggregate parameters rows call.unspanned).toOption =
      (computeAggregate parameters rows call).toOption := by
  cases call with
  | aggregateStar function span => cases function <;> rfl
  | aggregate function argument span =>
    cases function with
    | count =>
      simp only [BoundExpr.unspanned, computeAggregate, countRows, countedRows, toOption_bind]
      rw [toOption_mapM_congr fun row _ => toOption_evaluateExec_unspanned row parameters argument]
    | sum =>
      simp only [BoundExpr.unspanned, computeAggregate, sumRows, toOption_bind]
      rw [toOption_foldlM_congr fun sum row _ => ?_]
      simp only [toOption_bind, toOption_evaluateExec_unspanned,
        toOption_addToSum _ _ .default span]
    | min | max =>
      simp only [BoundExpr.unspanned, computeAggregate, selectRows, toOption_bind]
      rw [toOption_foldlM_congr fun selected row _ => ?_]
      simp only [toOption_bind, toOption_evaluateExec_unspanned]
  | _ => rfl

end Aggregates

section Groups

variable {parameters : List Value} {groupBy aggregates : List BoundExpr} {input : List ExecRow}

/-- The encoding of the GROUP BY values of a row. -/
def groupKey (parameters : List Value) (groupBy : List BoundExpr) (row : ExecRow) :
    Result (Option Bytes) := do
  let values ← groupBy.mapM (evaluateExec row parameters)
  let key ← liftCodec (AsterEngine.Codec.encodeRow ⟨values⟩)
  return some key

theorem groupKey_eq_ok {row : ExecRow} {key : Bytes} :
    groupKey parameters groupBy row = .ok (some key) ↔
      ∃ values, groupBy.mapM (evaluateExec row parameters) = .ok values ∧
        AsterEngine.Codec.encodeRow ⟨values⟩ = .ok key := by
  simp only [groupKey, bind_eq_ok, pure_eq_ok, liftCodec, mapError_eq_ok, Option.some.injEq,
    exists_eq_right]

/-- The input rows of a group, in their order. -/
def groupOf (parameters : List Value) (groupBy : List BoundExpr) (input : List ExecRow)
    (key : Bytes) : List ExecRow :=
  Grouping.withKey (groupKey parameters groupBy) key input

/-- The keys of the groups, in order. Without GROUP BY there is one even of no rows. -/
structure GroupKeys (parameters : List Value) (groupBy : List BoundExpr) (input : List ExecRow)
    (keys : List Bytes) : Prop where
  sorted : keys.Pairwise fun a b => compare a b = .lt
  keyed : ∀ row ∈ input, ∃ key, row ∈ groupOf parameters groupBy input key
  mem : ∀ key, key ∈ keys ↔ (∃ row, row ∈ groupOf parameters groupBy input key) ∨
    input = [] ∧ groupBy = [] ∧ key = []

theorem groupRows_eq (parameters : List Value) (groupBy : List BoundExpr) (input : List ExecRow) :
    groupRows parameters groupBy input =
      input.foldlM (Grouping.bucket (groupKey parameters groupBy)) ∅ := by
  have hstep (groups : ExtTreeMap Bytes (List ExecRow)) (row : ExecRow) :
      (do
        let values ← groupBy.mapM (evaluateExec row parameters)
        let key ← liftCodec (AsterEngine.Codec.encodeRow ⟨values⟩)
        return groups.insert key (groups.getD key [] ++ [row])) =
      Grouping.bucket (groupKey parameters groupBy) groups row := by
    simp only [Grouping.bucket, groupKey, bind_assoc, pure_bind]
  unfold groupRows
  simp only [hstep]

/-- A map's values, read off by its keys. -/
theorem map_snd_toList (groups : ExtTreeMap Bytes (List ExecRow)) :
    groups.toList.map Prod.snd = groups.keys.map fun key => groups.getD key [] := by
  rw [← ExtTreeMap.map_fst_toList_eq_keys, List.map_map]
  refine List.map_congr_left fun entry hentry => ?_
  rw [Function.comp_apply, ExtTreeMap.getD_eq_getD_getElem?,
    ExtTreeMap.mem_toList_iff_getElem?_eq_some.mp hentry]
  rfl

/-- The groups that were aggregated. -/
theorem groupKeys_of_aggregateRows {rows : List ExecRow}
    (h : aggregateRows parameters groupBy aggregates input = .ok rows) :
    ∃ keys, GroupKeys parameters groupBy input keys ∧
      List.Forall₂ (fun key row => aggregateGroup parameters aggregates
        (groupOf parameters groupBy input key) = .ok row) keys rows := by
  simp only [aggregateRows, bind_eq_ok, groupRows_eq] at h
  obtain ⟨groups, hgroups, h⟩ := h
  have hbuckets := Grouping.buckets_of_foldlM hgroups
  have hkeyed : ∀ row ∈ input, ∃ key, row ∈ groupOf parameters groupBy input key := by
    intro row hrow
    obtain ⟨found, hfound⟩ := hbuckets.keyed row hrow
    have hsome := hfound
    simp only [groupKey, bind_eq_ok, pure_eq_ok] at hsome
    obtain ⟨-, -, key, -, rfl⟩ := hsome
    exact ⟨key, Grouping.mem_withKey.mpr ⟨hrow, hfound⟩⟩
  have hmem (key : Bytes) : key ∈ groups ↔ ∃ row, row ∈ groupOf parameters groupBy input key := by
    simp only [hbuckets.mem, groupOf, Grouping.mem_withKey]
  rw [map_snd_toList, mapM_eq_ok, List.forall₂_map_left_iff] at h
  by_cases hempty : (groups.isEmpty && groupBy.isEmpty) = true
  · rw [if_pos hempty] at h
    rw [Bool.and_eq_true, List.isEmpty_iff] at hempty
    have hnone (key : Bytes) : key ∉ groups := by
      rw [ExtTreeMap.isEmpty_iff.mp hempty.1]
      exact ExtTreeMap.not_mem_empty
    have hinput : input = [] := by
      rw [List.eq_nil_iff_forall_not_mem]
      intro row hrow
      obtain ⟨key, hgroup⟩ := hkeyed row hrow
      exact hnone key ((hmem key).mpr ⟨row, hgroup⟩)
    refine ⟨_, ⟨ExtTreeMap.ordered_keys, hkeyed, fun key => ?_⟩, h.imp fun key row hrow => ?_⟩
    · rw [ExtTreeMap.mem_keys, ExtTreeMap.mem_insert, LawfulEqCmp.compare_eq_iff_eq, hmem, or_comm,
        eq_comm (a := [])]
      simp only [hinput, hempty.2, true_and]
    · rw [ExtTreeMap.getD_insert, hbuckets.getD, hinput] at hrow
      rw [hinput]
      split at hrow <;> exact hrow
  · rw [if_neg hempty] at h
    refine ⟨_, ⟨ExtTreeMap.ordered_keys, hkeyed, fun key => ?_⟩, h.imp fun key row hrow => ?_⟩
    · rw [ExtTreeMap.mem_keys, hmem]
      refine ⟨.inl, fun hkey => hkey.resolve_right ?_⟩
      rintro ⟨rfl, rfl, -⟩
      cases hgroups
      exact hempty rfl
    · rw [hbuckets.getD] at hrow
      exact hrow

end Groups

section Plans

variable {parameters : List Value} {plan source : LogicalPlan}

/-- What the nodes above a grouping make of its rows. -/
def finishRows (parameters : List Value) :
    LogicalPlan → List ExecRow → Result (List ExecRow)
  | .sort input orderBy, rows => do
    let rows ← finishRows parameters input rows
    let rows ← sortRows orderBy parameters rows
    bounded rows
  | .limit input limit, rows => do
    let rows ← finishRows parameters input rows
    let rows ← limitRows limit parameters rows
    bounded rows
  | .project input expressions, rows => do
    let rows ← finishRows parameters input rows
    let rows ← projectRows expressions parameters rows
    bounded rows
  | .aggregate .., rows | .scan _, rows | .filter .., rows | .join .., rows => bounded rows

/-- A query groups the rows of its source and finishes the groups. -/
theorem executePlan_grouped {engine : Engine} {transaction : Transaction} {catalog : Catalog}
    {groupBy aggregates : List BoundExpr} (h : plan.grouped = some (source, groupBy, aggregates)) :
    executePlan engine transaction parameters (optimize catalog plan) = (do
      let input ← executePlan engine transaction parameters (optimize catalog source)
      let rows ← aggregateRows parameters groupBy aggregates input
      finishRows parameters plan rows) := by
  induction plan with
  | aggregate input groupBy aggregates ih =>
    cases h
    rfl
  | sort input orderBy ih | limit input limit ih | project input expressions ih =>
    rw [optimize, executePlan, ih h]
    simp only [bind_assoc]
    rfl
  | scan | filter | join => cases h

variable {input rows : List ExecRow} {row : ExecRow}

theorem mem_sortRows {orderBy : List BoundOrder}
    (h : sortRows orderBy parameters input = .ok rows) (hrow : row ∈ rows) : row ∈ input := by
  simp only [sortRows, bind_eq_ok, pure_eq_ok] at h
  obtain ⟨keyed, hkeyed, rfl⟩ := h
  obtain ⟨entry, hentry, rfl⟩ := List.mem_map.mp hrow
  obtain ⟨row, hmem, hrow⟩ :=
    (mem_of_mapM_eq_ok hkeyed).2 entry ((List.perm_insertionSort _ _).mem_iff.mp hentry)
  simp only [bind_eq_ok, pure_eq_ok] at hrow
  obtain ⟨-, -, rfl⟩ := hrow
  exact hmem

theorem mem_limitRows {limit : BoundExpr} (h : limitRows limit parameters input = .ok rows)
    (hrow : row ∈ rows) : row ∈ input := by
  simp only [limitRows, bind_eq_ok] at h
  obtain ⟨value, -, h⟩ := h
  split at h
  · split at h
    · cases h
      exact List.mem_of_mem_take hrow
    · cases h
  · cases h

/-- Below the projection, rows are sorted and cut off. -/
theorem mem_finishRows (hplan : plan.KeepsRows) {kept : List ExecRow}
    (h : finishRows parameters plan rows = .ok kept) (hrow : row ∈ kept) : row ∈ rows := by
  induction plan generalizing kept row with
  | aggregate =>
    rw [finishRows, bounded_eq_ok] at h
    exact h.2 ▸ hrow
  | sort input orderBy ih =>
    cases input with
    | aggregate =>
      simp only [finishRows, bind_eq_ok, bounded_eq_ok] at h
      obtain ⟨below, ⟨-, rfl⟩, _, hsorted, -, rfl⟩ := h
      exact mem_sortRows hsorted hrow
    | _ => cases hplan
  | limit input limit ih =>
    simp only [finishRows, bind_eq_ok, bounded_eq_ok] at h
    obtain ⟨below, hbelow, _, hlimited, -, rfl⟩ := h
    exact ih hplan hbelow (mem_limitRows hlimited hrow)
  | scan | filter | join | project => cases hplan

theorem mem_projectRows {output : List NamedExpr}
    (h : projectRows output parameters input = .ok rows) (hrow : row ∈ rows) :
    ∃ source ∈ input, projectRows output parameters [source] = .ok [row] := by
  obtain ⟨source, hsource, hproject⟩ := (mem_of_mapM_eq_ok h).2 row hrow
  exact ⟨source, hsource, mapM_eq_ok.mpr (.cons hproject .nil)⟩

end Plans

end AsterDatabase
