import AsterDB.Models.Sql.Native.Binder

/-!
# What binding yields

A rule of induction over bound expressions, and the plan of a query over one table.
-/

namespace AsterSql

open AsterEngine (DataType)
open Fallible

/-- A property that expressions bound in a scope have, by the way they are built. -/
structure Bindable (scope : Scope) (P : AggregatePolicy → BoundExpr → Prop) : Prop where
  literal : ∀ {policy value span}, P policy (.literal value span)
  parameter : ∀ {policy index dataType span}, P policy (.parameter index dataType span)
  column : ∀ {policy qualifier name column span}, scope.resolveColumn qualifier name = .ok column →
    P policy (.column column span)
  unary : ∀ {policy op expr span}, P policy expr → P policy (.unary op expr span)
  binary : ∀ {policy left op right span}, P policy left → P policy right →
    P policy (.binary left op right span)
  isNull : ∀ {policy expr negated span}, P policy expr → P policy (.isNull expr negated span)
  aggregateStar : ∀ {function span}, P .allowed (.aggregateStar function span)
  aggregate : ∀ {function argument span}, P .forbidden argument →
    P .allowed (.aggregate function argument span)

section Expressions

variable {scope : Scope} {P : AggregatePolicy → BoundExpr → Prop} {policy : AggregatePolicy}
  {s s' : List ParameterSpec} {expression bound : BoundExpr}

/-- Constraining changes no more than the type of a parameter. -/
theorem constrainDirectParameter_keeps (hP : Bindable scope P) {expected : DataType}
    (h : constrainDirectParameter expression expected s = .ok (bound, s'))
    (hexpression : P policy expression) : P policy bound := by
  cases expression with
  | parameter index dataType span =>
    unfold constrainDirectParameter at h
    cases hother : dataType.filter fun actual => actual != expected with
    | some actual => simp only [hother, stateThrow_eq_ok] at h
    | none =>
      simp only [hother, stateBind_eq_ok, statePure_eq_ok] at h
      obtain ⟨-, -, -, rfl, -⟩ := h
      exact hP.parameter
  | _ =>
    simp only [constrainDirectParameter, statePure_eq_ok] at h
    exact h.1 ▸ hexpression

variable {expected : Option DataType}

theorem enforceExpected_keeps (hP : Bindable scope P)
    (h : enforceExpected expression expected s = .ok (bound, s'))
    (hexpression : P policy expression) : P policy bound := by
  unfold enforceExpected at h
  cases expected with
  | none =>
    simp only [statePure_eq_ok] at h
    exact h.1 ▸ hexpression
  | some expected =>
    cases htype : expression.sqlType.dataType with
    | some actual =>
      simp only [htype] at h
      split at h
      · simp only [statePure_eq_ok] at h
        exact h.1 ▸ hexpression
      · simp only [stateThrow_eq_ok] at h
    | none =>
      simp only [htype] at h
      exact constrainDirectParameter_keeps hP h hexpression

theorem unifyComparisonTypes_keeps (hP : Bindable scope P) {left right left' right' : BoundExpr}
    {span : Span} (h : unifyComparisonTypes left right span s = .ok ((left', right'), s'))
    (hleft : P policy left) (hright : P policy right) : P policy left' ∧ P policy right' := by
  unfold unifyComparisonTypes at h
  cases hleftType : left.sqlType.dataType with
  | some leftType =>
    cases hrightType : right.sqlType.dataType with
    | some rightType =>
      simp only [hleftType, hrightType] at h
      split at h
      · simp only [statePure_eq_ok, Prod.mk.injEq] at h
        exact ⟨h.1.1 ▸ hleft, h.1.2 ▸ hright⟩
      · simp only [stateThrow_eq_ok] at h
    | none =>
      simp only [hleftType, hrightType, stateBind_eq_ok, statePure_eq_ok, Prod.mk.injEq] at h
      obtain ⟨constrained, _, hconstrained, ⟨rfl, rfl⟩, -⟩ := h
      exact ⟨hleft, constrainDirectParameter_keeps hP hconstrained hright⟩
  | none =>
    cases hrightType : right.sqlType.dataType with
    | some rightType =>
      simp only [hleftType, hrightType, stateBind_eq_ok, statePure_eq_ok, Prod.mk.injEq] at h
      obtain ⟨constrained, _, hconstrained, ⟨rfl, rfl⟩, -⟩ := h
      exact ⟨constrainDirectParameter_keeps hP hconstrained hleft, hright⟩
    | none =>
      simp only [hleftType, hrightType] at h
      split at h
      · simp only [stateThrow_eq_ok] at h
      · simp only [statePure_eq_ok, Prod.mk.injEq] at h
        exact ⟨h.1.1 ▸ hleft, h.1.2 ▸ hright⟩

theorem policy_of_allowAggregate {span : Span} {u : Unit}
    (h : allowAggregate policy span s = .ok (u, s')) : policy = .allowed := by
  unfold allowAggregate at h
  split at h
  next hpolicy => exact hpolicy
  next => simp only [stateThrow_eq_ok] at h

/-- Induction over the expressions that binding yields. -/
theorem bindExpr_induct (hP : Bindable scope P) {expr : Expr}
    (h : bindExpr scope expr expected policy s = .ok (bound, s')) : P policy bound := by
  induction expr generalizing expected policy s s' bound with
  | literal value span => exact enforceExpected_keeps hP h hP.literal
  | parameter index span =>
    simp only [bindExpr, stateBind_eq_ok] at h
    obtain ⟨-, t, -, h⟩ := h
    exact enforceExpected_keeps hP h hP.parameter
  | column qualifier name span =>
    simp only [bindExpr, stateBind_eq_ok, stateLift_eq_ok] at h
    obtain ⟨column, t, ⟨hcolumn, -⟩, h⟩ := h
    exact enforceExpected_keeps hP h (hP.column hcolumn)
  | unary op inner span ih =>
    simp only [bindExpr, stateBind_eq_ok] at h
    obtain ⟨inner, t, hinner, h⟩ := h
    exact enforceExpected_keeps hP h (hP.unary (ih hinner))
  | binary left op right span ihLeft ihRight =>
    unfold bindExpr at h
    split at h
    · simp only [stateBind_eq_ok, Prod.exists] at h
      obtain ⟨left, t, hleft, right, t', hright, left', right', t'', hunify, h⟩ := h
      obtain ⟨hleft, hright⟩ := unifyComparisonTypes_keeps hP hunify (ihLeft hleft) (ihRight hright)
      exact enforceExpected_keeps hP h (hP.binary hleft hright)
    · simp only [stateBind_eq_ok] at h
      obtain ⟨left, t, hleft, right, t', hright, h⟩ := h
      exact enforceExpected_keeps hP h (hP.binary (ihLeft hleft) (ihRight hright))
  | isNull inner negated span ih =>
    simp only [bindExpr, stateBind_eq_ok] at h
    obtain ⟨inner, t, hinner, h⟩ := h
    exact enforceExpected_keeps hP h (hP.isNull (ih hinner))
  | aggregateStar function span =>
    simp only [bindExpr, stateBind_eq_ok] at h
    obtain ⟨⟨⟩, t, hallow, h⟩ := h
    exact enforceExpected_keeps hP h (policy_of_allowAggregate hallow ▸ hP.aggregateStar)
  | aggregate function argument span ih =>
    simp only [bindExpr, stateBind_eq_ok] at h
    obtain ⟨⟨⟩, t, hallow, h⟩ := h
    split at h
    · simp only [stateThrow_eq_ok] at h
    · simp only [stateBind_eq_ok] at h
      obtain ⟨argument, t', hargument, h⟩ := h
      exact enforceExpected_keeps hP h
        (policy_of_allowAggregate hallow ▸ hP.aggregate (ih hargument))

theorem bindPredicate_induct (hP : Bindable scope P) {expr : Expr} {context : String}
    (h : bindPredicate scope expr context s = .ok (bound, s')) : P .forbidden bound := by
  simp only [bindPredicate, stateBind_eq_ok] at h
  obtain ⟨bound', t, hbound, h⟩ := h
  split at h
  · simp only [statePure_eq_ok] at h
    exact h.1 ▸ bindExpr_induct hP hbound
  · simp only [stateThrow_eq_ok] at h

end Expressions

/-- Every column of an expression has a property. -/
def BoundExpr.Columns (P : BoundColumn → Prop) : BoundExpr → Prop
  | literal .. | parameter .. | aggregateStar .. => True
  | column bound _ => P bound
  | unary _ expr _ | isNull expr _ _ | aggregate _ expr _ => expr.Columns P
  | binary left _ right _ => left.Columns P ∧ right.Columns P

/-- A column of a table, in the slot of its position. -/
def BoundColumn.Of (table : BoundTable) (column : BoundColumn) : Prop :=
  column.tableId = table.table.id ∧ column.inputSlot = table.slotOffset + column.columnIndex

/-- The scan under the one filter of a query over one table, and its predicate. -/
def LogicalPlan.filtered : LogicalPlan → Option (BoundTable × BoundExpr)
  | .filter (.scan table) predicate => some (table, predicate)
  | .filter input _ | .aggregate input _ _ | .sort input _ | .limit input _ | .project input _ =>
    input.filtered
  | .scan _ | .join .. => none

/-- One row is returned for each row of the filter: there is no aggregate and no LIMIT. -/
def LogicalPlan.rowwise : LogicalPlan → Prop
  | .filter (.scan _) _ => True
  | .sort input _ | .project input _ => input.rowwise
  | _ => False

/-- The grouping of a query: its input, the GROUP BY expressions and the aggregates. -/
def LogicalPlan.grouped : LogicalPlan → Option (LogicalPlan × List BoundExpr × List BoundExpr)
  | .aggregate input groupBy aggregates => some (input, groupBy, aggregates)
  | .sort input _ | .limit input _ | .project input _ => input.grouped
  | .scan _ | .filter .. | .join .. => none

/-- The ORDER BY of a query. -/
def LogicalPlan.ordering : LogicalPlan → List BoundOrder
  | .sort _ orderBy => orderBy
  | .limit input _ | .project input _ => input.ordering
  | .scan _ | .filter .. | .join .. | .aggregate .. => []

/-- The expressions of a query above its grouping. -/
def LogicalPlan.expressions (plan : LogicalPlan) (output : List NamedExpr) : List BoundExpr :=
  output.map NamedExpr.expr ++ plan.ordering.map BoundOrder.expr

/-- The aggregate calls of a query, in its projection and then in ORDER BY. -/
def LogicalPlan.calls (plan : LogicalPlan) (output : List NamedExpr) : List BoundExpr :=
  output.flatMap (fun named => collectAggregates named.expr) ++
    plan.ordering.flatMap fun order => collectAggregates order.expr

/-- Nodes that return some of the rows of a grouping, sorted if an order is asked for. -/
def LogicalPlan.KeepsRows : LogicalPlan → Prop
  | .aggregate .. | .sort (.aggregate ..) _ => True
  | .limit input _ => input.KeepsRows
  | .scan _ | .filter .. | .join .. | .sort .. | .project .. => False

section Single

variable {table : BoundTable}

theorem of_resolveColumn {qualifier : Option Ident} {name : Ident} {column : BoundColumn}
    (h : Scope.resolveColumn ⟨[table]⟩ qualifier name = .ok column) : column.Of table := by
  unfold Scope.resolveColumn at h
  split at h
  next found hfound =>
    cases h
    obtain ⟨other, hother, hcolumn⟩ := List.mem_filterMap.mp (hfound ▸ List.mem_singleton_self _)
    cases List.mem_singleton.mp (List.mem_filter.mp hother).1
    obtain ⟨entry, -, rfl⟩ := Option.map_eq_some_iff.mp hcolumn
    exact ⟨rfl, rfl⟩
  · cases h
  · cases h

theorem bindable_columns :
    Bindable ⟨[table]⟩ fun _ bound => bound.Columns (BoundColumn.Of table) where
  literal := trivial
  parameter := trivial
  column := of_resolveColumn
  unary := id
  binary := .intro
  isNull := id
  aggregateStar := trivial
  aggregate := id

/-- Where aggregates are forbidden there are none. -/
theorem bindable_scalar (scope : Scope) :
    Bindable scope fun policy bound => policy = .forbidden → bound.containsAggregate = false where
  literal := fun _ => rfl
  parameter := fun _ => rfl
  column := fun _ _ => rfl
  unary := id
  binary := by
    intro policy left op right span hleft hright hpolicy
    rw [BoundExpr.containsAggregate, hleft hpolicy, hright hpolicy]
    rfl
  isNull := id
  aggregateStar := nofun
  aggregate := fun _ => nofun

end Single

section Select

variable {catalog : Catalog} {select : Select} {s s' : List ParameterSpec}

variable {plan next : LogicalPlan} {scope : Scope} {selection : Expr}

/-- Without joins, a query with WHERE filters the scan of one table. -/
theorem bindSource_single (hjoins : select.joins = [])
    (hselection : select.selection = some selection)
    (h : bindSource catalog select s = .ok ((plan, scope), s')) :
    ∃ table predicate, plan = .filter (.scan table) predicate ∧ table.slotOffset = 0 ∧
      predicate.Columns (BoundColumn.Of table) ∧ predicate.containsAggregate = false := by
  simp only [bindSource, hjoins, hselection, bindJoins, stateBind_eq_ok, stateLift_eq_ok,
    statePure_eq_ok, Prod.mk.injEq, Prod.exists] at h
  obtain ⟨table, _, ⟨htable, rfl⟩, single, _, ⟨hsingle, rfl⟩, _, _, _, ⟨⟨rfl, rfl⟩, rfl⟩, predicate,
    _, hpredicate, ⟨rfl, rfl⟩, -⟩ := h
  simp only [bindTableSource, bind_eq_ok, pure_eq_ok] at htable
  obtain ⟨definition, -, rfl⟩ := htable
  obtain ⟨⟨⟩, -, rfl⟩ := hsingle
  exact ⟨_, predicate, rfl, rfl, bindPredicate_induct bindable_columns hpredicate,
    bindPredicate_induct (bindable_scalar _) hpredicate rfl⟩

variable {groupBy : List BoundExpr} {output : List NamedExpr} {orderBy : List BoundOrder}

/-- Expressions of a query that fit its grouping. -/
structure Grouped (groupBy aggregates : List BoundExpr) (output : List NamedExpr)
    (orderBy : List BoundOrder) : Prop where
  aggregates : aggregates = deduplicateExpressions
    (output.flatMap (fun named => collectAggregates named.expr) ++
      orderBy.flatMap fun order => collectAggregates order.expr)
  projection : ∀ named ∈ output, groupCompatible groupBy named.expr = true
  ordering : ∀ order ∈ orderBy, groupCompatible groupBy order.expr = true

theorem planAggregate_cases (h : planAggregate plan groupBy output orderBy = .ok next) :
    next = plan ∨ ∃ aggregates, next = .aggregate plan groupBy aggregates ∧
      Grouped groupBy aggregates output orderBy := by
  unfold planAggregate at h
  dsimp only at h
  split at h
  · exact .inl (pure_eq_ok.mp h).symm
  · simp only [checkGrouping, bind_eq_ok, pure_eq_ok, forM_eq_ok, failIf_eq_ok,
      Bool.not_eq_false] at h
    obtain ⟨-, ⟨-, hprojection, hordering⟩, rfl⟩ := h
    exact .inr ⟨_, rfl, rfl, hprojection, hordering⟩

theorem planSort_cases (plan : LogicalPlan) (orderBy : List BoundOrder) :
    orderBy = [] ∧ planSort plan orderBy = plan ∨ planSort plan orderBy = .sort plan orderBy := by
  unfold planSort
  split
  next hnil => exact .inl ⟨hnil, rfl⟩
  next => exact .inr rfl

theorem bindLimit_cases {limit : Option Expr} (h : bindLimit plan limit s = .ok (next, s')) :
    next = plan ∨ ∃ bound, next = .limit plan bound := by
  cases limit with
  | none =>
    simp only [bindLimit, statePure_eq_ok] at h
    exact .inl h.1.symm
  | some limit =>
    simp only [bindLimit, stateBind_eq_ok] at h
    obtain ⟨bound, _, -, h⟩ := h
    split at h
    · simp only [stateBind_eq_ok, statePure_eq_ok] at h
      obtain ⟨⟨⟩, _, -, rfl, -⟩ := h
      exact .inr ⟨bound, rfl⟩
    · simp only [stateThrow_eq_ok] at h

/-- A query over one table with a WHERE clause. -/
theorem bindSelect_single (hjoins : select.joins = [])
    (hselection : select.selection = some selection) {statement : BoundStatement}
    (h : bindSelect catalog select s = .ok (statement, s')) :
    ∃ plan output table predicate, statement = .query plan output ∧
      plan.filtered = some (table, predicate) ∧ table.slotOffset = 0 ∧
      predicate.Columns (BoundColumn.Of table) ∧ predicate.containsAggregate = false := by
  simp only [bindSelect, stateBind_eq_ok, stateLift_eq_ok, statePure_eq_ok, Prod.exists] at h
  obtain ⟨source, scope, _, hsource, groupBy, _, -, output, _, -, orderBy, _, -, aggregated, _,
    ⟨haggregated, rfl⟩, limited, _, hlimited, rfl, -⟩ := h
  obtain ⟨table, predicate, rfl, hfacts⟩ := bindSource_single hjoins hselection hsource
  refine ⟨_, output, table, predicate, rfl, ?_, hfacts⟩
  calc
    (LogicalPlan.project limited output).filtered = limited.filtered := rfl
    _ = (planSort aggregated orderBy).filtered := by
      rcases bindLimit_cases hlimited with rfl | ⟨_, rfl⟩ <;> rfl
    _ = aggregated.filtered := by
      rcases planSort_cases aggregated orderBy with ⟨-, hsort⟩ | hsort <;>
        simp only [hsort, LogicalPlan.filtered]
    _ = some (table, predicate) := by
      rcases planAggregate_cases haggregated with rfl | ⟨_, rfl, -⟩ <;> rfl

theorem grouped_bindJoins {scope' : Scope} {joins : List Join}
    (h : bindJoins catalog plan scope joins s = .ok ((next, scope'), s'))
    (hplan : plan.grouped = none) : next.grouped = none := by
  induction joins generalizing plan scope s with
  | nil =>
    simp only [bindJoins, statePure_eq_ok, Prod.mk.injEq] at h
    rw [← h.1.1]
    exact hplan
  | cons join joins ih =>
    simp only [bindJoins, stateBind_eq_ok] at h
    obtain ⟨_, _, -, _, _, -, _, _, -, h⟩ := h
    exact ih h rfl

/-- Before grouping there is none. -/
theorem grouped_bindSource
    (h : bindSource catalog select s = .ok ((plan, scope), s')) : plan.grouped = none := by
  simp only [bindSource, stateBind_eq_ok, Prod.exists] at h
  obtain ⟨_, _, -, _, _, -, joined, _, _, hjoined, h⟩ := h
  have hjoined := grouped_bindJoins hjoined rfl
  cases hselection : select.selection with
  | none =>
    simp only [hselection, statePure_eq_ok, Prod.mk.injEq] at h
    rw [← h.1.1]
    exact hjoined
  | some selection =>
    simp only [hselection, stateBind_eq_ok, statePure_eq_ok, Prod.mk.injEq] at h
    obtain ⟨_, _, -, ⟨rfl, -⟩, -⟩ := h
    rfl

/-- A query that groups rows. -/
theorem bindSelect_grouped {source : LogicalPlan} {aggregates : List BoundExpr}
    (h : bindSelect catalog select s = .ok (.query plan output, s'))
    (hgrouped : plan.grouped = some (source, groupBy, aggregates)) :
    (∃ below : LogicalPlan, plan = .project below output ∧ below.KeepsRows) ∧
    (∀ group ∈ groupBy, group.containsAggregate = false) ∧
      Grouped groupBy aggregates output plan.ordering := by
  simp only [bindSelect, stateBind_eq_ok, stateLift_eq_ok, statePure_eq_ok, Prod.exists] at h
  obtain ⟨rows, scope, _, hsource, groups, _, hgroups, output, _, -, orderBy, _, -, aggregated, _,
    ⟨haggregated, rfl⟩, limited, _, hlimited, hplan, -⟩ := h
  cases hplan
  have hscalar : ∀ group ∈ groups, group.containsAggregate = false := by
    intro group hgroup
    obtain ⟨_, -, _, _, hbound⟩ := mem_of_stateMapM_eq_ok hgroups group hgroup
    exact bindExpr_induct (bindable_scalar scope) hbound rfl
  have hrows := grouped_bindSource hsource
  rcases planAggregate_cases haggregated with rfl | ⟨found, rfl, hfits⟩
  · -- a query without grouping
    rcases bindLimit_cases hlimited with rfl | ⟨bound, rfl⟩ <;>
      rcases planSort_cases aggregated orderBy with ⟨-, hsort⟩ | hsort <;>
      simp [LogicalPlan.grouped, hsort, hrows] at hgrouped
  · have hshape : limited.grouped = some (rows, groups, found) ∧ limited.KeepsRows ∧
        limited.ordering = orderBy := by
      rcases bindLimit_cases hlimited with rfl | ⟨bound, rfl⟩ <;>
        rcases planSort_cases (.aggregate rows groups found) orderBy with ⟨rfl, hsort⟩ | hsort <;>
        rw [hsort] <;> exact ⟨rfl, trivial, rfl⟩
    obtain ⟨rfl, rfl, rfl⟩ : rows = source ∧ groups = groupBy ∧ found = aggregates := by
      simpa only [LogicalPlan.grouped, hshape.1, Option.some.injEq, Prod.mk.injEq] using hgrouped
    refine ⟨⟨limited, rfl, hshape.2.1⟩, hscalar, ?_⟩
    rw [LogicalPlan.ordering, hshape.2.2]
    exact hfits

end Select

end AsterSql
