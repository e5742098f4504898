import AsterDB.Models.Sql.Native.Plan
import Mathlib.Data.List.Sort

/-!
# Binding

Names are resolved against a catalog, types are inferred and checked, and a statement
becomes a bound one with the parameters it takes. Binding carries the parameters seen
so far along as its state.
-/

namespace AsterSql

open AsterEngine (DataType Column Schema)
open Fallible

/-- Binding reads and extends the parameters that were seen. -/
abbrev Binding := StateT (List ParameterSpec) (Result)

inductive AggregatePolicy where
  | allowed
  | forbidden
  deriving DecidableEq

structure BindOutput where
  statement : BoundStatement
  parameters : List ParameterSpec
  deriving DecidableEq

def bindError (message : String) (span : Span) : SqlError := ⟨.bind, message, span⟩

/-- The tables that columns may refer to. -/
structure Scope where
  tables : List BoundTable
  deriving DecidableEq

namespace Scope

/-- A scope without tables. -/
def empty : Scope := ⟨[]⟩

def single (table : TableDef) (aliasName : String) (slotOffset : Nat) : Scope :=
  ⟨[{ table, aliasName, slotOffset }]⟩

def push (scope : Scope) (table : BoundTable) (span : Span) : Result Scope := do
  failIf (scope.tables.any (fun existing =>
      AsterEngine.eqIgnoreAsciiCase existing.aliasName table.aliasName) = true)
    (bindError s!"duplicate table alias `{table.aliasName}`" span)
  return ⟨scope.tables ++ [table]⟩

def totalColumns (scope : Scope) : Nat :=
  match scope.tables.getLast? with
  | none => 0
  | some table => table.slotOffset + table.table.schema.columns.length

/-- A column of a table of the query. -/
def boundColumn (table : BoundTable) (column : Column) (columnIndex : Nat) : BoundColumn :=
  { tableId := table.table.id, tableName := table.table.name, tableAlias := table.aliasName
    columnIndex, inputSlot := table.slotOffset + columnIndex, column }

def qualifies (qualifier : Option Ident) (table : BoundTable) : Bool :=
  match qualifier with
  | none => true
  | some qualifier => qualifier.matchesName table.aliasName

/-- The first column of a table that has the name. -/
def columnNamed (name : Ident) (table : BoundTable) : Option BoundColumn :=
  (table.table.schema.columns.zipIdx.find? fun entry => name.matchesName entry.1.name).map
    fun entry => boundColumn table entry.1 entry.2

def resolveColumn (scope : Scope) (qualifier : Option Ident) (name : Ident) :
    Result BoundColumn :=
  match (scope.tables.filter (qualifies qualifier)).filterMap (columnNamed name) with
  | [column] => .ok column
  | [] =>
    let displayName := match qualifier with
      | none => name.display
      | some qualifier => s!"{qualifier.display}.{name.display}"
    .error ⟨.bind, s!"column `{displayName}` does not exist in the query scope", name.span⟩
  | _ => .error ⟨.bind, s!"column `{name.display}` is ambiguous", name.span⟩

end Scope

def findColumn (table : TableDef) (name : Ident) : Option Nat :=
  table.schema.columns.findIdx? fun column => name.matchesName column.name

/-- Change the first parameter with an index. -/
def updateSpec (index : Nat) (change : ParameterSpec → ParameterSpec) :
    List ParameterSpec → List ParameterSpec
  | [] => []
  | parameter :: rest =>
    if parameter.index = index then change parameter :: rest
    else parameter :: updateSpec index change rest

def recordParameter (index : Nat) (dataType : Option DataType) (span : Span) : Binding Unit := do
  let parameters ← get
  match parameters.find? fun parameter => parameter.index == index with
  | some parameter =>
    match parameter.dataType, dataType with
    | some existing, some new =>
      if existing = new then pure ()
      else throw ⟨.type,
        s!"parameter ?{index + 1} is constrained as both {existing.display} and {new.display}",
          span⟩
    | _, _ =>
      set (updateSpec index (fun parameter =>
        { parameter with dataType := parameter.dataType <|> dataType }) parameters)
  | none => set (parameters ++ [{ index, dataType, nullable := true }])

/-- A parameter takes the type it is used at. -/
def constrainDirectParameter (expression : BoundExpr) (expected : DataType) : Binding BoundExpr :=
  match expression with
  | .parameter index dataType span => do
    match dataType.filter fun actual => actual != expected with
    | some actual =>
      throw ⟨.type,
        s!"parameter ?{index + 1} expects {actual.display}, not {expected.display}", span⟩
    | none =>
      modify (updateSpec index fun parameter => { parameter with dataType := some expected })
      return .parameter index (some expected) span
  | other => pure other

/-- A parameter that stands alone may not be NULL. -/
def requireDirectParameterValue (expression : BoundExpr) : Binding Unit :=
  match expression with
  | .parameter index _ _ =>
    modify (updateSpec index fun parameter => { parameter with nullable := false })
  | _ => pure ()

def enforceExpected (expression : BoundExpr) (expected : Option DataType) : Binding BoundExpr :=
  match expected with
  | none => pure expression
  | some expected =>
    match expression.sqlType.dataType with
    | some actual =>
      if actual = expected then pure expression
      else throw ⟨.type, s!"expected {expected.display}, found {actual.display}", expression.span⟩
    | none => constrainDirectParameter expression expected

def isNullLiteral : BoundExpr → Bool
  | .literal .null _ => true
  | _ => false

def unifyComparisonTypes (left right : BoundExpr) (span : Span) : Binding (BoundExpr × BoundExpr) :=
  match left.sqlType.dataType, right.sqlType.dataType with
  | some leftType, some rightType =>
    if leftType = rightType then pure (left, right)
    else throw ⟨.type, s!"cannot compare {leftType.display} with {rightType.display}", span⟩
  | some dataType, none => do
    let right ← constrainDirectParameter right dataType
    return (left, right)
  | none, some dataType => do
    let left ← constrainDirectParameter left dataType
    return (left, right)
  | none, none =>
    if !isNullLiteral left && !isNullLiteral right then
      throw ⟨.type, "comparison operand types cannot be inferred", span⟩
    else pure (left, right)

def UnaryOp.required : UnaryOp → DataType
  | not => .bool
  | negate => .int64

/-- The type that an aggregate asks of its argument. -/
def AggregateFunction.required : AggregateFunction → Option DataType
  | sum => some .int64
  | _ => none

def allowAggregate (policy : AggregatePolicy) (span : Span) : Binding Unit :=
  if policy = .allowed then pure ()
  else throw ⟨.type, "aggregate functions are not allowed in this clause", span⟩

def bindExpr (scope : Scope) : Expr → Option DataType → AggregatePolicy → Binding BoundExpr
  | .literal value span, expected, _ => enforceExpected (.literal value span) expected
  | .parameter index span, expected, _ => do
    recordParameter index expected span
    enforceExpected (.parameter index expected span) expected
  | .column qualifier name span, expected, _ => do
    let column ← scope.resolveColumn qualifier name
    enforceExpected (.column column span) expected
  | .unary op inner span, expected, policy => do
    let inner ← bindExpr scope inner (some op.required) policy
    enforceExpected (.unary op inner span) expected
  | .binary left op right span, expected, policy =>
    if op.isComparison then do
      let left ← bindExpr scope left none policy
      let right ← bindExpr scope right left.sqlType.dataType policy
      let (left, right) ← unifyComparisonTypes left right span
      enforceExpected (.binary left op right span) expected
    else do
      let left ← bindExpr scope left (some .bool) policy
      let right ← bindExpr scope right (some .bool) policy
      enforceExpected (.binary left op right span) expected
  | .isNull inner negated span, expected, policy => do
    let inner ← bindExpr scope inner none policy
    enforceExpected (.isNull inner negated span) expected
  | .aggregateStar function span, expected, policy => do
    allowAggregate policy span
    enforceExpected (.aggregateStar function span) expected
  | .aggregate function argument span, expected, policy => do
    allowAggregate policy span
    if argument.containsAggregate then
      throw ⟨.type, "nested aggregate functions are not supported", argument.span⟩
    else
      let argument ← bindExpr scope argument function.required .forbidden
      enforceExpected (.aggregate function argument span) expected

def bindPredicate (scope : Scope) (expr : Expr) (context : String) : Binding BoundExpr := do
  let bound ← bindExpr scope expr (some .bool) .forbidden
  if bound.sqlType.dataType = some .bool then return bound
  else throw ⟨.type, s!"{context} requires a BOOL expression", expr.span⟩

/-- The predicate of an optional WHERE clause. -/
def bindSelection (scope : Scope) (selection : Option Expr) (context : String) :
    Binding (Option BoundExpr) :=
  match selection with
  | none => pure none
  | some expr => some <$> bindPredicate scope expr context

def rejectNullForNonNullable (expr : BoundExpr) (column : Column) (span : Span) : Binding Unit :=
  if !column.nullable && isNullLiteral expr then
    throw ⟨.constraint, s!"column `{column.name}` is not nullable", span⟩
  else pure ()

/-- The value of one column of an INSERT or UPDATE. -/
def bindColumnValue (scope : Scope) (column : Column) (value : Expr) : Binding BoundExpr := do
  let bound ← bindExpr scope value (some column.dataType) .forbidden
  rejectNullForNonNullable bound column value.span
  if column.nullable then pure () else requireDirectParameterValue bound
  return bound

section Statements

variable (catalog : Catalog)

def requireTable (name : Ident) : Result TableDef :=
  orFail (catalog.resolveTable name) (bindError s!"table `{name.display}` does not exist" name.span)

def bindTableSource (source : TableSource) (slotOffset : Nat) : Result BoundTable := do
  let table ← requireTable catalog source.name
  let aliasName := match source.aliasName with
    | none => table.name
    | some name => name.value
  return { table, aliasName, slotOffset }

/-- The positions of the columns an INSERT names. -/
def insertTargets (table : TableDef) : List Nat → List Ident → Result (List Nat)
  | seen, [] => .ok seen
  | seen, column :: rest => do
    let index ← orFail (findColumn table column)
      (bindError s!"column `{column.display}` does not exist in table `{table.name}`" column.span)
    failIf (index ∈ seen)
      (bindError s!"column `{column.display}` appears more than once in INSERT" column.span)
    insertTargets table (seen ++ [index]) rest

def targetColumns (table : TableDef) : Option (List Ident) → Result (List Nat)
  | some columns => insertTargets table [] columns
  | none => .ok (List.range table.schema.columns.length)

/-- The column at a position; positions come from the table's own columns. -/
def TableDef.columnAt (table : TableDef) (index : Nat) : Column :=
  table.schema.columns.getD index
    { name := "", dataType := .int64, nullable := true, primaryKey := false }

/-- A column that an INSERT leaves out is NULL. -/
def insertDefault (table : TableDef) (span : Span) (normalized : List (Nat × BoundExpr))
    (index : Nat) : Result BoundExpr :=
  match normalized.lookup index with
  | some value => .ok value
  | none =>
    if (table.columnAt index).nullable then .ok (.literal .null span)
    else .error ⟨.constraint, s!"INSERT omits required column `{(table.columnAt index).name}`",
      span⟩

def bindInsert (insert : Insert) : Binding BoundStatement := do
  let table ← requireTable catalog insert.table
  let targets ← targetColumns table insert.columns
  if targets.length ≠ insert.values.length then
    throw ⟨.constraint,
      s!"INSERT names {targets.length} target columns but supplies {insert.values.length} values",
      insert.table.span⟩
  else
    let normalized ← (targets.zip insert.values).mapM fun target => do
      let bound ← bindColumnValue .empty (table.columnAt target.1) target.2
      return (target.1, bound)
    let values ← (List.range table.schema.columns.length).mapM fun index =>
      (insertDefault table insert.table.span normalized index : Binding BoundExpr)
    return .insert table values

/-- The assignments of an UPDATE, after those in `seen`. -/
def bindAssignments (table : TableDef) (scope : Scope) :
    List (Nat × BoundExpr) → List Assignment → Binding (List (Nat × BoundExpr))
  | seen, [] => pure seen
  | seen, assignment :: rest => do
    let columnIndex ← (orFail (findColumn table assignment.column)
      (bindError s!"column `{assignment.column.display}` does not exist in table `{table.name}`"
        assignment.column.span) : Result Nat)
    if columnIndex ∈ seen.map Prod.fst then
      throw (bindError s!"column `{assignment.column.display}` is assigned more than once"
        assignment.column.span)
    else
      let value ← bindColumnValue scope (table.columnAt columnIndex) assignment.value
      bindAssignments table scope (seen ++ [(columnIndex, value)]) rest

def bindUpdate (update : Update) : Binding BoundStatement := do
  let table ← requireTable catalog update.table
  let scope := Scope.single table table.name 0
  let assignments ← bindAssignments table scope [] update.assignments
  let selection ← bindSelection scope update.selection "UPDATE WHERE"
  return .update table assignments selection

def bindDelete (delete : Delete) : Binding BoundStatement := do
  let table ← requireTable catalog delete.table
  let scope := Scope.single table table.name 0
  let selection ← bindSelection scope delete.selection "DELETE WHERE"
  return .delete table selection

/-- Each join scans one more table, in the slots after those before it. -/
def bindJoins : LogicalPlan → Scope → List Join → Binding (LogicalPlan × Scope)
  | plan, scope, [] => pure (plan, scope)
  | plan, scope, join :: rest => do
    let right ← bindTableSource catalog join.right scope.totalColumns
    let scope ← scope.push right join.right.span
    let on ← bindPredicate scope join.on "JOIN ON"
    bindJoins (.join plan (.scan right) on) scope rest

end Statements

def expressionName (expr : BoundExpr) (position : Nat) : String :=
  match expr with
  | .column column _ => column.column.name
  | .aggregateStar .count _ | .aggregate .count _ _ => "count"
  | .aggregateStar .sum _ | .aggregate .sum _ _ => "sum"
  | .aggregateStar .min _ | .aggregate .min _ _ => "min"
  | .aggregateStar .max _ | .aggregate .max _ _ => "max"
  | _ => s!"expr{position + 1}"

/-- Every column of every table of the query. -/
def wildcardColumns (scope : Scope) (span : Span) : List NamedExpr :=
  scope.tables.flatMap fun table =>
    table.table.schema.columns.zipIdx.map fun entry =>
      { expr := .column (Scope.boundColumn table entry.1 entry.2) span, name := entry.1.name }

def bindItem (scope : Scope) (position : Nat) : SelectItem → Binding (List NamedExpr)
  | .wildcard span => pure (wildcardColumns scope span)
  | .expr expr aliasName => do
    let bound ← bindExpr scope expr none .allowed
    let name := match aliasName with
      | none => expressionName bound position
      | some name => name.value
    return [{ expr := bound, name }]

def bindProjection (scope : Scope) (items : List SelectItem) : Binding (List NamedExpr) := do
  let items ← items.zipIdx.mapM fun item => bindItem scope item.2 item.1
  return items.flatten

/-- ORDER BY may name an output column. -/
def bindOrderExpression (scope : Scope) (output : List NamedExpr) (expression : Expr) :
    Binding BoundExpr :=
  match expression with
  | .column none name _ =>
    match output.filter fun candidate => name.matchesName candidate.name with
    | [named] => pure (named.expr.withSpan name.span)
    | [] => bindExpr scope expression none .allowed
    | _ => throw ⟨.bind, s!"ORDER BY name `{name.display}` is ambiguous", name.span⟩
  | _ => bindExpr scope expression none .allowed

def bindOrder (scope : Scope) (output : List NamedExpr) (order : OrderBy) : Binding BoundOrder := do
  let expr ← bindOrderExpression scope output order.expr
  return { expr, direction := order.direction }

def collectAggregates : BoundExpr → List BoundExpr
  | .aggregateStar function span => [.aggregateStar function span]
  | .aggregate function argument span => [.aggregate function argument span]
  | .unary _ expr _ | .isNull expr _ _ => collectAggregates expr
  | .binary left _ right _ => collectAggregates left ++ collectAggregates right
  | .literal .. | .parameter .. | .column .. => []

/-- The first of each group of like expressions. -/
def deduplicateExpressions (expressions : List BoundExpr) : List BoundExpr :=
  expressions.foldl
    (fun unique expression =>
      if unique.any fun existing => existing.sameExpression expression then unique
      else unique ++ [expression]) []

/-- An expression that has one value over a group, by its form. -/
def groupCompatible (groupBy : List BoundExpr) (expr : BoundExpr) : Bool :=
  groupBy.any (fun group => expr.sameExpression group) ||
    match expr with
    | .aggregateStar .. | .aggregate .. | .literal .. | .parameter .. => true
    | .column .. => false
    | .unary _ expr _ | .isNull expr _ _ => groupCompatible groupBy expr
    | .binary left _ right _ => groupCompatible groupBy left && groupCompatible groupBy right

/-- Outside an aggregate a grouped query refers to grouped expressions only. -/
def checkGrouping (groupBy : List BoundExpr) (output : List NamedExpr) (orderBy : List BoundOrder) :
    Result Unit := do
  output.forM fun named =>
    failIf (groupCompatible groupBy named.expr = false) ⟨.type,
      s!"projection `{named.name}` references a non-grouped column outside an aggregate",
      named.expr.span⟩
  orderBy.forM fun order =>
    failIf (groupCompatible groupBy order.expr = false) ⟨.type,
      "ORDER BY references a non-grouped column outside an aggregate", order.expr.span⟩

/-- Group and aggregate where there is something to. -/
def planAggregate (plan : LogicalPlan) (groupBy : List BoundExpr) (output : List NamedExpr)
    (orderBy : List BoundOrder) : Result LogicalPlan := do
  let aggregates := deduplicateExpressions
    (output.flatMap (fun named => collectAggregates named.expr) ++
      orderBy.flatMap fun order => collectAggregates order.expr)
  if aggregates = [] ∧ groupBy = [] then return plan
  else
    checkGrouping groupBy output orderBy
    return .aggregate plan groupBy aggregates

def limitAllowed : BoundExpr → Bool
  | .literal (.int64 value) _ => 0 ≤ value
  | .parameter .. => true
  | _ => false

def bindLimit (plan : LogicalPlan) : Option Expr → Binding LogicalPlan
  | none => pure plan
  | some limit => do
    let limit ← bindExpr .empty limit (some .int64) .forbidden
    if limitAllowed limit then
      requireDirectParameterValue limit
      return .limit plan limit
    else throw ⟨.constraint, "LIMIT must be a non-negative INT64 literal or parameter", limit.span⟩

/-- The rows of a query before grouping. -/
def bindSource (catalog : Catalog) (select : Select) : Binding (LogicalPlan × Scope) := do
  let first ← bindTableSource catalog select.source 0
  let scope ← Scope.empty.push first select.source.span
  let (plan, scope) ← bindJoins catalog (.scan first) scope select.joins
  match select.selection with
  | none => return (plan, scope)
  | some selection =>
    let predicate ← bindPredicate scope selection "SELECT WHERE"
    return (.filter plan predicate, scope)

/-- Sort where an order is asked for. -/
def planSort (plan : LogicalPlan) (orderBy : List BoundOrder) : LogicalPlan :=
  if orderBy = [] then plan else .sort plan orderBy

def bindSelect (catalog : Catalog) (select : Select) : Binding BoundStatement := do
  let (plan, scope) ← bindSource catalog select
  let groupBy ← select.groupBy.mapM fun expression => bindExpr scope expression none .forbidden
  let output ← bindProjection scope select.projection
  let orderBy ← select.orderBy.mapM (bindOrder scope output)
  let plan ← planAggregate plan groupBy output orderBy
  let plan ← bindLimit (planSort plan orderBy) select.limit
  return .query (.project plan output) output

/-- A new name collides with no table and no index. -/
def requireFresh (catalog : Catalog) (name : Ident) : Result Unit :=
  failIf ((catalog.resolveTable name).isSome = true ∨ (catalog.resolveIndex name).isSome = true)
    (bindError s!"catalog object `{name.display}` already exists" name.span)

def bindCreateTable (catalog : Catalog) (create : CreateTable) (span : Span) :
    Result BoundStatement := do
  requireFresh catalog create.name
  let schema : Schema := ⟨create.columns.map fun column =>
    { name := column.name.value, dataType := column.dataType, nullable := column.nullable
      primaryKey := column.primaryKey }⟩
  let _ ← schema.validate.mapError fun error => ⟨.constraint, error.display, span⟩
  return .createTable create.name.value schema

def bindCreateIndex (catalog : Catalog) (create : CreateIndex) :
    Result BoundStatement := do
  requireFresh catalog create.name
  let table ← requireTable catalog create.table
  let columnIndex ← orFail (findColumn table create.column)
    (bindError s!"column `{create.column.display}` does not exist in table `{table.name}`"
      create.column.span)
  return .createIndex create.name.value table columnIndex

def BoundStatement.isTransaction : BoundStatement → Bool
  | .transaction _ => true
  | _ => false

def bindStatement (catalog : Catalog) : Statement → Span → Binding BoundStatement
  | .createTable create, span => bindCreateTable catalog create span
  | .createIndex create, _ => bindCreateIndex catalog create
  | .insert insert, _ => bindInsert catalog insert
  | .update update, _ => bindUpdate catalog update
  | .delete delete, _ => bindDelete catalog delete
  | .select select, _ => bindSelect catalog select
  | .begin, _ => pure (.transaction .begin)
  | .commit, _ => pure (.transaction .commit)
  | .rollback, _ => pure (.transaction .rollback)
  | .explain inner span, _ => do
    let bound ← bindStatement catalog inner span
    if bound.isTransaction then
      throw ⟨.unsupported, "EXPLAIN does not accept transaction-control statements", span⟩
    else return .explain bound

def bind (statement : Spanned Statement) (catalog : Catalog) : Result BindOutput := do
  let (bound, parameters) ← (bindStatement catalog statement.value statement.span).run []
  return { statement := bound
           parameters := parameters.insertionSort fun left right => left.index ≤ right.index }

end AsterSql
