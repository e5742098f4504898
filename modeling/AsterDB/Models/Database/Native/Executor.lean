import AsterDB.Models.Engine.Native.Engine
import AsterDB.Models.Sql.Native.Evaluate
import Mathlib.Data.List.Sort

/-!
# Execution of bound statements

Physical plans run over an engine at the snapshot of a transaction. Rows carry the
aggregates that were computed for their group; an expression with an aggregate call
reads them.
-/

namespace AsterDatabase

open AsterRaft (Bytes)
open AsterEngine (Value Row Engine Transaction EngineError CoreError AbortReason RequestRejection
  IndexMeta TableMeta)
open AsterSql
open Std
open Fallible

/-- The largest result of a query. -/
def maxResultRows : Nat := 16384

/-- The largest result of a plan node. -/
def maxIntermediateRows : Nat := 1000000

inductive DatabaseError where
  | sql (error : SqlError)
  | engine (error : EngineError)
  | storage (text : String)
  | io (text : String)
  | transactionNotFound (id : Nat)
  | transactionControl (text : String)
  | transactionAborted (reason : AbortReason)
  | requestRejected (rejection : RequestRejection)
  | resourceLimit (text : String)
  | corruption (text : String)
  | invariant (text : String)
  deriving DecidableEq

/-- The results of the crate. -/
abbrev Result : Type → Type := Except DatabaseError

/-- A failure of the SQL front end, passed on. -/
def liftSql {α : Type} (result : Except SqlError α) : Result α :=
  result.mapError .sql

/-- A failure of the engine, passed on. -/
def liftEngine {α : Type} (result : Except EngineError α) : Result α :=
  result.mapError .engine

/-- A failure of a codec, passed on through the engine. -/
def liftCodec {α : Type} (result : Except CoreError α) : Result α :=
  result.mapError fun error => .engine (.core error)

inductive StatementOutput where
  | query (columns : List String) (rows : List Row)
  | mutation (affectedRows : Nat)
  | explain (plan : String)
  deriving DecidableEq

structure ExecRow where
  row : Row
  aggregates : List (BoundExpr × Value)
  deriving DecidableEq

namespace ExecRow

def plain (row : Row) : ExecRow := ⟨row, []⟩

/-- The row of constants. -/
def empty : ExecRow := plain ⟨[]⟩

end ExecRow

/-- The catalog that binding and planning see: what is committed and, for binding, what the
transaction has staged. -/
structure EngineCatalog where
  tables : List TableDef
  indexes : List IndexDef

namespace EngineCatalog

def tableDef (table : TableMeta) : TableDef :=
  { id := table.id, name := table.name, schema := table.schema }

def indexDef (index : IndexMeta) : IndexDef :=
  { id := index.id, name := index.name, tableId := index.tableId, columnIndex := index.column }

def stagedTables (transaction : Transaction) : List TableDef :=
  transaction.catalogMutations.filterMap fun
    | .createTable table => some (tableDef table)
    | .createIndex _ => none

def stagedIndexes (transaction : Transaction) : List IndexDef :=
  transaction.catalogMutations.filterMap fun
    | .createTable _ => none
    | .createIndex index => some (indexDef index)

def new (engine : Engine) (transaction : Option Transaction) : EngineCatalog where
  tables := (engine.catalog.tables.toList.map (fun entry => tableDef entry.2) ++
    transaction.toList.flatMap stagedTables).insertionSort fun left right => left.id ≤ right.id
  indexes := (engine.catalog.indexes.toList.map (fun entry => indexDef entry.2) ++
    transaction.toList.flatMap stagedIndexes).insertionSort fun left right => left.id ≤ right.id

def catalog (view : EngineCatalog) : Catalog where
  resolveTable name := view.tables.find? fun table => name.matchesName table.name
  resolveIndex name := view.indexes.find? fun index => name.matchesName index.name
  indexesForTable tableId := view.indexes.filter fun index => index.tableId == tableId

end EngineCatalog

/-! The executor has its own copies of the evaluator's helpers. Of an expression they read the
span only. -/

namespace Executor

def typeError (operation : String) (value : Value) (span : Span) : DatabaseError :=
  .sql ⟨.type, s!"cannot {operation} {value.typeName}", span⟩

def truth (value : Value) (span : Span) : Result TruthValue :=
  match value with
  | .bool false => .ok .false
  | .bool true => .ok .true
  | .null => .ok .unknown
  | other => .error (typeError "use as a predicate" other span)

/-- NULL compares to NULL; the connectives do not come here. -/
def compare (left : Value) (operator : BinaryOp) (right : Value) (span : Span) :
    Result Value := do
  let ordering ← (left.checkedCmp right).mapError fun error =>
    .sql ⟨.type, error.display, span⟩
  match ordering with
  | none => return .null
  | some ordering => return .bool (match operator with
    | .eq => ordering == .eq
    | .notEq => ordering != .eq
    | .lt => ordering == .lt
    | .ltEq => ordering != .gt
    | .gt => ordering == .gt
    | .gtEq => ordering != .lt
    | .and | .or => false)

def containsAggregate : BoundExpr → Bool
  | .aggregateStar .. | .aggregate .. => true
  | .unary _ expr _ | .isNull expr _ _ => containsAggregate expr
  | .binary left _ right _ => containsAggregate left || containsAggregate right
  | .literal .. | .parameter .. | .column .. => false

def sameExpression : BoundExpr → BoundExpr → Bool
  | .literal left _, .literal right _ => left == right
  | .parameter left _ _, .parameter right _ _ => left == right
  | .column left _, .column right _ =>
    left.tableId == right.tableId && left.columnIndex == right.columnIndex
  | .unary leftOp left _, .unary rightOp right _ => leftOp == rightOp && sameExpression left right
  | .binary leftA leftOp leftB _, .binary rightA rightOp rightB _ =>
    leftOp == rightOp && sameExpression leftA rightA && sameExpression leftB rightB
  | .isNull left leftNegated _, .isNull right rightNegated _ =>
    leftNegated == rightNegated && sameExpression left right
  | .aggregateStar left _, .aggregateStar right _ => left == right
  | .aggregate leftFunction left _, .aggregate rightFunction right _ =>
    leftFunction == rightFunction && sameExpression left right
  | _, _ => false

end Executor

section Expressions

variable (row : ExecRow) (parameters : List Value)

/-- The aggregate computed for a call. -/
def aggregateValue (expression : BoundExpr) : Result Value :=
  match row.aggregates.find? fun entry => Executor.sameExpression entry.1 expression with
  | some entry => .ok entry.2
  | none => .error (.invariant "aggregate value was not computed")

/-- The value of an expression on a row; one without aggregates is left to the evaluator. -/
def evaluateExec (expression : BoundExpr) : Result Value :=
  if Executor.containsAggregate expression then
    match expression with
    | .aggregateStar function span => aggregateValue row (.aggregateStar function span)
    | .aggregate function argument span => aggregateValue row (.aggregate function argument span)
    | .unary .not expr span => do
      let value ← evaluateExec expr
      let value ← Executor.truth value span
      return value.not.intoValue
    | .unary .negate expr span => do
      match ← evaluateExec expr with
      | .null => return .null
      | .int64 value =>
        if value = Int64.minValue then
          .error (.sql ⟨.constraint, "INT64 negation overflow", span⟩)
        else return .int64 (-value)
      | other => .error (Executor.typeError "negate" other span)
    | .binary left .and right span => do
      let left ← evaluateExec left
      let left ← Executor.truth left span
      if left = .false then return .bool false
      else
        let right ← evaluateExec right
        let right ← Executor.truth right span
        return (left.and right).intoValue
    | .binary left .or right span => do
      let left ← evaluateExec left
      let left ← Executor.truth left span
      if left = .true then return .bool true
      else
        let right ← evaluateExec right
        let right ← Executor.truth right span
        return (left.or right).intoValue
    | .binary left comparison right span => do
      let left ← evaluateExec left
      let right ← evaluateExec right
      Executor.compare left comparison right span
    | .isNull expr negated _ => do
      let value ← evaluateExec expr
      return .bool (if negated then !value.isNull else value.isNull)
    | .literal .. | .parameter .. | .column .. =>
      .error (.invariant "aggregate expression traversal reached an unexpected scalar leaf")
  else liftSql (evaluate ⟨row.row, parameters⟩ expression)

def predicateExec (expression : BoundExpr) : Result Bool :=
  if Executor.containsAggregate expression then do
    let value ← evaluateExec row parameters expression
    let value ← Executor.truth value expression.span
    return value == .true
  else liftSql (predicateMatches ⟨row.row, parameters⟩ expression)

end Expressions

def ensureIntermediateBound (rows : List ExecRow) : Result Unit :=
  failIf (maxIntermediateRows < rows.length)
    (.resourceLimit
      s!"physical plan produced {rows.length} intermediate rows; maximum is {maxIntermediateRows}")

/-- The rows whose predicate is true; the first error ends it. -/
def filterRows (predicate : BoundExpr) (parameters : List Value) :
    List ExecRow → Result (List ExecRow)
  | [] => .ok []
  | row :: rest => do
    let keep ← predicateExec row parameters predicate
    let rest ← filterRows predicate parameters rest
    return if keep then row :: rest else rest

def planTables : PhysicalPlan → List Nat
  | .seqScan table | .indexScan table _ _ => [table.table.id]
  | .filter input _ | .hashAggregate input _ _ | .sort input _ | .limit input _
  | .project input _ =>
    planTables input
  | .join left right _ _ => planTables left ++ planTables right

/-- The outer expression and the inner column of an equality between two columns, one of which is
of the inner tables. -/
def hashJoinKeys (rightPlan : PhysicalPlan) : BoundExpr → Option (BoundExpr × Nat)
  | .binary (.column leftColumn leftSpan) .eq (.column rightColumn rightSpan) _ =>
    let rightTables := planTables rightPlan
    if rightColumn.tableId ∈ rightTables ∧ leftColumn.tableId ∉ rightTables then
      some (.column leftColumn leftSpan, rightColumn.columnIndex)
    else if leftColumn.tableId ∈ rightTables ∧ rightColumn.tableId ∉ rightTables then
      some (.column rightColumn rightSpan, leftColumn.columnIndex)
    else none
  | _ => none

def combineRows (left right : ExecRow) : ExecRow :=
  { row := ⟨left.row.values ++ right.row.values⟩, aggregates := left.aggregates ++ right.aggregates
    }

section Joins

variable (on : BoundExpr) (parameters : List Value)

/-- Join an outer row with candidates for it. -/
def joinRow (output : List ExecRow) (outer : ExecRow) (candidates : List ExecRow) :
    Result (List ExecRow) :=
  candidates.foldlM
    (fun output inner => do
      let joined := combineRows outer inner
      let keep ← predicateExec joined parameters on
      if keep then
        ensureIntermediateBound (output ++ [joined])
        return output ++ [joined]
      else return output) output

def nestedLoopJoin (left right : List ExecRow) : Result (List ExecRow) :=
  left.foldlM (fun output outer => joinRow on parameters output outer right) []

/-- Inner rows by the encoding of their key; NULL has no bucket. -/
def hashBuckets (rightColumn : Nat) (right : List ExecRow) :
    Result (ExtTreeMap Bytes (List ExecRow)) :=
  right.foldlM
    (fun buckets row => do
      let value ← orFail row.row.values[rightColumn]?
        (.invariant "hash-join inner column is outside row")
      if value.isNull then return buckets
      else
        let key ← liftCodec (AsterEngine.Codec.encodeValue value)
        return buckets.insert key (buckets.getD key [] ++ [row])) ∅

def hashJoin (leftKey : BoundExpr) (rightColumn : Nat) (left right : List ExecRow) :
    Result (List ExecRow) := do
  let buckets ← hashBuckets rightColumn right
  left.foldlM
    (fun output outer => do
      let value ← evaluateExec outer parameters leftKey
      if value.isNull then return output
      else
        let key ← liftCodec (AsterEngine.Codec.encodeValue value)
        joinRow on parameters output outer (buckets.getD key [])) []

end Joins

/-- Join the rows of two plans. -/
def executeJoin (rightPlan : PhysicalPlan) (on : BoundExpr) (algorithm : JoinAlgorithm)
    (parameters : List Value) (left right : List ExecRow) : Result (List ExecRow) :=
  match hashJoinKeys rightPlan on, algorithm with
  | some (leftKey, rightColumn), .hash | some (leftKey, rightColumn), .indexNestedLoop .. =>
    hashJoin on parameters leftKey rightColumn left right
  | _, _ => nestedLoopJoin on parameters left right

section Aggregates

variable (parameters : List Value)

def i64Max : Nat := 2 ^ 63 - 1

/-- `COUNT(*)` counts rows, `COUNT(e)` the values that are not NULL. -/
def countedRows (argument : Option BoundExpr) (rows : List ExecRow) : Result Nat :=
  match argument with
  | none => .ok rows.length
  | some argument => do
    let values ← rows.mapM fun row => evaluateExec row parameters argument
    return values.countP fun value => !value.isNull

def countRows (argument : Option BoundExpr) (rows : List ExecRow) : Result Value := do
  let count ← countedRows parameters argument rows
  failIf (i64Max < count) (.resourceLimit "COUNT exceeds INT64")
  return .int64 (Int64.ofNat count)

/-- Add a value to a sum; NULL adds nothing. -/
def addToSum (span : Span) (sum : Option Int64) : Value → Result (Option Int64)
  | .null => .ok sum
  | .int64 value =>
    let total := (sum.getD 0).toInt + value.toInt
    if Int64.minValue.toInt ≤ total ∧ total ≤ Int64.maxValue.toInt then .ok (some (.ofInt total))
    else .error (.sql ⟨.constraint, "INT64 SUM overflow", span⟩)
  | other => .error (Executor.typeError "SUM" other span)

def sumRows (argument : BoundExpr) (span : Span) (rows : List ExecRow) :
    Result Value := do
  let sum ← rows.foldlM
    (fun sum row => do
      let value ← evaluateExec row parameters argument
      addToSum span sum value) none
  return match sum with
    | none => .null
    | some value => .int64 value

/-- The smallest or the largest value that is not NULL, the first of equals. -/
def selectRows (wanted : Ordering) (argument : BoundExpr) (rows : List ExecRow) :
    Result Value := do
  let selected ← rows.foldlM
    (fun selected row => do
      let value ← evaluateExec row parameters argument
      let replace := match selected with
        | none => true
        | some current => (value.checkedCmp current).toOption.join == some wanted
      return if !value.isNull && replace then some value else selected) none
  return selected.getD .null

def computeAggregate (rows : List ExecRow) : BoundExpr → Result Value
  | .aggregateStar .count _ => countRows parameters none rows
  | .aggregate .count argument _ => countRows parameters (some argument) rows
  | .aggregateStar .sum _ => .error (.invariant "SUM is missing its argument")
  | .aggregate .sum argument span => sumRows parameters argument span rows
  | .aggregateStar .min _ | .aggregateStar .max _ =>
    .error (.invariant "MIN/MAX is missing its argument")
  | .aggregate .min argument _ => selectRows parameters .lt argument rows
  | .aggregate .max argument _ => selectRows parameters .gt argument rows
  | _ => .error (.invariant "aggregate plan contains a scalar expression")

/-- Rows by the encoding of their group, in the order they came. -/
def groupRows (groupBy : List BoundExpr) (input : List ExecRow) :
    Result (ExtTreeMap Bytes (List ExecRow)) :=
  input.foldlM
    (fun groups row => do
      let values ← groupBy.mapM (evaluateExec row parameters)
      let key ← liftCodec (AsterEngine.Codec.encodeRow ⟨values⟩)
      return groups.insert key (groups.getD key [] ++ [row])) ∅

/-- One row for a group: its first row, with the aggregates of the group. -/
def aggregateGroup (aggregates : List BoundExpr) (rows : List ExecRow) :
    Result ExecRow := do
  let computed ← aggregates.mapM fun aggregate => do
    let value ← computeAggregate parameters rows aggregate
    return (aggregate, value)
  return { row := (rows.head?.map ExecRow.row).getD ⟨[]⟩, aggregates := computed }

def aggregateRows (groupBy aggregates : List BoundExpr) (input : List ExecRow) :
    Result (List ExecRow) := do
  let groups ← groupRows parameters groupBy input
  -- without GROUP BY there is one group, even of no rows
  let groups := if groups.isEmpty && groupBy.isEmpty then groups.insert [] [] else groups
  (groups.toList.map Prod.snd).mapM (aggregateGroup parameters aggregates)

end Aggregates

/-- NULL comes last. -/
def compareSortValues : Value → Value → Ordering
  | .null, .null => .eq
  | .null, _ => .gt
  | _, .null => .lt
  | left, right => ((left.checkedCmp right).toOption.join).getD .eq

def compareSortKeys : List BoundOrder → List Value → List Value → Ordering
  | order :: orders, left :: lefts, right :: rights =>
    let comparison := match order.direction with
      | .asc => compareSortValues left right
      | .desc => (compareSortValues left right).swap
    if comparison = .eq then compareSortKeys orders lefts rights else comparison
  | _, _, _ => .eq

def sortRows (orderBy : List BoundOrder) (parameters : List Value) (input : List ExecRow) :
    Result (List ExecRow) := do
  let keyed ← input.mapM fun row => do
    let keys ← orderBy.mapM fun order => evaluateExec row parameters order.expr
    return (row, keys)
  return (keyed.insertionSort fun left right =>
    compareSortKeys orderBy left.2 right.2 ≠ .gt).map Prod.fst

def limitRows (limit : BoundExpr) (parameters : List Value) (input : List ExecRow) :
    Result (List ExecRow) := do
  let value ← evaluateExec .empty parameters limit
  let invalid : Result (List ExecRow) :=
    .error (.sql ⟨.constraint, "LIMIT must evaluate to a non-negative INT64", limit.span⟩)
  match value with
  | .int64 value => if 0 ≤ value then return input.take value.toInt.toNat else invalid
  | _ => invalid

def projectRows (expressions : List NamedExpr) (parameters : List Value) (input : List ExecRow) :
    Result (List ExecRow) :=
  input.mapM fun row => do
    let values ← expressions.mapM fun named => evaluateExec row parameters named.expr
    return .plain ⟨values⟩

section Plans

variable (engine : Engine) (transaction : Transaction) (parameters : List Value)

/-- An index serves equality with a value that is not NULL; otherwise the table is scanned. -/
def indexRows (table : BoundTable) (index : IndexDef) (constraint : IndexConstraint) :
    Result (List Row) := do
  let value ← evaluateExec .empty parameters constraint.value
  if constraint.operator = .eq ∧ value.isNull = false then
    liftEngine (engine.scanSecondary transaction index.id value)
  else liftEngine (engine.scanTable transaction table.table.id)

/-- The rows of a node are bounded. -/
def bounded (rows : List ExecRow) : Result (List ExecRow) := do
  ensureIntermediateBound rows
  return rows

def executePlan : PhysicalPlan → Result (List ExecRow)
  | .seqScan table => do
    let rows ← liftEngine (engine.scanTable transaction table.table.id)
    bounded (rows.map .plain)
  | .indexScan table index constraint => do
    let rows ← indexRows engine transaction parameters table index constraint
    bounded (rows.map .plain)
  | .filter input predicate => do
    let rows ← executePlan input
    let rows ← filterRows predicate parameters rows
    bounded rows
  | .join left right on algorithm => do
    let leftRows ← executePlan left
    let rightRows ← executePlan right
    let rows ← executeJoin right on algorithm parameters leftRows rightRows
    bounded rows
  | .hashAggregate input groupBy aggregates => do
    let rows ← executePlan input
    let rows ← aggregateRows parameters groupBy aggregates rows
    bounded rows
  | .sort input orderBy => do
    let rows ← executePlan input
    let rows ← sortRows orderBy parameters rows
    bounded rows
  | .limit input limit => do
    let rows ← executePlan input
    let rows ← limitRows limit parameters rows
    bounded rows
  | .project input expressions => do
    let rows ← executePlan input
    let rows ← projectRows expressions parameters rows
    bounded rows

end Plans

def primaryKeyColumn (table : TableDef) : Result Nat :=
  orFail (table.schema.columns.findIdx? fun column => column.primaryKey)
    (.invariant s!"table `{table.name}` has no primary key")

section Statements

variable (engine : Engine) (parameters : List Value)

/-- A statement without WHERE takes every row. -/
def selected (selection : Option BoundExpr) (row : ExecRow) : Result Bool :=
  match selection with
  | none => .ok true
  | some predicate => predicateExec row parameters predicate

/-- The assignments of an UPDATE, all evaluated on the row before it. -/
def assignRow (exec : ExecRow) (updated : Row) (assignment : Nat × BoundExpr) :
    Result Row := do
  let value ← evaluateExec exec parameters assignment.2
  failIf (updated.values.length ≤ assignment.1)
    (.invariant s!"UPDATE target column {assignment.1} is outside row")
  return ⟨updated.values.set assignment.1 value⟩

def rowKey (primaryKey : Nat) (row : Row) : Result Value :=
  orFail row.values[primaryKey]? (.invariant "primary-key slot is outside row")

/-- Update one row; the count goes up where there was one. -/
def updateRow (tableId primaryKey : Nat) (assignments : List (Nat × BoundExpr))
    (selection : Option BoundExpr) (state : Transaction × Nat) (original : Row) :
    Result (Transaction × Nat) := do
  let keep ← selected parameters selection (.plain original)
  if keep then
    let updated ← assignments.foldlM (assignRow parameters (.plain original)) original
    let key ← rowKey primaryKey original
    let (staged, found) ← liftEngine (engine.update state.1 tableId key updated)
    return (staged, if found then state.2 + 1 else state.2)
  else return state

def deleteRow (tableId primaryKey : Nat) (selection : Option BoundExpr) (state : Transaction × Nat)
    (row : Row) : Result (Transaction × Nat) := do
  let keep ← selected parameters selection (.plain row)
  if keep then
    let key ← rowKey primaryKey row
    let (staged, found) ← liftEngine (engine.delete state.1 tableId key)
    return (staged, if found then state.2 + 1 else state.2)
  else return state

/-- Run one statement in a transaction. -/
def executeBound (transaction : Transaction) (statement : BoundStatement)
    (physicalPlan : Option PhysicalPlan) : Result (Transaction × StatementOutput) :=
  match statement with
  | .createTable name schema => do
    let (staged, _) ← liftEngine (engine.createTable transaction name schema)
    return (staged, .mutation 0)
  | .createIndex name table columnIndex => do
    let (staged, _) ← liftEngine (engine.createIndex transaction name table.id columnIndex)
    return (staged, .mutation 0)
  | .insert table values => do
    let values ← values.mapM (evaluateExec .empty parameters)
    let staged ← liftEngine (engine.insert transaction table.id ⟨values⟩)
    return (staged, .mutation 1)
  | .update table assignments selection => do
    let rows ← liftEngine (engine.scanTable transaction table.id)
    let primaryKey ← primaryKeyColumn table
    let (staged, affectedRows) ← rows.foldlM
      (updateRow engine parameters table.id primaryKey assignments selection) (transaction, 0)
    return (staged, .mutation affectedRows)
  | .delete table selection => do
    let rows ← liftEngine (engine.scanTable transaction table.id)
    let primaryKey ← primaryKeyColumn table
    let (staged, affectedRows) ← rows.foldlM
      (deleteRow engine parameters table.id primaryKey selection) (transaction, 0)
    return (staged, .mutation affectedRows)
  | .query _ output => do
    let plan ← orFail physicalPlan (.invariant "query has no optimized physical plan")
    let rows ← executePlan engine transaction parameters plan
    failIf (maxResultRows < rows.length)
      (.resourceLimit s!"query produced {rows.length} rows; maximum is {maxResultRows}")
    return (transaction, .query (output.map NamedExpr.name) (rows.map ExecRow.row))
  | .explain _ => .error (.invariant "EXPLAIN must be handled before execution")
  | .transaction _ => .error (.invariant "transaction control must be handled by Database")

end Statements

def explainStatement (statement : BoundStatement) (physicalPlan : Option PhysicalPlan) :
    Result StatementOutput :=
  match statement with
  | .query _ _ => do
    let plan ← orFail physicalPlan (.invariant "EXPLAIN query has no physical plan")
    return .explain (explainPhysical plan)
  | .createTable name _ => .ok (.explain s!"CreateTable name={name}\n")
  | .createIndex name table _ => .ok (.explain s!"CreateIndex name={name} table={table.name}\n")
  | .insert table _ => .ok (.explain s!"Insert table={table.name}\n")
  | .update table _ _ => .ok (.explain s!"Update table={table.name}\n")
  | .delete table _ => .ok (.explain s!"Delete table={table.name}\n")
  | .explain _ | .transaction _ => .error (.invariant "invalid nested EXPLAIN target")

end AsterDatabase
