import AsterDB.Models.Sql.Native.Syntax

/-!
# Plans

Bound expressions and statements, logical plans, and the physical plans that the
planner makes of them. The planner looks for one conjunct of a filter that compares
a column with a constant and for an index of that column; the whole predicate stays
above the access path.
-/

namespace AsterSql

open AsterEngine (Value DataType Column Schema)

/-- The type of an expression; there is none for NULL and for a parameter not inferred yet. -/
structure SqlType where
  dataType : Option DataType
  nullable : Bool
  deriving DecidableEq

namespace SqlType

def known (dataType : DataType) (nullable : Bool) : SqlType := ⟨some dataType, nullable⟩

end SqlType

structure ParameterSpec where
  index : Nat
  dataType : Option DataType
  nullable : Bool
  deriving DecidableEq

/-- A table of a query; its columns take the input slots from an offset on. -/
structure BoundTable where
  table : TableDef
  aliasName : String
  slotOffset : Nat
  deriving DecidableEq

structure BoundColumn where
  tableId : Nat
  tableName : String
  tableAlias : String
  columnIndex : Nat
  inputSlot : Nat
  column : Column
  deriving DecidableEq

inductive BoundExpr where
  | literal (value : Value) (span : Span)
  | parameter (index : Nat) (dataType : Option DataType) (span : Span)
  | column (column : BoundColumn) (span : Span)
  | unary (op : UnaryOp) (expr : BoundExpr) (span : Span)
  | binary (left : BoundExpr) (op : BinaryOp) (right : BoundExpr) (span : Span)
  | isNull (expr : BoundExpr) (negated : Bool) (span : Span)
  | aggregateStar (function : AggregateFunction) (span : Span)
  | aggregate (function : AggregateFunction) (argument : BoundExpr) (span : Span)
  deriving DecidableEq

namespace BoundExpr

def span : BoundExpr → Span
  | literal _ span | parameter _ _ span | column _ span | unary _ _ span | binary _ _ _ span
  | isNull _ _ span | aggregateStar _ span | aggregate _ _ span => span

def withSpan (expr : BoundExpr) (span : Span) : BoundExpr :=
  match expr with
  | literal value _ => literal value span
  | parameter index dataType _ => parameter index dataType span
  | column bound _ => column bound span
  | unary op expr _ => unary op expr span
  | binary left op right _ => binary left op right span
  | isNull expr negated _ => isNull expr negated span
  | aggregateStar function _ => aggregateStar function span
  | aggregate function argument _ => aggregate function argument span

def sqlType : BoundExpr → SqlType
  | literal value _ => ⟨value.dataType, value.isNull⟩
  | parameter _ dataType _ => ⟨dataType, true⟩
  | column bound _ => .known bound.column.dataType bound.column.nullable
  | unary .not expr _ => .known .bool expr.sqlType.nullable
  | unary .negate expr _ => .known .int64 expr.sqlType.nullable
  | binary left _ right _ => .known .bool (left.sqlType.nullable || right.sqlType.nullable)
  | isNull _ _ _ => .known .bool false
  | aggregateStar .count _ | aggregate .count _ _ => .known .int64 false
  | aggregateStar .sum _ | aggregate .sum _ _ => .known .int64 true
  | aggregateStar .min _ | aggregateStar .max _ => ⟨none, true⟩
  | aggregate .min argument _ | aggregate .max argument _ => ⟨argument.sqlType.dataType, true⟩

/-- An aggregate call occurs; the argument of one is not looked at. -/
def containsAggregate : BoundExpr → Bool
  | aggregateStar .. | aggregate .. => true
  | unary _ expr _ | isNull expr _ _ => expr.containsAggregate
  | binary left _ right _ => left.containsAggregate || right.containsAggregate
  | literal .. | parameter .. | column .. => false

/-- Equality up to spans; a column counts by its table and position, not by its alias. -/
def sameExpression : BoundExpr → BoundExpr → Bool
  | literal left _, literal right _ => left == right
  | parameter left _ _, parameter right _ _ => left == right
  | column left _, column right _ =>
    left.tableId == right.tableId && left.columnIndex == right.columnIndex
  | unary leftOp left _, unary rightOp right _ => leftOp == rightOp && sameExpression left right
  | binary leftA leftOp leftB _, binary rightA rightOp rightB _ =>
    leftOp == rightOp && sameExpression leftA rightA && sameExpression leftB rightB
  | isNull left leftNegated _, isNull right rightNegated _ =>
    leftNegated == rightNegated && sameExpression left right
  | aggregateStar left _, aggregateStar right _ => left == right
  | aggregate leftFunction left _, aggregate rightFunction right _ =>
    leftFunction == rightFunction && sameExpression left right
  | _, _ => false

end BoundExpr

structure NamedExpr where
  expr : BoundExpr
  name : String
  deriving DecidableEq

structure BoundOrder where
  expr : BoundExpr
  direction : OrderDirection
  deriving DecidableEq

inductive LogicalPlan where
  | scan (table : BoundTable)
  | filter (input : LogicalPlan) (predicate : BoundExpr)
  | join (left right : LogicalPlan) (on : BoundExpr)
  | aggregate (input : LogicalPlan) (groupBy aggregates : List BoundExpr)
  | sort (input : LogicalPlan) (orderBy : List BoundOrder)
  | limit (input : LogicalPlan) (limit : BoundExpr)
  | project (input : LogicalPlan) (expressions : List NamedExpr)
  deriving DecidableEq

inductive TransactionStatement where
  | begin
  | commit
  | rollback
  deriving DecidableEq

inductive BoundStatement where
  | createTable (name : String) (schema : Schema)
  | createIndex (name : String) (table : TableDef) (columnIndex : Nat)
  | insert (table : TableDef) (values : List BoundExpr)
  | update (table : TableDef) (assignments : List (Nat × BoundExpr)) (selection : Option BoundExpr)
  | delete (table : TableDef) (selection : Option BoundExpr)
  | query (plan : LogicalPlan) (output : List NamedExpr)
  | transaction (statement : TransactionStatement)
  | explain (inner : BoundStatement)
  deriving DecidableEq

structure IndexConstraint where
  columnIndex : Nat
  operator : BinaryOp
  value : BoundExpr
  deriving DecidableEq

inductive JoinAlgorithm where
  | nestedLoop
  | hash
  | indexNestedLoop (innerIndexId innerColumnIndex : Nat)
  deriving DecidableEq

inductive PhysicalPlan where
  | seqScan (table : BoundTable)
  | indexScan (table : BoundTable) (index : IndexDef) (constraint : IndexConstraint)
  | filter (input : PhysicalPlan) (predicate : BoundExpr)
  | join (left right : PhysicalPlan) (on : BoundExpr) (algorithm : JoinAlgorithm)
  | hashAggregate (input : PhysicalPlan) (groupBy aggregates : List BoundExpr)
  | sort (input : PhysicalPlan) (orderBy : List BoundOrder)
  | limit (input : PhysicalPlan) (limit : BoundExpr)
  | project (input : PhysicalPlan) (expressions : List NamedExpr)
  deriving DecidableEq

def reverseComparison : BinaryOp → BinaryOp
  | .lt => .gt
  | .ltEq => .gtEq
  | .gt => .lt
  | .gtEq => .ltEq
  | other => other

/-- A comparison of a column with a literal that is not NULL or with a parameter. -/
def sargable : BoundExpr → Option (BoundColumn × BinaryOp × BoundExpr)
  | .binary left op right _ =>
    if op.isComparison then
      match left, right with
      | .column column _, .literal value _ =>
        if value.isNull then none else some (column, op, right)
      | .column column _, .parameter .. => some (column, op, right)
      | .literal value _, .column column _ =>
        if value.isNull then none else some (column, reverseComparison op, left)
      | .parameter .., .column column _ => some (column, reverseComparison op, left)
      | _, _ => none
    else none
  | _ => none

/-- The index of a sargable comparison. -/
def indexOf (catalog : Catalog) (table : BoundTable) (predicate : BoundExpr) :
    Option (IndexDef × IndexConstraint) := do
  let (column, operator, value) ← sargable predicate
  if column.tableId = table.table.id then
    let index ← (catalog.indexesForTable table.table.id).find? fun candidate =>
      candidate.columnIndex == column.columnIndex
    return (index, { columnIndex := column.columnIndex, operator, value })
  else none

/-- The first conjunct that an index serves. -/
def chooseIndex (catalog : Catalog) (table : BoundTable) :
    BoundExpr → Option (IndexDef × IndexConstraint)
  | .binary left .and right _ => chooseIndex catalog table left <|> chooseIndex catalog table right
  | predicate => indexOf catalog table predicate

def chooseJoinAlgorithm (catalog : Catalog) (right : LogicalPlan) : BoundExpr → JoinAlgorithm
  | .binary (.column leftColumn _) .eq (.column rightColumn _) _ =>
    match right with
    | .scan inner =>
      let innerColumn :=
        if rightColumn.tableId = inner.table.id then some rightColumn
        else if leftColumn.tableId = inner.table.id then some leftColumn
        else none
      match innerColumn.bind fun column =>
          ((catalog.indexesForTable inner.table.id).find? fun index =>
            index.columnIndex == column.columnIndex).map (·.id, column.columnIndex) with
      | some (indexId, columnIndex) => .indexNestedLoop indexId columnIndex
      | none => .hash
    | _ => .hash
  | _ => .nestedLoop

def optimize (catalog : Catalog) : LogicalPlan → PhysicalPlan
  | .scan table => .seqScan table
  | .filter (.scan table) predicate =>
    match chooseIndex catalog table predicate with
    | some (index, constraint) => .filter (.indexScan table index constraint) predicate
    | none => .filter (.seqScan table) predicate
  | .filter input predicate => .filter (optimize catalog input) predicate
  | .join left right on =>
    .join (optimize catalog left) (optimize catalog right) on (chooseJoinAlgorithm catalog right on)
  | .aggregate input groupBy aggregates =>
    .hashAggregate (optimize catalog input) groupBy aggregates
  | .sort input orderBy => .sort (optimize catalog input) orderBy
  | .limit input limit => .limit (optimize catalog input) limit
  | .project input expressions => .project (optimize catalog input) expressions

def JoinAlgorithm.debug : JoinAlgorithm → String
  | nestedLoop => "NestedLoop"
  | hash => "Hash"
  | indexNestedLoop innerIndexId innerColumnIndex =>
    s!"IndexNestedLoop \x7b inner_index_id: {innerIndexId}, " ++
      s!"inner_column_index: {innerColumnIndex} \x7d"

/-- One line a node, inputs indented. -/
def explainNode (depth : Nat) : PhysicalPlan → String
  | .seqScan table => indent depth ++ s!"SeqScan table={table.table.name}\n"
  | .indexScan table index _ =>
    indent depth ++ s!"IndexScan table={table.table.name} index={index.name}\n"
  | .filter input _ => indent depth ++ "Filter\n" ++ explainNode (depth + 1) input
  | .join left right _ algorithm =>
    indent depth ++ s!"Join algorithm={algorithm.debug}\n" ++ explainNode (depth + 1) left ++
      explainNode (depth + 1) right
  | .hashAggregate input _ _ => indent depth ++ "HashAggregate\n" ++ explainNode (depth + 1) input
  | .sort input _ => indent depth ++ "Sort\n" ++ explainNode (depth + 1) input
  | .limit input _ => indent depth ++ "Limit\n" ++ explainNode (depth + 1) input
  | .project input _ => indent depth ++ "Project\n" ++ explainNode (depth + 1) input
where
  indent (depth : Nat) : String := String.ofList (List.replicate (2 * depth) ' ')

def explainPhysical (plan : PhysicalPlan) : String := explainNode 0 plan

end AsterSql
