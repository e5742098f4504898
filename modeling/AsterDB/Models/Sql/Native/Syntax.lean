import AsterDB.Models.Engine.Native.Value

/-!
# SQL syntax

Statements as the parser builds them, the diagnostics of the front end, and the
catalog that names are looked up in. Every node of an expression carries its span,
the half-open range of bytes it was written in.
-/

namespace AsterSql

open AsterEngine (Value DataType Schema)

structure Span where
  start : Nat
  stop : Nat
  deriving DecidableEq

namespace Span

/-- The range of what has no place in the source. -/
def default : Span := ⟨0, 0⟩

def join (left right : Span) : Span := ⟨left.start, right.stop⟩

end Span

structure Spanned (α : Type) where
  value : α
  span : Span
  deriving DecidableEq

inductive SqlErrorKind where
  | lex
  | parse
  | bind
  | type
  | constraint
  | unsupported
  deriving DecidableEq

structure SqlError where
  kind : SqlErrorKind
  message : String
  span : Span
  deriving DecidableEq

/-- The results of the crate. -/
abbrev Result : Type → Type := Except SqlError

/-- A name; unless it was quoted, its case does not count. -/
structure Ident where
  value : String
  quoted : Bool
  span : Span
  deriving DecidableEq

namespace Ident

def matchesName (name : Ident) (candidate : String) : Bool :=
  if name.quoted then name.value == candidate
  else AsterEngine.eqIgnoreAsciiCase name.value candidate

def display (name : Ident) : String :=
  if name.quoted then "\"" ++ name.value.replace "\"" "\"\"" ++ "\"" else name.value

end Ident

inductive UnaryOp where
  | not
  | negate
  deriving DecidableEq

inductive BinaryOp where
  | or
  | and
  | eq
  | notEq
  | lt
  | ltEq
  | gt
  | gtEq
  deriving DecidableEq

def BinaryOp.isComparison : BinaryOp → Bool
  | or | and => false
  | _ => true

inductive AggregateFunction where
  | count
  | sum
  | min
  | max
  deriving DecidableEq

inductive Expr where
  | literal (value : Value) (span : Span)
  | parameter (index : Nat) (span : Span)
  | column (qualifier : Option Ident) (name : Ident) (span : Span)
  | unary (op : UnaryOp) (expr : Expr) (span : Span)
  | binary (left : Expr) (op : BinaryOp) (right : Expr) (span : Span)
  | isNull (expr : Expr) (negated : Bool) (span : Span)
  | aggregateStar (function : AggregateFunction) (span : Span)
  | aggregate (function : AggregateFunction) (argument : Expr) (span : Span)
  deriving DecidableEq

namespace Expr

def span : Expr → Span
  | literal _ span | parameter _ span | column _ _ span | unary _ _ span | binary _ _ _ span
  | isNull _ _ span | aggregateStar _ span | aggregate _ _ span => span

/-- The same expression in another place, as parentheses put it. -/
def withSpan (expr : Expr) (span : Span) : Expr :=
  match expr with
  | literal value _ => literal value span
  | parameter index _ => parameter index span
  | column qualifier name _ => column qualifier name span
  | unary op expr _ => unary op expr span
  | binary left op right _ => binary left op right span
  | isNull expr negated _ => isNull expr negated span
  | aggregateStar function _ => aggregateStar function span
  | aggregate function argument _ => aggregate function argument span

def containsAggregate : Expr → Bool
  | aggregateStar .. | aggregate .. => true
  | unary _ expr _ | isNull expr _ _ => expr.containsAggregate
  | binary left _ right _ => left.containsAggregate || right.containsAggregate
  | literal .. | parameter .. | column .. => false

end Expr

structure ColumnDef where
  name : Ident
  dataType : DataType
  nullable : Bool
  primaryKey : Bool
  span : Span
  deriving DecidableEq

structure CreateTable where
  name : Ident
  columns : List ColumnDef
  deriving DecidableEq

structure CreateIndex where
  name : Ident
  table : Ident
  column : Ident
  deriving DecidableEq

structure Insert where
  table : Ident
  columns : Option (List Ident)
  values : List Expr
  deriving DecidableEq

structure Assignment where
  column : Ident
  value : Expr
  deriving DecidableEq

structure Update where
  table : Ident
  assignments : List Assignment
  selection : Option Expr
  deriving DecidableEq

structure Delete where
  table : Ident
  selection : Option Expr
  deriving DecidableEq

inductive SelectItem where
  | wildcard (span : Span)
  | expr (expr : Expr) (aliasName : Option Ident)
  deriving DecidableEq

structure TableSource where
  name : Ident
  aliasName : Option Ident
  span : Span
  deriving DecidableEq

structure Join where
  right : TableSource
  on : Expr
  span : Span
  deriving DecidableEq

inductive OrderDirection where
  | asc
  | desc
  deriving DecidableEq

structure OrderBy where
  expr : Expr
  direction : OrderDirection
  deriving DecidableEq

structure Select where
  projection : List SelectItem
  source : TableSource
  joins : List Join
  selection : Option Expr
  groupBy : List Expr
  orderBy : List OrderBy
  limit : Option Expr
  deriving DecidableEq

inductive Statement where
  | createTable (create : CreateTable)
  | createIndex (create : CreateIndex)
  | insert (insert : Insert)
  | update (update : Update)
  | delete (delete : Delete)
  | select (select : Select)
  | begin
  | commit
  | rollback
  | explain (inner : Statement) (span : Span)
  deriving DecidableEq

structure TableDef where
  id : Nat
  name : String
  schema : Schema
  deriving DecidableEq

structure IndexDef where
  id : Nat
  name : String
  tableId : Nat
  columnIndex : Nat
  deriving DecidableEq

/-- What analysis and planning ask of a catalog. -/
structure Catalog where
  resolveTable : Ident → Option TableDef
  resolveIndex : Ident → Option IndexDef
  indexesForTable : Nat → List IndexDef

end AsterSql
