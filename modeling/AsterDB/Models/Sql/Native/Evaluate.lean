import AsterDB.Models.Sql.Native.Plan

/-!
# Expressions

The value of a bound expression on a row and parameters, in the three-valued logic
of SQL, and the check of parameters against what binding found out about them.
-/

namespace AsterSql

open AsterEngine (Value DataType Row)
open Fallible

inductive TruthValue where
  | false
  | true
  | unknown
  deriving DecidableEq

namespace TruthValue

def and : TruthValue → TruthValue → TruthValue
  | false, _ | _, false => false
  | true, true => true
  | _, _ => unknown

def or : TruthValue → TruthValue → TruthValue
  | true, _ | _, true => true
  | false, false => false
  | _, _ => unknown

def not : TruthValue → TruthValue
  | false => true
  | true => false
  | unknown => unknown

def intoValue : TruthValue → Value
  | false => .bool Bool.false
  | true => .bool Bool.true
  | unknown => .null

end TruthValue

structure EvaluationContext where
  row : Row
  parameters : List Value

def typeError (operation : String) (value : Value) (span : Span) : SqlError :=
  ⟨.type, s!"cannot {operation} {value.typeName}", span⟩

def ensureRuntimeType (value : Value) (expected : Option DataType) (span : Span) :
    Result Unit :=
  match expected, value.dataType with
  | some expected, some actual =>
    failIf (expected ≠ actual) ⟨.type, s!"expected {expected.display}, found {actual.display}",
      span⟩
  | _, _ => .ok ()

def truth (value : Value) (span : Span) : Result TruthValue :=
  match value with
  | .bool Bool.false => .ok .false
  | .bool Bool.true => .ok .true
  | .null => .ok .unknown
  | other => .error (typeError "use as a predicate" other span)

/-- What an ordering says about a comparison; the connectives are none. -/
def BinaryOp.holds : BinaryOp → Ordering → Bool
  | eq, ordering => ordering == .eq
  | notEq, ordering => ordering != .eq
  | lt, ordering => ordering == .lt
  | ltEq, ordering => ordering != .gt
  | gt, ordering => ordering == .gt
  | gtEq, ordering => ordering != .lt
  | and, _ | or, _ => false

def compareValues (left : Value) (operator : BinaryOp) (right : Value) (span : Span) :
    Result Value := do
  let ordering ← (left.checkedCmp right).mapError fun error => ⟨.type, error.display, span⟩
  return match ordering with
    | none => .null
    | some ordering => .bool (operator.holds ordering)

def negate (value : Value) (span : Span) : Result Value :=
  match value with
  | .null => .ok .null
  | .int64 value =>
    if value = Int64.minValue then .error ⟨.constraint, "INT64 negation overflow", span⟩
    else .ok (.int64 (-value))
  | other => .error (typeError "negate" other span)

def isNullValue (value : Value) (negated : Bool) : Value :=
  .bool (if negated then !value.isNull else value.isNull)

def evaluate (context : EvaluationContext) : BoundExpr → Result Value
  | .literal value _ => .ok value
  | .parameter index dataType span => do
    let value ← orFail context.parameters[index]?
      ⟨.constraint, s!"missing value for parameter ?{index + 1}", span⟩
    ensureRuntimeType value dataType span
    return value
  | .column column span => do
    let value ← orFail context.row.values[column.inputSlot]?
      ⟨.constraint,
        s!"row has no slot {column.inputSlot} for {column.tableAlias}.{column.column.name}", span⟩
    ensureRuntimeType value (some column.column.dataType) span
    return value
  | .unary .not expr span => do
    let value ← evaluate context expr
    let value ← truth value span
    return value.not.intoValue
  | .unary .negate expr span => do
    let value ← evaluate context expr
    negate value span
  | .binary left .and right span => do
    let left ← evaluate context left
    let left ← truth left span
    if left = .false then return .bool Bool.false
    else
      let right ← evaluate context right
      let right ← truth right span
      return (left.and right).intoValue
  | .binary left .or right span => do
    let left ← evaluate context left
    let left ← truth left span
    if left = .true then return .bool Bool.true
    else
      let right ← evaluate context right
      let right ← truth right span
      return (left.or right).intoValue
  | .binary left comparison right span => do
    let left ← evaluate context left
    let right ← evaluate context right
    compareValues left comparison right span
  | .isNull expr negated _ => do
    let value ← evaluate context expr
    return isNullValue value negated
  | .aggregateStar _ span | .aggregate _ _ span =>
    .error ⟨.unsupported, "aggregate expressions require an aggregate executor", span⟩

/-- WHERE keeps a row whose predicate is true; false and unknown both reject it. -/
def predicateMatches (context : EvaluationContext) (expression : BoundExpr) :
    Result Bool := do
  let value ← evaluate context expression
  let value ← truth value expression.span
  return value == .true

/-- One parameter is there, has the type that was inferred and is NULL only where it may be. -/
def validateParameter (values : List Value) (specification : ParameterSpec) :
    Result Unit := do
  let value ← orFail values[specification.index]?
    ⟨.constraint, s!"missing parameter ?{specification.index + 1}", .default⟩
  ensureRuntimeType value specification.dataType .default
  failIf (value.isNull = Bool.true ∧ specification.nullable = Bool.false)
    ⟨.constraint, s!"parameter ?{specification.index + 1} cannot be NULL", .default⟩

def validateParameters (specifications : List ParameterSpec) (values : List Value) :
    Result Unit := do
  failIf (specifications.length ≠ values.length)
    ⟨.constraint,
      s!"statement expects {specifications.length} parameters, received {values.length}", .default⟩
  specifications.forM (validateParameter values)

end AsterSql
