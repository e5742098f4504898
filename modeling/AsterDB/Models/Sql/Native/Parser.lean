import AsterDB.Models.Sql.Native.Lexer

/-!
# Parsing

A recursive descent over the tokens. The levels of expressions from the loosest are OR,
AND, NOT, one comparison or IS NULL, unary minus and the primary expressions. Each loop
and each descent consumes a token, so the number of tokens bounds them.
-/

namespace AsterSql

open AsterEngine (DataType)

structure Parser where
  tokens : List Token
  position : Nat
  nextParameter : Nat
  deriving DecidableEq

abbrev Parsing := StateT Parser (Result)

namespace Parser

/-- The token at a position; the last one ends every list of tokens. -/
def token (parser : Parser) (position : Nat) : Token :=
  parser.tokens.getD position ⟨.eof, .default⟩

def current : Parsing Token := fun parser => .ok (parser.token parser.position, parser)

def previous : Parsing Token := fun parser => .ok (parser.token (parser.position - 1), parser)

/-- The current token; the end is not passed. -/
def advance : Parsing Token := fun parser =>
  let token := parser.token parser.position
  .ok (token,
    if token.kind = .eof then parser else { parser with position := parser.position + 1 })

def consume (kind : TokenKind) : Parsing (Option Token) := do
  let token ← current
  if token.kind = kind then some <$> advance else return none

def consumeKeyword (keyword : Keyword) : Parsing (Option Token) := consume (.keyword keyword)

/-- A failure at the current token. -/
def fail {α : Type} (message : String) : Parsing α := do
  let token ← current
  throw ⟨.parse, message, token.span⟩

def unsupported {α : Type} (message : String) (span : Span) : Parsing α :=
  throw ⟨.unsupported, message, span⟩

def expect (kind : TokenKind) (message : String) : Parsing Token := do
  match ← consume kind with
  | some token => return token
  | none => fail message

/-- Each parameter takes the next number. -/
def parameter : Parsing Nat := fun parser =>
  .ok (parser.nextParameter, { parser with nextParameter := parser.nextParameter + 1 })

def expectIdentifier : Parsing Ident := do
  let token ← advance
  match token.kind with
  | .identifier value quoted => return ⟨value, quoted, token.span⟩
  | _ => throw ⟨.parse, "expected identifier", token.span⟩

def dataType : Parsing DataType := do
  let token ← advance
  match token.kind with
  | .keyword .int64 => return .int64
  | .keyword .bool => return .bool
  | .keyword .text => return .text
  | .keyword .bytes => return .bytes
  | _ => unsupported "v1 column types are INT64, BOOL, TEXT, and BYTES" token.span

/-- What stands for a parse whose fuel is used up, which is more than the tokens allow. -/
def exhausted {α : Type} : Parsing α := throw ⟨.parse, "", .default⟩

/-- Items separated by commas. -/
def commaSeparated {α : Type} (item : Parsing α) : Nat → Parsing (List α)
  | 0 => exhausted
  | fuel + 1 => do
    let first ← item
    match ← consume .comma with
    | some _ =>
      let rest ← commaSeparated item fuel
      return first :: rest
    | none => return [first]

variable [Unicode]

def expectKeyword (keyword : Keyword) : Parsing Token := do
  match ← consumeKeyword keyword with
  | some token => return token
  | none =>
    let token ← current
    fail ("expected keyword " ++ keyword.debug ++ ", found " ++ token.kind.debug)

section Expressions

/-- An optional clause behind its keyword. -/
def optionalClause {α : Type} (keyword : Keyword) (clause : Parsing α) : Parsing (Option α) := do
  match ← consumeKeyword keyword with
  | some _ => some <$> clause
  | none => return none

variable (expression : Parsing Expr)

def aggregateCall (function : AggregateFunction) (start : Span) : Parsing Expr := do
  let _ ← expect .leftParen "expected `(` after aggregate"
  match ← consume .star with
  | some star =>
    if function = .count then
      let right ← expect .rightParen "expected `)` after aggregate"
      return .aggregateStar function (start.join right.span)
    else throw ⟨.type, "only COUNT accepts `*`", star.span⟩
  | none =>
    let argument ← expression
    let right ← expect .rightParen "expected `)` after aggregate"
    return .aggregate function argument (start.join right.span)

/-- A column behind its first name. -/
def columnReference (first : Ident) : Parsing Expr := do
  let token ← current
  if token.kind = .leftParen then
    unsupported ("scalar function `" ++ first.display ++ "` is not supported") first.span
  else
    match ← consume .dot with
    | some _ =>
      let name ← expectIdentifier
      return .column (some first) name (first.span.join name.span)
    | none => return .column none first first.span

def primaryExpression : Parsing Expr := do
  let token ← advance
  match token.kind with
  | .literal value => return .literal value token.span
  | .keyword .null => return .literal .null token.span
  | .keyword .true => return .literal (.bool true) token.span
  | .keyword .false => return .literal (.bool false) token.span
  | .parameter =>
    let index ← parameter
    return .parameter index token.span
  | .leftParen =>
    let inner ← expression
    let right ← expect .rightParen "expected `)`"
    return inner.withSpan (token.span.join right.span)
  | .keyword .count => aggregateCall expression .count token.span
  | .keyword .sum => aggregateCall expression .sum token.span
  | .keyword .min => aggregateCall expression .min token.span
  | .keyword .max => aggregateCall expression .max token.span
  | .identifier value quoted => columnReference ⟨value, quoted, token.span⟩
  | other => throw ⟨.parse, "expected expression, found " ++ other.debug, token.span⟩

def unaryExpression : Nat → Parsing Expr
  | 0 => exhausted
  | fuel + 1 => do
    match ← consume .minus with
    | some minus =>
      let expr ← unaryExpression fuel
      return .unary .negate expr (minus.span.join expr.span)
    | none => primaryExpression expression

def comparisonOperator : TokenKind → Option BinaryOp
  | .eq => some .eq
  | .notEq => some .notEq
  | .lt => some .lt
  | .ltEq => some .ltEq
  | .gt => some .gt
  | .gtEq => some .gtEq
  | _ => none

def isNullExpression (expr : Expr) : Parsing Expr := do
  let negated ← consumeKeyword .not
  let null ← expectKeyword .null
  return .isNull expr negated.isSome (expr.span.join null.span)

def comparisonExpression (fuel : Nat) : Parsing Expr := do
  let expr ← unaryExpression expression fuel
  match ← consumeKeyword .is with
  | some _ => isNullExpression expr
  | none =>
    let token ← current
    match comparisonOperator token.kind with
    | none => return expr
    | some op =>
      let _ ← advance
      let right ← unaryExpression expression fuel
      let next ← current
      -- comparisons do not associate
      match comparisonOperator next.kind with
      | some _ => fail "chained comparisons are unsupported; combine predicates with AND or OR"
      | none => return .binary expr op right (expr.span.join right.span)

def notExpression (fuel : Nat) : Nat → Parsing Expr
  | 0 => exhausted
  | depth + 1 => do
    match ← consumeKeyword .not with
    | some not =>
      let expr ← notExpression fuel depth
      return .unary .not expr (not.span.join expr.span)
    | none => comparisonExpression expression fuel

/-- Operands joined by a connective, from the left. -/
def connected (keyword : Keyword) (op : BinaryOp) (operand : Parsing Expr) :
    Nat → Expr → Parsing Expr
  | 0, _ => exhausted
  | fuel + 1, expr => do
    match ← consumeKeyword keyword with
    | some _ =>
      let right ← operand
      connected keyword op operand fuel (.binary expr op right (expr.span.join right.span))
    | none => return expr

def andExpression (fuel : Nat) : Parsing Expr := do
  let expr ← notExpression expression fuel fuel
  connected .and .and (notExpression expression fuel fuel) fuel expr

def orExpression (fuel : Nat) : Parsing Expr := do
  let expr ← andExpression expression fuel
  connected .or .or (andExpression expression fuel) fuel expr

end Expressions

def expression : Nat → Parsing Expr
  | 0 => exhausted
  | fuel + 1 => orExpression (expression fuel) (fuel + 1)

/-- The clauses behind the type of a column: whether it is nullable and whether it is the key. -/
def columnClauses (nullable primaryKey sawNullability : Bool) : Nat → Parsing (Bool × Bool)
  | 0 => exhausted
  | fuel + 1 => do
    match ← consumeKeyword .primary with
    | some _ =>
      if primaryKey then fail "duplicate PRIMARY KEY clause"
      else
        let _ ← expectKeyword .key
        columnClauses false true sawNullability fuel
    | none =>
      match ← consumeKeyword .not with
      | some _ =>
        if sawNullability then fail "duplicate NULL/NOT NULL clause"
        else
          let _ ← expectKeyword .null
          columnClauses false primaryKey true fuel
      | none =>
        match ← consumeKeyword .null with
        | some _ =>
          if sawNullability || primaryKey then fail "invalid or duplicate NULL clause"
          else columnClauses true primaryKey true fuel
        | none => return (nullable, primaryKey)

def columnDefinition (fuel : Nat) : Parsing ColumnDef := do
  let start ← current
  let name ← expectIdentifier
  let dataType ← dataType
  let (nullable, primaryKey) ← columnClauses true false false fuel
  let last ← previous
  return { name, dataType, nullable, primaryKey, span := start.span.join last.span }

def createTable (fuel : Nat) : Parsing Statement := do
  let name ← expectIdentifier
  let _ ← expect .leftParen "expected `(` after table name"
  let columns ← commaSeparated (columnDefinition fuel) fuel
  let _ ← expect .rightParen "expected `)` after column definitions"
  return .createTable { name, columns }

def createIndex : Parsing Statement := do
  let name ← expectIdentifier
  let _ ← expectKeyword .on
  let table ← expectIdentifier
  let _ ← expect .leftParen "expected `(` before indexed column"
  let column ← expectIdentifier
  match ← consume .comma with
  | some comma => unsupported "multi-column indexes are not part of the v1 SQL subset" comma.span
  | none =>
    let _ ← expect .rightParen "expected `)` after indexed column"
    return .createIndex { name, table, column }

def create (fuel : Nat) : Parsing Statement := do
  let _ ← expectKeyword .create
  match ← consumeKeyword .unique with
  | some unique => unsupported "UNIQUE indexes are not part of the v1 SQL subset" unique.span
  | none =>
    match ← consumeKeyword .table with
    | some _ => createTable fuel
    | none =>
      match ← consumeKeyword .index with
      | some _ => createIndex
      | none => fail "expected TABLE or INDEX after CREATE"

/-- The columns an INSERT names. -/
def insertColumns (fuel : Nat) : Parsing (Option (List Ident)) := do
  match ← consume .leftParen with
  | some _ =>
    let names ← commaSeparated expectIdentifier fuel
    let _ ← expect .rightParen "expected `)` after insert columns"
    return some names
  | none => return none

def insert (fuel : Nat) : Parsing Statement := do
  let _ ← expectKeyword .insert
  let _ ← expectKeyword .into
  let table ← expectIdentifier
  let columns ← insertColumns fuel
  let _ ← expectKeyword .values
  let _ ← expect .leftParen "expected `(` after VALUES"
  let values ← commaSeparated (expression fuel) fuel
  let _ ← expect .rightParen "expected `)` after inserted values"
  let token ← current
  if token.kind = .comma then
    unsupported "multi-row INSERT is not part of the v1 SQL subset" token.span
  else return .insert { table, columns, values }

def assignment (fuel : Nat) : Parsing Assignment := do
  let column ← expectIdentifier
  let _ ← expect .eq "expected `=` in assignment"
  let value ← expression fuel
  return { column, value }

def update (fuel : Nat) : Parsing Statement := do
  let _ ← expectKeyword .update
  let table ← expectIdentifier
  let _ ← expectKeyword .set
  let assignments ← commaSeparated (assignment fuel) fuel
  let selection ← optionalClause .«where» (expression fuel)
  return .update { table, assignments, selection }

def delete (fuel : Nat) : Parsing Statement := do
  let _ ← expectKeyword .delete
  let _ ← expectKeyword .«from»
  let table ← expectIdentifier
  let selection ← optionalClause .«where» (expression fuel)
  return .delete { table, selection }

def selectItem (fuel : Nat) : Parsing SelectItem := do
  match ← consume .star with
  | some star => return .wildcard star.span
  | none =>
    let expr ← expression fuel
    let aliasName ← optionalClause .as expectIdentifier
    return .expr expr aliasName

/-- An alias may stand without AS. -/
def tableAlias : Parsing (Option Ident) := do
  match ← consumeKeyword .as with
  | some _ => some <$> expectIdentifier
  | none =>
    let token ← current
    match token.kind with
    | .identifier _ _ => some <$> expectIdentifier
    | _ => return none

def tableSource : Parsing TableSource := do
  let name ← expectIdentifier
  let aliasName ← tableAlias
  let last := (aliasName.map Ident.span).getD name.span
  return { name, aliasName, span := name.span.join last }

/-- The span of the keyword that starts a join, if one does. -/
def joinStart : Parsing (Option Span) := do
  match ← consumeKeyword .inner with
  | some inner =>
    let _ ← expectKeyword .join
    return some inner.span
  | none =>
    let join ← consumeKeyword .join
    return join.map Token.span

def joins (expression : Parsing Expr) : Nat → Parsing (List Join)
  | 0 => exhausted
  | fuel + 1 => do
    match ← joinStart with
    | none => return []
    | some start =>
      let right ← tableSource
      let _ ← expectKeyword .on
      let on ← expression
      let rest ← joins expression fuel
      return { right, on, span := start.join on.span } :: rest

def orderDirection : Parsing OrderDirection := do
  match ← consumeKeyword .desc with
  | some _ => return .desc
  | none =>
    let _ ← consumeKeyword .asc
    return .asc

def orderItem (fuel : Nat) : Parsing OrderBy := do
  let expr ← expression fuel
  let direction ← orderDirection
  return { expr, direction }

/-- The items behind BY. -/
def byItems {α : Type} (fuel : Nat) (item : Parsing α) : Parsing (List α) := do
  let _ ← expectKeyword .«by»
  commaSeparated item fuel

def select (fuel : Nat) : Parsing Select := do
  let _ ← expectKeyword .select
  let projection ← commaSeparated (selectItem fuel) fuel
  let _ ← expectKeyword .«from»
  let source ← tableSource
  let joins ← joins (expression fuel) fuel
  let selection ← optionalClause .«where» (expression fuel)
  let groupBy ← optionalClause .group (byItems fuel (expression fuel))
  let orderBy ← optionalClause .order (byItems fuel (orderItem fuel))
  let limit ← optionalClause .limit (expression fuel)
  return { projection, source, joins, selection, groupBy := groupBy.getD []
           orderBy := orderBy.getD [], limit }

/-- A statement of one keyword, with an optional TRANSACTION behind it. -/
def control (statement : Statement) : Parsing Statement := do
  let _ ← advance
  let _ ← consumeKeyword .transaction
  return statement

def isExplain : Statement → Bool
  | .explain .. => true
  | _ => false

def explain (statement : Parsing (Spanned Statement)) : Parsing Statement := do
  let _ ← advance
  let inner ← statement
  if isExplain inner.value then unsupported "nested EXPLAIN is not supported" inner.span
  else return .explain inner.value inner.span

def statement : Nat → Parsing (Spanned Statement)
  | 0 => exhausted
  | fuel + 1 => do
    let start ← current
    let value ← match start.kind with
      | .keyword .create => create fuel
      | .keyword .insert => insert fuel
      | .keyword .update => update fuel
      | .keyword .delete => delete fuel
      | .keyword .select => .select <$> select fuel
      | .keyword .begin => control .begin
      | .keyword .commit => control .commit
      | .keyword .rollback => control .rollback
      | .keyword .explain => explain (statement fuel)
      | other => unsupported ("unsupported statement beginning with " ++ other.debug) start.span
    let last ← previous
    return ⟨value, start.span.join last.span⟩

/-- Parameters are numbered anew for each statement. -/
def restartParameters : Parsing Unit := fun parser => .ok ((), { parser with nextParameter := 0 })

def statements (fuel : Nat) : Nat → Parsing (List (Spanned Statement))
  | 0 => exhausted
  | count + 1 => do
    let token ← current
    if token.kind = .eof then return []
    else
      match ← consume .semicolon with
      | some _ => statements fuel count
      | none =>
        restartParameters
        let first ← statement fuel
        let separator ← consume .semicolon
        let next ← current
        if separator.isNone && next.kind != .eof then fail "expected `;` between statements"
        else
          let rest ← statements fuel count
          return first :: rest

end Parser

def parseStatements [Unicode] (source : String) : Result (List (Spanned Statement)) := do
  let tokens ← lex source
  let fuel := tokens.length + 1
  let (statements, _) ← (Parser.statements fuel fuel).run ⟨tokens, 0, 0⟩
  if statements = [] then
    .error ⟨.parse, "SQL input contains no statement", ⟨0, source.utf8ByteSize⟩⟩
  else return statements

def parseStatement [Unicode] (source : String) : Result (Spanned Statement) := do
  match ← parseStatements source with
  | [statement] => return statement
  | statements =>
    .error ⟨.parse, s!"expected exactly one statement, found {statements.length}",
      ⟨0, source.utf8ByteSize⟩⟩

end AsterSql
