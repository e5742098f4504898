import AsterDB.Models.Sql.Native.Syntax

/-!
# Tokens

The lexer goes over the characters of a source and keeps the number of bytes it has
consumed, so that spans are byte ranges. Which characters count as white space and as
letters, and how text is shown in diagnostics, is given by Unicode.
-/

namespace AsterSql

open AsterRaft (Bytes)
open AsterEngine (Value)

/-- The character classes, and the form of text in diagnostics. -/
class Unicode where
  isWhitespace : Char → Bool
  isAlphabetic : Char → Bool
  isAlphanumeric : Char → Bool
  debugText : String → String

/-- The classes of ASCII text. -/
@[reducible] def asciiText : Unicode where
  isWhitespace := Char.isWhitespace
  isAlphabetic := Char.isAlpha
  isAlphanumeric := Char.isAlphanum
  debugText text := text

inductive Keyword where
  | and
  | as
  | asc
  | begin
  | bool
  | «by»
  | commit
  | count
  | create
  | delete
  | desc
  | explain
  | false
  | «from»
  | group
  | index
  | inner
  | insert
  | int64
  | into
  | is
  | join
  | key
  | limit
  | max
  | min
  | not
  | null
  | on
  | or
  | order
  | primary
  | rollback
  | select
  | set
  | sum
  | table
  | text
  | transaction
  | true
  | unique
  | update
  | values
  | «where»
  | bytes
  deriving DecidableEq

namespace Keyword

def fromIdentifier (value : String) : Option Keyword :=
  match value.toUpper with
  | "AND" => some .and
  | "AS" => some .as
  | "ASC" => some .asc
  | "BEGIN" => some .begin
  | "BOOL" => some .bool
  | "BY" => some .«by»
  | "COMMIT" => some .commit
  | "COUNT" => some .count
  | "CREATE" => some .create
  | "DELETE" => some .delete
  | "DESC" => some .desc
  | "EXPLAIN" => some .explain
  | "FALSE" => some .false
  | "FROM" => some .«from»
  | "GROUP" => some .group
  | "INDEX" => some .index
  | "INNER" => some .inner
  | "INSERT" => some .insert
  | "INT64" => some .int64
  | "INTO" => some .into
  | "IS" => some .is
  | "JOIN" => some .join
  | "KEY" => some .key
  | "LIMIT" => some .limit
  | "MAX" => some .max
  | "MIN" => some .min
  | "NOT" => some .not
  | "NULL" => some .null
  | "ON" => some .on
  | "OR" => some .or
  | "ORDER" => some .order
  | "PRIMARY" => some .primary
  | "ROLLBACK" => some .rollback
  | "SELECT" => some .select
  | "SET" => some .set
  | "SUM" => some .sum
  | "TABLE" => some .table
  | "TEXT" => some .text
  | "TRANSACTION" => some .transaction
  | "TRUE" => some .true
  | "UNIQUE" => some .unique
  | "UPDATE" => some .update
  | "VALUES" => some .values
  | "WHERE" => some .«where»
  | "BYTES" => some .bytes
  | _ => none

def debug : Keyword → String
  | .and => "And"
  | as => "As"
  | asc => "Asc"
  | begin => "Begin"
  | bool => "Bool"
  | «by» => "By"
  | commit => "Commit"
  | count => "Count"
  | create => "Create"
  | delete => "Delete"
  | desc => "Desc"
  | explain => "Explain"
  | .false => "False"
  | «from» => "From"
  | group => "Group"
  | index => "Index"
  | inner => "Inner"
  | insert => "Insert"
  | int64 => "Int64"
  | into => "Into"
  | is => "Is"
  | join => "Join"
  | key => "Key"
  | limit => "Limit"
  | .max => "Max"
  | .min => "Min"
  | .not => "Not"
  | null => "Null"
  | on => "On"
  | .or => "Or"
  | order => "Order"
  | primary => "Primary"
  | rollback => "Rollback"
  | select => "Select"
  | set => "Set"
  | sum => "Sum"
  | table => "Table"
  | text => "Text"
  | transaction => "Transaction"
  | .true => "True"
  | unique => "Unique"
  | update => "Update"
  | values => "Values"
  | «where» => "Where"
  | bytes => "Bytes"

end Keyword

inductive TokenKind where
  | identifier (value : String) (quoted : Bool)
  | keyword (keyword : Keyword)
  | literal (value : Value)
  | parameter
  | leftParen
  | rightParen
  | comma
  | dot
  | star
  | semicolon
  | eq
  | notEq
  | lt
  | ltEq
  | gt
  | gtEq
  | minus
  | eof
  deriving DecidableEq

structure Token where
  kind : TokenKind
  span : Span
  deriving DecidableEq

section Diagnostics

variable [Unicode]

def debugValue : Value → String
  | .null => "Null"
  | .int64 value => s!"Int64({value})"
  | .bool value => s!"Bool({value})"
  | .text value => "Text(" ++ Unicode.debugText value ++ ")"
  | .bytes value => "Bytes([" ++ ", ".intercalate (value.map toString) ++ "])"

def TokenKind.debug : TokenKind → String
  | identifier value quoted =>
    "Identifier \x7b value: " ++ Unicode.debugText value ++ s!", quoted: {quoted} \x7d"
  | keyword word => "Keyword(" ++ word.debug ++ ")"
  | literal value => "Literal(" ++ debugValue value ++ ")"
  | parameter => "Parameter"
  | leftParen => "LeftParen"
  | rightParen => "RightParen"
  | comma => "Comma"
  | dot => "Dot"
  | star => "Star"
  | semicolon => "Semicolon"
  | eq => "Eq"
  | notEq => "NotEq"
  | lt => "Lt"
  | ltEq => "LtEq"
  | gt => "Gt"
  | gtEq => "GtEq"
  | minus => "Minus"
  | eof => "Eof"

end Diagnostics

/-- The characters that are left and the bytes consumed before them. -/
structure Lexer where
  rest : List Char
  position : Nat
  deriving DecidableEq

/-- The delimiter of text and of bytes. -/
def singleQuote : Char := Char.ofNat 39

/-- The delimiter of quoted identifiers. -/
def doubleQuote : Char := Char.ofNat 34

def newline : Char := Char.ofNat 10

/-- The value of quoted text up to its delimiter and the number of characters it took; a doubled
delimiter stands for itself. -/
def quotedChars (delimiter : Char) : List Char → Option (List Char × Nat)
  | [] => none
  | [last] => if last = delimiter then some ([], 1) else none
  | first :: second :: rest =>
    if first = delimiter then
      if second = delimiter then
        (quotedChars delimiter rest).map fun (value, count) => (delimiter :: value, count + 2)
      else some ([], 1)
    else (quotedChars delimiter (second :: rest)).map fun (value, count) =>
      (first :: value, count + 1)

def hexDigit (character : Char) : Option Nat :=
  if '0' ≤ character ∧ character ≤ '9' then some (character.toNat - '0'.toNat)
  else if 'a' ≤ character ∧ character ≤ 'f' then some (character.toNat - 'a'.toNat + 10)
  else if 'A' ≤ character ∧ character ≤ 'F' then some (character.toNat - 'A'.toNat + 10)
  else none

/-- Two digits make a byte; a last single digit is none. -/
def hexBytes : List Char → Option Bytes
  | [] => some []
  | [_] => none
  | high :: low :: rest => do
    let high ← hexDigit high
    let low ← hexDigit low
    let rest ← hexBytes rest
    return UInt8.ofNat (16 * high + low) :: rest

def decimal (digits : List Char) : Nat :=
  digits.foldl (fun value digit => 10 * value + (digit.toNat - '0'.toNat)) 0

/-- The number of characters of a block comment behind its opening. -/
def blockComment : List Char → Option Nat
  | '*' :: '/' :: _ => some 2
  | _ :: rest => (blockComment rest).map (· + 1)
  | [] => none

namespace Lexer

/-- Consume characters. -/
def skip (lexer : Lexer) (count : Nat) : Lexer where
  rest := lexer.rest.drop count
  position := lexer.position + ((lexer.rest.take count).map Char.utf8Size).sum

/-- Consume characters as long as they satisfy a condition. -/
def skipWhile (lexer : Lexer) (p : Char → Bool) : Lexer :=
  lexer.skip (lexer.rest.takeWhile p).length

def peek (lexer : Lexer) : Option Char := lexer.rest.head?

def error (lexer : Lexer) (message : String) (start : Nat) : SqlError :=
  ⟨.lex, message, ⟨start, lexer.position⟩⟩

def quotedString (lexer : Lexer) (delimiter : Char) (start : Nat) :
    Result (String × Lexer) :=
  match quotedChars delimiter lexer.rest with
  | some (value, count) => .ok (String.ofList value, lexer.skip count)
  | none => .error ((lexer.skip lexer.rest.length).error "unterminated quoted value" start)

def bytesLiteral (lexer : Lexer) (start : Nat) : Result (Bytes × Lexer) :=
  let digits := lexer.rest.takeWhile fun character => (hexDigit character).isSome
  let after := lexer.skip digits.length
  match after.rest with
  | [] => .error (after.error "unterminated BYTES literal" start)
  | next :: _ =>
    let after := after.skip 1
    if next = singleQuote then
      match hexBytes digits with
      | some bytes => .ok (bytes, after)
      | none => .error (after.error "BYTES literals require an even number of digits" start)
    else .error (after.error "BYTES literals contain hexadecimal digits" start)

/-- A number behind its first digit. -/
def integerLiteral (lexer : Lexer) (first : Char) (start : Nat) : Result (Int64 × Lexer) :=
  let digits := first :: lexer.rest.takeWhile Char.isDigit
  let after := lexer.skipWhile Char.isDigit
  if (decimal digits : Int) ≤ Int64.maxValue.toInt then .ok (Int64.ofNat (decimal digits), after)
  else
    let text := String.ofList digits
    .error (after.error s!"integer literal `{text}` is outside INT64 range" start)

section Classes

variable [Unicode]

def isIdentifierStart (character : Char) :
    Bool := character == '_' || Unicode.isAlphabetic character

def isIdentifierContinue (character : Char) : Bool :=
  character == '_' || character == '$' || Unicode.isAlphanumeric character

/-- A keyword or a name behind its first character. -/
def word (lexer : Lexer) (first : Char) : TokenKind × Lexer :=
  let value := String.ofList (first :: lexer.rest.takeWhile isIdentifierContinue)
  let after := lexer.skipWhile isIdentifierContinue
  match Keyword.fromIdentifier value with
  | some keyword => (.keyword keyword, after)
  | none => (.identifier value false, after)

/-- The kind of the token that starts with a character, which has been consumed. -/
def tokenKind (lexer : Lexer) (character : Char) (start : Nat) :
    Result (TokenKind × Lexer) :=
  match character with
  | '(' => .ok (.leftParen, lexer)
  | ')' => .ok (.rightParen, lexer)
  | ',' => .ok (.comma, lexer)
  | '.' => .ok (.dot, lexer)
  | '*' => .ok (.star, lexer)
  | ';' => .ok (.semicolon, lexer)
  | '?' => .ok (.parameter, lexer)
  | '=' => .ok (.eq, lexer)
  | '-' => .ok (.minus, lexer)
  | '<' =>
    if lexer.peek = some '=' then .ok (.ltEq, lexer.skip 1)
    else if lexer.peek = some '>' then .ok (.notEq, lexer.skip 1)
    else .ok (.lt, lexer)
  | '>' => if lexer.peek = some '=' then .ok (.gtEq, lexer.skip 1) else .ok (.gt, lexer)
  | '!' =>
    if lexer.peek = some '=' then .ok (.notEq, lexer.skip 1)
    else .error (lexer.error "expected `=` after `!`" start)
  | character =>
    if character = singleQuote then do
      let (value, lexer) ← lexer.quotedString singleQuote start
      return (.literal (.text value), lexer)
    else if character = doubleQuote then do
      let (value, lexer) ← lexer.quotedString doubleQuote start
      return (.identifier value true, lexer)
    else if (character = 'x' ∨ character = 'X') ∧ lexer.peek = some singleQuote then do
      let (value, lexer) ← (lexer.skip 1).bytesLiteral start
      return (.literal (.bytes value), lexer)
    else if character.isDigit then do
      let (value, lexer) ← lexer.integerLiteral character start
      return (.literal (.int64 value), lexer)
    else if isIdentifierStart character then .ok (lexer.word character)
    else .error (lexer.error s!"unexpected character `{character}`" start)

def nextToken (lexer : Lexer) : Result (Token × Lexer) :=
  let start := lexer.position
  match lexer.rest with
  | [] => .ok (⟨.eof, ⟨start, start⟩⟩, lexer)
  | character :: _ => do
    let (kind, lexer) ← (lexer.skip 1).tokenKind character start
    return (⟨kind, ⟨start, lexer.position⟩⟩, lexer)

/-- White space and comments are skipped; the fuel bounds the number of comments. -/
def skipTrivia : Nat → Lexer → Result Lexer
  | 0, lexer => .ok lexer
  | fuel + 1, lexer =>
    let lexer := lexer.skipWhile Unicode.isWhitespace
    match lexer.rest with
    | '-' :: '-' :: _ => skipTrivia fuel ((lexer.skip 2).skipWhile (· != newline))
    | '/' :: '*' :: comment =>
      match blockComment comment with
      | some count => skipTrivia fuel ((lexer.skip 2).skip count)
      | none =>
        .error ((lexer.skip lexer.rest.length).error "unterminated block comment" lexer.position)
    | _ => .ok lexer

/-- The tokens up to the end; the fuel bounds their number. -/
def lexAll : Nat → Lexer → Result (List Token)
  | 0, _ => .ok []
  | fuel + 1, lexer => do
    let lexer ← lexer.skipTrivia (lexer.rest.length + 1)
    let (token, lexer) ← lexer.nextToken
    if token.kind = .eof then return [token]
    else
      let tokens ← lexAll fuel lexer
      return token :: tokens

end Classes

end Lexer

/-- Every token but the last takes a character, so there are no more of them than fuel. -/
def lex [Unicode] (source : String) : Result (List Token) :=
  Lexer.lexAll (source.toList.length + 1) ⟨source.toList, 0⟩

end AsterSql
