import AsterDB.Core.Bytes
import AsterDB.Core.Decoding
import AsterDB.Models.Raft.Native.Types

/-!
# Values, rows and schemas

The shared data layer: typed values and their two encodings, rows, columns and
the checks a schema makes. Encoders return the bytes the source appends to its
output. Identifiers and timestamps are natural numbers; counters that stop at the
64-bit bound stop there explicitly.
-/

namespace AsterEngine

open AsterRaft (Bytes u64Max)
open ByteString Fallible

def maxValueBytes : Nat := 16 * 1024 * 1024
def maxRowColumns : Nat := 4096
def u32Max : Nat := 2 ^ 32 - 1

/-- Addition that stops at the largest 64-bit value. -/
def saturatingAdd (a b : Nat) : Nat := min (a + b) u64Max

/-- Addition that fails beyond the largest 64-bit value. -/
def checkedAdd (a b : Nat) : Option Nat := if a + b ≤ u64Max then some (a + b) else none

/-- The UTF-8 bytes of a text. -/
def utf8 (text : String) : Bytes := text.toByteArray.data.toList

/-- A failure of the shared data layer. -/
inductive CoreError where
  | invalidEncoding (text : String)
  | limitExceeded (text : String)
  | type (text : String)
  | constraint (text : String)
  | conflict (text : String)
  | unsupported (text : String)
  | notLeader (hint : Option String)
  | corruption (text : String)
  | io (text : String)
  | invariant (text : String)
  deriving DecidableEq, Repr

/-- Text of an error. -/
def CoreError.display : CoreError → String
  | .invalidEncoding text => s!"invalid encoding: {text}"
  | .limitExceeded text => s!"resource limit exceeded: {text}"
  | .type text => s!"type error: {text}"
  | .constraint text => s!"constraint violation: {text}"
  | .conflict text => s!"transaction conflict: {text}"
  | .unsupported text => s!"unsupported operation: {text}"
  | .notLeader none => "not the leader"
  | .notLeader (some hint) => s!"not the leader; leader hint: {hint}"
  | .corruption text => s!"corruption detected: {text}"
  | .io text => s!"I/O error: {text}"
  | .invariant text => s!"internal invariant failed: {text}"

inductive DataType where
  | int64
  | bool
  | text
  | bytes
  deriving DecidableEq, Repr

def DataType.display : DataType → String
  | .int64 => "INT64"
  | .bool => "BOOL"
  | .text => "TEXT"
  | .bytes => "BYTES"

inductive Value where
  | null
  | int64 (value : Int64)
  | bool (value : Bool)
  | text (value : String)
  | bytes (value : Bytes)
  deriving DecidableEq

namespace Value

def dataType : Value → Option DataType
  | null => none
  | int64 _ => some .int64
  | bool _ => some .bool
  | text _ => some .text
  | bytes _ => some .bytes

def isNull : Value → Bool
  | null => true
  | _ => false

def typeName : Value → String
  | null => "NULL"
  | int64 _ => "INT64"
  | bool _ => "BOOL"
  | text _ => "TEXT"
  | bytes _ => "BYTES"

/-- SQL comparison: unknown against NULL, an error between types. -/
def checkedCmp : Value → Value → Except CoreError (Option Ordering)
  | null, _ | _, null => .ok none
  | int64 a, int64 b => .ok (some (compare a b))
  | bool a, bool b => .ok (some (compare a b))
  | text a, text b => .ok (some (compare (utf8 a) (utf8 b)))
  | bytes a, bytes b => .ok (some (compare a b))
  | a, b => .error (.type s!"cannot compare {a.typeName} with {b.typeName}")

end Value

structure Column where
  name : String
  dataType : DataType
  nullable : Bool
  primaryKey : Bool
  deriving DecidableEq

structure Row where
  values : List Value
  deriving DecidableEq

structure Schema where
  columns : List Column
  deriving DecidableEq

/-- ASCII lower case. -/
def normalize (name : String) : String := name.toLower

def eqIgnoreAsciiCase (left right : String) : Bool := normalize left == normalize right

namespace Schema

/-- Every column is named, and no two columns alike up to case. -/
def validateNames : List Column → List Column → Except CoreError Unit
  | _, [] => .ok ()
  | before, left :: rest => do
    failIf (left.name.isEmpty = true) (.constraint "column names cannot be empty")
    failIf (before.any (fun right => eqIgnoreAsciiCase right.name left.name) = true)
      (.constraint s!"duplicate column name `{left.name}`")
    validateNames (before ++ [left]) rest

/-- The position of the primary key of a well-formed schema. -/
def validate (schema : Schema) : Except CoreError Nat := do
  failIf (schema.columns = []) (.constraint "a table must have at least one column")
  failIf (maxRowColumns < schema.columns.length)
    (.limitExceeded s!"schema has {schema.columns.length} columns; maximum is {maxRowColumns}")
  match schema.columns.zipIdx.filter (fun column => column.1.primaryKey) with
  | [(primary, primaryIndex)] =>
    failIf (primary.nullable = true) (.constraint "primary key cannot be nullable")
    validateNames [] schema.columns
    return primaryIndex
  | _ => .error (.constraint "exactly one primary-key column is required")

/-- A value fits its column. -/
def validateValue (column : Column) (value : Value) : Except CoreError Unit :=
  match value.dataType with
  | none =>
    failIf (column.nullable = false) (.constraint s!"column `{column.name}` is not nullable")
  | some actual =>
    failIf (actual ≠ column.dataType)
      (.type s!"column `{column.name}` expects {column.dataType.display}, got {value.typeName}")

def validateRow (schema : Schema) (row : Row) : Except CoreError Unit := do
  let _ ← schema.validate
  failIf (row.values.length ≠ schema.columns.length)
    (.constraint s!"row has {row.values.length} values for {schema.columns.length} columns")
  (schema.columns.zip row.values).forM fun pair => validateValue pair.1 pair.2

end Schema

/-- The name of a client. -/
abbrev ClientId := Vector UInt8 16

/-- A client and the number it gave its request. -/
structure ClientRequestId where
  clientId : ClientId
  sequence : Nat
  deriving DecidableEq

namespace Codec

def null : UInt8 := 0
def int64 : UInt8 := 1
def boolFalse : UInt8 := 2
def boolTrue : UInt8 := 3
def text : UInt8 := 4
def bytes : UInt8 := 5

def encodeBytes (value : Bytes) : Except CoreError Bytes := do
  failIf (maxValueBytes < value.length)
    (.limitExceeded s!"value contains {value.length} bytes; maximum is {maxValueBytes}")
  failIf (u32Max < value.length) (.limitExceeded "value length does not fit encoding")
  return leBytes 4 value.length ++ value

def encodeValue : Value → Except CoreError Bytes
  | .null => .ok [null]
  | .int64 value => .ok (int64 :: leBytes 8 value.toUInt64.toNat)
  | .bool false => .ok [boolFalse]
  | .bool true => .ok [boolTrue]
  | .text value => (text :: ·) <$> encodeBytes (utf8 value)
  | .bytes value => (bytes :: ·) <$> encodeBytes value

def encodeRow (row : Row) : Except CoreError Bytes := do
  failIf (maxRowColumns < row.values.length) (.limitExceeded "too many row values")
  failIf (u32Max < row.values.length) (.limitExceeded "row value count does not fit encoding")
  let values ← row.values.mapM encodeValue
  return leBytes 4 row.values.length ++ values.flatten

/-- Zero bytes are escaped and the end is marked. -/
def encodeMemcomparable : Bytes → Bytes
  | [] => [0, 0]
  | byte :: rest =>
    if byte = 0 then 0 :: 0xff :: encodeMemcomparable rest else byte :: encodeMemcomparable rest

/-- The sign bit is flipped, so that negative numbers come first. -/
def sortable (value : Int64) : UInt64 := value.toUInt64 ^^^ ((1 : UInt64) <<< 63)

/-- An encoding whose byte order is the order of values. -/
def encodeOrdered : Value → Bytes
  | .null => [null]
  | .int64 value => int64 :: beBytes 8 (sortable value).toNat
  | .bool false => [boolFalse]
  | .bool true => [boolTrue]
  | .text value => text :: encodeMemcomparable (utf8 value)
  | .bytes value => bytes :: encodeMemcomparable value

/-- The key of a row version: the newest version of a key comes first. -/
def encodeMvccKey (tableId : UInt64) (primaryKey : Value) (commitTimestamp : UInt64) : Bytes :=
  beBytes 8 tableId.toNat ++ encodeOrdered primaryKey ++ beBytes 8 (~~~commitTimestamp).toNat

section Decoding

/-- A decoder goes over the bytes that are left. -/
abbrev Cursor := StateT Bytes (Except CoreError)

def take (count : Nat) : Cursor Bytes := fun input =>
  if input.length < count then .error (.invalidEncoding "truncated input")
  else .ok (input.take count, input.drop count)

def byte : Cursor UInt8 := do
  let taken ← take 1
  return taken.headD 0

def u32 : Cursor Nat := do
  let taken ← take 4
  return leNat taken

def i64 : Cursor Int64 := do
  let taken ← take 8
  return (UInt64.ofNat (leNat taken)).toInt64

def lengthPrefixed : Cursor Bytes := do
  let count ← u32
  failIf (maxValueBytes < count) (CoreError.limitExceeded s!"encoded value has {count} bytes")
  take count

/-- The length of the sequence that a byte starts, and the range of its second byte. -/
def utf8Lead (byte : UInt8) : Option (Nat × UInt8 × UInt8) :=
  if byte < 0x80 then some (1, 0, 0)
  else if 0xc2 ≤ byte ∧ byte ≤ 0xdf then some (2, 0x80, 0xbf)
  else if byte = 0xe0 then some (3, 0xa0, 0xbf)
  else if byte = 0xed then some (3, 0x80, 0x9f)
  else if 0xe1 ≤ byte ∧ byte ≤ 0xef then some (3, 0x80, 0xbf)
  else if byte = 0xf0 then some (4, 0x90, 0xbf)
  else if 0xf1 ≤ byte ∧ byte ≤ 0xf3 then some (4, 0x80, 0xbf)
  else if byte = 0xf4 then some (4, 0x80, 0x8f)
  else none

/-- Continuation bytes that a sequence still needs; `low` and `high` bound the next one. -/
def utf8Continues : Nat → UInt8 → UInt8 → Nat → Bytes → Option (Option Nat)
  | 0, _, _, _, _ => none
  | _ + 1, _, _, _, [] => some none
  | needed + 1, low, high, seen, byte :: rest =>
    if low ≤ byte ∧ byte ≤ high then utf8Continues needed 0x80 0xbf (seen + 1) rest
    else some (some seen)

/-- Where text stops being UTF-8, and the length of the sequence that is wrong; there is none if
the text ends inside a sequence. -/
def utf8Fault : Nat → Nat → Bytes → Option (Nat × Option Nat)
  | 0, _, _ => none
  | _ + 1, _, [] => none
  | fuel + 1, index, byte :: rest =>
    match utf8Lead byte with
    | none => some (index, some 1)
    | some (count, low, high) =>
      match utf8Continues (count - 1) low high 1 rest with
      | some length => some (index, length)
      | none => utf8Fault fuel (index + count) (rest.drop (count - 1))

def utf8Message (value : Bytes) : String :=
  match utf8Fault (value.length + 1) 0 value with
  | some (index, some count) => s!"invalid utf-8 sequence of {count} bytes from index {index}"
  | some (index, none) => s!"incomplete utf-8 byte sequence from index {index}"
  | none => ""

def fromUtf8 (value : Bytes) : Except CoreError String :=
  orFail (String.fromUTF8? ⟨value.toArray⟩) (.invalidEncoding (utf8Message value))

def decodeValue : Cursor Value := do
  let tag ← byte
  if tag = null then return .null
  else if tag = int64 then
    let value ← i64
    return .int64 value
  else if tag = boolFalse then return .bool false
  else if tag = boolTrue then return .bool true
  else if tag = text then
    let value ← lengthPrefixed
    let value ← fromUtf8 value
    return .text value
  else if tag = bytes then
    let value ← lengthPrefixed
    return .bytes value
  else throw (.invalidEncoding s!"unknown value tag {tag}")

def finish : Cursor Unit := fun input =>
  if input = [] then .ok ((), [])
  else .error (.invalidEncoding s!"{input.length} trailing bytes")

def decodeRow (input : Bytes) : Except CoreError Row :=
  let decode : Cursor Row := do
    let count ← u32
    failIf (maxRowColumns < count) (CoreError.limitExceeded s!"encoded row contains {count} values")
    let values ← Decoding.times decodeValue count
    finish
    return ⟨values⟩
  Prod.fst <$> decode.run input

end Decoding

end Codec

end AsterEngine
