import AsterDB.Models.Engine.Native.Catalog
import Mathlib.Data.List.Sort

/-!
# Transactions

A transaction is a private overlay over a snapshot: staged writes by logical key
and staged catalog mutations. Committing turns it into an attempt with a canonical
byte form.
-/

namespace AsterEngine

open AsterRaft (Bytes Digest Sha256)
open Std
open ByteString Fallible

inductive Mutation where
  | put (row : Row)
  | delete
  deriving DecidableEq

/-- The row a mutation leaves. -/
def Mutation.row : Mutation → Option Row
  | put row => some row
  | delete => none

/-- A table and the ordered encoding of a primary key. -/
structure LogicalKey where
  tableId : Nat
  primaryKey : Bytes
  deriving DecidableEq

namespace LogicalKey

/-- By table, then by key bytes. -/
instance : Ord LogicalKey := ⟨compareLex (compareOn tableId) (compareOn primaryKey)⟩

instance : TransOrd LogicalKey :=
  inferInstanceAs (TransCmp (compareLex (compareOn tableId) (compareOn primaryKey)))

theorem compare_eq (a b : LogicalKey) :
    compare a b = (compare a.tableId b.tableId).then (compare a.primaryKey b.primaryKey) := rfl

instance : LawfulEqOrd LogicalKey where
  eq_of_compare := by
    intro a b h
    rw [compare_eq, Ordering.then_eq_eq, LawfulEqCmp.compare_eq_iff_eq,
      LawfulEqCmp.compare_eq_iff_eq] at h
    cases a
    cases b
    simp_all

def new (tableId : Nat) (primaryKey : Value) : Except CoreError LogicalKey := do
  let _ ← Codec.encodeValue primaryKey
  return { tableId, primaryKey := Codec.encodeOrdered primaryKey }

end LogicalKey

structure TxnWrite where
  tableId : Nat
  primaryKey : Value
  mutation : Mutation
  deriving DecidableEq

def TxnWrite.logicalKey (write : TxnWrite) : Except CoreError LogicalKey :=
  LogicalKey.new write.tableId write.primaryKey

/-- A write, its key and the row there was before it. -/
abbrev KeyedWrite := TxnWrite × LogicalKey × Option Row

/-- A snapshot and what was staged over it. Writes are kept under their own keys. -/
structure Transaction where
  id : Nat
  readTs : Nat
  schemaEpoch : Nat
  writes : ExtTreeMap LogicalKey TxnWrite
  catalogMutations : List CatalogMutation
  keyed : ∀ (key : LogicalKey) (write : TxnWrite), writes[key]? = some write →
    write.logicalKey = .ok key

structure TxnAttempt where
  request : ClientRequestId
  leaderTerm : Nat
  readTs : Nat
  schemaEpoch : Nat
  writes : List TxnWrite
  catalogMutations : List CatalogMutation
  deriving DecidableEq

namespace Transaction

def new (id readTs schemaEpoch : Nat) : Transaction :=
  { id, readTs, schemaEpoch, writes := ∅, catalogMutations := [], keyed := by simp }

def writeCount (transaction : Transaction) : Nat := transaction.writes.size

def isReadOnly (transaction : Transaction) : Bool :=
  transaction.writes.isEmpty && transaction.catalogMutations.isEmpty

def intoAttempt (transaction : Transaction) (request : ClientRequestId) (leaderTerm : Nat) :
    TxnAttempt :=
  { request, leaderTerm, readTs := transaction.readTs, schemaEpoch := transaction.schemaEpoch
    writes := transaction.writes.toList.map Prod.snd
    catalogMutations := transaction.catalogMutations }

def overlay (transaction : Transaction) (key : LogicalKey) : Option Mutation :=
  transaction.writes[key]?.map TxnWrite.mutation

/-- Writes under a key hide what was staged there before. -/
def insertWrite (transaction : Transaction) (write : TxnWrite) (key : LogicalKey)
    (hkey : write.logicalKey = .ok key) : Transaction :=
  { transaction with
    writes := transaction.writes.insert key write
    keyed := by
      intro k w h
      rcases Maps.of_insert h with ⟨rfl, rfl⟩ | ⟨-, h⟩
      · exact hkey
      · exact transaction.keyed k w h }

def stageWrite (transaction : Transaction) (write : TxnWrite) : Except CoreError Transaction :=
  match hkey : write.logicalKey with
  | .ok key => .ok (transaction.insertWrite write key hkey)
  | .error error => .error error

/-- Staged mutations stay sorted. -/
def stageCatalog (transaction : Transaction) (mutation : CatalogMutation) : Transaction :=
  { transaction with
    catalogMutations := (transaction.catalogMutations ++ [mutation]).insertionSort fun left right =>
      ¬right.before left }

def stagedTable (transaction : Transaction) (id : Nat) : Option TableMeta :=
  transaction.catalogMutations.findSome? fun
    | .createTable table => if table.id = id then some table else none
    | .createIndex _ => none

def stagedIndex (transaction : Transaction) (id : Nat) : Option IndexMeta :=
  transaction.catalogMutations.findSome? fun
    | .createTable _ => none
    | .createIndex index => if index.id = id then some index else none

end Transaction

def putU64 (value : Nat) : Bytes := beBytes 8 value

def putLen (value : Nat) : Result Bytes := do
  failIf (u32Max < value) (.core (.limitExceeded "canonical command field is too large"))
  return beBytes 4 value

def putBytes (value : Bytes) : Result Bytes := do
  let length ← putLen value.length
  return length ++ value

def putString (value : String) : Result Bytes := putBytes (utf8 value)

def putValue (value : Value) : Result Bytes := do
  let encoded ← liftCore (Codec.encodeValue value)
  putBytes encoded

def putColumn (column : Column) : Result Bytes := do
  let name ← putString column.name
  let dataType : UInt8 := match column.dataType with
    | .int64 => 1
    | .bool => 2
    | .text => 3
    | .bytes => 4
  return name ++ [dataType, if column.nullable then 1 else 0, if column.primaryKey then 1 else 0]

/-- The canonical bytes of one write. -/
def putWrite (write : TxnWrite) : Result Bytes := do
  let primaryKey ← putValue write.primaryKey
  match write.mutation with
  | .put row =>
    let encoded ← liftCore (Codec.encodeRow row)
    let row ← putBytes encoded
    return putU64 write.tableId ++ primaryKey ++ (1 :: row)
  | .delete => return putU64 write.tableId ++ primaryKey ++ [2]

/-- The canonical bytes of one catalog mutation. -/
def putMutation : CatalogMutation → Result Bytes
  | .createTable table => do
    let name ← putString table.name
    let count ← putLen table.schema.columns.length
    let columns ← table.schema.columns.mapM putColumn
    return 1 :: putU64 table.id ++ name ++ count ++ columns.flatten ++
      putU64 table.primaryKeyColumn
  | .createIndex index => do
    let name ← putString index.name
    return 2 :: putU64 index.id ++ name ++ putU64 index.tableId ++ putU64 index.column

namespace TxnAttempt

/-- Keys go up along the writes. -/
def validateWrites : Option LogicalKey → List TxnWrite → Result Unit
  | _, [] => .ok ()
  | previous, write :: rest => do
    let key ← liftCore write.logicalKey
    failIf (previous.any (fun prior => compare prior key != .lt) = true)
      (.invalidAttempt "writes must be strictly ordered by logical primary key")
    validateWrites (some key) rest

/-- Adjacent mutations are strictly ordered. -/
def mutationsOrdered : List CatalogMutation → Bool
  | left :: right :: rest => left.before right && mutationsOrdered (right :: rest)
  | _ => true

def validateCanonical (attempt : TxnAttempt) : Result Unit := do
  validateWrites none attempt.writes
  failIf (mutationsOrdered attempt.catalogMutations = false)
    (.invalidAttempt "catalog mutations must have unique canonical ids")

def canonicalBytes (attempt : TxnAttempt) : Result Bytes := do
  attempt.validateCanonical
  let writeCount ← putLen attempt.writes.length
  let writes ← attempt.writes.mapM putWrite
  let mutationCount ← putLen attempt.catalogMutations.length
  let mutations ← attempt.catalogMutations.mapM putMutation
  return utf8 "ASTRTXN\x01" ++ attempt.request.clientId.toList ++ putU64 attempt.request.sequence ++
    putU64 attempt.leaderTerm ++ putU64 attempt.readTs ++ putU64 attempt.schemaEpoch ++
    writeCount ++ writes.flatten ++ mutationCount ++ mutations.flatten

def commandHash [Sha256] (attempt : TxnAttempt) : Result Digest := do
  let bytes ← attempt.canonicalBytes
  return Sha256.digest bytes

end TxnAttempt

end AsterEngine
