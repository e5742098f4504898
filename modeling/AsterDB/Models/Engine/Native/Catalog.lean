import AsterDB.Models.Engine.Native.Value

/-!
# Catalog

Tables, secondary indexes and their names. A catalog changes by the mutations of
one committed attempt at a time, and each such change raises the schema epoch.
-/

namespace AsterEngine

open Std
open Fallible

inductive EngineError where
  | core (error : CoreError)
  | unknownTable (id : Nat)
  | unknownIndex (id : Nat)
  | unknownColumn (table column : String)
  | transactionFinished (id : Nat)
  | snapshotTooOld (requested floor : Nat)
  | applyGap (expected actual : Nat)
  | applyHashMismatch (index : Nat)
  | commandHashMismatch
  | invalidAttempt (text : String)
  | invalidSnapshot (text : String)
  | expression (text : String)
  deriving DecidableEq, Repr

/-- The results of the crate. -/
abbrev Result : Type → Type := Except EngineError

/-- Text of an error. -/
def EngineError.display : EngineError → String
  | .core error => error.display
  | .unknownTable id => s!"unknown table {id}"
  | .unknownIndex id => s!"unknown index {id}"
  | .unknownColumn table column => s!"unknown column `{column}` in table `{table}`"
  | .transactionFinished id => s!"transaction {id} is already finished"
  | .snapshotTooOld requested floor =>
    s!"snapshot {requested} is below the retained MVCC floor {floor}"
  | .applyGap expected actual => s!"non-contiguous apply index: expected {expected}, got {actual}"
  | .applyHashMismatch index => s!"replayed Raft index {index} with a different command hash"
  | .commandHashMismatch => "provided command hash does not match canonical transaction bytes"
  | .invalidAttempt text => s!"invalid transaction attempt: {text}"
  | .invalidSnapshot text => s!"invalid snapshot: {text}"
  | .expression text => s!"expression evaluation failed: {text}"

/-- A failure of the data layer, passed on. -/
def liftCore {α : Type} : Except CoreError α → Result α
  | .ok a => .ok a
  | .error error => .error (.core error)

/-- A letter or underscore, then letters, digits and underscores. -/
def validateIdentifier (name kind : String) : Result Unit :=
  let valid := match name.toList with
    | [] => false
    | first :: rest =>
      (first == '_' || first.isAlpha) && rest.all fun ch => ch == '_' || ch.isAlphanum
  failIf (valid = false) (.core (.constraint s!"invalid {kind} identifier `{name}`"))

structure TableMeta where
  id : Nat
  name : String
  schema : Schema
  primaryKeyColumn : Nat
  deriving DecidableEq

namespace TableMeta

def new (id : Nat) (name : String) (schema : Schema) : Result TableMeta := do
  validateIdentifier name "table"
  failIf (id = 0) (.core (.constraint "table id zero is reserved"))
  let primaryKeyColumn ← liftCore schema.validate
  return { id, name, schema, primaryKeyColumn }

def validate (table : TableMeta) : Result Unit := do
  validateIdentifier table.name "table"
  failIf (table.id = 0) (.core (.constraint "table id zero is reserved"))
  let actual ← liftCore table.schema.validate
  failIf (actual ≠ table.primaryKeyColumn)
    (.invalidSnapshot
      s!"table {table.id} stores primary-key column {table.primaryKeyColumn}, schema says {actual}")

/-- The primary-key column; a valid table has one. -/
def primaryColumn (table : TableMeta) : Column :=
  table.schema.columns.getD table.primaryKeyColumn
    { name := "", dataType := .int64, nullable := false, primaryKey := false }

end TableMeta

structure IndexMeta where
  id : Nat
  name : String
  tableId : Nat
  column : Nat
  deriving DecidableEq

def IndexMeta.new (id : Nat) (name : String) (table : TableMeta) (column : Nat) :
    Result IndexMeta := do
  validateIdentifier name "index"
  failIf (id = 0) (.core (.constraint "index id zero is reserved"))
  failIf (table.schema.columns.length ≤ column)
    (.core (.constraint s!"index column {column} is outside table `{table.name}`"))
  return { id, name, tableId := table.id, column }

inductive CatalogMutation where
  | createTable (table : TableMeta)
  | createIndex (index : IndexMeta)
  deriving DecidableEq

/-- Tables come before indexes, each by id. -/
def CatalogMutation.sortKey : CatalogMutation → Nat × Nat
  | createTable table => (0, table.id)
  | createIndex index => (1, index.id)

/-- The order of `sortKey`. -/
def CatalogMutation.before (left right : CatalogMutation) : Bool :=
  left.sortKey.1 < right.sortKey.1 ||
    left.sortKey.1 == right.sortKey.1 && left.sortKey.2 < right.sortKey.2

structure Catalog where
  schemaEpoch : Nat
  tables : ExtTreeMap Nat TableMeta
  tableNames : ExtTreeMap String Nat
  indexes : ExtTreeMap Nat IndexMeta
  indexNames : ExtTreeMap String Nat
  deriving DecidableEq

namespace Catalog

/-- A catalog without tables. -/
def empty : Catalog :=
  { schemaEpoch := 0, tables := ∅, tableNames := ∅, indexes := ∅, indexNames := ∅ }

def table (catalog : Catalog) (id : Nat) : Option TableMeta := catalog.tables[id]?

def tableNamed (catalog : Catalog) (name : String) : Option TableMeta :=
  catalog.tableNames[normalize name]?.bind fun id => catalog.tables[id]?

def index (catalog : Catalog) (id : Nat) : Option IndexMeta := catalog.indexes[id]?

def indexNamed (catalog : Catalog) (name : String) : Option IndexMeta :=
  catalog.indexNames[normalize name]?.bind fun id => catalog.indexes[id]?

/-- Indexes of a table, by id. -/
def indexesForTable (catalog : Catalog) (tableId : Nat) : List IndexMeta :=
  (catalog.indexes.toList.map Prod.snd).filter fun index => index.tableId == tableId

def nextTableId (catalog : Catalog) : Nat :=
  match catalog.tables.maxKey? with
  | none => 1
  | some id => saturatingAdd id 1

def nextIndexId (catalog : Catalog) : Nat :=
  match catalog.indexes.maxKey? with
  | none => 1
  | some id => saturatingAdd id 1

def createTable (catalog : Catalog) (table : TableMeta) : Result Catalog := do
  table.validate
  failIf (table.id ∈ catalog.tables) (.core (.constraint s!"table id {table.id} already exists"))
  failIf (normalize table.name ∈ catalog.tableNames)
    (.core (.constraint s!"table `{table.name}` already exists"))
  return { catalog with
    tableNames := catalog.tableNames.insert (normalize table.name) table.id
    tables := catalog.tables.insert table.id table }

def createIndex (catalog : Catalog) (index : IndexMeta) : Result Catalog := do
  validateIdentifier index.name "index"
  failIf (index.id = 0) (.core (.constraint "index id zero is reserved"))
  failIf (index.id ∈ catalog.indexes)
    (.core (.constraint s!"index id {index.id} already exists"))
  failIf (normalize index.name ∈ catalog.indexNames)
    (.core (.constraint s!"index `{index.name}` already exists"))
  let table ← orFail (catalog.table index.tableId) (.unknownTable index.tableId)
  failIf (table.schema.columns.length ≤ index.column)
    (.core (.constraint
      s!"index {index.id} references column {index.column} outside table `{table.name}`"))
  return { catalog with
    indexNames := catalog.indexNames.insert (normalize index.name) index.id
    indexes := catalog.indexes.insert index.id index }

/-- Carry out one mutation, and collect the indexes it makes. -/
def applyMutation (state : Catalog × List Nat) :
    CatalogMutation → Result (Catalog × List Nat)
  | .createTable table => do
    let catalog ← state.1.createTable table
    return (catalog, state.2)
  | .createIndex index => do
    let catalog ← state.1.createIndex index
    return (catalog, state.2 ++ [index.id])

/-- The mutations of one attempt; the new indexes, in order. -/
def applyMutations (catalog : Catalog) (mutations : List CatalogMutation) :
    Result (Catalog × List Nat) := do
  let (next, newIndexes) ← mutations.foldlM applyMutation (catalog, [])
  if mutations = [] then
    return (next, newIndexes)
  else
    let epoch ← orFail (checkedAdd next.schemaEpoch 1) (.core (.invariant "schema epoch overflow"))
    return ({ next with schemaEpoch := epoch }, newIndexes)

/-- One table of a catalog, and the names of the tables before it. -/
def validateTable (names : ExtTreeSet String) (entry : Nat × TableMeta) :
    Result (ExtTreeSet String) := do
  failIf (entry.1 ≠ entry.2.id)
    (.invalidSnapshot s!"table map key {entry.1} differs from metadata id {entry.2.id}")
  entry.2.validate
  failIf (normalize entry.2.name ∈ names)
    (.invalidSnapshot s!"duplicate table name `{entry.2.name}`")
  return names.insert (normalize entry.2.name)

/-- One index of a catalog, and the names of the indexes before it. -/
def validateIndex (catalog : Catalog) (names : ExtTreeSet String) (entry : Nat × IndexMeta) :
    Result (ExtTreeSet String) := do
  failIf (entry.1 ≠ entry.2.id ∨ entry.2.id = 0)
    (.invalidSnapshot s!"invalid index map entry {entry.1}")
  validateIdentifier entry.2.name "index"
  let table ← orFail (catalog.table entry.2.tableId) (.unknownTable entry.2.tableId)
  failIf (table.schema.columns.length ≤ entry.2.column)
    (.invalidSnapshot s!"index {entry.2.id} references missing column {entry.2.column}")
  failIf (normalize entry.2.name ∈ names)
    (.invalidSnapshot s!"duplicate index name `{entry.2.name}`")
  return names.insert (normalize entry.2.name)

def validate (catalog : Catalog) : Result Unit := do
  let _ ← catalog.tables.toList.foldlM validateTable ∅
  failIf (ExtTreeMap.ofList
      (catalog.tables.toList.map fun entry => (normalize entry.2.name, entry.2.id)) ≠
        catalog.tableNames)
    (.invalidSnapshot "table-name lookup does not match table metadata")
  let _ ← catalog.indexes.toList.foldlM catalog.validateIndex ∅
  failIf (ExtTreeMap.ofList
      (catalog.indexes.toList.map fun entry => (normalize entry.2.name, entry.2.id)) ≠
        catalog.indexNames)
    (.invalidSnapshot "index-name lookup does not match index metadata")

end Catalog

end AsterEngine
