import AsterDB.Models.Database.Interpretation.Execution
import AsterDB.Models.Database.Native.Database
import AsterDB.Models.Sql.Interpretation.Binding

/-!
# What a statement stages

Queries stage nothing. The errors of a mutation are those of the statement itself; none
of them says that the request was refused.
-/

namespace AsterDatabase

open AsterEngine (Value Engine Transaction CoreError EngineError Row TableMeta)
open AsterSql
open Std
open Fallible

variable {α : Type}

theorem liftEngine_eq_ok {result : Except EngineError α} {a : α} :
    liftEngine result = .ok a ↔ result = .ok a := mapError_eq_ok

theorem liftSql_eq_ok {result : Except SqlError α} {a : α} :
    liftSql result = .ok a ↔ result = .ok a := mapError_eq_ok

theorem liftCodec_eq_ok {result : Except CoreError α} {a : α} :
    liftCodec result = .ok a ↔ result = .ok a := mapError_eq_ok

/-- Bound statements that stage something. -/
def BoundStatement.mutates : BoundStatement → Bool
  | .createTable .. | .createIndex .. | .insert .. | .update .. | .delete .. => true
  | .query .. | .explain .. | .transaction .. => false

/-- The table of an UPDATE or DELETE. -/
def BoundStatement.target : BoundStatement → Option TableDef
  | .update table _ _ | .delete table _ => some table
  | .createTable .. | .createIndex .. | .insert .. | .query .. | .explain .. | .transaction .. =>
    none

variable {catalog : Catalog}

/-- Binding keeps the kind of a statement, and finds its table in the catalog. -/
theorem of_bindStatement {statement : Statement} {span : Span} {s s' : List ParameterSpec}
    {bound : BoundStatement} (h : bindStatement catalog statement span s = .ok (bound, s')) :
    BoundStatement.mutates bound = isMutatingStatement statement ∧
      ∀ table, BoundStatement.target bound = some table →
        ∃ name, catalog.resolveTable name = some table := by
  cases statement with
  | createTable create =>
    simp only [bindStatement, stateLift_eq_ok, bindCreateTable, bind_eq_ok, pure_eq_ok] at h
    obtain ⟨⟨_, -, _, -, rfl⟩, -⟩ := h
    exact ⟨rfl, nofun⟩
  | createIndex create =>
    simp only [bindStatement, stateLift_eq_ok, bindCreateIndex, bind_eq_ok, pure_eq_ok] at h
    obtain ⟨⟨_, -, _, -, _, -, rfl⟩, -⟩ := h
    exact ⟨rfl, nofun⟩
  | insert insert =>
    simp only [bindStatement, bindInsert, stateBind_eq_ok, stateLift_eq_ok] at h
    obtain ⟨table, _, ⟨-, rfl⟩, targets, _, ⟨-, rfl⟩, h⟩ := h
    split at h
    · simp only [stateThrow_eq_ok] at h
    · simp only [stateBind_eq_ok, statePure_eq_ok] at h
      obtain ⟨_, _, -, _, _, -, rfl, -⟩ := h
      exact ⟨rfl, nofun⟩
  | update update =>
    simp only [bindStatement, bindUpdate, stateBind_eq_ok, statePure_eq_ok, stateLift_eq_ok,
      requireTable, orFail_eq_ok] at h
    obtain ⟨table, _, ⟨htable, -⟩, _, _, -, _, _, -, rfl, -⟩ := h
    exact ⟨rfl, fun _ heq => ⟨_, htable.trans heq⟩⟩
  | delete delete =>
    simp only [bindStatement, bindDelete, stateBind_eq_ok, statePure_eq_ok, stateLift_eq_ok,
      requireTable, orFail_eq_ok] at h
    obtain ⟨table, _, ⟨htable, -⟩, _, _, -, rfl, -⟩ := h
    exact ⟨rfl, fun _ heq => ⟨_, htable.trans heq⟩⟩
  | select select =>
    simp only [bindStatement, bindSelect, stateBind_eq_ok, statePure_eq_ok, Prod.exists] at h
    obtain ⟨_, _, _, -, _, _, -, _, _, -, _, _, -, _, _, -, _, _, -, rfl, -⟩ := h
    exact ⟨rfl, nofun⟩
  | begin | commit | rollback =>
    simp only [bindStatement, statePure_eq_ok] at h
    exact h.1 ▸ ⟨rfl, nofun⟩
  | explain inner span =>
    simp only [bindStatement, stateBind_eq_ok] at h
    obtain ⟨bound, _, -, h⟩ := h
    split at h
    · simp only [stateThrow_eq_ok] at h
    · simp only [statePure_eq_ok] at h
      exact h.1 ▸ ⟨rfl, nofun⟩

theorem of_bind {parsed : Spanned Statement} {output : BindOutput}
    (h : AsterSql.bind parsed catalog = .ok output) :
    BoundStatement.mutates output.statement = isMutatingStatement parsed.value ∧
      ∀ table, BoundStatement.target output.statement = some table →
        ∃ name, catalog.resolveTable name = some table := by
  simp only [AsterSql.bind, bind_eq_ok, pure_eq_ok, Prod.exists] at h
  obtain ⟨bound, parameters, hbound, rfl⟩ := h
  exact of_bindStatement hbound

section Prepare

variable {engine : Engine} {transaction staged : Transaction} {parsed : Spanned Statement}
  {parameters : List Value} {output : StatementOutput}

/-- A statement is explained, or bound and run. -/
theorem prepareAndExecuteOutput_eq_ok
    (h : prepareAndExecuteOutput engine transaction parsed parameters = .ok (staged, output)) :
    ∃ bound,
      AsterSql.bind parsed (EngineCatalog.new engine (some transaction)).catalog = .ok bound ∧
      validateParameters bound.parameters parameters = .ok () ∧
      (isMutatingStatement parsed.value = false ∧ staged = transaction ∨
        executeBound engine parameters transaction bound.statement
          (physicalPlan bound.statement (EngineCatalog.new engine none)) =
            .ok (staged, output)) := by
  simp only [prepareAndExecuteOutput, bind_eq_ok, failIf_eq_ok, liftSql_eq_ok, exists_const] at h
  obtain ⟨bound, hbound, ⟨⟩, hvalid, -, h⟩ := h
  refine ⟨bound, hbound, hvalid, ?_⟩
  split at h
  next inner hinner =>
    simp only [bind_eq_ok, pure_eq_ok, Prod.mk.injEq] at h
    obtain ⟨_, -, _, -, rfl, -⟩ := h
    refine .inl ⟨?_, rfl⟩
    rw [← (of_bind hbound).1, hinner]
    rfl
  next => exact .inr h

/-- A statement that does not mutate stages nothing. -/
theorem staged_of_not_mutating (hread : isMutatingStatement parsed.value = false)
    (h : prepareAndExecuteOutput engine transaction parsed parameters = .ok (staged, output)) :
    staged = transaction := by
  obtain ⟨bound, hbound, -, ⟨-, hsame⟩ | hrun⟩ := prepareAndExecuteOutput_eq_ok h
  · exact hsame
  rw [← (of_bind hbound).1] at hread
  generalize bound.statement = statement at hread hrun
  cases statement with
  | query plan names =>
    simp only [executeBound, bind_eq_ok, pure_eq_ok, Prod.mk.injEq] at hrun
    obtain ⟨_, -, _, -, _, -, rfl, -⟩ := hrun
    rfl
  | explain inner => cases hrun
  | transaction control => cases hrun
  | _ => cases hread

end Prepare

/-- Errors other than a refused request. -/
def Plain (error : DatabaseError) : Prop := ∀ rejection, error ≠ .requestRejected rejection

section Errors

variable {α : Type}

theorem plain_liftSql (x : Except SqlError α) : Fails Plain (liftSql x) :=
  fails_mapError fun _ _ _ h => by cases h

theorem plain_liftEngine (x : Except EngineError α) : Fails Plain (liftEngine x) :=
  fails_mapError fun _ _ _ h => by cases h

theorem plain_liftCodec (x : Except CoreError α) : Fails Plain (liftCodec x) :=
  fails_mapError fun _ _ _ h => by cases h

theorem plain_invariant (text : String) : Plain (.invariant text) := fun _ h => by cases h

theorem plain_sql (error : SqlError) : Plain (.sql error) := fun _ h => by cases h

variable {parameters : List Value}

theorem plain_aggregateValue (row : ExecRow) (expression : BoundExpr) :
    Fails Plain (aggregateValue row expression) := by
  unfold aggregateValue
  split
  · exact fails_ok _
  · exact fails_error (plain_invariant _)

theorem plain_truth (value : Value) (span : Span) : Fails Plain (Executor.truth value span) :=
  Executor.truth_eq value span ▸ plain_liftSql _

theorem plain_evaluateExec (row : ExecRow) (expression : BoundExpr) :
    Fails Plain (evaluateExec row parameters expression) := by
  fun_induction evaluateExec row parameters expression with
  | case1 function span haggregate | case2 function argument span haggregate =>
    exact plain_aggregateValue row _
  | case3 expr span haggregate ih =>
    exact ih.bind fun _ _ => (plain_truth _ _).bind fun _ _ => fails_pure _
  | case4 expr span haggregate ih =>
    refine ih.bind fun value _ => ?_
    split
    · exact fails_pure _
    · split
      · exact fails_error (plain_sql _)
      · exact fails_pure _
    · exact fails_error (plain_sql _)
  | case5 left right span haggregate ihLeft ihRight
  | case6 left right span haggregate ihLeft ihRight =>
    refine ihLeft.bind fun _ _ => (plain_truth _ _).bind fun _ _ => ?_
    split
    · exact fails_pure _
    · exact ihRight.bind fun _ _ => (plain_truth _ _).bind fun _ _ => fails_pure _
  | case7 left comparison right span hand hor haggregate ihLeft ihRight =>
    refine ihLeft.bind fun _ _ => ihRight.bind fun _ _ => ?_
    rw [Executor.compare_eq]
    exact plain_liftSql _
  | case8 expr negated span haggregate ih => exact ih.bind fun _ _ => fails_pure _
  | case9 | case10 | case11 => exact fails_error (plain_invariant _)
  | case12 expression haggregate => exact plain_liftSql _

theorem plain_selected (selection : Option BoundExpr) (row : ExecRow) :
    Fails Plain (selected parameters selection row) := by
  cases selection with
  | none => exact fails_ok _
  | some predicate =>
    change Fails Plain (predicateExec row parameters predicate)
    unfold predicateExec
    split
    · exact (plain_evaluateExec row predicate).bind fun _ _ =>
        (plain_truth _ _).bind fun _ _ => fails_pure _
    · exact plain_liftSql _

variable {engine : Engine} {transaction : Transaction} {selection : Option BoundExpr}
  (state : Transaction × Nat) {tableId primaryKey : Nat}

theorem plain_updateRow {assignments : List (Nat × BoundExpr)} (row : Row) :
    Fails Plain
      (updateRow engine parameters tableId primaryKey assignments selection state row) := by
  refine (plain_selected selection _).bind fun keep _ => ?_
  split
  · refine (fails_foldlM fun updated assignment _ => ?_).bind fun _ _ => ?_
    · exact (plain_evaluateExec _ _).bind fun _ _ =>
        (fails_failIf (plain_invariant _)).bind fun _ _ => fails_pure _
    · exact (fails_orFail (plain_invariant _)).bind fun _ _ =>
        (plain_liftEngine _).bind fun _ _ => fails_pure _
  · exact fails_pure _

theorem plain_deleteRow (row : Row) :
    Fails Plain (deleteRow engine parameters tableId primaryKey selection state row) := by
  refine (plain_selected selection _).bind fun keep _ => ?_
  split
  · exact (fails_orFail (plain_invariant _)).bind fun _ _ =>
      (plain_liftEngine _).bind fun _ _ => fails_pure _
  · exact fails_pure _

theorem plain_executeBound {statement : BoundStatement} {plan : Option PhysicalPlan}
    (hmutates : BoundStatement.mutates statement = true) :
    Fails Plain (executeBound engine parameters transaction statement plan) := by
  cases statement with
  | createTable name schema | createIndex name table columnIndex =>
    exact (plain_liftEngine _).bind fun _ _ => fails_pure _
  | insert table values =>
    exact (fails_mapM fun value _ => plain_evaluateExec _ value).bind fun _ _ =>
      (plain_liftEngine _).bind fun _ _ => fails_pure _
  | update table assignments selection =>
    exact (plain_liftEngine _).bind fun _ _ => (fails_orFail (plain_invariant _)).bind fun _ _ =>
      (fails_foldlM fun state row _ => plain_updateRow state row).bind fun _ _ => fails_pure _
  | delete table selection =>
    exact (plain_liftEngine _).bind fun _ _ => (fails_orFail (plain_invariant _)).bind fun _ _ =>
      (fails_foldlM fun state row _ => plain_deleteRow state row).bind fun _ _ => fails_pure _
  | query | explain | transaction => cases hmutates

theorem plain_prepareAndExecuteOutput {parsed : Spanned Statement}
    (hmutating : isMutatingStatement parsed.value = true) :
    Fails Plain (prepareAndExecuteOutput engine transaction parsed parameters) := by
  refine (plain_liftSql _).bind fun bound hbound => (plain_liftSql _).bind fun _ _ =>
    (fails_failIf fun _ h => by cases h).bind fun _ _ => ?_
  rw [← (of_bind (liftSql_eq_ok.mp hbound)).1] at hmutating
  split
  next inner hinner =>
    rw [hinner] at hmutating
    cases hmutating
  next => exact plain_executeBound hmutating

end Errors

section Sample

def createItemsText : String := "CREATE TABLE items (id INT64 PRIMARY KEY)"

def createItemsStatement : Spanned Statement where
  value := .createTable {
    name := ⟨"items", false, ⟨13, 18⟩⟩
    columns := [{ name := ⟨"id", false, ⟨20, 22⟩⟩, dataType := .int64, nullable := false
                  primaryKey := true, span := ⟨20, 40⟩ }] }
  span := ⟨0, 41⟩

def idTable : TableMeta where
  id := 1
  name := "items"
  schema := ⟨[{ name := "id", dataType := .int64, nullable := false, primaryKey := true }]⟩
  primaryKeyColumn := 0

theorem parseStatement_createItems :
    @parseStatement asciiText createItemsText = .ok createItemsStatement := by
  decide +kernel

variable (id nextTxnId : Nat)

theorem createTable_items :
    Engine.createTable { Engine.new with nextTxnId } (.new id 0 0) "items" idTable.schema =
      .ok ((Transaction.new id 0 0).stageCatalog (.createTable idTable), 1) := by
  have hnext : Engine.new.catalog.nextTableId = 1 := by
    simp [AsterEngine.Catalog.nextTableId, Engine.new, AsterEngine.Catalog.empty]
  have hname : TableMeta.new 1 "items" idTable.schema = .ok idTable := by decide
  have hunknown : (Engine.new.catalog.tableNamed "items").isSome = false := by decide
  unfold Engine.createTable
  simp only [bind_eq_ok, orFail_eq_ok, failIf_eq_ok, pure_eq_ok, hnext]
  exact ⟨(), rfl, 1, rfl, idTable, hname, (), by simp [hunknown, idTable, Transaction.new], rfl⟩

/-- The statement, in a transaction of a new engine. -/
theorem prepareAndExecuteOutput_createItems :
    prepareAndExecuteOutput { Engine.new with nextTxnId } (.new id 0 0) createItemsStatement [] =
      .ok ((Transaction.new id 0 0).stageCatalog (.createTable idTable), .mutation 0) := by
  have hcatalog : EngineCatalog.new { Engine.new with nextTxnId } (some (.new id 0 0)) =
    EngineCatalog.new Engine.new (some (.new 0 0 0)) := rfl
  have hbind : AsterSql.bind createItemsStatement
      (EngineCatalog.new Engine.new (some (.new 0 0 0))).catalog =
        .ok { statement := .createTable "items" idTable.schema, parameters := [] } := by
    decide
  simp only [prepareAndExecuteOutput, bind_eq_ok, liftSql_eq_ok, hcatalog, hbind]
  refine ⟨_, rfl, (), rfl, (), rfl, ?_⟩
  simp only [executeBound, bind_eq_ok, liftEngine_eq_ok, createTable_items]
  exact ⟨_, rfl, rfl⟩

end Sample

end AsterDatabase
