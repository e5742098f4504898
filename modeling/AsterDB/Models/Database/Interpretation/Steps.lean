import AsterDB.Models.Database.Interpretation.Calls
import AsterDB.Models.Engine.Interpretation.TxnIds

/-!
# Steps of a database

Whatever a call does to a database is made of three kinds of steps: a transaction id is
taken, the active transactions change, a request is published.
-/

namespace AsterDatabase

open AsterRaft (Digest Sha256)
open AsterEngine (ClientId Value Engine Transaction ApplyOutcome TxnAttempt ClientRequestId
  beginAt_eq_ok)
open AsterSql
open Std
open Fallible

namespace Database

/-- One step, by a call that may publish some requests and open some transactions. -/
inductive Step (publishes : ClientRequestId → Prop) (opens : Nat → Prop) :
    Database → Database → Prop
  | begin {db : Database} {engine : Engine} {transaction : Transaction}
      (h : db.engine.begin = .ok (engine, transaction)) : Step publishes opens db { db with engine }
  | active {db : Database} {active : ExtTreeMap Nat Transaction}
      (h : ∀ id ∈ active, id ∈ db.active ∨ opens id) : Step publishes opens db { db with active }
  | publish {db db' : Database} {applyHash fingerprint : Digest} {attempt : TxnAttempt}
      {affectedRows : Nat} {outcome : ApplyOutcome}
      (h : Publishes applyHash fingerprint attempt affectedRows outcome db db')
      (hmay : publishes attempt.request) : Step publishes opens db db'

/-- The steps of a call. -/
def Steps (publishes : ClientRequestId → Prop) (opens : Nat → Prop) : Database → Database → Prop :=
  Relation.ReflTransGen (Step publishes opens)

variable {publishes : ClientRequestId → Prop} {opens : Nat → Prop} {db db' : Database}
  {fault : Option StorageFault}

theorem Steps.refl (db : Database) : Steps publishes opens db db := Relation.ReflTransGen.refl

theorem Step.steps (h : Step publishes opens db db') : Steps publishes opens db db' := .single h

section Mono

variable {publishes' : ClientRequestId → Prop} {opens' : Nat → Prop}

theorem Step.mono (h : Step publishes opens db db')
    (hpublishes : ∀ request, publishes request → publishes' request)
    (hopens : ∀ id, opens id → opens' id) : Step publishes' opens' db db' := by
  cases h with
  | begin hbegin => exact .begin hbegin
  | active hactive => exact .active fun id hid => (hactive id hid).imp_right (hopens id)
  | publish hpublish hmay => exact .publish hpublish (hpublishes _ hmay)

theorem Steps.mono (h : Steps publishes opens db db')
    (hpublishes : ∀ request, publishes request → publishes' request)
    (hopens : ∀ id, opens id → opens' id) : Steps publishes' opens' db db' :=
  Relation.ReflTransGen.mono (fun _ _ step => step.mono hpublishes hopens) _ _ h

end Mono

/-- Ids only go up. -/
theorem Step.nextTxnId_le (h : Step publishes opens db db') :
    db.engine.nextTxnId ≤ db'.engine.nextTxnId := by
  cases h with
  | begin hbegin =>
    obtain ⟨rfl, -⟩ := beginAt_eq_ok hbegin
    exact Nat.le_succ _
  | active => exact Nat.le_refl _
  | publish hpublishes => exact (Engine.nextTxnId_applyWithRequestHash hpublishes.apply).ge

theorem Steps.nextTxnId_le (h : Steps publishes opens db db') :
    db.engine.nextTxnId ≤ db'.engine.nextTxnId := by
  induction h with
  | refl => exact Nat.le_refl _
  | tail _ hstep ih => exact ih.trans hstep.nextTxnId_le

/-- A transaction is active only if it was before or the call opened it. -/
theorem Steps.active_or_opens (h : Steps publishes opens db db') {id : Nat}
    (hid : id ∈ db'.active) : id ∈ db.active ∨ opens id := by
  induction h with
  | refl => exact .inl hid
  | tail _ hstep ih =>
    cases hstep with
    | begin => exact ih hid
    | active hactive => exact (hactive id hid).elim ih .inr
    | publish hpublishes =>
      rw [hpublishes.active] at hid
      exact ih hid

theorem steps_begin {result : Result TransactionInfo} (h : begin db = (result, db')) :
    Steps publishes (fun id => db.engine.nextTxnId ≤ id ∧ ∃ readTs, result = .ok ⟨id, readTs⟩)
      db db' := by
  rcases begin_cases h with ⟨_, -, rfl⟩ | ⟨engine, transaction, hbegin, rfl, hresult⟩
  · exact .refl _
  · refine (Step.begin hbegin).steps.tail (Step.active fun id hid => ?_)
    rcases ExtTreeMap.mem_insert.mp hid with hid | hid
    · rw [← LawfulEqCmp.eq_of_compare hid]
      rcases hresult with ⟨_, -, hreused⟩ | hok
      · exact .inl hreused
      · obtain ⟨-, rfl⟩ := beginAt_eq_ok hbegin
        exact .inr ⟨Nat.le_refl _, _, hok⟩
    · exact .inl hid

variable {transactionId : Nat}

theorem steps_rollback {result : Result Unit}
    (h : rollback transactionId db = (result, db')) : Steps publishes opens db db' := by
  rcases rollback_cases h with ⟨_, -, rfl⟩ | ⟨-, -, rfl⟩
  · exact .refl _
  · exact (Step.active fun id hid => .inl (ExtTreeMap.mem_of_mem_erase hid)).steps

variable {parsed : Spanned Statement} {parameters : List Value}
  {result : Result ExecutionResult}

theorem steps_executeInTransaction
    (h : executeInTransaction transactionId parsed parameters db = (result, db')) :
    Steps publishes opens db db' := by
  rcases executeInTransaction_cases h with ⟨_, -, rfl⟩ | ⟨_, staged, _, horiginal, -, -, rfl⟩
  · exact .refl _
  · refine (Step.active fun id hid => .inl ?_).steps
    rcases ExtTreeMap.mem_insert.mp hid with hid | hid
    · rw [← LawfulEqCmp.eq_of_compare hid]
      exact ExtTreeMap.mem_iff_isSome_getElem?.mpr (by rw [horiginal]; rfl)
    · exact hid

variable [Sha256] {clientId : ClientId} {sequence : Nat}

theorem steps_commit {result : Result CommitInfo}
    (h : commit fault clientId sequence transactionId db = (result, db'))
    (hmay : publishes ⟨clientId, sequence⟩) : Steps publishes opens db db' := by
  rcases commit_cases h with ⟨rfl, -⟩ | ⟨transaction, outcome, applyHash, -, hpublishes, hactive, -⟩
  · exact .refl _
  · have hput : Step publishes opens { db' with active := db.active } db' :=
      Step.active fun id hid => .inl (hactive id hid)
    exact (Step.publish hpublishes hmay).steps.tail hput

/-- Only a mutation publishes its request. -/
theorem steps_executeFresh {fingerprint : Digest}
    (h : executeFresh fault clientId sequence fingerprint parsed parameters db = (result, db'))
    (hmay : isMutatingStatement parsed.value = true → publishes ⟨clientId, sequence⟩) :
    Steps publishes opens db db' := by
  rcases executeFresh_cases h with ⟨_, -, -, rfl⟩ | ⟨engine, transaction, hbegin,
    ⟨_, -, -, rfl⟩ | ⟨staged, output, hprepare, ⟨-, -, rfl⟩ |
      ⟨hstaged, _, _, _, -, hpublishes, -⟩⟩⟩
  · exact .refl _
  · exact (Step.begin hbegin).steps
  · exact (Step.begin hbegin).steps
  · refine (Step.begin hbegin).steps.tail (Step.publish hpublishes (hmay ?_))
    by_contra hread
    rw [staged_of_not_mutating (Bool.eq_false_iff.mpr hread) hprepare] at hstaged
    obtain ⟨-, rfl⟩ := beginAt_eq_ok hbegin
    cases hstaged

theorem steps_executeAutocommit {sql : String}
    (h : executeAutocommit fault clientId sequence sql parsed parameters db = (result, db'))
    (hmay : isMutatingStatement parsed.value = true → publishes ⟨clientId, sequence⟩) :
    Steps publishes opens db db' := by
  rcases hfingerprint : sqlFingerprint sql parameters with error | fingerprint
  · rw [executeAutocommit_of_error hfingerprint] at h
    cases h
    exact .refl _
  · rw [executeAutocommit_apply hfingerprint] at h
    split at h
    · cases h
      exact .refl _
    · cases h
      exact .refl _
    · exact steps_executeFresh h hmay

/-- Statements that publish the request they come with. -/
def isWrite (transactionId : Option Nat) : Statement → Bool
  | .commit => true
  | statement => transactionId.isNone && isMutatingStatement statement

omit [Sha256] in
theorem isWrite_eq_true {transactionId : Option Nat} {statement : Statement} :
    isWrite transactionId statement = true ↔
      statement = .commit ∨ transactionId = none ∧ isMutatingStatement statement = true := by
  cases statement <;> simp [isWrite, isMutatingStatement]

variable [Unicode]

theorem steps_execute {transactionId : Option Nat} {sql : String}
    (h : execute fault clientId sequence transactionId sql parameters db = (result, db'))
    (hmay : ∀ parsed, parseStatement sql = .ok parsed → isWrite transactionId parsed.value = true →
      publishes ⟨clientId, sequence⟩) :
    Steps publishes (fun id => db.engine.nextTxnId ≤ id ∧ ∃ span readTs,
      parseStatement sql = .ok ⟨.begin, span⟩ ∧ result = .ok (.transaction ⟨id, readTs⟩)) db
        db' := by
  refine Call.lift_bind_elim h (fun _ _ => .refl _) fun parsed hparsed h => ?_
  rw [liftSql_eq_ok] at hparsed
  replace hmay := hmay parsed hparsed
  obtain ⟨value, span⟩ := parsed
  cases value with
  | begin =>
    refine Call.lift_bind_elim h (fun _ _ => .refl _) fun _ _ h => ?_
    refine Call.lift_bind_elim h (fun _ _ => .refl _) fun _ _ h => ?_
    rcases Call.bind_cases h with ⟨error, hbegin, rfl⟩ | ⟨info, middle, hbegin, h⟩
    · exact (steps_begin hbegin).mono (fun _ h => h) fun _ ⟨_, _, hopened⟩ => by cases hopened
    · cases h
      exact (steps_begin hbegin).mono (fun _ h => h) fun _ ⟨hnew, readTs, hopened⟩ =>
        ⟨hnew, span, readTs, hparsed, by cases hopened; rfl⟩
  | commit =>
    refine Call.lift_bind_elim h (fun _ _ => .refl _) fun _ _ h => ?_
    refine Call.lift_bind_elim h (fun _ _ => .refl _) fun _ _ h => ?_
    rcases Call.bind_cases h with ⟨_, hcommit, -⟩ | ⟨_, _, hcommit, h⟩
    · exact steps_commit hcommit (hmay rfl)
    · cases h
      exact steps_commit hcommit (hmay rfl)
  | rollback =>
    refine Call.lift_bind_elim h (fun _ _ => .refl _) fun _ _ h => ?_
    refine Call.lift_bind_elim h (fun _ _ => .refl _) fun _ _ h => ?_
    rcases Call.bind_cases h with ⟨_, hrollback, -⟩ | ⟨_, _, hrollback, h⟩
    · exact steps_rollback hrollback
    · cases h
      exact steps_rollback hrollback
  | _ =>
    cases transactionId with
    | some transactionId => exact steps_executeInTransaction h
    | none => exact steps_executeAutocommit h fun hmutating => hmay hmutating

end Database

end AsterDatabase
