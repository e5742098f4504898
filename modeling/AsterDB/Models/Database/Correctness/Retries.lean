import AsterDB.Models.Database.Interpretation.Durability
import AsterDB.Models.Database.Interpretation.Staging

/-!
# Retries

A mutation of a client that was carried out is answered from its record when it comes again,
and the client's next request is not refused, whatever other calls come in between. This holds
for a statement that creates or inserts, and for an UPDATE or DELETE that selects a row; one
that selects none is not recorded.
-/

namespace AsterDatabase

open AsterRaft (Digest Sha256 u64Max zeroHash)
open AsterEngine (ClientId Value Engine Transaction ClientRequestId RequestRejection RowsFit
  TxnAttempt)
open AsterSql
open Std
open Fallible

namespace Database

/-- Rows fit along steps. -/
theorem rowsFit_of_steps {publishes : ClientRequestId → Prop} {opens : Nat → Prop}
    {db db' : Database} (h : Steps publishes opens db db') (hrows : RowsFit db.engine) :
    RowsFit db'.engine := by
  induction h with
  | refl => exact hrows
  | tail _ hstep ih =>
    cases hstep with
    | begin hbegin => exact ih.change (AsterEngine.change_beginAt hbegin)
    | active => exact ih
    | publish hpublishes =>
      exact ih.change
        (AsterEngine.change_applyWithRequestHash (Nat.succ_ne_self _) hpublishes.apply)

/-- Calls of clients. -/
inductive Operation where
  | begin
  | rollback (transactionId : Nat)
  | commit (fault : Option StorageFault) (clientId : ClientId) (sequence transactionId : Nat)
  | execute (fault : Option StorageFault) (clientId : ClientId) (sequence : Nat)
      (transactionId : Option Nat) (sql : String) (parameters : List Value)

namespace Operation

variable [Sha256] [Unicode]

/-- The database after a call. -/
def next : Operation → Database → Database
  | .begin, db => (Database.begin db).2
  | .rollback transactionId, db => (Database.rollback transactionId db).2
  | .commit fault clientId sequence transactionId, db =>
    (Database.commit fault clientId sequence transactionId db).2
  | .execute fault clientId sequence transactionId sql parameters, db =>
    (Database.execute fault clientId sequence transactionId sql parameters db).2

/-- A call that ends with a refused request. -/
def Refused (rejection : RequestRejection) : Operation → Database → Prop
  | .begin, db => (Database.begin db).1 = .error (.requestRejected rejection)
  | .rollback transactionId, db =>
    (Database.rollback transactionId db).1 = .error (.requestRejected rejection)
  | .commit fault clientId sequence transactionId, db =>
    (Database.commit fault clientId sequence transactionId db).1 =
      .error (.requestRejected rejection)
  | .execute fault clientId sequence transactionId sql parameters, db =>
    (Database.execute fault clientId sequence transactionId sql parameters db).1 =
      .error (.requestRejected rejection)

/-- A call that carries out a mutating request: an autocommit mutation or a commit. -/
def Sends (request : ClientRequestId) : Operation → Prop
  | .begin | .rollback _ => False
  | .commit _ clientId sequence _ => request = ⟨clientId, sequence⟩
  | .execute _ clientId sequence transactionId sql _ => request = ⟨clientId, sequence⟩ ∧
    ∃ parsed, parseStatement sql = .ok parsed ∧ isWrite transactionId parsed.value = true

theorem steps (operation : Operation) (db : Database) :
    Steps (fun request => operation.Sends request) (fun _ => True) db (operation.next db) := by
  cases operation with
  | begin => exact (steps_begin rfl).mono (fun _ h => h) fun _ _ => trivial
  | rollback transactionId => exact steps_rollback rfl
  | commit fault clientId sequence transactionId => exact steps_commit rfl rfl
  | execute fault clientId sequence transactionId sql parameters =>
    exact (steps_execute rfl fun parsed hparsed hwrite => ⟨rfl, parsed, hparsed, hwrite⟩).mono
      (fun _ h => h) fun _ _ => trivial

end Operation

section Calls

variable [Sha256] [Unicode]

/-- A history of calls. -/
def after (operations : List Operation) (db : Database) : Database :=
  operations.foldl (fun db operation => operation.next db) db

theorem steps_after (operations : List Operation) (db : Database) :
    Steps (fun request => ∃ operation ∈ operations, operation.Sends request) (fun _ => True) db
      (after operations db) := by
  induction operations generalizing db with
  | nil => exact .refl _
  | cons operation operations ih =>
    refine Relation.ReflTransGen.trans ((operation.steps db).mono ?_ fun _ h => h)
      ((ih _).mono ?_ fun _ h => h)
    · exact fun _ hsends => ⟨operation, List.mem_cons_self, hsends⟩
    · exact fun _ ⟨other, hother, hsends⟩ => ⟨other, List.mem_cons_of_mem _ hother, hsends⟩

variable {db db' : Database} {fault : Option StorageFault} {clientId : ClientId}
  {sequence : Nat} {sql : String} {parameters : List Value} {parsed : Spanned Statement}
  {fingerprint : Digest} {record : DurableRequestRecord}

theorem execute_of_mutating (hparsed : parseStatement sql = .ok parsed)
    (hmutating : isMutatingStatement parsed.value = true) :
    execute fault clientId sequence none sql parameters db =
      executeAutocommit fault clientId sequence sql parsed parameters db := by
  unfold execute
  rw [hparsed]
  obtain ⟨value, span⟩ := parsed
  cases value with
  | begin | commit | rollback | select | explain => cases hmutating
  | _ => rfl

/-- A record that answers a request. -/
structure Answers (record : DurableRequestRecord) (sequence : Nat) (fingerprint : Digest) :
    Prop where
  sequence : record.sequence = sequence
  fingerprint : record.fingerprint = fingerprint
  committed : ∃ index rows epoch, record.result = .committed index rows epoch

/-- A request with a record is answered from it. -/
theorem execute_of_record (hparsed : parseStatement sql = .ok parsed)
    (hmutating : isMutatingStatement parsed.value = true)
    (hfingerprint : sqlFingerprint sql parameters = .ok fingerprint)
    (hrecord : db.requests[clientId]? = some record)
    (hanswers : Answers record sequence fingerprint) :
    execute fault clientId sequence none sql parameters db =
      (.ok (.query { columns := [], rows := [], affectedRows := record.affectedRows
                     appliedIndex := db.engine.lastApplied }), db) := by
  obtain ⟨index, rows, epoch, hcommitted⟩ := hanswers.committed
  have hreplay : replayStatement db.requests parsed.value clientId sequence fingerprint =
      .ok (some record) := by
    simp [replayStatement, hmutating, replayRecord, hrecord, hanswers.sequence,
      hanswers.fingerprint]
  rw [execute_of_mutating hparsed hmutating, executeAutocommit_apply hfingerprint, hreplay]
  dsimp only
  rw [mutationResultFromRecord, hcommitted]
  rfl

section Next

variable (hok : Ok db) (hrecord : db.requests[clientId]? = some record)
  (hmax : record.sequence + 1 ≤ u64Max)
include hrecord

omit [Sha256] [Unicode] in
theorem replayRecord_next (fingerprint : Digest) :
    replayRecord db.requests clientId (record.sequence + 1) fingerprint = .ok none := by
  simp [replayRecord, hrecord]

include hok hmax

omit [Sha256] [Unicode] in
theorem Publishes.not_rejected {applyHash fingerprint : Digest} {attempt : TxnAttempt}
    {affectedRows : Nat} {rejection : RequestRejection}
    (hrequest : attempt.request = ⟨clientId, record.sequence + 1⟩) :
    ¬Publishes applyHash fingerprint attempt affectedRows (.rejected rejection) db db' := by
  intro h
  obtain ⟨known, hknown, hsequence, -⟩ := known_of_record hok.valid hrecord
  have hadmission := h.admission
  rw [hrequest, AsterEngine.admitRequest_next hknown (by rw [hsequence]) hmax] at hadmission
  cases hadmission

omit [Unicode] in
theorem commit_not_refused {transactionId : Nat} (rejection : RequestRejection) :
    (commit fault clientId (record.sequence + 1) transactionId db).1 ≠
      .error (.requestRejected rejection) := by
  intro herror
  rcases hcall : commit fault clientId (record.sequence + 1) transactionId db with ⟨result, db'⟩
  rw [hcall] at herror
  rcases commit_cases hcall with ⟨-, hreplay⟩ |
    ⟨transaction, outcome, applyHash, -, hpublishes, -, hout⟩
  · have hreplayed := hreplay rejection herror
    rw [replayRecord_next hrecord] at hreplayed
    cases hreplayed
  · rw [hout rejection herror] at hpublishes
    exact Publishes.not_rejected hok hrecord hmax rfl hpublishes

omit [Unicode] in
theorem executeAutocommit_not_refused (hmutating : isMutatingStatement parsed.value = true)
    (rejection : RequestRejection) :
    (executeAutocommit fault clientId (record.sequence + 1) sql parsed parameters db).1 ≠
      .error (.requestRejected rejection) := by
  intro herror
  rcases hfingerprint : sqlFingerprint sql parameters with error | fingerprint
  · rw [executeAutocommit_of_error hfingerprint] at herror
    have hplain : Fails Plain (sqlFingerprint sql parameters) :=
      (plain_liftCodec _).bind fun _ _ => fails_pure _
    exact hplain _ hfingerprint rejection (Except.error.inj herror)
  rw [executeAutocommit_apply hfingerprint, replayStatement, hmutating,
    replayRecord_next hrecord] at herror
  rcases hcall : executeFresh fault clientId (record.sequence + 1) fingerprint parsed parameters db
    with ⟨result, db'⟩
  rw [hcall] at herror
  rcases executeFresh_cases hcall with
    ⟨error, rfl, hplain, -⟩ | ⟨engine, transaction, hbegin, hcases⟩
  · exact hplain rejection (Except.error.inj herror)
  have hstep : Step (fun _ => True) (fun _ => True) db { db with engine } := .begin hbegin
  have hbegun := hok.step hstep
  rcases hcases with ⟨error, rfl, hplain, -⟩ | ⟨staged, output, -, ⟨-, rfl, -⟩ |
    ⟨-, affected, outcome, applyHash, -, hpublishes, rfl⟩⟩
  · exact hplain hmutating rejection (Except.error.inj herror)
  · cases herror
  · cases outcome with
    | applied committed | duplicate committed =>
      exact plain_mutationResult _ _ _ _ herror rejection rfl
    | rejected refused =>
      exact Publishes.not_rejected hbegun hrecord hmax rfl hpublishes
    | noop => cases herror

theorem execute_commit_not_refused {transactionId : Option Nat}
    (hparsed : parseStatement sql = .ok parsed) (hcommit : parsed.value = .commit)
    (rejection : RequestRejection) :
    (execute fault clientId (record.sequence + 1) transactionId sql parameters db).1 ≠
      .error (.requestRejected rejection) := by
  intro herror
  rcases hcall : execute fault clientId (record.sequence + 1) transactionId sql parameters db with
    ⟨result, db'⟩
  rw [hcall] at herror
  rcases Call.lift_bind_cases hcall with ⟨_, hfail, -⟩ | ⟨again, hagain, hrun⟩
  · rw [hparsed] at hfail
    cases hfail
  rw [hparsed] at hagain
  cases hagain
  obtain ⟨value, span⟩ := parsed
  cases hcommit
  rcases Call.lift_bind_cases hrun with ⟨error, hfail, rfl, -⟩ | ⟨id, -, hrun⟩
  · exact fails_orFail (P := Plain) (fun _ h => by cases h) _ hfail rejection
      (Except.error.inj herror)
  rcases Call.lift_bind_cases hrun with ⟨error, hfail, rfl, -⟩ | ⟨_, -, hrun⟩
  · exact fails_failIf (P := Plain) (fun _ h => by cases h) _ hfail rejection
      (Except.error.inj herror)
  rcases Call.bind_cases hrun with ⟨error, hinner, rfl⟩ | ⟨info, middle, -, hrun⟩
  · refine commit_not_refused hok hrecord hmax rejection (?_ : (commit fault _ _ id db).1 = _)
    rw [hinner]
    exact congrArg Except.error (Except.error.inj herror)
  · cases hrun
    cases herror

/-- The next request of a client is not refused. -/
theorem not_refused {operation : Operation}
    (hsends : operation.Sends ⟨clientId, record.sequence + 1⟩) (rejection : RequestRejection) :
    ¬operation.Refused rejection db := by
  cases operation with
  | begin | rollback => exact hsends.elim
  | commit fault other otherSequence transactionId =>
    cases hsends
    exact commit_not_refused hok hrecord hmax rejection
  | execute fault other otherSequence transactionId sql parameters =>
    obtain ⟨hrequest, parsed, hparsed, hwrite⟩ := hsends
    cases hrequest
    intro herror
    change (Database.execute fault clientId (record.sequence + 1) transactionId sql parameters
      db).1 = _ at herror
    rcases isWrite_eq_true.mp hwrite with hcommit | ⟨rfl, hmutating⟩
    · exact execute_commit_not_refused hok hrecord hmax hparsed hcommit rejection herror
    · rw [execute_of_mutating hparsed hmutating] at herror
      exact executeAutocommit_not_refused hok hrecord hmax hmutating rejection herror

end Next

omit [Sha256] [Unicode] in
theorem replayRecord_eq_some {requests : DurableRequests} :
    replayRecord requests clientId sequence fingerprint = .ok (some record) ↔
      requests[clientId]? = some record ∧ record.sequence = sequence ∧
        record.fingerprint = fingerprint := by
  unfold replayRecord
  cases requests[clientId]? with
  | none => simp
  | some other =>
    dsimp only
    split
    next hne =>
      refine iff_of_false nofun ?_
      rintro ⟨⟨⟩, hsequence, -⟩
      exact hne hsequence
    next heq =>
      split
      next hne =>
        refine iff_of_false nofun ?_
        rintro ⟨⟨⟩, -, hfingerprint⟩
        exact hne hfingerprint
      next hsame =>
        rw [not_not] at heq hsame
        constructor
        · rintro ⟨⟩
          exact ⟨rfl, heq, hsame⟩
        · rintro ⟨⟨⟩, -⟩
          rfl

variable {result : ExecutionResult}

omit [Sha256] [Unicode] in
theorem mutationResult_eq_ok {committed : AsterEngine.CommitResult}
    {affectedRows appliedIndex : Nat} :
    mutationResult committed affectedRows appliedIndex = .ok result ↔
      (∃ index rows epoch, committed = .committed index rows epoch) ∧
        result = .query { columns := [], rows := [], affectedRows, appliedIndex } := by
  cases committed with
  | committed index rows epoch =>
    constructor
    · rintro ⟨⟩
      exact ⟨⟨index, rows, epoch, rfl⟩, rfl⟩
    · rintro ⟨-, rfl⟩
      rfl
  | aborted => exact iff_of_false nofun (by rintro ⟨⟨_, _, _, ⟨⟩⟩, -⟩)

/-- A mutation is recorded already, or it stages something. -/
def Records (db : Database) (clientId : ClientId) (sequence : Nat) (sql : String)
    (parsed : Spanned Statement) (parameters : List Value) : Prop :=
  ∀ fingerprint, sqlFingerprint sql parameters = .ok fingerprint →
    replayRecord db.requests clientId sequence fingerprint = .ok none →
    ∀ engine transaction, db.engine.begin = .ok (engine, transaction) →
      ∀ bound, AsterSql.bind parsed (EngineCatalog.new engine (some transaction)).catalog =
        .ok bound → Affects engine transaction parameters bound.statement

omit [Unicode] in
/-- A mutation that was carried out is recorded. -/
theorem recorded_of_executeAutocommit (hok : Ok db)
    (hrows : RowsFit db.engine) (hmutating : isMutatingStatement parsed.value = true)
    (hfingerprint : sqlFingerprint sql parameters = .ok fingerprint)
    (hrecords : Records db clientId sequence sql parsed parameters)
    (h : executeAutocommit fault clientId sequence sql parsed parameters db = (.ok result, db')) :
    ∃ record, db'.requests[clientId]? = some record ∧ Answers record sequence fingerprint ∧
      result = .query { columns := [], rows := [], affectedRows := record.affectedRows
                        appliedIndex := db'.engine.lastApplied } := by
  rw [executeAutocommit_apply hfingerprint, replayStatement, hmutating, if_pos rfl] at h
  split at h
  · cases h
  next record hreplay =>
    obtain ⟨hrecord, hsequence, hsame⟩ := replayRecord_eq_some.mp hreplay
    obtain ⟨hresult, rfl⟩ := Prod.mk.inj h
    obtain ⟨hcommitted, rfl⟩ := mutationResult_eq_ok.mp hresult
    exact ⟨record, hrecord, ⟨hsequence, hsame, hcommitted⟩, rfl⟩
  next hreplay =>
    rcases executeFresh_cases h with ⟨_, hresult, -⟩ | ⟨engine, transaction, hbegin, hcases⟩
    · cases hresult
    have hstep : Step (fun _ => True) (fun _ => True) db { db with engine } := .begin hbegin
    have hbegun := hok.step hstep
    have hfit : RowsFit engine := rowsFit_of_steps hstep.steps hrows
    have haffects := hrecords fingerprint hfingerprint hreplay engine transaction hbegin
    obtain ⟨-, rfl⟩ := AsterEngine.beginAt_eq_ok hbegin
    rcases hcases with ⟨_, hresult, -⟩ | ⟨staged, output, hprepare, ⟨hreadOnly, -⟩ |
      ⟨-, affected, outcome, applyHash, -, hpublishes, hresult⟩⟩
    · cases hresult
    · rw [isReadOnly_of_affects hbegun.restorable.consistent.catalog hfit hmutating haffects
        hprepare] at hreadOnly
      cases hreadOnly
    · cases outcome with
      | applied committed =>
        obtain ⟨hcommitted, rfl⟩ := mutationResult_eq_ok.mp hresult.symm
        refine ⟨{ sequence, fingerprint, result := committed, affectedRows := affected }, ?_,
          ⟨rfl, rfl, hcommitted⟩, rfl⟩
        rw [← Except.ok.inj hpublishes.record]
        exact ExtTreeMap.getElem?_insert_self
      | duplicate committed =>
        -- the engine knows the request only if it is recorded
        obtain ⟨record, hrecord, hsequence, hsame, -⟩ :=
          record_of_duplicate hbegun hpublishes.admission
        have hanswered :
            replayRecord db.requests clientId sequence fingerprint = .ok (some record) :=
          replayRecord_eq_some.mpr ⟨hrecord, hsequence, hsame⟩
        rw [hreplay] at hanswered
        cases hanswered
      | rejected | noop => cases hresult

/-- Exactly once: a mutation that was carried out is answered the same when it comes again, and
changes nothing then; the client's next request is not refused. Other calls may come in between, but
not the client's next request. -/
theorem execute_exactly_once {limit : Nat} {start : Database} {before between : List Operation}
    {result : ExecutionResult} (hopen : openWithOptions .genesis limit = .ok start)
    (hparsed : parseStatement sql = .ok parsed)
    (hmutating : isMutatingStatement parsed.value = true)
    (hcall : execute fault clientId sequence none sql parameters (after before start) =
      (.ok result, db'))
    (hrecords : Records (after before start) clientId sequence sql parsed parameters)
    (hbetween : ∀ operation ∈ between, ¬operation.Sends ⟨clientId, sequence + 1⟩) :
    (∃ answer, result = .query answer ∧ ∀ again,
      execute again clientId sequence none sql parameters (after between db') =
        (.ok (.query { answer with appliedIndex := (after between db').engine.lastApplied }),
          after between db')) ∧
      (sequence + 1 ≤ u64Max → ∀ operation : Operation, operation.Sends ⟨clientId, sequence + 1⟩ →
        ∀ rejection, ¬operation.Refused rejection (after between db')) := by
  have hok : Ok (after before start) := (Ok.openGenesis hopen).steps (steps_after before start)
  have hrows : RowsFit (after before start).engine := by
    refine rowsFit_of_steps (steps_after before start) ?_
    simp only [openWithOptions, bind_eq_ok, pure_eq_ok] at hopen
    obtain ⟨-, -, _, ⟨⟩, rfl⟩ := hopen
    exact .new
  have hok' : Ok db' := by
    refine hok.steps (?_ : Steps (fun _ => True) (fun _ => True) _ _)
    exact (steps_execute hcall fun _ _ _ => trivial).mono (fun _ h => h) fun _ _ => trivial
  rw [execute_of_mutating hparsed hmutating] at hcall
  rcases hfingerprint : sqlFingerprint sql parameters with error | fingerprint
  · rw [executeAutocommit_of_error hfingerprint] at hcall
    cases hcall
  obtain ⟨record, hrecord, hanswers, rfl⟩ := recorded_of_executeAutocommit hok hrows hmutating
    hfingerprint hrecords hcall
  have hlater : Ok (after between db') := hok'.steps (steps_after between db')
  have hkept : (after between db').requests[clientId]? = some record := by
    refine (steps_after between db').keeps hok' hrecord ?_
    rintro request ⟨operation, hmem, hsends⟩ rfl
    rw [hanswers.sequence] at hsends
    exact hbetween operation hmem hsends
  refine ⟨⟨_, rfl, fun again => ?_⟩, fun hmax operation hsends rejection => ?_⟩
  · exact execute_of_record hparsed hmutating hfingerprint hkept hanswers
  · rw [← hanswers.sequence] at hmax hsends
    exact not_refused hlater hkept hmax hsends rejection

end Calls

section Sample

attribute [local instance] zeroHash asciiText

def emptyDatabase : Database where
  engine := .new
  active := ∅
  requests := ∅
  durable := .genesis
  maxActiveTransactions := 1

/-- The database after its first request created a table. -/
def itemsDatabase : Database :=
  (applyTransaction none ((Transaction.new 1 0 0).stageCatalog (.createTable idTable))
    (Vector.replicate 16 1) 1 (Vector.replicate 32 0) 0
    { emptyDatabase with engine := { Engine.new with nextTxnId := 2 } }).2

theorem execute_createItems :
    execute none (Vector.replicate 16 1) 1 none createItemsText [] emptyDatabase =
      (.ok (.query { columns := [], rows := [], affectedRows := 0, appliedIndex := 1 }),
        itemsDatabase) := by
  have hbegin : liftEngine emptyDatabase.engine.begin =
    .ok ({ Engine.new with nextTxnId := 2 }, .new 1 0 0) := rfl
  have hfingerprint : sqlFingerprint createItemsText [] = .ok (Vector.replicate 32 0) := by
    decide
  rw [execute_of_mutating parseStatement_createItems rfl, executeAutocommit_apply hfingerprint]
  have hreplay : replayStatement emptyDatabase.requests createItemsStatement.value
    (Vector.replicate 16 1) 1 (Vector.replicate 32 0) = .ok none := by decide
  unfold executeFresh
  rw [Call.get_bind, hbegin, Call.lift_ok_bind]
  dsimp only
  rw [Call.set_bind, prepareAndExecuteOutput_createItems 1 2, Call.lift_ok_bind]
  have happly : applyTransaction none ((Transaction.new 1 0 0).stageCatalog (.createTable idTable))
      (Vector.replicate 16 1) 1 (Vector.replicate 32 0) 0
      { emptyDatabase with engine := { Engine.new with nextTxnId := 2 } } =
        (.ok (.applied (.committed 1 0 1)), itemsDatabase) := by
    refine Prod.ext ?_ rfl
    decide +kernel
  have happlied : itemsDatabase.engine.lastApplied = 1 := by decide +kernel
  rw [if_neg (by simp [isReadOnly_stageCatalog]), affectedRows, Call.lift_ok_bind,
    Call.bind_of_ok happly]
  dsimp only
  rw [Call.get_bind, happlied]
  rfl

theorem after_createItems :
    after [.execute none (Vector.replicate 16 1) 1 none createItemsText []] emptyDatabase =
      itemsDatabase :=
  congrArg Prod.snd execute_createItems

/-- A client clears an empty table, which is not recorded, so that its next request leaves a gap. -/
theorem execute_delete_none : ∃ start db answer, openWithOptions .genesis 1 = .ok start ∧
    execute none (Vector.replicate 16 1) 2 none "DELETE FROM items" []
      (after [.execute none (Vector.replicate 16 1) 1 none createItemsText []] start) =
        (.ok (.query answer), db) ∧
    (Operation.execute none (Vector.replicate 16 1) 3 none "INSERT INTO items VALUES (1)"
      []).Refused (.sequenceGap 2 3) db := by
  refine ⟨emptyDatabase, _, { columns := [], rows := [], affectedRows := 0, appliedIndex := 1 },
    rfl, Prod.ext ?_ rfl, ?_⟩
  · rw [after_createItems]
    decide +kernel
  · rw [after_createItems]
    change (execute _ _ _ _ _ _ _).1 = _
    decide +kernel

def insertItemText : String := "INSERT INTO items VALUES (1)"

def insertItemStatement : Spanned Statement where
  value := .insert {
    table := ⟨"items", false, ⟨12, 17⟩⟩
    columns := none
    values := [.literal (.int64 1) ⟨26, 27⟩] }
  span := ⟨0, 28⟩

/-- The request of another client. -/
def otherInsert : Operation :=
  .execute none (Vector.replicate 16 2) 1 none "INSERT INTO items VALUES (2)" []

/-- A client inserts a row after it created the table, and is told so again after another client
inserted one. -/
theorem execute_insertItem_twice : ∃ start db answer, openWithOptions .genesis 1 = .ok start ∧
    execute none (Vector.replicate 16 1) 2 none insertItemText []
      (after [.execute none (Vector.replicate 16 1) 1 none createItemsText []] start) =
        (.ok (.query answer), db) ∧
    (after [otherInsert] db).engine.lastApplied = 3 ∧
    execute none (Vector.replicate 16 1) 2 none insertItemText [] (after [otherInsert] db) =
      (.ok (.query { answer with appliedIndex := (after [otherInsert] db).engine.lastApplied }),
        after [otherInsert] db) := by
  have hopen : openWithOptions .genesis 1 = .ok emptyDatabase := rfl
  have hparsed : parseStatement insertItemText = .ok insertItemStatement := by decide +kernel
  have hrecords : Records itemsDatabase (Vector.replicate 16 1) 2 insertItemText
      insertItemStatement [] := by
    intro fingerprint _ _ engine transaction hbegin bound hbound
    obtain ⟨rfl, rfl⟩ := AsterEngine.beginAt_eq_ok hbegin
    have hbind : AsterSql.bind insertItemStatement (EngineCatalog.new { itemsDatabase.engine with
        nextTxnId := itemsDatabase.engine.nextTxnId + 1 } (some (.new itemsDatabase.engine.nextTxnId
          itemsDatabase.engine.lastApplied itemsDatabase.engine.catalog.schemaEpoch))).catalog =
        .ok { statement := .insert ⟨1, "items", idTable.schema⟩ [.literal (.int64 1) ⟨26, 27⟩]
              parameters := [] } := by
      decide +kernel
    cases hbind.symm.trans hbound
    exact trivial
  have hcall : (execute none (Vector.replicate 16 1) 2 none insertItemText [] itemsDatabase).1 =
      .ok (.query { columns := [], rows := [], affectedRows := 1, appliedIndex := 2 }) := by
    decide +kernel
  rw [← after_createItems] at hcall hrecords
  have hbetween : ∀ operation ∈ [otherInsert],
      ¬operation.Sends ⟨Vector.replicate 16 1, 2 + 1⟩ := by
    rintro _ (_ | ⟨_, ⟨⟩⟩) ⟨hrequest, -⟩
    exact absurd hrequest (by decide)
  obtain ⟨⟨answer, hanswer, hagain⟩, -⟩ := execute_exactly_once hopen hparsed rfl
    (Prod.ext hcall rfl) hrecords hbetween
  cases hanswer
  refine ⟨_, _, _, hopen, Prod.ext hcall rfl, ?_, hagain none⟩
  rw [after_createItems]
  decide +kernel

end Sample

end Database

end AsterDatabase
