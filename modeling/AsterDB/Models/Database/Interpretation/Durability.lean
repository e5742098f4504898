import AsterDB.Models.Database.Interpretation.Steps
import AsterDB.Models.Engine.Correctness.Requests

/-!
# What the files hold

The state in place and the state in the files differ in the next transaction id at most.
The records agree with the clients of the engine, and a record stays until its client's
next request is published.
-/

namespace AsterDatabase

open AsterRaft (Digest)
open AsterEngine (ClientId Engine EngineSnapshot Transaction ApplyOutcome TxnAttempt ClientRequestId
  ClientRecord Restorable)
open Std
open Fallible

section Records

variable {engine : Engine} {requests : DurableRequests} {client : ClientId}

/-- What a record says is what the engine knows of its client. -/
def DurableRequestRecord.Mirrors (record : DurableRequestRecord) (known : ClientRecord) : Prop :=
  record.sequence = known.sequence ∧ record.fingerprint = known.requestHash ∧
    record.result = known.result

theorem known_of_record (h : validateDurableRequests engine requests = .ok ())
    {record : DurableRequestRecord} (hrecord : requests[client]? = some record) :
    ∃ known, engine.clients[client]? = some known ∧ record.Mirrors known := by
  simp only [validateDurableRequests, bind_eq_ok, forM_eq_ok] at h
  obtain ⟨-, -, hall⟩ := h
  have hentry := hall (client, record) (ExtTreeMap.mem_toList_iff_getElem?_eq_some.mpr hrecord)
  simp only [validateDurableRequest, bind_eq_ok, orFail_eq_ok, failIf_eq_ok, not_or, not_not]
    at hentry
  exact hentry

theorem record_of_known (h : validateDurableRequests engine requests = .ok ())
    {known : ClientRecord} (hknown : engine.clients[client]? = some known) :
    ∃ record, requests[client]? = some record ∧ record.Mirrors known := by
  have hsize : engine.clients.size = requests.size := by
    simp only [validateDurableRequests, bind_eq_ok, failIf_eq_ok, exists_const, not_not] at h
    exact h.1
  have hsub : ∀ client ∈ requests, client ∈ engine.clients := by
    intro client hclient
    rw [ExtTreeMap.mem_iff_isSome_getElem?, Option.isSome_iff_exists] at hclient ⊢
    obtain ⟨record, hrecord⟩ := hclient
    obtain ⟨known, hknown, -⟩ := known_of_record h hrecord
    exact ⟨known, hknown⟩
  have hmem : client ∈ requests := mem_of_size_eq hsub hsize
    (ExtTreeMap.mem_iff_isSome_getElem?.mpr (Option.isSome_iff_exists.mpr ⟨known, hknown⟩))
  rw [ExtTreeMap.mem_iff_isSome_getElem?, Option.isSome_iff_exists] at hmem
  obtain ⟨record, hrecord⟩ := hmem
  obtain ⟨known', hknown', hmirrors⟩ := known_of_record h hrecord
  rw [hknown] at hknown'
  cases hknown'
  exact ⟨record, hrecord, hmirrors⟩

end Records

namespace Durable

variable {durable : Durable} {engine : Engine} {requests : DurableRequests}

/-- What files with an applied index load as. -/
theorem loadState_of_applied {index : Nat} {snapshot : EngineSnapshot} {stored : DurableRequests}
    (hindex : durable.appliedIndex = index + 1) (hstate : durable.state = some (snapshot, stored)) :
    durable.loadState = .ok (engine, requests) ↔ Engine.fromSnapshot snapshot = .ok engine ∧
      validateDurableRequests engine stored = .ok () ∧ engine.lastApplied = index + 1 ∧
      engine.lastApplyHash = some durable.stateHash ∧ stored = requests := by
  simp only [loadState, hindex, hstate, bind_eq_ok, liftEngine_eq_ok, failIf_eq_ok, pure_eq_ok,
    Prod.mk.injEq, exists_const, not_not]
  constructor
  · rintro ⟨engine, hengine, ⟨⟩, hvalid, hlast, hhash, rfl, rfl⟩
    exact ⟨hengine, hvalid, hlast, hhash, rfl⟩
  · rintro ⟨hengine, hvalid, hlast, hhash, rfl⟩
    exact ⟨engine, hengine, (), hvalid, hlast, hhash, rfl, rfl⟩

theorem of_loadState (h : durable.loadState = .ok (engine, requests)) :
    Restorable engine ∧ validateDurableRequests engine requests = .ok () := by
  rcases hindex : durable.appliedIndex with _ | index <;>
    rcases hstate : durable.state with _ | ⟨snapshot, stored⟩
  · simp only [loadState, hindex, hstate] at h
    cases h
    exact ⟨.new, rfl⟩
  · simp only [loadState, hindex, hstate] at h
    cases h
  · simp only [loadState, hindex, hstate] at h
    cases h
  · obtain ⟨hengine, hvalid, -, -, rfl⟩ := (loadState_of_applied hindex hstate).mp h
    exact ⟨.of_fromSnapshot hengine, hvalid⟩

end Durable

namespace Database

/-- The files hold the state in place, up to the next transaction id. -/
structure Ok (db : Database) : Prop where
  restorable : Restorable db.engine
  valid : validateDurableRequests db.engine db.requests = .ok ()
  index : db.durable.appliedIndex = db.engine.lastApplied
  loads : ∃ id, db.durable.loadState = .ok (db.engine.withTxnId id, db.requests)

namespace Ok

variable {db db' : Database} {publishes : ClientRequestId → Prop} {opens : Nat → Prop}

theorem openGenesis {limit : Nat} (h : openWithOptions .genesis limit = .ok db) : Ok db := by
  simp only [openWithOptions, bind_eq_ok, pure_eq_ok] at h
  obtain ⟨-, -, ⟨engine, requests⟩, hload, rfl⟩ := h
  cases hload
  exact ⟨.new, rfl, rfl, _, rfl⟩

/-- A persisted engine can be loaded. -/
theorem of_persist {engine : Engine} {requests : DurableRequests} {durable : Durable}
    (hrestorable : Restorable engine)
    (hpersist : db.durable.persistState none engine requests = .ok durable) :
    Ok { db with engine, requests, durable } := by
  obtain ⟨-, hindex, hvalid, -, hash, hhash, rfl⟩ := Durable.persistState_eq_ok.mp hpersist
  exact ⟨hrestorable, hvalid, rfl, engine.nextTxnId,
    (Durable.loadState_of_applied hindex rfl).mpr
      ⟨hrestorable.fromSnapshot, hvalid, hindex, hhash, rfl⟩⟩

theorem reopen {limit : Nat} (h : Ok db) (hopen : openWithOptions db.durable limit = .ok db') :
    (∃ id, db'.engine = db.engine.withTxnId id) ∧ db'.requests = db.requests ∧
      db'.durable = db.durable ∧ db'.active = ∅ ∧ Ok db' := by
  obtain ⟨id, hloads⟩ := h.loads
  simp only [openWithOptions, hloads, bind_eq_ok, pure_eq_ok] at hopen
  obtain ⟨-, -, _, ⟨⟩, rfl⟩ := hopen
  obtain ⟨hrestorable, hvalid⟩ := Durable.of_loadState hloads
  exact ⟨⟨id, rfl⟩, rfl, rfl, rfl, hrestorable, hvalid, h.index, id, hloads⟩

theorem withTxnId (h : Ok db) {id : Nat} (hid : 1 ≤ id) :
    Ok { db with engine := db.engine.withTxnId id } :=
  ⟨h.restorable.withTxnId hid, h.valid, h.index, h.loads⟩

theorem step (h : Ok db) (hstep : Step publishes opens db db') : Ok db' := by
  cases hstep with
  | begin hbegin =>
    obtain ⟨rfl, -⟩ := AsterEngine.beginAt_eq_ok hbegin
    exact h.withTxnId (Nat.le_add_left 1 _)
  | active hactive => exact ⟨h.restorable, h.valid, h.index, h.loads⟩
  | publish hpublishes hmay =>
    have hok :=
      Ok.of_persist (h.restorable.applyWithRequestHash hpublishes.apply) hpublishes.persist
    exact ⟨hok.restorable, hok.valid, hok.index, hok.loads⟩

theorem steps (h : Ok db) (hsteps : Steps publishes opens db db') : Ok db' := by
  induction hsteps with
  | refl => exact h
  | tail _ hstep ih => exact ih.step hstep

end Ok

variable {db db' : Database} {publishes : ClientRequestId → Prop} {opens : Nat → Prop}
  {client : ClientId} {record : DurableRequestRecord}

section Admission

variable {request : ClientRequestId} {fingerprint : Digest}

/-- The engine knows the request of a record, and so takes it for a duplicate. -/
theorem admission_of_record (hok : Ok db) (hrecord : db.requests[request.clientId]? = some record)
    (hsequence : record.sequence = request.sequence)
    (hfingerprint : record.fingerprint = fingerprint) :
    db.engine.admitRequest request fingerprint = .duplicate record.result := by
  obtain ⟨known, hknown, hseq, hhash, hresult⟩ := known_of_record hok.valid hrecord
  rw [hresult]
  exact AsterEngine.admitRequest_again hknown (hsequence.symm.trans hseq)
    (hfingerprint.symm.trans hhash)

/-- A duplicate has a record. -/
theorem record_of_duplicate (hok : Ok db) {result : AsterEngine.CommitResult}
    (hadmission : db.engine.admitRequest request fingerprint = .duplicate result) :
    ∃ record, db.requests[request.clientId]? = some record ∧ record.sequence = request.sequence ∧
      record.fingerprint = fingerprint ∧ record.result = result := by
  rcases hknown : db.engine.clients[request.clientId]? with _ | known
  · rw [AsterEngine.admitRequest_of_none hknown] at hadmission
    split at hadmission <;> cases hadmission
  obtain ⟨record, hrecord, hseq, hhash, hresult⟩ := record_of_known hok.valid hknown
  rw [Engine.admitRequest, hknown] at hadmission
  dsimp only at hadmission
  split at hadmission
  · cases hadmission
  next heq =>
    split at hadmission
    next hsame =>
      cases hadmission
      exact ⟨record, hrecord, hseq.trans (Nat.compare_eq_eq.mp heq).symm, hhash.trans hsame.symm,
        hresult⟩
    next => cases hadmission
  next => split at hadmission <;> cases hadmission

end Admission

variable {applyHash fingerprint : Digest} {attempt : TxnAttempt} {affectedRows : Nat}
  {outcome : ApplyOutcome}

section

variable (h : Publishes applyHash fingerprint attempt affectedRows outcome db db')
include h

theorem Publishes.outcome_eq :
    outcome = (db.engine.applyAdmitted (db.engine.lastApplied + 1) fingerprint attempt).2 :=
  (AsterEngine.applyWithRequestHash_next (Nat.succ_ne_self _) h.apply).2.2.1

/-- The outcome tells how the request was admitted. -/
theorem Publishes.admission :
    match outcome with
    | .applied _ => db.engine.admitRequest attempt.request fingerprint = .new
    | .duplicate result => db.engine.admitRequest attempt.request fingerprint = .duplicate result
    | .rejected rejection =>
      db.engine.admitRequest attempt.request fingerprint = .rejected rejection
    | .noop => False := by
  have houtcome := h.outcome_eq
  cases hadmission : db.engine.admitRequest attempt.request fingerprint <;>
    rw [Engine.applyAdmitted, hadmission] at houtcome <;> subst houtcome <;> rfl

/-- A record stays until the next request of its client is published. -/
theorem Publishes.keeps (hok : Ok db) (hrecord : db.requests[client]? = some record)
    (hother : attempt.request ≠ ⟨client, record.sequence + 1⟩) :
    db'.requests[client]? = some record := by
  have hinsert (hclient : attempt.request.clientId ≠ client) (inserted : DurableRequestRecord) :
      (db.requests.insert attempt.request.clientId inserted)[client]? = some record := by
    rw [Maps.insert_of_ne hclient.symm, hrecord]
  have hrecords := h.record
  cases outcome with
  | applied result =>
    rw [← Except.ok.inj hrecords]
    refine hinsert (fun hclient => hother ?_) _
    subst hclient
    obtain ⟨known, hknown, hsequence, -⟩ := known_of_record hok.valid hrecord
    rw [hsequence, ← AsterEngine.admitRequest_eq_new hknown h.admission]
  | duplicate result =>
    rw [recordOutcome] at hrecords
    split at hrecords
    next existing hexisting =>
      simp only [bind_eq_ok, failIf_eq_ok, pure_eq_ok, exists_const] at hrecords
      rw [← hrecords.2]
      exact hrecord
    next hnone =>
      rw [← Except.ok.inj hrecords]
      refine hinsert (fun hclient => ?_) _
      rw [hclient, hrecord] at hnone
      cases hnone
  | rejected rejection =>
    rw [← Except.ok.inj hrecords]
    exact hrecord
  | noop => cases hrecords

end

theorem Steps.keeps (hok : Ok db) (h : Steps publishes opens db db')
    (hrecord : db.requests[client]? = some record)
    (hother : ∀ request, publishes request → request ≠ ⟨client, record.sequence + 1⟩) :
    db'.requests[client]? = some record := by
  induction h with
  | refl => exact hrecord
  | tail hsteps hstep ih =>
    cases hstep with
    | begin | active => exact ih
    | publish hpublishes hmay => exact hpublishes.keeps (hok.steps hsteps) ih (hother _ hmay)

end Database

end AsterDatabase
