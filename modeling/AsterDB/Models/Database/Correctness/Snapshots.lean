import AsterDB.Models.Database.Correctness.Replication

/-!
# Snapshots of replicas

The snapshot of a replica is a function of its log and of the next transaction id, which is
written into it. A replica that handed out another number of ids has other bytes, and does not
take the snapshot of its own index.
-/

namespace AsterDatabase

open AsterRaft (Sha256 zeroHash)
open AsterEngine (Engine)
open AsterSql
open Std
open Fallible Serde

namespace Database

theorem collectRequest_eq_ok {requests requests' : DurableRequests}
    {request : DatabaseSnapshotRequest} :
    collectRequest requests request = .ok requests' ↔ request.clientId ∉ requests ∧
      requests.insert request.clientId request.record = requests' := by
  simp only [collectRequest, bind_eq_ok, failIf_eq_ok, pure_eq_ok, exists_const]

variable {db other : Database}

/-- A database's snapshot is decoded to its engine and records. -/
theorem decodeDatabaseSnapshot_toVec [Deserialize DatabaseSnapshotEnvelope] (hok : Ok db)
    (hlength : (toVec db.envelope).length ≤ maxSnapshotBytes) :
    decodeDatabaseSnapshot (toVec db.envelope) = .ok (db.engine, db.requests) := by
  have hrequests : db.envelope.requests.foldlM collectRequest ∅ = Except.ok db.requests :=
    foldlM_restore DatabaseSnapshotRequest.clientId DatabaseSnapshotRequest.record
      (fun _ _ _ => by rw [collectRequest_eq_ok, true_and]) (fun _ => rfl) (fun _ => rfl)
      fun _ _ => trivial
  have hempty : (toVec db.envelope).isEmpty = false := rfl
  simp only [decodeDatabaseSnapshot, bind_eq_ok, failIf_eq_ok, mapError_eq_ok, fromSlice_toVec,
    liftEngine_eq_ok, pure_eq_ok]
  refine ⟨(), ?_, db.envelope, rfl, (), by simp [envelope], db.engine,
    hok.restorable.fromSnapshot, db.requests, hrequests, (), hok.valid, rfl⟩
  rw [hempty]
  simpa using hlength

/-- What a snapshot is made of. -/
theorem createSnapshot_of_ok (hok : Ok db) (hactive : db.active = ∅) :
    createSnapshot none db = (do
      let stateHash ← orFail db.engine.lastApplyHash
        (.invariant "cannot snapshot the unapplied genesis state")
      let bytes := toVec db.envelope
      failIf (maxSnapshotBytes < bytes.length)
        (.resourceLimit
          s!"database snapshot is {bytes.length} bytes; maximum is {maxSnapshotBytes}")
      return { appliedIndex := db.engine.lastApplied, stateHash, bytes }) := by
  have hindex : ¬db.durable.appliedIndex ≠ db.engine.lastApplied := not_not.mpr hok.index
  have hempty : ¬db.active.isEmpty = false := by
    rw [hactive]
    exact nofun
  simp only [createSnapshot, hok.valid, Durable.unlessFault, failIf, if_neg hempty, if_neg hindex]
  rfl

theorem bytes_of_createSnapshot (hok : Ok db) (hactive : db.active = ∅)
    {snapshot : DatabaseSnapshot} (hmade : createSnapshot none db = .ok snapshot) :
    snapshot.bytes = toVec db.envelope ∧ (toVec db.envelope).length ≤ maxSnapshotBytes := by
  rw [createSnapshot_of_ok hok hactive] at hmade
  simp only [bind_eq_ok, orFail_eq_ok, failIf_eq_ok, pure_eq_ok] at hmade
  obtain ⟨_, -, _, hlength, rfl⟩ := hmade
  exact ⟨rfl, Nat.not_lt.mp hlength⟩

/-- The image of the local index is taken if it is the local state. -/
theorem installSnapshot_same_index [Deserialize DatabaseSnapshotEnvelope] (hok : Ok db)
    (hactive : other.active = ∅) (hlast : db.engine.lastApplied = other.engine.lastApplied)
    (hlength : (toVec db.envelope).length ≤ maxSnapshotBytes) (fault : Option StorageFault) :
    installSnapshot fault (toVec db.envelope) other =
      (failIf (db.engine.snapshot ≠ other.engine.snapshot ∨ db.requests ≠ other.requests)
        (.corruption "snapshot at the local applied index has different state"), other) := by
  have hempty : ¬other.active.isEmpty = false := by
    rw [hactive]
    exact nofun
  have hcompare : compare db.engine.lastApplied other.engine.lastApplied = .eq :=
    Nat.compare_eq_eq.mpr hlast
  simp only [installSnapshot, decodeDatabaseSnapshot_toVec hok hlength, Call.lift_ok_bind,
    installDecodedSnapshot, Call.get_bind, hcompare, failIf, if_neg hempty]
  rfl

section Replicas

variable [Sha256] [Unicode] [Deserialize ReplicatedMutation] {log : List (Nat × Replicated)}

/-- Replicas of one log differ in the next transaction id alone. -/
theorem Replica.same (hdb : Replica log db) (hother : Replica log other) :
    db.engine.withTxnId 1 = other.engine.withTxnId 1 ∧ db.requests = other.requests := by
  have hstate := hdb.follows.state.symm.trans hother.follows.state
  exact Prod.ext_iff.mp (Except.ok.inj hstate)

theorem Replica.nextTxnId_of_bytes (hdb : Replica log db) (hother : Replica log other)
    {snapshot made : DatabaseSnapshot} (hsnapshot : createSnapshot none db = .ok snapshot)
    (hmade : createSnapshot none other = .ok made) (hbytes : made.bytes = snapshot.bytes) :
    db.engine.nextTxnId = other.engine.nextTxnId := by
  rw [(bytes_of_createSnapshot hdb.follows.ok hdb.follows.active hsnapshot).1,
    (bytes_of_createSnapshot hother.follows.ok hother.follows.active hmade).1] at hbytes
  exact congrArg (fun envelope => envelope.engine.nextTxnId) (toVec_injective hbytes).symm

/-- A replica's snapshot is taken by a replica of its log with the same next transaction id. -/
theorem Replica.installSnapshot_eq [Deserialize DatabaseSnapshotEnvelope] (hdb : Replica log db)
    (hother : Replica log other) {snapshot : DatabaseSnapshot}
    (hsnapshot : createSnapshot none db = .ok snapshot) (fault : Option StorageFault) :
    (installSnapshot fault snapshot.bytes other).1 =
      failIf (db.engine.nextTxnId ≠ other.engine.nextTxnId)
        (.corruption "snapshot at the local applied index has different state") := by
  obtain ⟨hengine, hrequests⟩ := hdb.same hother
  have hlast : (db.engine.withTxnId 1).lastApplied = (other.engine.withTxnId 1).lastApplied :=
    congrArg Engine.lastApplied hengine
  have hsame : db.engine.snapshot = other.engine.snapshot ↔
      db.engine.nextTxnId = other.engine.nextTxnId :=
    ⟨fun heq => congrArg (fun snapshot => snapshot.nextTxnId) heq,
      fun hnext => congrArg Engine.snapshot (Engine.eq_of_withTxnId 1 hengine hnext)⟩
  obtain ⟨hbytes, hlength⟩ := bytes_of_createSnapshot hdb.follows.ok hdb.follows.active hsnapshot
  rw [hbytes, installSnapshot_same_index hdb.follows.ok hother.follows.active hlast hlength]
  simp only [failIf, ne_eq, hsame, hrequests, not_true, or_false]

/-- Replicas of one log make one snapshot, and each takes the snapshot the other made, where they
handed out as many transaction ids; otherwise neither holds. -/
theorem snapshots_agree [Deserialize DatabaseSnapshotEnvelope] (hdb : Replica log db)
    (hother : Replica log other) :
    (db.engine.nextTxnId = other.engine.nextTxnId →
        createSnapshot none db = createSnapshot none other) ∧
      ∀ snapshot, createSnapshot none db = .ok snapshot →
        ((∃ made, createSnapshot none other = .ok made ∧ made.bytes = snapshot.bytes) ↔
            db.engine.nextTxnId = other.engine.nextTxnId) ∧
          ∀ fault, (installSnapshot fault snapshot.bytes other).1 = .ok () ↔
            db.engine.nextTxnId = other.engine.nextTxnId := by
  obtain ⟨hengine, hrequests⟩ := hdb.same hother
  have hsame (hnext : db.engine.nextTxnId = other.engine.nextTxnId) :
      createSnapshot none db = createSnapshot none other := by
    have heq : db.engine = other.engine := Engine.eq_of_withTxnId 1 hengine hnext
    have henvelope : db.envelope = other.envelope := by
      simp only [envelope, heq, hrequests]
    rw [createSnapshot_of_ok hdb.follows.ok hdb.follows.active,
      createSnapshot_of_ok hother.follows.ok hother.follows.active, henvelope, heq]
  refine ⟨hsame, fun snapshot hsnapshot => ?_⟩
  refine ⟨⟨?_, fun hnext => ⟨_, hsame hnext ▸ hsnapshot, rfl⟩⟩, fun fault => ?_⟩
  · rintro ⟨made, hmade, hbytes⟩
    exact hdb.nextTxnId_of_bytes hother hsnapshot hmade hbytes
  · rw [hdb.installSnapshot_eq hother hsnapshot, failIf_eq_ok, not_not]

end Replicas

section Sample

attribute [local instance] zeroHash asciiText in
/-- A read of the sample replica. -/
def readSample : Result ExecutionResult × Database :=
  executeReadOnly none (Vector.replicate 16 3) 1 "SELECT id FROM items" []
    (sampleReplica [createItems])

/-- The snapshot of the sample replica. -/
def itemsSnapshot : DatabaseSnapshot where
  appliedIndex := 1
  stateHash := Vector.replicate 32 0
  bytes := toVec (sampleReplica [createItems]).envelope

/-- A read costs the replica an id, which it has back when it is opened anew. -/
theorem nextTxnId_readSample :
    readSample.1 =
      .ok (.query { columns := ["id"], rows := [], affectedRows := 0, appliedIndex := 1 }) ∧
    createSnapshot none (sampleReplica [createItems]) = .ok itemsSnapshot ∧
    (sampleReplica [createItems]).engine.nextTxnId ≠ readSample.2.engine.nextTxnId ∧
    ((openWithOptions readSample.2.durable 8).map (·.engine.nextTxnId)).toOption =
      some (sampleReplica [createItems]).engine.nextTxnId := by
  decide +kernel

/-- One of two replicas of a log is read: the other's snapshot has other bytes and is refused. -/
theorem snapshots_differ :
    let _ := zeroHash
    let _ := asciiText
    let _ := strictReader ReplicatedMutation
    let _ := strictReader DatabaseSnapshotEnvelope
    ∃ log db other result snapshot, Replica log db ∧
      executeReadOnly none (Vector.replicate 16 3) 1 "SELECT id FROM items" [] db =
        (.ok result, other) ∧ Replica log other ∧
      createSnapshot none db = .ok snapshot ∧ createSnapshot none other ≠ .ok snapshot ∧
      (installSnapshot none snapshot.bytes other).1 =
        .error (.corruption "snapshot at the local applied index has different state") := by
  intro _ _ _ _
  obtain ⟨hread, hsnapshot, hnext, -⟩ := nextTxnId_readSample
  have hcall : readSample = (.ok _, readSample.2) := Prod.ext hread rfl
  have hother := Replica.read replica_sample_one hcall
  refine ⟨_, _, readSample.2, _, itemsSnapshot, replica_sample_one, hcall, hother, hsnapshot,
    fun hmade => ?_, ?_⟩
  · exact hnext (replica_sample_one.nextTxnId_of_bytes hother hsnapshot hmade rfl)
  · rw [replica_sample_one.installSnapshot_eq hother hsnapshot]
    exact if_pos hnext

/-- The read replica loses the id when it is opened anew, and then takes the snapshot. -/
theorem snapshots_agree_sample :
    let _ := zeroHash
    let _ := asciiText
    let _ := strictReader ReplicatedMutation
    let _ := strictReader DatabaseSnapshotEnvelope
    ∃ log db read result other snapshot, Replica log db ∧
      executeReadOnly none (Vector.replicate 16 3) 1 "SELECT id FROM items" [] db =
        (.ok result, read) ∧ openWithOptions read.durable 8 = .ok other ∧
      createSnapshot none db = .ok snapshot ∧
      (installSnapshot none snapshot.bytes other).1 = .ok () := by
  intro _ _ _ _
  obtain ⟨hread, hsnapshot, -, hnext⟩ := nextTxnId_readSample
  have hcall : readSample = (.ok _, readSample.2) := Prod.ext hread rfl
  have hother := Replica.read replica_sample_one hcall
  cases hopen : openWithOptions readSample.2.durable 8 with
  | error _ =>
    rw [hopen] at hnext
    cases hnext
  | ok other =>
    rw [hopen] at hnext
    exact ⟨_, _, _, _, other, itemsSnapshot, replica_sample_one, hcall, hopen, hsnapshot,
      ((snapshots_agree replica_sample_one (.reopened hother hopen)).2 _ hsnapshot).2 none |>.mpr
        (Option.some.inj hnext).symm⟩

end Sample

end Database

end AsterDatabase
