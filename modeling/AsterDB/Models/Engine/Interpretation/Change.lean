import AsterDB.Models.Engine.Interpretation.Commit

/-!
# What a step can do

A step leaves the data alone, refuses an attempt, records an aborted attempt,
commits one, or vacuums. Every invariant of the engine is proved over these cases.
-/

namespace AsterEngine

open AsterRaft (Digest Sha256 zeroHash)
open Std
open Fallible

/-- The catalog, the versions, the clients and the floor are the same. -/
structure SameData (e e' : Engine) : Prop where
  catalog : e'.catalog = e.catalog
  primary : e'.primary = e.primary
  secondary : e'.secondary = e.secondary
  clients : e'.clients = e.clients
  retainedFloor : e'.retainedFloor = e.retainedFloor

theorem SameData.refl (e : Engine) : SameData e e := ⟨rfl, rfl, rfl, rfl, rfl⟩

variable {e e' : Engine}

theorem SameData.chain (h : SameData e e') (key : LogicalKey) : e'.chain key = e.chain key := by
  rw [Engine.chain, h.primary]
  rfl

theorem SameData.entries (h : SameData e e') (key : SecondaryKey) :
    e'.entries key = e.entries key := by
  rw [Engine.entries, h.secondary]
  rfl

/-- The chains are vacuumed up to a floor. -/
structure Vacuums (e : Engine) (floor : Nat) (e' : Engine) : Prop where
  floor_ge : e.retainedFloor ≤ floor
  floor_le : floor ≤ max e.retainedFloor e.lastApplied
  retainedFloor : e'.retainedFloor = floor
  catalog : e'.catalog = e.catalog
  clients : e'.clients = e.clients
  lastApplied : e'.lastApplied = e.lastApplied
  chain : ∀ key, e'.chain key = vacuumRows (e.chain key) floor
  entries : ∀ key, e'.entries key = vacuumSecondary (e.entries key) floor

/-- A client's record after a request. -/
def Engine.record (e : Engine) (entry : Entry) (result : CommitResult) :
    ExtTreeMap ClientId ClientRecord :=
  e.clients.insert entry.attempt.request.clientId
    { sequence := entry.attempt.request.sequence, requestHash := entry.requestHash, result }

/-- What the client table says of an entry. -/
def Engine.admission (e : Engine) (entry : Entry) : Admission :=
  e.admitRequest entry.attempt.request entry.requestHash

/-- One step, as a change of the data and of the history. -/
inductive Change : Engine → List Entry → Engine → Prop
  | quiet {e e' : Engine} (same : SameData e e') (le : e.lastApplied ≤ e'.lastApplied) :
    Change e [] e'
  | duplicate {e e' : Engine} {entry : Entry} {result : CommitResult}
    (admission : e.admission entry = .duplicate result)
    (outcome : entry.outcome = .duplicate result)
    (index : entry.index = e.lastApplied + 1) (last : e'.lastApplied = entry.index)
    (same : SameData e e') : Change e [entry] e'
  | rejected {e e' : Engine} {entry : Entry} {rejection : RequestRejection}
    (admission : e.admission entry = .rejected rejection)
    (outcome : entry.outcome = .rejected rejection)
    (index : entry.index = e.lastApplied + 1) (last : e'.lastApplied = entry.index)
    (same : SameData e e') : Change e [entry] e'
  | aborted {e e' : Engine} {entry : Entry} {reason : AbortReason}
    (admission : e.admission entry = .new)
    (outcome : entry.outcome = .applied (.aborted entry.index reason))
    (index : entry.index = e.lastApplied + 1) (last : e'.lastApplied = entry.index)
    (same : SameData { e with clients := e.record entry (.aborted entry.index reason) } e') :
    Change e [entry] e'
  | committed {e middle e' : Engine} {entry : Entry} {result : CommitResult}
    (admission : e.admission entry = .new) (outcome : entry.outcome = .applied result)
    (result_eq : result = .committed entry.index entry.attempt.writes.length
      e'.catalog.schemaEpoch)
    (index : entry.index = e.lastApplied + 1) (last : e'.lastApplied = entry.index)
    (commits : Commits e entry.index entry.attempt middle)
    (same : SameData { middle with clients := e.record entry result } e') : Change e [entry] e'
  | vacuumed {e e' : Engine} (floor : Nat) (vacuums : Vacuums e floor e') : Change e [] e'

section Steps

variable {e e' : Engine} {index : Nat} {outcome : ApplyOutcome}

theorem nextIndex_eq_ok {u : Unit} (h : e.nextIndex index = .ok u) : index = e.lastApplied + 1 := by
  simp only [Engine.nextIndex, bind_eq_ok, orFail_eq_ok, failIf_eq_ok, checkedAdd] at h
  obtain ⟨expected, hexpected, hindex⟩ := h
  split at hexpected <;> cases hexpected
  exact not_not.mp hindex

variable {applyHash requestHash : Digest} {attempt : TxnAttempt}

/-- An apply at the last index returns what was recorded. -/
theorem applyWithRequestHash_again
    (h : e.applyWithRequestHash e.lastApplied applyHash requestHash attempt = .ok (e', outcome)) :
    e' = e ∧ e.lastApplyHash = some applyHash ∧ e.lastApplyOutcome = some outcome := by
  simp only [Engine.applyWithRequestHash, bind_eq_ok, ite_true, failIf_eq_ok, orFail_eq_ok,
    pure_eq_ok, Prod.mk.injEq, exists_const, not_not] at h
  obtain ⟨⟨⟩, -, hhash, recorded, hrecorded, rfl, rfl⟩ := h
  exact ⟨rfl, hhash, hrecorded⟩

/-- An apply at another index takes the next one. -/
theorem applyWithRequestHash_next (hnew : index ≠ e.lastApplied)
    (h : e.applyWithRequestHash index applyHash requestHash attempt = .ok (e', outcome)) :
    attempt.validateCanonical = .ok () ∧ index = e.lastApplied + 1 ∧
      outcome = (e.applyAdmitted index requestHash attempt).2 ∧
      e' = (e.applyAdmitted index requestHash attempt).1.advance index applyHash outcome := by
  simp only [Engine.applyWithRequestHash, bind_eq_ok, if_neg hnew, pure_eq_ok, Prod.mk.injEq] at h
  obtain ⟨⟨⟩, hcanonical, ⟨⟩, hnext, rfl, rfl⟩ := h
  exact ⟨hcanonical, nextIndex_eq_ok hnext, rfl, rfl⟩

theorem sameData_advance (e : Engine) (index : Nat) (hash : Digest) (outcome : ApplyOutcome) :
    SameData e (e.advance index hash outcome) := ⟨rfl, rfl, rfl, rfl, rfl⟩

theorem change_applyWithRequestHash (hnew : index ≠ e.lastApplied)
    (h : e.applyWithRequestHash index applyHash requestHash attempt = .ok (e', outcome)) :
    Change e [{ index, requestHash, attempt, outcome }] e' := by
  obtain ⟨-, rfl, houtcome, rfl⟩ := applyWithRequestHash_next hnew h
  cases hadmit : e.admitRequest attempt.request requestHash with
  | new =>
    rcases evaluateAndApply_cases e (e.lastApplied + 1) attempt with ⟨reason, heval⟩ |
      ⟨middle, hcommits, heval⟩
    · simp only [Engine.applyAdmitted, hadmit, heval, Engine.abort] at houtcome ⊢
      exact .aborted hadmit houtcome rfl rfl ⟨rfl, rfl, rfl, rfl, rfl⟩
    · simp only [Engine.applyAdmitted, hadmit, heval] at houtcome ⊢
      refine .committed hadmit houtcome rfl rfl rfl hcommits ⟨rfl, rfl, rfl, ?_, rfl⟩
      rw [hcommits.clients]
      rfl
  | duplicate result =>
    simp only [Engine.applyAdmitted, hadmit] at houtcome ⊢
    exact .duplicate hadmit houtcome rfl rfl ⟨rfl, rfl, rfl, rfl, rfl⟩
  | rejected rejection =>
    simp only [Engine.applyAdmitted, hadmit] at houtcome ⊢
    exact .rejected hadmit houtcome rfl rfl ⟨rfl, rfl, rfl, rfl, rfl⟩

theorem apply_eq_ok [Sha256] {hash : Digest} (h : e.apply index hash attempt = .ok (e', outcome)) :
    e.applyWithRequestHash index hash hash attempt = .ok (e', outcome) := by
  simp only [Engine.apply, bind_eq_ok] at h
  obtain ⟨_, -, ⟨⟩, -, h⟩ := h
  exact h

theorem change_applyNoop {hash : Digest} (h : e.applyNoop index hash = .ok (e', outcome)) :
    Change e [] e' := by
  unfold Engine.applyNoop at h
  by_cases hindex : index = e.lastApplied
  · simp only [if_pos hindex, bind_eq_ok, pure_eq_ok, Prod.mk.injEq] at h
    obtain ⟨⟨⟩, -, rfl, -⟩ := h
    exact .quiet (.refl e) (Nat.le_refl _)
  · simp only [if_neg hindex, bind_eq_ok, pure_eq_ok, Prod.mk.injEq] at h
    obtain ⟨⟨⟩, hnext, rfl, -⟩ := h
    refine .quiet (sameData_advance e index hash .noop) ?_
    exact (nextIndex_eq_ok hnext) ▸ Nat.le_succ _

theorem change_vacuumOffline {retainFrom : Nat} {report : VacuumReport}
    (h : e.vacuumOffline retainFrom = .ok (e', report)) : Change e [] e' := by
  simp only [Engine.vacuumOffline, bind_eq_ok, failIf_eq_ok, pure_eq_ok, Prod.mk.injEq,
    exists_const] at h
  obtain ⟨hle, rfl, -⟩ := h
  exact .vacuumed (max retainFrom e.retainedFloor) {
    floor_ge := Nat.le_max_right _ _
    floor_le := by omega
    retainedFloor := rfl
    catalog := rfl
    clients := rfl
    lastApplied := rfl
    chain := getD_vacuumChains rfl e.primary
    entries := getD_vacuumChains rfl e.secondary }

variable {transaction : Transaction} {readTs schemaEpoch : Nat}

theorem beginAt_eq_ok (h : e.beginAt readTs schemaEpoch = .ok (e', transaction)) :
    e' = { e with nextTxnId := e.nextTxnId + 1 } ∧
      transaction = .new e.nextTxnId readTs schemaEpoch := by
  simp only [Engine.beginAt, bind_eq_ok, failIf_eq_ok, orFail_eq_ok, pure_eq_ok, Prod.mk.injEq,
    checkedAdd, exists_const] at h
  obtain ⟨-, -, -, next, hnext, rfl, rfl⟩ := h
  split at hnext <;> cases hnext
  exact ⟨rfl, rfl⟩

theorem change_beginAt
    (h : e.beginAt readTs schemaEpoch = .ok (e', transaction)) : Change e [] e' := by
  obtain ⟨rfl, -⟩ := beginAt_eq_ok h
  exact .quiet ⟨rfl, rfl, rfl, rfl, rfl⟩ (Nat.le_refl _)

/-- A restored engine is the engine, with its version counts taken anew. -/
theorem fromSnapshot_snapshot (h : Engine.fromSnapshot e.snapshot = .ok e') :
    e' = { e with nextTxnId := max e.nextTxnId 1 }.refreshVersionStats := by
  simp only [Engine.fromSnapshot, bind_eq_ok, failIf_eq_ok, pure_eq_ok, exists_const] at h
  obtain ⟨-, ⟨⟩, -, -, -, -, primary, hprimary, secondary, hsecondary, clients, hclients, rfl⟩ := h
  have hp : primary = e.primary := by
    refine foldlM_insert_toList (fun entry => ⟨entry.tableId, entry.primaryKey⟩)
      PrimarySnapshotEntry.versions ?_ (fun _ => rfl) (fun _ => rfl) hprimary
    intro map item map' hitem
    simp only [Engine.restorePrimary, bind_eq_ok, failIf_eq_ok, pure_eq_ok, exists_const] at hitem
    obtain ⟨⟨⟩, -, hnew, rfl⟩ := hitem
    exact ⟨hnew, rfl⟩
  have hs : secondary = e.secondary := by
    refine foldlM_insert_toList SecondarySnapshotEntry.key SecondarySnapshotEntry.versions ?_
      (fun _ => rfl) (fun _ => rfl) hsecondary
    intro map item map' hitem
    simp only [Engine.restoreSecondary, bind_eq_ok, failIf_eq_ok, pure_eq_ok, exists_const] at hitem
    obtain ⟨⟨⟩, -, -, hnew, rfl⟩ := hitem
    exact ⟨hnew, rfl⟩
  have hc : clients = e.clients := by
    refine foldlM_insert_toList ClientSnapshotEntry.clientId ClientSnapshotEntry.record ?_
      (fun _ => rfl) (fun _ => rfl) hclients
    intro map item map' hitem
    simp only [Engine.restoreClient, bind_eq_ok, failIf_eq_ok, pure_eq_ok, exists_const] at hitem
    obtain ⟨-, hnew, rfl⟩ := hitem
    exact ⟨hnew, rfl⟩
  rw [hp, hs, hc]
  rfl

end Steps

variable {added : List Entry}

/-- Every step is a change. -/
theorem change_of_step [Sha256] (h : e.Step added e') : Change e added e' := by
  cases h with
  | begin h | beginAt _ _ h => exact change_beginAt h
  | apply _ _ _ hnew h => exact change_applyWithRequestHash hnew (apply_eq_ok h)
  | applyAgain _ _ h =>
    rw [(applyWithRequestHash_again (apply_eq_ok h)).1]
    exact .quiet (.refl e) (Nat.le_refl _)
  | applyWithRequestHash _ _ _ _ hnew h => exact change_applyWithRequestHash hnew h
  | applyWithRequestHashAgain _ _ _ h =>
    rw [(applyWithRequestHash_again h).1]
    exact .quiet (.refl e) (Nat.le_refl _)
  | applyNoop _ _ h => exact change_applyNoop h
  | vacuumOffline _ h => exact change_vacuumOffline h
  | restore h =>
    rw [fromSnapshot_snapshot h]
    exact .quiet ⟨rfl, rfl, rfl, rfl, rfl⟩ (Nat.le_refl _)

/-- What holds at the start and along every change holds in every engine reached. -/
theorem reached_induct [Sha256] {P : Engine → List Entry → Prop} (hnew : P .new [])
    (hchange : ∀ {e e' : Engine} {entries added : List Entry}, P e entries → Change e added e' →
      P e' (entries ++ added)) {entries : List Entry} (h : e.Reached entries) : P e entries := by
  unfold Engine.Reached at h
  generalize Engine.new = start at h hnew
  induction h with
  | refl => exact hnew
  | step _ hstep ih => exact hchange ih (change_of_step hstep)

/-- What later steps leave in place. -/
structure Later (e : Engine) (added : List Entry) (e' : Engine) : Prop where
  lastApplied : e.lastApplied ≤ e'.lastApplied
  grows : e.catalog.Grows e'.catalog
  beyond : ∀ entry ∈ added, ∀ commit rows epoch,
    entry.outcome = .applied (.committed commit rows epoch) → e.lastApplied < commit

theorem Later.refl (e : Engine) : Later e [] e := ⟨Nat.le_refl _, .refl _, by simp⟩

variable {first second : List Entry}

theorem Later.trans {a b c : Engine} (hab : Later a first b)
    (hbc : Later b second c) : Later a (first ++ second) c where
  lastApplied := hab.lastApplied.trans hbc.lastApplied
  grows := hab.grows.trans hbc.grows
  beyond := by
    intro entry hentry commit rows epoch hcommit
    rcases List.mem_append.mp hentry with hentry | hentry
    · exact hab.beyond entry hentry commit rows epoch hcommit
    · exact hab.lastApplied.trans_lt (hbc.beyond entry hentry commit rows epoch hcommit)

theorem later_of_change (h : Change e added e') : Later e added e' := by
  have hsame : ∀ {e' : Engine}, e'.catalog = e.catalog → e.catalog.Grows e'.catalog :=
    fun h => h ▸ .refl _
  cases h with
  | quiet same le => exact ⟨le, hsame same.catalog, by simp⟩
  | duplicate _ outcome index last same =>
    exact ⟨by omega, hsame same.catalog, by simp [outcome]⟩
  | rejected _ outcome index last same | aborted _ outcome index last same =>
    exact ⟨by omega, hsame same.catalog, by simp [outcome]⟩
  | committed _ outcome result_eq index last commits same =>
    refine ⟨by omega, same.catalog ▸ commits.mutates.grows, ?_⟩
    intro x hx commit rows epoch hcommit
    cases List.mem_singleton.mp hx
    rw [outcome, result_eq] at hcommit
    cases hcommit
    omega
  | vacuumed floor vacuums => exact ⟨vacuums.lastApplied.ge, hsame vacuums.catalog, by simp⟩

theorem later_of_run [Sha256] (h : e.Run added e') : Later e added e' := by
  induction h with
  | refl => exact .refl e
  | step _ hstep ih => exact ih.trans (later_of_change (change_of_step hstep))

theorem Engine.Run.trans [Sha256] {a b c : Engine} (hab : a.Run first b)
    (hbc : b.Run second c) : a.Run (first ++ second) c := by
  induction hbc with
  | refl =>
    rw [List.append_nil]
    exact hab
  | step _ hstep ih =>
    rw [← List.append_assoc]
    exact ih.step hstep

/-- Attempts applied one after another are a run. -/
theorem run_applyAll [Sha256] {start last : Engine} {before entries : List Entry}
    {commands : List (Digest × Digest × TxnAttempt)} (hrun : start.Run before e)
    (h : e.applyAll commands = .ok (last, entries)) : start.Run (before ++ entries) last := by
  induction commands generalizing e before entries with
  | nil =>
    cases h
    rwa [List.append_nil]
  | cons command rest ih =>
    simp only [Engine.applyAll, bind_eq_ok, Prod.exists, pure_eq_ok, Prod.mk.injEq] at h
    obtain ⟨next, outcome, hfirst, final, others, hrest, rfl, rfl⟩ := h
    have hstep := Engine.Step.applyWithRequestHash (e.lastApplied + 1) command.1 command.2.1
      command.2.2 (Nat.succ_ne_self _) hfirst
    rw [List.append_cons]
    exact ih (hrun.step hstep) hrest

section Sample

def itemsTable : TableMeta where
  id := 1
  name := "items"
  schema := ⟨[⟨"id", .int64, false, true⟩, ⟨"tag", .text, true, false⟩]⟩
  primaryKeyColumn := 0

def itemsTag : IndexMeta := { id := 1, name := "items_tag", tableId := 1, column := 1 }

def itemRow (id : Int64) (tag : String) : Row := ⟨[.int64 id, .text tag]⟩

def putItem (id : Int64) (tag : String) : TxnWrite :=
  { tableId := 1, primaryKey := .int64 id, mutation := .put (itemRow id tag) }

def attemptOf (sequence readTs schemaEpoch : Nat) (writes : List TxnWrite)
    (catalogMutations : List CatalogMutation) : TxnAttempt :=
  { request := ⟨.replicate 16 0, sequence⟩, leaderTerm := 1, readTs, schemaEpoch, writes
    catalogMutations }

/-- A table with an index and a row, then a second row and a change of the first. -/
def sampleRun : List (Digest × Digest × TxnAttempt) :=
  [(.replicate 32 0, .replicate 32 1,
      attemptOf 1 0 0 [putItem 1 "red"] [.createTable itemsTable, .createIndex itemsTag]),
    (.replicate 32 0, .replicate 32 2, attemptOf 2 1 1 [putItem 1 "blue", putItem 2 "red"] [])]

def sampleEntries : List Entry :=
  [{ index := 1, requestHash := .replicate 32 1
     attempt := attemptOf 1 0 0 [putItem 1 "red"] [.createTable itemsTable, .createIndex itemsTag]
     outcome := .applied (.committed 1 1 1) },
    { index := 2, requestHash := .replicate 32 2
      attempt := attemptOf 2 1 1 [putItem 1 "blue", putItem 2 "red"] []
      outcome := .applied (.committed 2 2 1) }]

/-- The engine after a run that is evaluated. -/
def afterRun (run : List (Digest × Digest × TxnAttempt)) : Engine :=
  match Engine.new.applyAll run with
  | .ok (e, _) => e
  | .error _ => .new

theorem reached_afterRun [Sha256] {run : List (Digest × Digest × TxnAttempt)}
    {entries : List Entry} (h : Prod.snd <$> Engine.new.applyAll run = .ok entries) :
    (afterRun run).Reached entries := by
  obtain ⟨⟨e, _⟩, hrun, rfl⟩ := map_eq_ok.mp h
  rw [afterRun, hrun]
  exact run_applyAll (.refl _) hrun

theorem reached_sampleRun : @Engine.Reached zeroHash (afterRun sampleRun) sampleEntries := by
  let _ := zeroHash
  exact reached_afterRun (by decide +kernel)

end Sample

end AsterEngine
