import AsterDB.Models.Engine.Interpretation.Change

/-!
# Client requests

The client table holds, for each client, the last of its requests that was applied.
So the applied requests of a client are numbered from one on without a gap, and a
request that is not the next one changes nothing.
-/

namespace AsterEngine

open AsterRaft (Digest Sha256 u64Max zeroHash)
open Std

def Entry.sequence (entry : Entry) : Nat := entry.attempt.request.sequence

/-- The attempt was evaluated, and not answered from the client table. -/
def Entry.isApplied (entry : Entry) : Bool :=
  match entry.outcome with
  | .applied _ => true
  | _ => false

/-- The applied attempts of a client, oldest first. -/
def appliedBy (client : ClientId) (entries : List Entry) : List Entry :=
  entries.filter fun entry => entry.attempt.request.clientId = client ∧ entry.isApplied = true

/-- The record of an applied attempt. -/
def Entry.Recorded (entry : Entry) (record : ClientRecord) : Prop :=
  entry.outcome = .applied record.result ∧ record.sequence = entry.sequence ∧
    record.requestHash = entry.requestHash

/-- The client table agrees with the history. -/
structure ClientsOk (e : Engine) (entries : List Entry) : Prop where
  sequences : ∀ client, (appliedBy client entries).map Entry.sequence =
    List.range' 1 (appliedBy client entries).length
  unknown : ∀ client, (appliedBy client entries).getLast? = none → e.clients[client]? = none
  known : ∀ client entry, (appliedBy client entries).getLast? = some entry →
    ∃ record, e.clients[client]? = some record ∧ entry.Recorded record

section Admission

variable {e : Engine} {request : ClientRequestId} {hash : Digest} {record : ClientRecord}

theorem admitRequest_of_none (h : e.clients[request.clientId]? = none) :
    e.admitRequest request hash = if request.sequence = 1 then .new
      else .rejected (.firstSequenceMustBeOne request.sequence) := by
  rw [Engine.admitRequest, h]

section

variable (h : e.clients[request.clientId]? = some record)
include h

/-- The next request of a known client. -/
theorem admitRequest_eq_new
    (hnew : e.admitRequest request hash = .new) : request.sequence = record.sequence + 1 := by
  rw [Engine.admitRequest, h] at hnew
  dsimp only at hnew
  split at hnew
  · cases hnew
  · split at hnew <;> cases hnew
  next hgt =>
    rw [Nat.compare_eq_gt] at hgt
    split at hnew
    next heq =>
      rw [saturatingAdd] at heq
      omega
    · cases hnew

theorem admitRequest_next (hseq : request.sequence = record.sequence + 1)
    (hmax : request.sequence ≤ u64Max) : e.admitRequest request hash = .new := by
  have hgt : compare request.sequence record.sequence = .gt := Nat.compare_eq_gt.mpr (by omega)
  have hadd : request.sequence = saturatingAdd record.sequence 1 := by
    rw [saturatingAdd]
    omega
  rw [Engine.admitRequest, h]
  dsimp only
  rw [hgt]
  exact if_pos hadd

theorem admitRequest_again
    (hseq : request.sequence = record.sequence) (hhash : hash = record.requestHash) :
    e.admitRequest request hash = .duplicate record.result := by
  rw [Engine.admitRequest, h]
  dsimp only
  rw [hseq, Nat.compare_eq_eq.mpr rfl]
  exact if_pos hhash

/-- Any other number is refused. -/
theorem admitRequest_other (hnext : request.sequence ≠ record.sequence + 1)
    (hagain : ¬(request.sequence = record.sequence ∧ hash = record.requestHash)) :
    ∃ rejection, e.admitRequest request hash = .rejected rejection := by
  rw [Engine.admitRequest, h]
  dsimp only
  split
  · exact ⟨_, rfl⟩
  next heq =>
    rw [if_neg fun hhash => hagain ⟨Nat.compare_eq_eq.mp heq, hhash⟩]
    exact ⟨_, rfl⟩
  next hgt =>
    rw [Nat.compare_eq_gt] at hgt
    rw [if_neg fun hadd => by rw [saturatingAdd] at hadd; omega]
    exact ⟨_, rfl⟩

end

end Admission

theorem appliedBy_append (client : ClientId) (entries : List Entry) (entry : Entry) :
    appliedBy client (entries ++ [entry]) = appliedBy client entries ++
      if entry.attempt.request.clientId = client ∧ entry.isApplied = true then [entry] else [] := by
  by_cases h : entry.attempt.request.clientId = client ∧ entry.isApplied = true <;>
    simp [appliedBy, h]

namespace ClientsOk

variable {e e' : Engine} {entries : List Entry} {entry : Entry}

theorem new : ClientsOk .new [] := ⟨by simp [appliedBy], by simp [Engine.new], by simp [appliedBy]⟩

section

variable (h : ClientsOk e entries)
include h

theorem keep (hclients : e'.clients = e.clients) : ClientsOk e' entries := by
  constructor
  · exact h.sequences
  · rw [hclients]
    exact h.unknown
  · rw [hclients]
    exact h.known

/-- The last applied request carries the number of applied requests. -/
theorem sequence_getLast {client : ClientId}
    (hlast : (appliedBy client entries).getLast? = some entry) :
    entry.sequence = (appliedBy client entries).length := by
  have hmap := congrArg List.getLast? (h.sequences client)
  rw [List.getLast?_map, hlast, List.getLast?_range'] at hmap
  split at hmap
  · cases hmap
  · rw [Option.map_some, Option.some.injEq] at hmap
    omega

theorem append_refused (hclients : e'.clients = e.clients)
    (hrefused : entry.isApplied = false) : ClientsOk e' (entries ++ [entry]) := by
  have hsame : ∀ client, appliedBy client (entries ++ [entry]) = appliedBy client entries := by
    intro client
    rw [appliedBy_append, if_neg (by simp [hrefused]), List.append_nil]
  have hkeep := h.keep hclients
  constructor <;> intro client <;> rw [hsame client]
  · exact hkeep.sequences client
  · exact hkeep.unknown client
  · exact hkeep.known client

/-- A new request has the next number. -/
theorem sequence_of_new (hnew : e.admission entry = .new) :
    entry.sequence = (appliedBy entry.attempt.request.clientId entries).length + 1 := by
  cases hlast : (appliedBy entry.attempt.request.clientId entries).getLast? with
  | none =>
    rw [Engine.admission, admitRequest_of_none (h.unknown _ hlast)] at hnew
    rw [List.getLast?_eq_none_iff.mp hlast]
    split at hnew
    next hone => exact hone
    · cases hnew
  | some last =>
    obtain ⟨record, hrecord, -, hsequence, -⟩ := h.known _ last hlast
    rw [← h.sequence_getLast hlast, ← hsequence]
    exact admitRequest_eq_new hrecord hnew

theorem append_applied (hnew : e.admission entry = .new)
    {result : CommitResult} (houtcome : entry.outcome = .applied result)
    (hclients : e'.clients = e.record entry result) : ClientsOk e' (entries ++ [entry]) := by
  have happlied : entry.isApplied = true := by rw [Entry.isApplied, houtcome]
  have hget : ∀ client, e'.clients[client]? = if entry.attempt.request.clientId = client then
      some { sequence := entry.sequence, requestHash := entry.requestHash, result }
      else e.clients[client]? := by
    intro client
    rw [hclients, Engine.record, ExtTreeMap.getElem?_insert]
    simp only [LawfulEqCmp.compare_eq_iff_eq]
    rfl
  have hself : appliedBy entry.attempt.request.clientId (entries ++ [entry]) =
      appliedBy entry.attempt.request.clientId entries ++ [entry] := by
    rw [appliedBy_append, if_pos ⟨rfl, happlied⟩]
  have hother : ∀ client, entry.attempt.request.clientId ≠ client →
      appliedBy client (entries ++ [entry]) = appliedBy client entries := by
    intro client hne
    rw [appliedBy_append, if_neg (by simp [hne]), List.append_nil]
  constructor
  · intro client
    by_cases hclient : entry.attempt.request.clientId = client
    · subst hclient
      rw [hself, List.map_append, h.sequences, List.length_append, List.map_singleton,
        h.sequence_of_new hnew, List.length_singleton, List.range'_concat, Nat.one_mul,
        Nat.add_comm 1]
    · rw [hother client hclient]
      exact h.sequences client
  · intro client hnone
    by_cases hclient : entry.attempt.request.clientId = client
    · subst hclient
      rw [hself] at hnone
      simp at hnone
    · rw [hget, if_neg hclient]
      exact h.unknown client (hother client hclient ▸ hnone)
  · intro client last hlast
    rw [hget client]
    by_cases hclient : entry.attempt.request.clientId = client
    · subst hclient
      rw [hself, List.getLast?_concat] at hlast
      cases hlast
      exact ⟨_, if_pos rfl, houtcome, rfl, rfl⟩
    · rw [if_neg hclient]
      exact h.known client last (hother client hclient ▸ hlast)

theorem change {added : List Entry} (hchange : Change e added e') :
    ClientsOk e' (entries ++ added) := by
  cases hchange with
  | quiet same =>
    rw [List.append_nil]
    exact h.keep same.clients
  | duplicate _ outcome _ _ same | rejected _ outcome _ _ same =>
    exact h.append_refused same.clients (by rw [Entry.isApplied, outcome])
  | aborted admission outcome _ _ same => exact h.append_applied admission outcome same.clients
  | committed admission outcome _ _ _ _ same =>
    exact h.append_applied admission outcome same.clients
  | vacuumed floor vacuums =>
    rw [List.append_nil]
    exact h.keep vacuums.clients

end

end ClientsOk

theorem clientsOk_of_reached [Sha256] {e : Engine} {entries : List Entry} (h : e.Reached entries) :
    ClientsOk e entries :=
  reached_induct ClientsOk.new (fun hok => hok.change) h

/-- The applied requests of a client are numbered `1, 2, ..., n`. The next apply for the client
evaluates request `n + 1`, answers request `n` with what was recorded for it, and refuses the rest.
-/
theorem exactly_once [Sha256] {e : Engine} {entries : List Entry} (h : e.Reached entries)
    (client : ClientId) :
    (appliedBy client entries).map Entry.sequence =
      List.range' 1 (appliedBy client entries).length ∧
    ∀ (index : Nat) (applyHash requestHash : Digest) (attempt : TxnAttempt) (e' : Engine)
      (outcome : ApplyOutcome), index ≠ e.lastApplied → attempt.request.clientId = client →
      e.applyWithRequestHash index applyHash requestHash attempt = .ok (e', outcome) →
      (attempt.request.sequence = (appliedBy client entries).length + 1 →
        attempt.request.sequence ≤ u64Max → ∃ result, outcome = .applied result) ∧
      (∀ last ∈ (appliedBy client entries).getLast?, ∀ result, last.outcome = .applied result →
        attempt.request.sequence = last.sequence → requestHash = last.requestHash →
        outcome = .duplicate result ∧ SameData e e') ∧
      (attempt.request.sequence ≠ (appliedBy client entries).length + 1 →
        (∀ last ∈ (appliedBy client entries).getLast?,
          ¬(attempt.request.sequence = last.sequence ∧ requestHash = last.requestHash)) →
        ∃ rejection, outcome = .rejected rejection ∧ SameData e e') := by
  have hok := clientsOk_of_reached h
  refine ⟨hok.sequences client, ?_⟩
  rintro index applyHash requestHash attempt e' outcome hnew rfl happly
  obtain ⟨-, -, rfl, rfl⟩ := applyWithRequestHash_next hnew happly
  unfold Engine.applyAdmitted
  refine ⟨fun hseq hmax => ?_, ?_, ?_⟩
  · suffices hfresh : e.admitRequest attempt.request requestHash = .new from ⟨_, by rw [hfresh]⟩
    cases hlast : (appliedBy attempt.request.clientId entries).getLast? with
    | none =>
      rw [List.getLast?_eq_none_iff.mp hlast] at hseq
      exact (admitRequest_of_none (hok.unknown _ hlast)).trans (if_pos hseq)
    | some last =>
      obtain ⟨record, hrecord, -, hsequence, -⟩ := hok.known _ last hlast
      rw [← hok.sequence_getLast hlast, ← hsequence] at hseq
      exact admitRequest_next hrecord hseq hmax
  · intro last hlast result hresult hseq hhash
    obtain ⟨record, hrecord, houtcome, hsequence, hrequestHash⟩ := hok.known _ last hlast
    cases houtcome.symm.trans hresult
    rw [admitRequest_again hrecord (hseq.trans hsequence.symm) (hhash.trans hrequestHash.symm)]
    exact ⟨rfl, rfl, rfl, rfl, rfl, rfl⟩
  · intro hnext hagain
    obtain ⟨rejection, hrejected⟩ :
        ∃ rejection, e.admitRequest attempt.request requestHash = .rejected rejection := by
      cases hlast : (appliedBy attempt.request.clientId entries).getLast? with
      | none =>
        rw [List.getLast?_eq_none_iff.mp hlast] at hnext
        exact ⟨_, (admitRequest_of_none (hok.unknown _ hlast)).trans (if_neg hnext)⟩
      | some last =>
        obtain ⟨record, hrecord, -, hsequence, hrequestHash⟩ := hok.known _ last hlast
        rw [← hok.sequence_getLast hlast, ← hsequence] at hnext
        refine admitRequest_other hrecord hnext fun ⟨hseq, hhash⟩ => ?_
        exact hagain last hlast ⟨hseq.trans hsequence, hhash.trans hrequestHash⟩
    rw [hrejected]
    exact ⟨rejection, rfl, rfl, rfl, rfl, rfl, rfl⟩

/-- After the sample run the client's second request may be repeated. -/
theorem exactly_once_sample : ∃ e e' outcome, @Engine.Reached zeroHash e sampleEntries ∧
    e.applyWithRequestHash 3 (.replicate 32 0) (.replicate 32 2) (attemptOf 2 2 1 [] []) =
      .ok (e', outcome) ∧
    (appliedBy (.replicate 16 0) sampleEntries).map Entry.sequence = [1, 2] ∧
    outcome = .duplicate (.committed 2 2 1) ∧ SameData e e' := by
  let _ := zeroHash
  obtain ⟨hlast, hok⟩ : 3 ≠ (afterRun sampleRun).lastApplied ∧
      ((afterRun sampleRun).applyWithRequestHash 3 (.replicate 32 0) (.replicate 32 2)
        (attemptOf 2 2 1 [] [])).isOk = true := by
    decide
  cases happly : (afterRun sampleRun).applyWithRequestHash 3 (.replicate 32 0) (.replicate 32 2)
      (attemptOf 2 2 1 [] []) with
  | error error =>
    rw [happly] at hok
    cases hok
  | ok applied =>
    obtain ⟨e', outcome⟩ := applied
    obtain ⟨hsequences, hnext⟩ := exactly_once reached_sampleRun (.replicate 16 0)
    have hcases := hnext 3 _ _ _ e' outcome hlast rfl happly
    exact ⟨_, e', outcome, reached_sampleRun, happly, hsequences, hcases.2.1 _ rfl _ rfl rfl rfl⟩

end AsterEngine
