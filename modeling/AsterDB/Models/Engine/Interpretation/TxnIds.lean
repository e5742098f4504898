import AsterDB.Models.Engine.Interpretation.Restore

/-!
# Transaction ids

What is applied does not depend on the transaction ids that were handed out, so two engines
that differ in the next transaction id go on differing in that alone.
-/

namespace AsterEngine

open AsterRaft (Digest)
open Fallible

namespace Engine

/-- An engine whose next transaction gets a given id. -/
def withTxnId (e : Engine) (id : Nat) : Engine := { e with nextTxnId := id }

variable (e : Engine) (id : Nat)

@[simp]
theorem withTxnId_self : e.withTxnId e.nextTxnId = e := rfl

@[simp]
theorem withTxnId_withTxnId (id' : Nat) : (e.withTxnId id).withTxnId id' = e.withTxnId id' := rfl

theorem eq_of_withTxnId {e e' : Engine} (h : e.withTxnId id = e'.withTxnId id)
    (hnext : e.nextTxnId = e'.nextTxnId) : e = e' := by
  rw [← withTxnId_self e, ← withTxnId_self e', hnext, ← withTxnId_withTxnId e id, h,
    withTxnId_withTxnId]

theorem withTxnId_foldl {α : Type} {f : Engine → α → Engine}
    (h : ∀ (e : Engine) a, f (e.withTxnId id) a = (f e a).withTxnId id) (list : List α) :
    list.foldl f (e.withTxnId id) = (list.foldl f e).withTxnId id :=
  List.foldl_hom (fun e : Engine => e.withTxnId id) h

theorem withTxnId_updateSecondary (index : IndexMeta) (key : LogicalKey)
    (oldRow newRow : Option Row) (commitIndex : Nat) :
    (e.withTxnId id).updateSecondary index key oldRow newRow commitIndex =
      (e.updateSecondary index key oldRow newRow commitIndex).withTxnId id := by
  unfold updateSecondary
  dsimp only
  split
  · rfl
  · split <;> split <;> rfl

theorem withTxnId_applyWrite (previous : Catalog) (index : Nat)
    (write : KeyedWrite) :
    (e.withTxnId id).applyWrite previous index write =
      (e.applyWrite previous index write).withTxnId id := by
  unfold applyWrite
  dsimp only
  rw [withTxnId_foldl e id fun e meta' => withTxnId_updateSecondary e id meta' _ _ _ _]
  rfl

variable (index : Nat)

theorem withTxnId_applyWrites (next : Catalog)
    (writes : List KeyedWrite) :
    (e.withTxnId id).applyWrites index next writes =
      (e.applyWrites index next writes).withTxnId id :=
  withTxnId_foldl { e with catalog := next } id
    (fun e' write => withTxnId_applyWrite e' id e.catalog index write) writes

theorem withTxnId_backfillIndex (newIndex : IndexMeta) :
    (e.withTxnId id).backfillIndex index newIndex =
    (e.backfillIndex index newIndex).withTxnId id := by
  unfold backfillIndex
  rw [withTxnId_foldl e id fun _ _ => rfl]
  rfl

theorem withTxnId_backfillIndexes (newIndexes : List IndexMeta) :
    (e.withTxnId id).backfillIndexes index newIndexes =
      (e.backfillIndexes index newIndexes).withTxnId id :=
  withTxnId_foldl e id (fun e newIndex => withTxnId_backfillIndex e id index newIndex) newIndexes

theorem withTxnId_evaluateAndApply (attempt : TxnAttempt) :
    (e.withTxnId id).evaluateAndApply index attempt =
      ((e.evaluateAndApply index attempt).1.withTxnId id,
        (e.evaluateAndApply index attempt).2) := by
  have hvalidate : (e.withTxnId id).validateAttemptForApply attempt =
    e.validateAttemptForApply attempt := rfl
  have hbefore : (e.withTxnId id).beforeRows attempt = e.beforeRows attempt := rfl
  unfold evaluateAndApply
  rw [hvalidate, hbefore]
  split
  · rfl
  · split
    · rfl
    · dsimp only
      rw [withTxnId_applyWrites, withTxnId_backfillIndexes]
      rfl

theorem withTxnId_applyAdmitted (requestHash : Digest) (attempt : TxnAttempt) :
    (e.withTxnId id).applyAdmitted index requestHash attempt =
      ((e.applyAdmitted index requestHash attempt).1.withTxnId id,
        (e.applyAdmitted index requestHash attempt).2) := by
  have hadmission : (e.withTxnId id).admitRequest attempt.request requestHash =
    e.admitRequest attempt.request requestHash := rfl
  unfold applyAdmitted
  rw [hadmission]
  split
  · rw [withTxnId_evaluateAndApply]
    rfl
  · rfl
  · rfl

/-- What an apply goes by does not depend on the ids. -/
theorem withTxnId_position :
    (e.withTxnId id).lastApplied = e.lastApplied ∧
      (e.withTxnId id).lastApplyHash = e.lastApplyHash ∧
      (e.withTxnId id).lastApplyOutcome = e.lastApplyOutcome ∧
      (e.withTxnId id).nextIndex index = e.nextIndex index :=
  ⟨rfl, rfl, rfl, rfl⟩

theorem withTxnId_applyWithRequestHash (applyHash requestHash : Digest) (attempt : TxnAttempt) :
    (e.withTxnId id).applyWithRequestHash index applyHash requestHash attempt =
      (e.applyWithRequestHash index applyHash requestHash attempt).map fun applied =>
        (applied.1.withTxnId id, applied.2) := by
  obtain ⟨hlast, hhash, houtcome, hnext⟩ := e.withTxnId_position id index
  unfold applyWithRequestHash
  rw [hlast, hhash, houtcome, hnext, withTxnId_applyAdmitted]
  cases attempt.validateCanonical with
  | error error => rfl
  | ok _ =>
    by_cases hagain : index = e.lastApplied
    · simp only [if_pos hagain]
      by_cases hmismatch : e.lastApplyHash ≠ some applyHash
      · simp only [failIf, if_pos hmismatch]
        rfl
      · simp only [failIf, if_neg hmismatch]
        cases e.lastApplyOutcome <;> rfl
    · simp only [if_neg hagain]
      cases e.nextIndex index <;> rfl

/-- Applying hands out no transaction id. -/
theorem nextTxnId_applyWithRequestHash {e e' : Engine} {index : Nat}
    {applyHash requestHash : Digest} {attempt : TxnAttempt} {outcome : ApplyOutcome}
    (h : e.applyWithRequestHash index applyHash requestHash attempt = .ok (e', outcome)) :
    e'.nextTxnId = e.nextTxnId := by
  have hsame := withTxnId_applyWithRequestHash e e.nextTxnId index applyHash requestHash attempt
  rw [withTxnId_self, h] at hsame
  exact congrArg (fun applied : Engine × ApplyOutcome => applied.1.nextTxnId) (Except.ok.inj hsame)

theorem withTxnId_applyNoop (hash : Digest) :
    (e.withTxnId id).applyNoop index hash =
      (e.applyNoop index hash).map fun applied => (applied.1.withTxnId id, applied.2) := by
  obtain ⟨hlast, hhash, houtcome, hnext⟩ := e.withTxnId_position id index
  unfold applyNoop
  rw [hlast, hhash, houtcome, hnext]
  by_cases hagain : index = e.lastApplied
  · simp only [if_pos hagain]
    by_cases hmismatch : e.lastApplyHash ≠ some hash ∨ e.lastApplyOutcome ≠ some .noop
    · simp only [failIf, if_pos hmismatch]
      rfl
    · simp only [failIf, if_neg hmismatch]
      rfl
  · simp only [if_neg hagain]
    cases e.nextIndex index <;> rfl

end Engine

theorem Restorable.withTxnId {e : Engine} (h : Restorable e) {id : Nat} (hid : 1 ≤ id) :
    Restorable (e.withTxnId id) where
  consistent := ⟨h.consistent.catalog, h.consistent.primary, h.consistent.secondary,
    congrArg (fun e : Engine => e.withTxnId id) h.consistent.counted⟩
  floor := h.floor
  genesis := h.genesis
  applied := h.applied
  clients := h.clients
  nextTxnId := hid

end AsterEngine
