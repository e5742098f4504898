import AsterDB.Models.Raft.Native.Node

/-!
# Routine work of a turn

Committing, applying, sending and answering reads move only the indices and the
pending reads of a node, and leave its log, its snapshot and its role alone.
-/

namespace AsterRaft

open Std

/-- Actions that touch neither the log nor the role of a node. -/
def Action.routine : Action → Bool
  | .persist (.hardState _) => true
  | .persist _ | .roleChanged .. => false
  | _ => true

namespace Turn

/-- The turn went on with routine work. -/
def Proceeds (t t' : Turn) : Prop :=
  ∃ commit applied reads more, t' = {
    raft := { t.raft with
      hardState := { t.raft.hardState with commitIndex := commit }
      appliedIndex := applied
      pendingReads := reads }
    actions := t.actions ++ more } ∧ ∀ a ∈ more, a.routine = true

variable {t t' t'' : Turn}

theorem Proceeds.refl (t : Turn) : t.Proceeds t := ⟨_, _, _, [], by rw [List.append_nil], nofun⟩

theorem Proceeds.trans (h : t.Proceeds t') (h' : t'.Proceeds t'') : t.Proceeds t'' := by
  obtain ⟨_, _, _, more, rfl, hmore⟩ := h
  obtain ⟨_, _, _, more', rfl, hmore'⟩ := h'
  refine ⟨_, _, _, more ++ more', by rw [List.append_assoc], fun a ha => ?_⟩
  exact (List.mem_append.mp ha).elim (hmore a) (hmore' a)

theorem Proceeds.push (h : t.Proceeds t') {a : Action} (ha : a.routine = true) :
    t.Proceeds (t'.push a) :=
  h.trans ⟨_, _, _, [a], rfl, fun _ hb => List.mem_singleton.mp hb ▸ ha⟩

theorem Proceeds.role (h : t.Proceeds t') : t'.raft.role = t.raft.role := by
  obtain ⟨_, _, _, _, rfl, -⟩ := h
  rfl

theorem Proceeds.log (h : t.Proceeds t') : t'.raft.log = t.raft.log := by
  obtain ⟨_, _, _, _, rfl, -⟩ := h
  rfl

theorem proceeds_applyCommittedLoop (fuel : Nat) (t : Turn) :
    t.Proceeds (t.applyCommittedLoop fuel) := by
  induction fuel generalizing t with
  | zero => exact .refl t
  | succ fuel ih =>
    unfold applyCommittedLoop
    dsimp only
    split
    · split
      · exact (Proceeds.refl t).push rfl
      · refine Proceeds.trans ?_ (ih _)
        have happly : t.Proceeds ((t.modify fun r => { r with
            appliedIndex := t.raft.appliedIndex + 1 }).push (.apply ‹LogEntry›)) :=
          ⟨_, _, _, [_], rfl, by simp [Action.routine]⟩
        split
        · split
          · exact happly.push rfl
          · exact happly
        · exact happly
    · exact .refl t

theorem proceeds_setCommit (t : Turn) (newCommit : Nat) : t.Proceeds (t.setCommit newCommit) := by
  unfold setCommit
  split
  · exact .refl t
  split
  · exact (Proceeds.refl t).push rfl
  · exact Proceeds.trans ⟨newCommit, _, _, [_], rfl, by simp [Action.routine]⟩
      (proceeds_applyCommittedLoop _ _)

theorem proceeds_advanceLeaderCommit (t : Turn) : t.Proceeds t.advanceLeaderCommit := by
  unfold advanceLeaderCommit
  split
  · exact .refl t
  split
  · exact proceeds_setCommit t _
  · exact .refl t

theorem proceeds_sendAppend (t : Turn) (peer : NodeId) (readContext : Option Bytes) :
    t.Proceeds (t.sendAppend peer readContext) := by
  unfold sendAppend sendSnapshotChunk
  split
  · exact .refl t
  split
  · split <;> exact (Proceeds.refl t).push rfl
  · dsimp only
    split <;> exact (Proceeds.refl t).push rfl

theorem proceeds_broadcastAppend (t : Turn) (readContext : Option Bytes) :
    t.Proceeds (t.broadcastAppend readContext) := by
  unfold broadcastAppend
  generalize t.raft.peers = peers
  induction peers generalizing t with
  | nil => exact .refl t
  | cons peer rest ih => exact (proceeds_sendAppend t peer readContext).trans (ih _)

theorem proceeds_completeRead (t : Turn) (context : Bytes) :
    t.Proceeds (t.completeRead context) := by
  unfold completeRead
  split
  · exact .refl t
  · exact ⟨_, _, _, [_], rfl, by simp [Action.routine]⟩

theorem proceeds_acknowledgeRead (t : Turn) (sender : NodeId) (context : Bytes) :
    t.Proceeds (t.acknowledgeRead sender context) := by
  unfold acknowledgeRead
  split
  · exact .refl t
  · have hnote : ∀ reads, t.Proceeds (t.modify fun r => { r with pendingReads := reads }) :=
      fun reads => ⟨_, _, reads, [], by rw [List.append_nil]; rfl, nofun⟩
    dsimp only
    split
    · exact (hnote _).trans (proceeds_completeRead _ _)
    · exact hnote _

end Turn

end AsterRaft
