import AsterDB.Models.Raft.Interpretation.Action
import AsterDB.Models.Raft.Interpretation.Routine

/-!
# Committing and applying

Applying entries and raising the commit index move nothing in the protocol
state; the leader's own commits are the protocol's commitments.
-/

namespace AsterRaft

open Std Consensus
open Consensus.State (Evolve)

/-- Only the commit and apply indices differ. -/
def Raft.Advances (r r' : Raft) : Prop :=
  ∃ commit applied, r' = { r with
    hardState := { r.hardState with commitIndex := commit }
    appliedIndex := applied }

theorem Raft.Advances.refl (r : Raft) : r.Advances r := ⟨_, _, rfl⟩

namespace Setting

variable {σ : Setting} {n : NodeId} {role : Role} {w w₀ : World} {s s₀ : Protocol} {t : Turn}

/-- A leader's knowledge after its indices grew and its tables changed soundly. -/
theorem LeaderOk.update {r r' : Raft} (h : σ.LeaderOk w s n r) (hterm : r'.term = r.term)
    (hprogress : ∀ v p, r'.progress[v]? = some p →
      p.matchIndex ≤ s.acked v r.term ∨ p.matchIndex ≤ r'.commitIndex)
    (hcommit : r.commitIndex ≤ r'.commitIndex) (happlied : r.appliedIndex ≤ r'.appliedIndex)
    (hreads : ∀ (context : Bytes) pending, r'.pendingReads[context]? = some pending →
      r.pendingReads[context]? = some pending) : σ.LeaderOk w s n r' where
  leader := by
    rw [hterm]
    exact h.leader
  progress := by
    rw [hterm]
    exact hprogress
  snapshots := by
    rw [hterm]
    intro receiver leaderId metadata offset data done hp
    exact (h.snapshots _ _ _ _ _ _ hp).trans hcommit
  commits := by
    rw [hterm]
    intro e he c hc hT
    exact (h.commits e he c hc hT).trans hcommit
  reads := by
    rw [hterm]
    intro context pending hp
    obtain ⟨hle, hread⟩ := h.reads context pending (hreads context pending hp)
    exact ⟨hle.trans happlied, hread⟩

/-- A leader's knowledge after its indices grew. -/
theorem LeaderOk.advance {r r' : Raft} (h : σ.LeaderOk w s n r) (hadv : r.Advances r')
    (hcommit : r.commitIndex ≤ r'.commitIndex) (happlied : r.appliedIndex ≤ r'.appliedIndex) :
    σ.LeaderOk w s n r' := by
  obtain ⟨commit, applied, rfl⟩ := hadv
  refine h.update rfl (fun v p hp => ?_) hcommit happlied fun _ _ hp => hp
  exact (h.progress v p hp).imp (fun ha => ha) fun hc => hc.trans hcommit

variable {k : Nat}

/-- A settled index names a committed entry of the node's log. -/
theorem Settled.entry {i : Nat} {e : LogEntry} (h : σ.Settled s n k) (hi : i < k)
    (he : (s.log n)[i]? = some e) :
    ∃ U j, σ.Committed s U j ∧ i < j ∧ (s.leaderLog U)[i]? = some e := by
  rcases h with h | ⟨U, j, _, hk, hcom, htake⟩
  · omega
  · refine ⟨U, j, hcom, by omega, ?_⟩
    have hget := congrArg (fun l : List LogEntry => l[i]?) htake
    simp only [List.getElem?_take, if_pos hi, he] at hget
    exact hget.symm

section

variable (h : σ.Track n role w₀ s₀ t s)
include h

/-- Hand the next committed entry to the state machine. -/
theorem Track.apply {e : LogEntry} (hlt : t.raft.appliedIndex < t.raft.hardState.commitIndex)
    (he : t.raft.log.entry (t.raft.appliedIndex + 1) = some e) :
    σ.Track n role w₀ s₀
      ((t.modify fun r => { r with appliedIndex:= t.raft.appliedIndex + 1 }).push (.apply e))
      s := by
  obtain ⟨_, hget⟩ := h.log.entry_some he
  have hindex : e.index = t.raft.appliedIndex + 1 := h.log.numbered _ e hget
  refine h.push ⟨Evolve.refl n s, h.inv, h.reached.sim.numbered, ?_, by simp, by simp, ?_⟩ ?_
  · have hd := h.disk
    rw [← h.mem.stable]
    exact { hd with
      base_le := by
        have := hd.base_le
        simp only [StableState.perform, hindex]
        exact this.trans (Nat.le_succ _)
      applied_le := by
        simp only [StableState.perform, hindex]
        exact hlt }
  · refine ⟨fun c hc => ?_, by simp [Event.election?], by simp [Event.vote?], ?_, ?_, by simp,
      by simp⟩
    · cases role <;> cases hc
    · intro hs entry hentry
      cases hentry
      obtain ⟨U, j, hcom, hj, hget'⟩ := (h.settled hs).entry hlt hget
      rw [hindex]
      exact ⟨U, j, hcom, by omega, by omega, by simpa using hget'⟩
    · intro m role' d entry hentry
      cases hentry
      have hnew : RaftLog.new t.raft.snapshot t.raft.log.entries = t.raft.log := h.mem.log
      rw [← h.mem.stable, hindex]
      simp only [Raft.stableState, hnew]
      exact ⟨trivial, he⟩
  · refine ⟨h.mem.id, h.mem.configuration, ?_, h.mem.log, h.mem.campaign, fun hr => ?_,
      fun hr => ?_, fun hr i x hi hle hx => ?_⟩
    · rw [World.stable_perform_self, ← h.mem.stable]
      simp [StableState.perform, Turn.modify, Raft.stableState, hindex]
    · exact { h.mem.candidate hr with }
    · refine LeaderOk.advance ((h.mem.leader hr).perform ?_ ?_ ?_)
        ⟨_, _, rfl⟩ le_rfl (Nat.le_succ _)
      · simp
      · intro c hc
        cases role <;> cases hc
      · simp
    · exact (h.mem.covered hr i x ((Nat.lt_succ_self _).trans hi) hle hx).cons _

/-- A leader reports the proposal it just applied. -/
theorem Track.report (e : LogEntry)
    (hlast : t.raft.role = .leader → ∃ d rest, (w₀.performAll n role t.actions).history =
      .performed n role d (.apply e) :: rest ∧ CoveredBy rest n e.index e) :
    σ.Track n role w₀ s₀ (if t.raft.role = .leader then
        match e.payload with
        | .command id _ => t.push (.proposalCommitted id e.index)
        | .noop => t
      else t) s := by
  split
  · rename_i hr
    split
    · rename_i id bytes hpayload
      obtain ⟨d, rest, hhead, hcover⟩ := hlast hr
      refine h.push ⟨Evolve.refl n s, h.inv, h.reached.sim.numbered, h.reached.sim.disk n, by simp,
        by simp, ?_⟩ (h.mem.perform_self rfl (by simp) (by cases role <;> rfl) (by simp))
      refine ⟨fun c hc => ?_, by simp [Event.election?], by simp [Event.vote?],
        by simp [Event.applied?], by simp, ?_, by simp⟩
      · cases role <;> cases hc
      · intro m role' d' id' index heq
        cases heq
        exact ⟨d, e, rest, hhead, rfl, ⟨bytes, hpayload⟩, hcover⟩
    · exact h
  · exact h

/-- The replay loop applies entry after entry and never misses one. -/
theorem Track.applyCommittedLoop (fuel : Nat) :
    σ.Track n role w₀ s₀ (t.applyCommittedLoop fuel) s ∧
      (t.applyCommittedLoop fuel).raft = { t.raft with
        appliedIndex := min (t.raft.appliedIndex + fuel) t.raft.hardState.commitIndex } := by
  induction fuel generalizing t with
  | zero =>
    have hle := h.applied_le
    refine ⟨h, ?_⟩
    simp only [Turn.applyCommittedLoop, Nat.add_zero, Nat.min_eq_left hle]
  | succ fuel ih =>
    unfold Turn.applyCommittedLoop
    by_cases hlt : t.raft.appliedIndex < t.raft.hardState.commitIndex
    · cases he : t.raft.log.entry (t.raft.appliedIndex + 1) with
      | none =>
        have hbase := h.base_le
        have hcommit := h.commit_le
        rw [h.log.entry (by omega), List.getElem?_eq_none_iff] at he
        omega
      | some e =>
        simp only [if_pos hlt, he]
        obtain ⟨hbase, hget⟩ := h.log.entry_some he
        have hindex : e.index = t.raft.appliedIndex + 1 := h.log.numbered _ e hget
        obtain ⟨htrack, hraft⟩ := ih ((h.apply hlt he).report e fun hr => ⟨_, _,
          congrArg World.history (World.performAll_concat _ _ _ _ _), by
            rw [hindex]
            exact h.mem.covered hr _ _ (Nat.lt_succ_self _) hlt hget⟩)
        refine ⟨htrack, hraft.trans ?_⟩
        have hmin : min (t.raft.appliedIndex + 1 + fuel) t.raft.hardState.commitIndex =
            min (t.raft.appliedIndex + (fuel + 1)) t.raft.hardState.commitIndex := by
          omega
        rw [← hmin]
        cases e.payload <;> split <;> rfl
    · rw [if_neg hlt]
      have hle := h.applied_le
      refine ⟨h, ?_⟩
      rw [show min (t.raft.appliedIndex + (fuel + 1)) t.raft.hardState.commitIndex =
        t.raft.appliedIndex by omega]

/-- Replay brings the apply index up to the commit index. -/
theorem Track.applyCommitted :
    σ.Track n role w₀ s₀ t.applyCommitted s ∧
      t.applyCommitted.raft = { t.raft with appliedIndex := t.raft.hardState.commitIndex } := by
  obtain ⟨htrack, hraft⟩ :=
    h.applyCommittedLoop (t.raft.hardState.commitIndex - t.raft.appliedIndex)
  refine ⟨htrack, hraft.trans ?_⟩
  rw [show min (t.raft.appliedIndex + (t.raft.hardState.commitIndex - t.raft.appliedIndex))
    t.raft.hardState.commitIndex = t.raft.hardState.commitIndex by omega]

/-- Raise the commit index on disk. -/
theorem Track.persistCommit (hgt : t.raft.hardState.commitIndex < k) (hle : k ≤ (s.log n).length)
    (hsettled : σ.strict → σ.Settled s n k)
    (hleader : role = .leader → s.leader t.raft.hardState.currentTerm = some n ∧
      σ.Committed s t.raft.hardState.currentTerm k)
    (hfinal : t.raft.role = .leader → role = .leader) :
    σ.Track n role w₀ s₀ (t.modify fun r =>
      { r with hardState:= { r.hardState with commitIndex := k } }).persistHardState s := by
  have happlied := h.applied_le
  refine h.push ⟨Evolve.refl n s, h.inv, h.reached.sim.numbered, ?_, by simp, by simp, ?_⟩ ?_
  · have hd := h.disk
    rw [← h.mem.stable]
    exact { hd with
      applied_le := happlied.trans hgt.le
      commit_le := hle
      settled := hsettled }
  · refine ⟨fun c hc => ?_, by simp [Event.election?], fun v hv => ?_,
      by simp [Event.applied?], by simp, by simp, by simp⟩
    · cases role with
      | leader =>
        obtain ⟨hlead, hcom⟩ := hleader rfl
        simp only [Event.commit?, ← h.mem.stable] at hc
        split at hc
        · cases hc
          refine ⟨hlead, hcom, s.log n, h.disk.log, ?_, hle⟩
          rw [h.inv.leader_holds _ n hlead h.term]
          exact List.prefix_rfl
        · cases hc
      | _ => cases hc
    · have hvote := h.vote
      rw [h.term] at hvote
      simp only [Event.vote?, Turn.modify, Option.map_eq_some_iff] at hv
      obtain ⟨c, hc, rfl⟩ := hv
      exact hvote.trans hc
  · refine ⟨h.mem.id, h.mem.configuration, ?_, h.mem.log, h.mem.campaign, fun hr => ?_,
      fun hr => ?_, fun hr i e hi hik he => ?_⟩
    · rw [World.stable_perform_self, ← h.mem.stable]
      rfl
    · exact { h.mem.candidate hr with }
    · refine LeaderOk.perform (LeaderOk.advance (h.mem.leader hr) ⟨_, _, rfl⟩ hgt.le le_rfl)
        (by simp) ?_ (by simp)
      intro c hc _
      cases role with
      | leader =>
        simp only [Event.commit?] at hc
        split at hc
        · cases hc
          exact le_rfl
        · cases hc
      | _ => cases hc
    · obtain rfl := hfinal hr
      have hbase : t.raft.log.baseIndex < i := h.base_le.trans_lt hi
      have hnew : RaftLog.new t.raft.snapshot t.raft.log.entries = t.raft.log := h.mem.log
      refine ⟨_, List.mem_cons_self, {
        node := n
        term := t.raft.hardState.currentTerm
        index := k
        log := t.raft.log }, ?_, rfl, hik, (h.log.entry hbase).trans he⟩
      simp only [Event.commit?, ← h.mem.stable, Turn.modify, Raft.stableState, hnew]
      exact if_pos hgt

/-- Raise the commit index and apply up to it. -/
theorem Track.setCommit (hsettled : σ.strict → t.raft.hardState.commitIndex < k → σ.Settled s n k)
    (hleader : role = .leader → t.raft.hardState.commitIndex < k →
      s.leader t.raft.hardState.currentTerm = some n ∧
        σ.Committed s t.raft.hardState.currentTerm k)
    (hfinal : t.raft.role = .leader → role = .leader) : σ.Track n role w₀ s₀ (t.setCommit k) s := by
  unfold Turn.setCommit
  split
  · exact h
  split
  · exact h.quiet rfl
  rename_i hgt hle
  rw [h.log.lastIndex] at hle
  exact (h.persistCommit (by omega) (by omega) (fun hs => hsettled hs (by omega))
    (fun hr => hleader hr (by omega)) hfinal).applyCommitted.1

/-- A quorum of matches above the commit index is a commitment of the leader's term. -/
theorem Track.committed_quorumIndex (hr : t.raft.role = .leader)
    (hgt : t.raft.hardState.commitIndex < t.quorumIndex)
    (hterm : t.raft.log.term t.quorumIndex = some t.raft.hardState.currentTerm) :
    σ.Committed s t.raft.hardState.currentTerm t.quorumIndex := by
  have hlead := h.mem.leader hr
  have hpos : 0 < t.quorumIndex := by omega
  unfold Turn.quorumIndex at hpos hgt hterm ⊢
  have hquorum := Configuration.isQuorum_quorumIndex hpos
  generalize t.raft.configuration.quorumIndex _ = index at *
  rw [h.mem.configuration] at hquorum
  refine ⟨?_, _, hquorum, ?_⟩
  · obtain ⟨_, ht⟩ := h.log.term_some hterm
    rw [h.leader_log hr, termAt_pos (by omega), Option.map_eq_some_iff] at ht
    obtain ⟨e, he, het⟩ := ht
    exact ⟨e, by omega, he, het⟩
  · intro v hv
    rw [Set.mem_ofPred_eq] at hv
    cases hp : t.raft.progress[v]? with
    | none =>
      simp only [hp, Option.map_none, Option.getD_none] at hv
      omega
    | some p =>
      simp only [hp, Option.map_some, Option.getD_some] at hv
      rcases hlead.progress v p hp with ha | hc
      · exact hv.trans ha
      · have : p.matchIndex ≤ t.raft.hardState.commitIndex := hc
        omega

theorem Track.advanceLeaderCommit (hfinal : t.raft.role = .leader → role = .leader) :
    σ.Track n role w₀ s₀ t.advanceLeaderCommit s := by
  unfold Turn.advanceLeaderCommit
  split
  · exact h
  split
  · rename_i hr hcond
    have hr : t.raft.role = .leader := not_not.mp hr
    have hcom := h.committed_quorumIndex hr hcond.1 hcond.2
    refine h.setCommit (fun _ _ => Or.inr ⟨_, _, h.term.ge, le_rfl, hcom, ?_⟩)
      (fun _ _ => ⟨(h.mem.leader hr).leader, hcom⟩) hfinal
    rw [h.leader_log hr]
  · exact h

end

end Setting

end AsterRaft
