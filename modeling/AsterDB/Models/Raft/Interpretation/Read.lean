import AsterDB.Models.Raft.Interpretation.Election

/-!
# Responses to the leader and read barriers

Append responses raise matches and acknowledge reads; snapshot responses only
raise matches below the commit index. A read registered at the commit index of
a leader with an entry of its own term covers every earlier commit, unless a
quorum had already left the term; that quorum never acknowledges the read.
-/

namespace AsterRaft

open Std Consensus
open Consensus.State (Evolve)

/-- What a leader does about the outcome of an append. -/
def Turn.noteAppend (t : Turn) (sender : NodeId) (success : Bool) (matchIndex conflictIndex : Nat)
    (conflictTerm : Option Nat) : Turn :=
  if success then
    let t := t.modify fun r => { r with
      progress := r.progress.modify sender fun p => {
        matchIndex := max p.matchIndex matchIndex
        nextIndex := max p.nextIndex (matchIndex + 1)
        snapshotOffset := none } }
    let t := t.advanceLeaderCommit
    if matchIndex < t.raft.log.lastIndex then t.sendAppend sender none else t
  else
    let nextIndex := Turn.retryIndex t.raft.log conflictIndex conflictTerm
    (t.modify fun r => { r with
      progress := r.progress.modify sender fun p => { p with
        nextIndex := min nextIndex (max (p.nextIndex - 1) 1)
        snapshotOffset := none } }).sendAppend sender none

namespace Setting

variable {σ : Setting} {n : NodeId} {role : Role} {w w₀ : World} {s s₀ : Protocol} {t : Turn}

variable {e : Event}

/-- Every event of the history tells the truth. -/
theorem Sim.event (h : σ.Sim w s) (he : e ∈ w.history) : ∃ older, σ.EventOk s older e := by
  obtain ⟨newer, older, hsplit⟩ := List.append_of_mem he
  exact ⟨older, h.history e older (by rw [hsplit]; exact List.suffix_append _ _)⟩

/-- A read acknowledged by a quorum covers every commit before it. -/
theorem ReadOk.covers {T : Nat} {context : Bytes} {pending : PendingRead}
    (h : σ.ReadOk w s n T context pending)
    (hq : σ.configuration.quorum pending.acknowledgements = true) {U : Nat} {past : List Event}
    (hpast : Event.given n U (.readIndex context) :: past <:+ w.history)
    (he : e ∈ past) {c : Event.Commit} (hc : e.commit? = some c) : c.index ≤ pending.index := by
  rcases h.2 U past hpast e he c hc with hle | ⟨Q, hQ, hout⟩
  · exact hle
  · obtain ⟨v, hv, hvQ⟩ := σ.configuration.quorumSystem.meet
      (P := {v | v ∈ pending.acknowledgements}) ⟨_, hq, fun v hv => hv⟩ hQ
    exact absurd hv (hout v hvQ).2.1

section Leader

variable (h : σ.Track n role w₀ s₀ t s) (hr : t.raft.role = .leader)
include h hr

/-- Answer a read whose barrier is complete. -/
theorem Track.completeRead (context : Bytes)
    (hq : ∀ pending, t.raft.pendingReads[context]? = some pending →
      σ.configuration.quorum pending.acknowledgements = true) :
    σ.Track n role w₀ s₀ (t.completeRead context) s := by
  unfold Turn.completeRead
  split
  · exact h
  rename_i pending hpending
  have hlead := h.mem.leader hr
  obtain ⟨happlied, hread⟩ := hlead.reads context pending hpending
  refine h.push ⟨Evolve.refl n s, h.inv, h.reached.sim.numbered, h.reached.sim.disk n, by simp,
    by simp, ?_⟩ ?_
  · refine ⟨fun c hc => ?_, by simp [Event.election?], by simp [Event.vote?],
      by simp [Event.applied?], by simp, by simp, ?_⟩
    · cases role <;> cases hc
    · intro m role' d context' index heq
      cases heq
      refine ⟨by rw [← h.mem.stable]; exact happlied, fun hf U past hpast e he c hc => ?_⟩
      exact (hread hf).covers (hq pending hpending) hpast he hc
  · refine MemOk.update_leader (r := t.raft) ?_ rfl rfl rfl rfl hr hr ?_
    · apply h.mem.perform_self rfl (by simp) _ (by simp)
      cases role <;> rfl
    · refine LeaderOk.update (r := t.raft) (hlead.perform (by simp) ?_ (by simp)) rfl
        hlead.progress le_rfl le_rfl fun other p hp => ?_
      · intro c hc
        cases role <;> cases hc
      · exact (Maps.of_erase hp).2

/-- Note an acknowledgement of a read that came in a response of the current term. -/
theorem Track.acknowledgeRead {sender : NodeId} {context : Bytes} {success : Bool}
    {matchIndex conflictIndex : Nat} {conflictTerm : Option Nat}
    (hp : ⟨sender, n, .appendEntriesResponse t.raft.hardState.currentTerm success matchIndex
      conflictIndex conflictTerm (some context)⟩ ∈ (w₀.performAll n role t.actions).network) :
    σ.Track n role w₀ s₀ (t.acknowledgeRead sender context) s := by
  unfold Turn.acknowledgeRead
  split
  · exact h
  rename_i pending hpending
  have hlead := h.mem.leader hr
  have hack : σ.Track n role w₀ s₀ (t.modify fun r => { r with
      pendingReads := r.pendingReads.insert context { pending with
        acknowledgements := pending.acknowledgements.insert sender } }) s := by
    refine h.withRaft (h.mem.update_leader rfl rfl rfl rfl hr hr
      { hlead with reads := fun other p hother => ?_ })
    rcases Maps.of_insert hother with ⟨rfl, rfl⟩ | ⟨-, hother⟩
    · obtain ⟨happlied, hread⟩ := hlead.reads _ pending hpending
      refine ⟨happlied, fun hf => ⟨(hread hf).1, fun U past hpast e he c hc => ?_⟩⟩
      rcases (hread hf).2 U past hpast e he c hc with hle | ⟨Q, hQ, hout⟩
      · exact Or.inl hle
      · refine Or.inr ⟨Q, hQ, fun v hv => ⟨(hout v hv).1, ?_, (hout v hv).2.2⟩⟩
        rw [ExtTreeSet.mem_insert, Std.LawfulEqCmp.compare_eq_iff_eq]
        rintro (rfl | hmem)
        · exact (hout _ hv).2.2 _ _ _ _ hp
        · exact (hout v hv).2.1 hmem
    · exact hlead.reads other p hother
  dsimp only
  split
  · rename_i hq
    refine hack.completeRead hr context fun p hpend => ?_
    simp only [Turn.modify, ExtTreeMap.getElem?_insert_self, Option.some.injEq] at hpend
    subst hpend
    rw [← h.mem.configuration]
    exact hq
  · exact hack

/-- Commits of every term are covered by the commit index of a leader with a
committed entry of its own, except those of later terms. -/
theorem Track.commit_le_of_term_le
    (hown : t.raft.log.term t.raft.hardState.commitIndex = some t.raft.hardState.currentTerm)
    {e : Event} (he : e ∈ (w₀.performAll n role t.actions).history) {c : Event.Commit}
    (hc : e.commit? = some c) (hle : c.term ≤ t.raft.hardState.currentTerm) :
    c.index ≤ t.raft.hardState.commitIndex := by
  have hlead := h.mem.leader hr
  rcases hle.eq_or_lt with heq | hlt
  · exact hlead.commits e he c hc heq
  obtain ⟨_, hevent⟩ := h.reached.sim.event he
  obtain ⟨_, hcom, _⟩ := hevent.commit c hc
  have hlater := h.inv.leaderLog_of_committed hcom hlt hlead.leader
  obtain ⟨_, ht⟩ := h.log.term_some hown
  rw [h.leader_log hr] at ht
  by_contra hlt'
  -- The entry at the commit index would belong to the earlier leader's log.
  have hsame := termAt_congr hlater (i := t.raft.hardState.commitIndex) (by omega)
  rw [ht] at hsame
  cases hcommit : t.raft.hardState.commitIndex with
  | zero =>
    rw [hcommit, termAt_zero, Option.some.injEq] at hsame
    omega
  | succ k =>
    rw [hcommit, termAt_succ, eq_comm, Option.map_eq_some_iff] at hsame
    obtain ⟨x, hx, hxT⟩ := hsame
    have := h.inv.leaderLog_term_le (List.mem_of_getElem? hx)
    omega

end Leader

section

variable (h : σ.Track n role w₀ s₀ t s)
include h

/-- A quorum that commits in a later term has left this one. -/
theorem Track.quorum_past
    (he : e ∈ (w₀.performAll n role t.actions).history) {c : Event.Commit} (hc : e.commit? = some c)
    (hlt : t.raft.hardState.currentTerm < c.term) : ∃ Q, σ.configuration.quorumSystem.IsQuorum Q ∧
      ∀ v ∈ Q, t.raft.hardState.currentTerm < s.term v ∧ v ≠ n := by
  obtain ⟨_, hevent⟩ := h.reached.sim.event he
  obtain ⟨_, ⟨⟨_, hpos, _⟩, Q, hQ, hacked⟩, _⟩ := hevent.commit c hc
  refine ⟨Q, hQ, fun v hv => ?_⟩
  have hterm := h.inv.acked_term v c.term (hpos.trans_le (hacked v hv))
  have hself := h.term
  refine ⟨by omega, ?_⟩
  rintro rfl
  omega

/-- Register a read, given just now with a context that never came before. -/
theorem Track.readIndex {context : Bytes} (hgiven : ∃ U, Event.given n U (.readIndex context) ∈
      (w₀.performAll n role t.actions).history)
    (hnew : σ.fresh → ∀ v T success matchIndex conflictIndex conflictTerm, v ≠ n →
      ⟨v, n, .appendEntriesResponse T success matchIndex conflictIndex conflictTerm
        (some context)⟩ ∉ (w₀.performAll n role t.actions).network)
    (happlied : t.raft.appliedIndex = t.raft.hardState.commitIndex) :
    σ.Good n role w₀ s₀ (t.readIndex context) := by
  unfold Turn.readIndex
  split
  · exact ⟨s, h.quiet rfl⟩
  split
  · exact ⟨s, h.quiet rfl⟩
  split
  · exact ⟨s, h.quiet rfl⟩
  rename_i hr hcontext hown
  have hr : t.raft.role = .leader := not_not.mp hr
  have hown := not_not.mp hown
  have hlead := h.mem.leader hr
  have hreg : σ.Track n role w₀ s₀ (t.modify fun r => { r with
      pendingReads := r.pendingReads.insert context {
        index := t.raft.hardState.commitIndex
        acknowledgements := (∅ : ExtTreeSet NodeId).insert t.raft.id } }) s := by
    refine h.withRaft (h.mem.update_leader rfl rfl rfl rfl hr hr
      { hlead with reads := fun other p hother => ?_ })
    rcases Maps.of_insert hother with ⟨rfl, rfl⟩ | ⟨-, hother⟩
    · refine ⟨happlied.ge, fun hf => ⟨hgiven, fun U past hpast e he c hc => ?_⟩⟩
      have hmem := hpast.mem (List.mem_cons_of_mem _ he)
      by_cases hle : c.term ≤ t.raft.hardState.currentTerm
      · exact Or.inl (h.commit_le_of_term_le hr hown hmem hc hle)
      · obtain ⟨Q, hQ, hout⟩ := h.quorum_past hmem hc (by omega)
        refine Or.inr ⟨Q, hQ, fun v hv => ⟨(hout v hv).1, ?_, fun _ _ _ _ =>
          hnew hf v _ _ _ _ _ (hout v hv).2⟩⟩
        rw [ExtTreeSet.mem_insert, Std.LawfulEqCmp.compare_eq_iff_eq, h.mem.id]
        rintro (heq | hmem)
        · exact (hout v hv).2 heq.symm
        · simp at hmem
    · exact hlead.reads other p hother
  dsimp only
  split
  · rename_i hq
    refine ⟨s, hreg.completeRead hr context fun p hpend => ?_⟩
    simp only [Turn.modify, ExtTreeMap.getElem?_insert_self, Option.some.injEq] at hpend
    subst hpend
    rw [← h.mem.configuration]
    exact hq
  · refine ⟨s, hreg.broadcastAppend hr (some context) fun c hc => ?_⟩
    cases hc
    exact hgiven

/-- Raise the match of one follower by what it acknowledged or what is committed. -/
theorem Track.raiseMatch (hr : t.raft.role = .leader) (progress : ExtTreeMap NodeId Progress)
    (hmatch : ∀ v (p : Progress), progress[v]? = some p →
      (∃ q, t.raft.progress[v]? = some q ∧ p.matchIndex ≤ q.matchIndex) ∨
        p.matchIndex ≤ s.acked v t.raft.hardState.currentTerm ∨
        p.matchIndex ≤ t.raft.hardState.commitIndex) :
    σ.Track n role w₀ s₀ (t.modify fun r => { r with progress := progress }) s := by
  have hlead := h.mem.leader hr
  refine h.withRaft (h.mem.update_leader rfl rfl rfl rfl hr hr
    { hlead with progress := fun v p hp => ?_ })
  rcases hmatch v p hp with ⟨q, hq, hle⟩ | hle
  · exact (hlead.progress v q hq).imp (fun ha => hle.trans ha) fun hc => hle.trans hc
  · exact hle

/-- Handle the outcome of an append once the read is acknowledged. -/
theorem Track.noteAppend (hr : t.raft.role = .leader) {sender : NodeId} {success : Bool}
    {matchIndex : Nat} (conflictIndex : Nat) (conflictTerm : Option Nat)
    (hacked : success = true → matchIndex ≤ s.acked sender t.raft.hardState.currentTerm)
    (hfinal : role = .leader) :
    σ.Good n role w₀ s₀ (t.noteAppend sender success matchIndex conflictIndex conflictTerm) := by
  unfold Turn.noteAppend
  split
  · rename_i hs
    have hraise := h.raiseMatch hr (t.raft.progress.modify sender fun p => {
        matchIndex := max p.matchIndex matchIndex
        nextIndex := max p.nextIndex (matchIndex + 1)
        snapshotOffset := none }) fun v p hp => by
      rcases Maps.of_modify hp with ⟨rfl, q, hq, rfl⟩ | ⟨-, hp⟩
      · rcases le_total matchIndex q.matchIndex with hle | hle
        · exact Or.inl ⟨q, hq, (Nat.max_eq_left hle).le⟩
        · exact Or.inr (Or.inl ((Nat.max_eq_right hle).le.trans (hacked hs)))
      · exact Or.inl ⟨p, hp, le_rfl⟩
    have hcommit := hraise.advanceLeaderCommit fun _ => hfinal
    dsimp only
    split
    · exact ⟨s, hcommit.sendAppend ((Turn.proceeds_advanceLeaderCommit _).role.trans hr) _ _
        (by simp)⟩
    · exact ⟨s, hcommit⟩
  · have hkeep := h.raiseMatch hr (t.raft.progress.modify sender fun p => { p with
        nextIndex := min (Turn.retryIndex t.raft.log conflictIndex conflictTerm)
          (max (p.nextIndex - 1) 1)
        snapshotOffset := none }) fun v p hp => by
      rcases Maps.of_modify hp with ⟨rfl, q, hq, rfl⟩ | ⟨-, hp⟩
      · exact Or.inl ⟨q, hq, le_rfl⟩
      · exact Or.inl ⟨p, hp, le_rfl⟩
    exact ⟨s, hkeep.sendAppend hr _ _ (by simp)⟩

end

end Setting

namespace Turn

/-- Acknowledging a read touches the pending reads only. -/
theorem acknowledgeRead_raft (t : Turn) (sender : NodeId) (context : Bytes) :
    ∃ reads, (t.acknowledgeRead sender context).raft = { t.raft with pendingReads := reads } := by
  unfold acknowledgeRead completeRead
  split
  · exact ⟨t.raft.pendingReads, rfl⟩
  · dsimp only
    split
    · split <;> exact ⟨_, rfl⟩
    · exact ⟨_, rfl⟩

/-- A leader stays one when a response of its own term comes in. -/
theorem onAppendResponse_role {t : Turn} (hr : t.raft.role = .leader) (sender : NodeId)
    (success : Bool) (matchIndex conflictIndex : Nat) (conflictTerm : Option Nat)
    (readContext : Option Bytes) :
    (t.onAppendResponse sender t.raft.hardState.currentTerm success matchIndex conflictIndex
      conflictTerm readContext).raft.role = .leader := by
  unfold onAppendResponse
  rw [if_neg (Nat.lt_irrefl _), if_neg (by simp [hr])]
  cases success <;> cases readContext <;> dsimp only
  all_goals
    simp only [Bool.false_eq_true, if_false, if_true]
    try split
    all_goals simp [sendAppend_raft, (proceeds_advanceLeaderCommit _).role,
      (proceeds_acknowledgeRead ..).role, modify, hr]

theorem onSnapshotResponse_role {t : Turn} (hr : t.raft.role = .leader) (sender : NodeId)
    (accepted : Bool) (nextOffset : Nat) (done : Bool) (matchIndex : Nat) :
    (t.onSnapshotResponse sender t.raft.hardState.currentTerm accepted nextOffset done
      matchIndex).raft.role = .leader := by
  unfold onSnapshotResponse
  rw [if_neg (Nat.lt_irrefl _), if_neg (by simp [hr])]
  dsimp only
  split
  · exact hr
  · rw [sendAppend_raft]
    split
    · exact (proceeds_advanceLeaderCommit _).role.trans hr
    · exact hr

end Turn

namespace Setting

variable {σ : Setting} {n : NodeId} {role : Role} {w₀ : World} {s s₀ : Protocol} {t : Turn}

theorem Track.onAppendResponse (h : σ.Track n role w₀ s₀ t s) {sender : NodeId} {term : Nat}
    {success : Bool} {matchIndex conflictIndex : Nat} {conflictTerm : Option Nat}
    {readContext : Option Bytes}
    (hp : ⟨sender, n, .appendEntriesResponse term success matchIndex conflictIndex conflictTerm
      readContext⟩ ∈ w₀.network)
    (hfinal : t.raft.role = .leader → term = t.raft.hardState.currentTerm → role = .leader) :
    σ.Good n role w₀ s₀ (t.onAppendResponse sender term success matchIndex conflictIndex
      conflictTerm readContext) := by
  unfold Turn.onAppendResponse
  split
  · exact (h.becomeFollower _ _).quiet rfl
  split
  · exact ⟨s, h⟩
  rename_i hcond
  simp only [not_or, not_not] at hcond
  obtain ⟨hr, rfl⟩ := hcond
  have hacked := (h.packet hp).1
  have htouch : σ.Track n role w₀ s₀
      (t.modify fun r => { r with recentActive := r.recentActive.insert sender }) s :=
    h.withRaft (h.mem.touch _ _ _)
  cases readContext with
  | none => exact htouch.noteAppend hr _ _ hacked (hfinal hr rfl)
  | some context =>
    have hread := htouch.acknowledgeRead hr (World.mem_network_performAll _ hp)
    obtain ⟨reads, hraft⟩ := (t.modify fun r => { r with
      recentActive := r.recentActive.insert sender }).acknowledgeRead_raft sender context
    refine hread.noteAppend ((congrArg Raft.role hraft).trans hr) _ _ (fun hs => ?_) (hfinal hr rfl)
    rw [hraft]
    exact hacked hs

theorem Track.onSnapshotResponse (h : σ.Track n role w₀ s₀ t s) {sender : NodeId} {term : Nat}
    {accepted done : Bool} {nextOffset matchIndex : Nat}
    (hp : ⟨sender, n, .installSnapshotResponse term accepted nextOffset done matchIndex⟩ ∈
      w₀.network)
    (hfinal : t.raft.role = .leader → term = t.raft.hardState.currentTerm → role = .leader) :
    σ.Good n role w₀ s₀
      (t.onSnapshotResponse sender term accepted nextOffset done matchIndex) := by
  unfold Turn.onSnapshotResponse
  split
  · exact (h.becomeFollower _ _).quiet rfl
  split
  · exact ⟨s, h⟩
  rename_i hcond
  simp only [not_or, not_not] at hcond
  obtain ⟨hr, rfl⟩ := hcond
  have htouch : σ.Track n role w₀ s₀
      (t.modify fun r => { r with recentActive := r.recentActive.insert sender }) s :=
    h.withRaft (h.mem.touch _ _ _)
  dsimp only
  split
  · exact ⟨s, htouch⟩
  rename_i p hprogress
  -- An accepted snapshot was one of the leader's own, below its commit index.
  have hbound : done = true ∧ accepted = true → matchIndex ≤ t.raft.hardState.commitIndex := by
    rintro ⟨hdone, haccepted⟩
    obtain ⟨leaderId, metadata, offset, data, last, hm, hmem⟩ := h.packet hp haccepted hdone
    rw [← hm]
    exact (h.mem.leader hr).snapshots _ _ _ _ _ _ hmem
  have hinsert : ∀ q : Progress, (q.matchIndex ≤ p.matchIndex ∨
      q.matchIndex ≤ t.raft.hardState.commitIndex) →
      σ.Track n role w₀ s₀ ((t.modify fun r => { r with
        recentActive := r.recentActive.insert sender }).modify fun r => { r with
          progress := r.progress.insert sender q }) s := by
    intro q hq
    refine htouch.raiseMatch hr _ fun v x hx => ?_
    rcases Maps.of_insert hx with ⟨rfl, rfl⟩ | ⟨-, hx⟩
    · exact hq.imp (fun hle => ⟨p, hprogress, hle⟩) Or.inr
    · exact Or.inl ⟨x, hx, le_rfl⟩
  split
  · rename_i hdone
    have hle := hbound hdone
    have hraise := hinsert ⟨max p.matchIndex matchIndex, max p.nextIndex (matchIndex + 1), none⟩
      (by simp only; omega)
    exact ⟨s, (hraise.advanceLeaderCommit fun _ => hfinal hr rfl).sendAppend
      ((Turn.proceeds_advanceLeaderCommit _).role.trans hr) _ _ (by simp)⟩
  · exact ⟨s, (hinsert { p with snapshotOffset := some (if accepted then nextOffset else 0) }
      (Or.inl le_rfl)).sendAppend hr _ _ (by simp)⟩

end Setting

end AsterRaft
