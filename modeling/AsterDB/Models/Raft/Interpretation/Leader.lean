import AsterDB.Models.Raft.Interpretation.Apply

/-!
# The leader's side of replication

A leader's packets quote its own term's log, its matches are acknowledgements
or lie below its commit index, and a read is complete only after a quorum that
no newer leader can have used.
-/

namespace AsterRaft

open Std Consensus

namespace Turn

theorem sendSnapshotChunk_raft (t : Turn) (peer : NodeId) (offset : Nat) :
    (t.sendSnapshotChunk peer offset).raft = t.raft := by
  unfold sendSnapshotChunk
  split <;> rfl

theorem sendAppend_raft (t : Turn) (peer : NodeId) (readContext : Option Bytes) :
    (t.sendAppend peer readContext).raft = t.raft := by
  unfold sendAppend
  split
  · rfl
  · split
    · exact sendSnapshotChunk_raft _ _ _
    · dsimp only
      split <;> rfl

theorem broadcastAppend_raft (t : Turn) (readContext : Option Bytes) :
    (t.broadcastAppend readContext).raft = t.raft := by
  unfold broadcastAppend
  generalize t.raft.peers = peers
  induction peers generalizing t with
  | nil => rfl
  | cons peer rest ih => exact (ih _).trans (t.sendAppend_raft peer readContext)

theorem propose_role (t : Turn) (id : CommandId) (command : Bytes) :
    (t.propose id command).raft.role = t.raft.role := by
  unfold propose
  split
  · rfl
  · rw [broadcastAppend_raft, (proceeds_advanceLeaderCommit _).role]
    rfl

end Turn

namespace World

/-- Performing actions only adds events. -/
theorem history_suffix_performAll (w : World) (n : NodeId) (role : Role)
    (actions : List Action) : w.history <:+ (w.performAll n role actions).history := by
  induction actions generalizing w with
  | nil => exact List.suffix_rfl
  | cons a rest ih => exact (List.suffix_cons _ _).trans (ih (w.perform n role a))

variable (actions : List Action)

theorem mem_history_performAll {w : World} {n : NodeId} {role : Role} {e : Event}
    (h : e ∈ w.history) : e ∈ (w.performAll n role actions).history :=
  (history_suffix_performAll w n role actions).mem h

/-- Nor does it recall a packet. -/
theorem mem_network_performAll {w : World} {n : NodeId} {role : Role} {p : Packet}
    (h : p ∈ w.network) : p ∈ (w.performAll n role actions).network := by
  induction actions generalizing w with
  | nil => exact h
  | cons a rest ih => exact ih ((mem_network_perform _ _ _ _).mpr (Or.inl h))

theorem performAll_append (w : World) (n : NodeId) (role : Role) (actions more : List Action) :
    w.performAll n role (actions ++ more) =
      (w.performAll n role actions).performAll n role more := by
  simp [performAll]

end World

namespace Setting

variable {σ : Setting} {n : NodeId} {role : Role} {w w₀ : World} {s s₀ : Protocol} {t : Turn}

/-- A packet that was on the wire before the turn tells the truth all along. -/
theorem Track.packet (h : σ.Track n role w₀ s₀ t s) {p : Packet} (hp : p ∈ w₀.network) :
    σ.PacketOk (w₀.performAll n role t.actions) s p :=
  h.reached.sim.packets p (World.mem_network_performAll _ hp)

variable {r : Raft}

/-- A leader that is up keeps its memory sound under changes of its tables. -/
theorem MemOk.update_leader {r' : Raft} (h : σ.MemOk w s n r) (hid : r'.id = r.id)
    (hconf : r'.configuration = r.configuration) (hstable : r'.stableState = r.stableState)
    (hlog : r'.log = r.log) (hr : r.role = .leader) (hrole : r'.role = .leader)
    (hleader : σ.LeaderOk w s n r') : σ.MemOk w s n r' where
  id := hid.trans h.id
  configuration := hconf.trans h.configuration
  stable := hstable.trans h.stable
  log := by
    have hsnapshot : r'.snapshot = r.snapshot := congrArg StableState.snapshot hstable
    rw [hsnapshot, hlog]
    exact h.log
  campaign hr := by simp [hrole] at hr
  candidate hr := by simp [hrole] at hr
  leader _ := hleader
  covered _ := by
    have hcommit : r'.hardState = r.hardState := congrArg StableState.hardState hstable
    have happlied : r'.appliedIndex = r.appliedIndex := congrArg StableState.appliedIndex hstable
    intro i e hlt hle he
    rw [happlied] at hlt
    rw [Raft.commitIndex, hcommit] at hle
    exact h.covered hr i e hlt hle he

/-- The boundary of a log with a snapshot is the snapshot's. -/
theorem MemOk.base_snapshot (h : σ.MemOk w s n r) {snapshot : PersistentSnapshot}
    (hs : r.snapshot = some snapshot) :
    r.log.baseIndex = snapshot.metadata.lastIncludedIndex ∧
      r.log.baseTerm = snapshot.metadata.lastIncludedTerm := by
  rw [← h.log, hs]
  exact ⟨rfl, rfl⟩

section Leader

variable (h : σ.Track n role w₀ s₀ t s) (hr : t.raft.role = .leader)
include h hr

theorem Track.sendSnapshotChunk (peer : NodeId) (offset : Nat) :
    σ.Track n role w₀ s₀ (t.sendSnapshotChunk peer offset) s := by
  unfold Turn.sendSnapshotChunk
  split
  · exact h.quiet rfl
  · rename_i snapshot hsnapshot
    obtain ⟨hindex, hterm⟩ := h.mem.base_snapshot hsnapshot
    have hbase := h.base_le
    have happlied := h.applied_le
    have hle : snapshot.metadata.lastIncludedIndex ≤ t.raft.hardState.commitIndex := by omega
    apply h.send
    · refine ⟨(h.mem.leader hr).leader, ?_, fun hs => ?_⟩
      · rw [← h.leader_log hr, ← hindex, ← hterm]
        exact h.log.base_term
      · have hbacked := ((h.settled hs).mono hle).backed
        rwa [h.term] at hbacked
    · rintro _ _ _ _ _ _ ⟨⟩
      exact hle
    · rintro _ _ _ _ _ _ ⟨⟩

/-- Appends quote the leader's log from a position whose term the packet names. -/
theorem Track.sendAppend (peer : NodeId) (readContext : Option Bytes)
    (hcontext : ∀ context, readContext = some context → ∃ U,
      Event.given n U (.readIndex context) ∈ (w₀.performAll n role t.actions).history) :
    σ.Track n role w₀ s₀ (t.sendAppend peer readContext) s := by
  unfold Turn.sendAppend
  split
  · exact h
  split
  · exact h.sendSnapshotChunk hr _ _
  rename_i progress _ hnext
  dsimp only
  split
  · exact h.quiet rfl
  · rename_i prevLogTerm hprev
    have hbase := h.log.base_le
    have hlast := h.log.lastIndex
    apply h.send
    · refine ⟨(h.mem.leader hr).leader, ?_, ?_, fun hs => ?_, hcontext⟩
      · rw [← h.leader_log hr]
        exact (h.log.term_some hprev).2
      · rw [← h.leader_log hr, h.log.entriesFrom (by omega)]
        exact List.take_prefix _ _
      · have hbacked := (h.settled hs).backed
        rwa [h.term] at hbacked
    · rintro _ _ _ _ _ _ ⟨⟩
    · rintro _ _ _ _ _ _ ⟨⟩

theorem Track.broadcastAppend (readContext : Option Bytes)
    (hcontext : ∀ context, readContext = some context → ∃ U,
      Event.given n U (.readIndex context) ∈ (w₀.performAll n role t.actions).history) :
    σ.Track n role w₀ s₀ (t.broadcastAppend readContext) s := by
  unfold Turn.broadcastAppend
  generalize t.raft.peers = peers
  induction peers generalizing t with
  | nil => exact h
  | cons peer rest ih =>
    obtain ⟨_, _, _, more, heq, -⟩ := Turn.proceeds_sendAppend t peer readContext
    have hraft := t.sendAppend_raft peer readContext
    refine ih (h.sendAppend hr peer readContext hcontext) (by rwa [hraft])
      fun context hc => (hcontext context hc).imp fun U hU => ?_
    dsimp only
    rw [heq, World.performAll_append]
    exact World.mem_history_performAll _ hU

end Leader

/-- Write an entry of its own term, as the leader or on becoming it. -/
theorem Track.leaderAppend (h : σ.Track n role w₀ s₀ t s) {e : LogEntry}
    (hmay : s.MayLead σ.configuration.quorumSystem n) (hindex : e.index = t.raft.log.lastIndex + 1)
    (hterm : e.term = t.raft.hardState.currentTerm)
    (hid : r.id = t.raft.id) (hconf : r.configuration = t.raft.configuration)
    (hstable : r.stableState = { t.raft.stableState with entries := t.raft.log.entries ++ [e] })
    (hlog : r.log = t.raft.log.append [e]) (hrole : r.role = .leader)
    (hleader : σ.LeaderOk (w₀.performAll n role t.actions) (s.lead n e) n r)
    (happlied : r.appliedIndex = r.hardState.commitIndex) :
    σ.Track n role w₀ s₀ { raft := r, actions := t.actions ++ [.persist (.append [e])] }
      (s.lead n e) := by
  have heT : e.term = s.term n := hterm.trans h.term.symm
  have hev := h.inv.evolve_lead (e := e) hmay
  have hlogn : (s.lead n e).log n = s.log n ++ [e] := by simp [State.lead]
  have hnum : Numbered (s.log n ++ [e]) := by
    apply h.log.numbered.append
    intro i x hx
    cases i with
    | zero =>
      cases hx
      rw [hindex, h.log.lastIndex]
    | succ i => simp at hx
  have hrep := h.log.append hnum
  have hcommit := h.commit_le
  refine h.push ⟨hev, h.inv.lead hmay heT, ?_, ?_, by simp, by simp, ?_⟩ ?_
  · intro U
    by_cases hU : U = s.term n
    · subst hU
      simpa [State.lead] using hnum
    · simpa [State.lead, Function.update_of_ne hU] using h.reached.sim.numbered U
  · rw [← h.mem.stable]
    have hd := h.disk
    refine ⟨hd.term, hd.vote, ?_, ?_, hd.applied_le, ?_, fun hs => ?_, hd.intact⟩
    · rw [hlogn]
      have hnew : RaftLog.new t.raft.snapshot t.raft.log.entries = t.raft.log := h.mem.log
      have hentries : RaftLog.new t.raft.snapshot (t.raft.log.entries ++ [e]) =
          t.raft.log.append [e] := by
        conv_rhs => rw [← hnew]
        rfl
      simpa [StableState.perform, StableState.mutate, Raft.stableState, hentries] using hrep
    · exact hd.base_le
    · rw [hlogn, List.length_append]
      exact hcommit.trans (Nat.le_add_right _ _)
    · refine (hd.settled hs).evolve hev ?_
      rw [hlogn]
      exact List.take_append_of_le_length hcommit
  · exact EventOk.of_vote (by cases role <;> rfl) rfl rfl (by simp) (by simp) fun v hv => by
      cases hv
  · refine ⟨hid.trans h.mem.id, hconf.trans h.mem.configuration, ?_, ?_, by simp [hrole],
      by simp [hrole], fun _ => ?_, fun _ => covered_of_applied happlied⟩
    · rw [World.stable_perform_self, ← h.mem.stable, hstable]
      rfl
    · have hsnapshot : r.snapshot = t.raft.snapshot := congrArg StableState.snapshot hstable
      rw [hsnapshot, hlog]
      conv_rhs => rw [← h.mem.log]
      rfl
    · refine hleader.perform (by simp) (fun c hc => ?_) (by simp)
      cases role <;> cases hc

/-- A proposal extends the leader's log. -/
theorem Track.propose (h : σ.Track n role w₀ s₀ t s) (id : CommandId) (command : Bytes)
    (happlied : t.raft.appliedIndex = t.raft.hardState.commitIndex)
    (hfinal : t.raft.role = .leader → role = .leader) :
    σ.Good n role w₀ s₀ (t.propose id command) := by
  unfold Turn.propose
  split
  · exact ⟨s, h.quiet rfl⟩
  rename_i hr
  have hr : t.raft.role = .leader := not_not.mp hr
  have hlead := h.mem.leader hr
  have hmay : s.MayLead σ.configuration.quorumSystem n := by
    left
    rw [h.term]
    exact hlead.leader
  have happend := h.leaderAppend (e := {
      index := t.raft.log.lastIndex + 1
      term := t.raft.hardState.currentTerm
      payload := .command id command })
    (r := { t.raft with
      log := t.raft.log.append [{
        index := t.raft.log.lastIndex + 1
        term := t.raft.hardState.currentTerm
        payload := .command id command }]
      progress := t.raft.progress.modify t.raft.id fun p => { p with
        matchIndex := t.raft.log.lastIndex + 1
        nextIndex := t.raft.log.lastIndex + 1 + 1 } })
    hmay rfl rfl rfl rfl rfl rfl hr ?_ happlied
  · exact ⟨_, (happend.advanceLeaderCommit hfinal).broadcastAppend
      ((Turn.proceeds_advanceLeaderCommit _).role.trans hr) none (by simp)⟩
  · refine (hlead.evolve (h.inv.evolve_lead hmay)).update rfl ?_ le_rfl le_rfl fun _ _ hp => hp
    intro v p hp
    rcases Maps.of_modify hp with ⟨rfl, q, _, rfl⟩ | ⟨-, hp⟩
    · left
      rw [h.mem.id, h.log.lastIndex]
      simp [State.lead, Raft.term, h.term]
    · exact (hlead.progress v p hp).imp
        (fun ha => ha.trans ((h.inv.evolve_lead hmay).acked_mono _ _)) fun hc => hc

end Setting

end AsterRaft
