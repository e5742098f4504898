import AsterDB.Models.Raft.Interpretation.Leader

/-!
# Terms, votes and elections

Stepping down enters a term, a campaign stands in one, a granted vote is cast
for a candidate whose log is at least as up to date, and a quorum of votes
makes a leader. Pre-votes change nothing durable.
-/

namespace AsterRaft

open Std Consensus
open Consensus.State (Evolve)

/-- Actions that neither send anything nor install a snapshot. -/
def Action.internal : Action → Bool
  | .send _ _ => false
  | .persist (.installSnapshot ..) => false
  | _ => true

namespace Turn

theorem foldl_push {α : Type} (f : α → Action) (l : List α) (t : Turn) :
    l.foldl (fun t x => t.push (f x)) t = { t with actions := t.actions ++ l.map f } := by
  induction l generalizing t with
  | nil => simp
  | cons x rest ih =>
    rw [List.foldl_cons, ih]
    simp [push]

/-- The hard state after stepping down to a term. -/
def followerHardState (h : HardState) (term : Nat) : HardState :=
  if h.currentTerm < term then { h with currentTerm := term, votedFor := none } else h

/-- Stepping down writes a higher term first and then only informs. -/
theorem becomeFollower_eq (t : Turn) (term : Nat) (leaderId : Option NodeId) :
    ∃ reads quiets, (∀ a ∈ quiets, a.quiet = true ∧ a.internal = true) ∧
      t.becomeFollower term leaderId = {
        raft := { t.raft with
          hardState := followerHardState t.raft.hardState term
          role := .follower
          leaderId := leaderId
          campaignTerm := none
          votes := ∅
          progress := ∅
          recentActive := ∅
          pendingReads := reads }
        actions := t.actions ++
          (if t.raft.hardState.currentTerm < term then
            [.persist (.hardState (followerHardState t.raft.hardState term))] else []) ++
          quiets } := by
  unfold becomeFollower
  generalize hu : (if t.raft.hardState.currentTerm < term then _ else t : Turn) = u
  obtain rfl : u = {
      raft := { t.raft with hardState := followerHardState t.raft.hardState term }
      actions := t.actions ++
        (if t.raft.hardState.currentTerm < term then
          [.persist (.hardState (followerHardState t.raft.hardState term))] else []) } := by
    rw [← hu]
    unfold followerHardState
    split
    · rfl
    · simp
  dsimp only
  generalize hv : (if t.raft.role = .leader ∨ ¬t.raft.pendingReads.isEmpty then _ else _ : Turn) = v
  -- pending reads are dropped with notice
  obtain ⟨reads, quiets, hquiets, rfl⟩ :
      ∃ reads quiets, (∀ a ∈ quiets, a.quiet = true ∧ a.internal = true) ∧ v = {
        raft := { t.raft with hardState := followerHardState t.raft.hardState term, pendingReads :=
          reads }
        actions := t.actions ++ _ ++ quiets } := by
    rw [← hv]
    split
    · refine ⟨_, t.raft.pendingReads.toList.map fun p => .readRejected p.1 .leadershipLost, ?_,
        by rw [foldl_push]; rfl⟩
      intro a ha
      obtain ⟨p, _, rfl⟩ := List.mem_map.mp ha
      exact ⟨rfl, rfl⟩
    · exact ⟨t.raft.pendingReads, [], nofun, by rw [List.append_nil]⟩
  split
  · refine ⟨reads, quiets ++ [.roleChanged .follower
      (followerHardState t.raft.hardState term).currentTerm], ?_, ?_⟩
    · intro a ha
      rw [List.mem_append, List.mem_singleton] at ha
      rcases ha with ha | rfl
      · exact hquiets a ha
      · exact ⟨rfl, rfl⟩
    · simp only [push, modify, List.append_assoc]
  · exact ⟨reads, quiets, hquiets, rfl⟩

/-- What following a leader leaves alone. -/
structure Follows (r : Raft) (term : Nat) (t : Turn) : Prop where
  id : t.raft.id = r.id
  configuration : t.raft.configuration = r.configuration
  log : t.raft.log = r.log
  snapshot : t.raft.snapshot = r.snapshot
  incomingSnapshot : t.raft.incomingSnapshot = r.incomingSnapshot
  commitIndex : t.raft.hardState.commitIndex = r.hardState.commitIndex
  appliedIndex : t.raft.appliedIndex = r.appliedIndex
  currentTerm : t.raft.hardState.currentTerm = max r.hardState.currentTerm term
  role : t.raft.role = .follower

theorem follows_becomeFollower (t : Turn) (term : Nat) (leaderId : Option NodeId) :
    Follows t.raft term (t.becomeFollower term leaderId) := by
  obtain ⟨reads, quiets, -, heq⟩ := t.becomeFollower_eq term leaderId
  rw [heq]
  unfold followerHardState
  refine ⟨rfl, rfl, rfl, rfl, rfl, ?_, rfl, ?_, rfl⟩
  · split <;> rfl
  · split
    · rename_i hlt
      exact (Nat.max_eq_right hlt.le).symm
    · rename_i hge
      exact (Nat.max_eq_left (Nat.le_of_not_lt hge)).symm

/-- The turn of a follower that heard from its leader. -/
def heard (t : Turn) (sender : NodeId) (term : Nat) : Turn :=
  (t.becomeFollower term (some sender)).push .resetElectionTimer

theorem follows_heard (t : Turn) (sender : NodeId) (term : Nat) :
    Follows t.raft term (t.heard sender term) :=
  let h := t.follows_becomeFollower term (some sender)
  ⟨h.id, h.configuration, h.log, h.snapshot, h.incomingSnapshot, h.commitIndex, h.appliedIndex,
    h.currentTerm, h.role⟩

theorem becomeLeader_role (t : Turn) : t.becomeLeader.raft.role = .leader := by
  unfold becomeLeader
  rw [broadcastAppend_raft, (proceeds_advanceLeaderCommit _).role]
  rfl

end Turn

namespace Setting

variable {σ : Setting} {n : NodeId} {role : Role} {w w₀ : World} {s s₀ : Protocol} {t : Turn}

variable {r : Raft}

/-- Nothing about the term is expected of a follower. -/
theorem MemOk.of_follower (hid : r.id = n) (hconf : r.configuration = σ.configuration)
    (hstable : r.stableState = w.stable n) (hlog : RaftLog.new r.snapshot r.log.entries = r.log)
    (hrole : r.role = .follower) : σ.MemOk w s n r where
  id := hid
  configuration := hconf
  stable := hstable
  log := hlog
  campaign hr := by simp [hrole] at hr
  candidate hr := by simp [hrole] at hr
  leader hr := by simp [hrole] at hr
  covered hr := by simp [hrole] at hr

/-- Fields that no protocol fact mentions may change. -/
theorem MemOk.touch (h : σ.MemOk w s n r) (leaderId : Option NodeId)
    (recentActive : ExtTreeSet NodeId) (incomingSnapshot : Option IncomingSnapshot) :
    σ.MemOk w s n { r with leaderId, recentActive, incomingSnapshot } where
  id := h.id
  configuration := h.configuration
  stable := h.stable
  log := h.log
  campaign := h.campaign
  candidate hr := { h.candidate hr with }
  leader hr := { h.leader hr with }
  covered := h.covered

/-- A hard state with the same commit index shows a vote at most. -/
theorem EventOk.of_hardState {older : List Event} {hs : HardState} {d : StableState}
    (hcommit : hs.commitIndex = d.hardState.commitIndex)
    (hvote : ∀ c, hs.votedFor = some c → s.vote n hs.currentTerm = some c) :
    σ.EventOk s older (.performed n role d (.persist (.hardState hs))) := by
  refine EventOk.of_vote ?_ rfl rfl (by simp) (by simp) fun v hv => ?_
  · cases role with
    | leader => simp [Event.commit?, hcommit]
    | _ => rfl
  · simp only [Event.vote?, Option.map_eq_some_iff] at hv
    obtain ⟨c, hc, rfl⟩ := hv
    exact hvote c hc

variable {T term : Nat}

section

variable (h : σ.Track n role w₀ s₀ t s)
include h

/-- Enter a higher term on disk, whatever follower the node becomes in memory. -/
theorem Track.advanceTerm (hT : t.raft.hardState.currentTerm < T) (hid : r.id = t.raft.id)
    (hconf : r.configuration = t.raft.configuration)
    (hstable : r.stableState = { t.raft.stableState with
      hardState := { t.raft.hardState with currentTerm := T, votedFor := none } })
    (hlog : r.log = t.raft.log) (hrole : r.role = .follower) :
    σ.Track n role w₀ s₀ {
      raft := r
      actions := t.actions ++ [.persist (.hardState
        { t.raft.hardState with currentTerm := T, votedFor := none })] } (s.advanceTerm n T) := by
  have hlt : s.term n < T := by
    rw [h.term]
    exact hT
  have hev := State.evolve_advanceTerm (s := s) hlt.le
  have hd := h.disk
  refine h.push ⟨hev, h.inv.advanceTerm hlt, h.reached.sim.numbered, ?_, by simp, by simp, ?_⟩ ?_
  · rw [← h.mem.stable]
    refine ⟨by simp [State.advanceTerm, StableState.perform, StableState.mutate], ?_, hd.log,
      hd.base_le, hd.applied_le, hd.commit_le, fun hs => (hd.settled hs).evolve hev rfl, hd.intact⟩
    simp only [State.advanceTerm, Function.update_self]
    exact h.inv.vote_none hlt
  · rw [← h.mem.stable]
    exact EventOk.of_hardState rfl (by simp)
  · have hsnapshot : r.snapshot = t.raft.snapshot := congrArg StableState.snapshot hstable
    refine MemOk.of_follower (hid.trans h.mem.id) (hconf.trans h.mem.configuration) ?_ ?_ hrole
    · rw [World.stable_perform_self, ← h.mem.stable, hstable]
      rfl
    · rw [hsnapshot, hlog]
      exact h.mem.log

/-- Stepping down. -/
theorem Track.becomeFollower (T : Nat)
    (leaderId : Option NodeId) : σ.Good n role w₀ s₀ (t.becomeFollower T leaderId) := by
  obtain ⟨reads, quiets, hquiets, heq⟩ := t.becomeFollower_eq T leaderId
  replace hquiets := fun a ha => (hquiets a ha).1
  rw [heq]
  unfold Turn.followerHardState
  by_cases hT : t.raft.hardState.currentTerm < T
  · simp only [if_pos hT]
    exact ⟨_, Track.quiets quiets (h.advanceTerm hT rfl rfl rfl rfl rfl) hquiets⟩
  · simp only [if_neg hT, List.append_nil]
    refine ⟨s, Track.quiets quiets (h.withRaft (MemOk.of_follower ?_ ?_ ?_ ?_ rfl)) hquiets⟩
    · exact h.mem.id
    · exact h.mem.configuration
    · exact h.mem.stable
    · exact h.mem.log

omit h in
theorem Good.quiet {a : Action} (h : σ.Good n role w₀ s₀ t) (ha : a.quiet = true) :
    σ.Good n role w₀ s₀ (t.push a) := by
  obtain ⟨s, h⟩ := h
  exact ⟨s, h.quiet ha⟩

omit h in
/-- Every voter starts unmatched, except the leader itself. -/
theorem matchIndex_initialProgress {e : LogEntry} {v : NodeId} {p : Progress}
    (h : (Turn.initialProgress r e)[v]? = some p) :
    p.matchIndex = if v = r.id then e.index else 0 := by
  have hfold : ∀ (l : List NodeId) (m : ExtTreeMap NodeId Progress),
      (∀ (v : NodeId) (p : Progress), m[v]? = some p →
        p.matchIndex = if v = r.id then e.index else 0) →
      ∀ (v : NodeId) (p : Progress), (l.foldl (fun m voter => m.insert voter {
        matchIndex := if voter = r.id then e.index else 0
        nextIndex := e.index + 1
        snapshotOffset := none }) m)[v]? = some p →
        p.matchIndex = if v = r.id then e.index else 0 := by
    intro l
    induction l with
    | nil => exact fun m hm => hm
    | cons voter rest ih =>
      intro m hm
      apply ih
      intro v p hp
      rcases Maps.of_insert hp with ⟨rfl, rfl⟩ | ⟨-, hp⟩
      · rfl
      · exact hm v p hp
  exact hfold _ ∅ (by simp) v p h

/-- A quorum of votes in a term without this leader makes the term free to lead. -/
theorem Track.mayLead (hr : t.raft.role = .candidate)
    (hq : t.raft.configuration.quorum t.raft.votes = true) :
    s.leader (s.term n) = none ∧ s.MayLead σ.configuration.quorumSystem n := by
  have hc := h.mem.candidate hr
  have hterm : t.raft.term = s.term n := h.term.symm
  have hvotes : ∃ Q, σ.configuration.quorumSystem.IsQuorum Q ∧
      ∀ v ∈ Q, s.vote v (s.term n) = some n := by
    refine ⟨{v | v ∈ t.raft.votes}, ⟨t.raft.votes, ?_, fun v hv => hv⟩, fun v hv => ?_⟩
    · rw [← h.mem.configuration]
      exact hq
    · rw [← hterm]
      exact hc.votes v hv
  have hnone : s.leader (s.term n) = none := by
    cases hl : s.leader (s.term n) with
    | none => rfl
    | some c =>
      have hcn := State.votes_unique (h.inv.elected _ _ hl) hvotes
      rw [hcn, ← hterm] at hl
      exact absurd hl hc.not_leader
  refine ⟨hnone, Or.inr ⟨hnone, ?_, hvotes⟩⟩
  rw [← hterm]
  exact hc.stood

/-- A new leader announces itself with a log that extends the one it stood with. -/
theorem Track.announceLeader (hr : t.raft.role = .leader) :
    σ.Track n role w₀ s₀ (t.push (.roleChanged .leader t.raft.hardState.currentTerm)) s := by
  have hlead := h.mem.leader hr
  refine h.push ⟨Evolve.refl n s, h.inv, h.reached.sim.numbered, h.reached.sim.disk n, by simp,
    by simp, ?_⟩ ?_
  · refine ⟨fun c hc => ?_, fun c hc => ?_, by simp [Event.vote?], by simp [Event.applied?],
      by simp, by simp, by simp⟩
    · cases role <;> cases hc
    · cases hc
      obtain ⟨own, _, happ, _⟩ := h.inv.extends_stood _ _ hlead.leader
      refine ⟨hlead.leader, s.log n, (h.reached.sim.disk n).log, ?_, ?_⟩
      · rewrite [h.leader_log hr]
        exact List.prefix_rfl
      · rw [h.leader_log hr, show t.raft.hardState.currentTerm = t.raft.term from rfl, happ]
        exact List.prefix_append _ _
  · apply h.mem.perform_self rfl (by simp) _ (by simp)
    cases role <;> rfl

theorem Track.becomeLeader (hr : t.raft.role = .candidate)
    (hq : t.raft.configuration.quorum t.raft.votes = true)
    (happlied : t.raft.appliedIndex = t.raft.hardState.commitIndex)
    (hfinal : role = t.becomeLeader.raft.role) : σ.Good n role w₀ s₀ t.becomeLeader := by
  obtain ⟨hnone, hmay⟩ := h.mayLead hr hq
  have hterm : t.raft.term = s.term n := h.term.symm
  have happend := h.leaderAppend (e := Turn.leaderEntry t.raft)
    (r := { t.raft with
      role := .leader
      leaderId := some t.raft.id
      votes := ∅
      pendingReads := ∅
      log := t.raft.log.append [Turn.leaderEntry t.raft]
      progress := Turn.initialProgress t.raft (Turn.leaderEntry t.raft)
      recentActive := t.raft.configuration.voters })
    hmay rfl rfl rfl rfl rfl rfl rfl ?_ happlied
  · have hannounced := (happend.announceLeader rfl).quiet (a := .resetHeartbeatTimer) rfl
    have hcommit := hannounced.advanceLeaderCommit fun _ => hfinal.trans t.becomeLeader_role
    exact ⟨_, hcommit.broadcastAppend (Turn.proceeds_advanceLeaderCommit _).role none (by simp)⟩
  · have hleader : ∀ U m, U = t.raft.term → s.leader U ≠ some m := by
      rintro U m rfl hl
      rw [hterm, hnone] at hl
      cases hl
    constructor
    case leader => simp [State.lead, Raft.term, h.term]
    case progress =>
      intro v p hp
      rw [matchIndex_initialProgress hp]
      split
      · rename_i hv
        left
        rw [hv, h.mem.id]
        simp [State.lead, Raft.term, h.term, Turn.leaderEntry, h.log.lastIndex]
      · exact Or.inl (Nat.zero_le _)
    case snapshots =>
      intro receiver leaderId metadata offset data done hp
      exact absurd (h.reached.sim.packets _ hp).1 (hleader _ _ rfl)
    case commits =>
      intro e he c hc hT
      obtain ⟨newer, older, hsplit⟩ := List.append_of_mem he
      have hevent := h.reached.sim.history e older (by rw [hsplit]; exact List.suffix_append _ _)
      exact absurd (hevent.commit c hc).1 (hleader _ _ hT)
    case reads => simp

/-- Ask every peer for its vote. -/
theorem Track.requestVotes (hr : t.raft.role = .candidate) (peers : List NodeId) :
    σ.Track n role w₀ s₀ (peers.foldl (fun u peer => u.push (.send peer
      (.requestVote t.raft.hardState.currentTerm u.raft.id u.raft.log.lastIndex
        u.raft.log.lastTerm))) t) s := by
  induction peers generalizing t with
  | nil => exact h
  | cons peer rest ih =>
    refine ih (t := t.push _) (h.send ?_ ?_ ?_) hr
    · have hc := h.mem.candidate hr
      refine ⟨h.mem.id, hc.vote, ?_, ?_⟩
      · rw [h.log.lastIndex, ← hc.stood]
        rfl
      · rw [h.log.lastTerm, ← hc.stood]
        rfl
    · rintro _ _ _ _ _ _ ⟨⟩
    · rintro _ _ _ _ _ _ ⟨⟩

/-- Stand in a higher term. -/
theorem Track.stand (hT : t.raft.hardState.currentTerm < T) :
    σ.Track n role w₀ s₀ (t.modify fun r => { r with
      hardState := { r.hardState with currentTerm := T, votedFor := some r.id }
      role := .candidate
      campaignTerm := none
      votes := (∅ : ExtTreeSet NodeId).insert r.id }).persistHardState (s.stand n T) := by
  have hlt : s.term n < T := by
    rw [h.term]
    exact hT
  have hnone := h.inv.vote_none hlt
  have hev := State.evolve_stand (s := s) hlt.le hnone
  have hd := h.disk
  refine h.push ⟨hev, h.inv.stand hlt, h.reached.sim.numbered, ?_, by simp, by simp, ?_⟩ ?_
  · rw [← h.mem.stable]
    refine ⟨by simp [State.stand, StableState.perform, StableState.mutate, Turn.modify], ?_, hd.log,
      hd.base_le, hd.applied_le, hd.commit_le, fun hs => (hd.settled hs).evolve hev rfl, hd.intact⟩
    simp [State.stand, StableState.perform, StableState.mutate, Turn.modify, h.mem.id]
  · rw [← h.mem.stable]
    refine EventOk.of_hardState rfl fun c hc => ?_
    cases hc
    simp [State.stand, Turn.modify, h.mem.id]
  · refine ⟨h.mem.id, h.mem.configuration, ?_, h.mem.log, by simp [Turn.modify], fun _ => ?_,
      by simp [Turn.modify], by simp [Turn.modify]⟩
    · rw [World.stable_perform_self, ← h.mem.stable]
      rfl
    · refine ⟨by simp [State.stand, Turn.modify, Raft.term],
        by simp [State.stand, Turn.modify, Raft.term], fun hl => ?_, fun v hv => ?_⟩
      · have := (h.inv.leader_term (T := T) (c := n) hl).2
        omega
      · simp only [Turn.modify, h.mem.id, ExtTreeSet.mem_insert,
          Std.LawfulEqCmp.compare_eq_iff_eq] at hv
        rcases hv with rfl | hv
        · simp [State.stand, Turn.modify, Raft.term]
        · simp at hv

theorem Track.startElection (hT : t.raft.hardState.currentTerm < T)
    (happlied : t.raft.appliedIndex = t.raft.hardState.commitIndex)
    (hfinal : role = (t.startElection T).raft.role) : σ.Good n role w₀ s₀ (t.startElection T) := by
  unfold Turn.startElection at hfinal ⊢
  have hstand := ((h.stand hT).quiet (a := .roleChanged .candidate T) rfl).quiet
    (a := .resetElectionTimer) rfl
  dsimp only at hfinal ⊢
  split
  · rename_i hq
    rw [if_pos hq] at hfinal
    exact hstand.becomeLeader rfl hq happlied hfinal
  · exact ⟨_, hstand.requestVotes rfl _⟩

/-- Pushing quiet actions that read the unchanged node. -/
theorem Track.quiet_foldl {α : Type} (f : Raft → α → Action) (hf : ∀ r x, (f r x).quiet = true)
    (l : List α) : σ.Track n role w₀ s₀ (l.foldl (fun u x => u.push (f u.raft x)) t) s := by
  induction l generalizing t with
  | nil => exact h
  | cons x rest ih => exact ih (h.quiet (hf _ _))

theorem Track.startPreVote (happlied : t.raft.appliedIndex = t.raft.hardState.commitIndex)
    (hfinal : role = t.startPreVote.raft.role) : σ.Good n role w₀ s₀ t.startPreVote := by
  unfold Turn.startPreVote at hfinal ⊢
  split
  · exact ⟨s, h.quiet rfl⟩
  rename_i hterm
  rw [if_neg hterm] at hfinal
  have hpre : σ.Track n role w₀ s₀ (t.modify fun r => { r with
      role := .preCandidate
      leaderId := none
      campaignTerm := some (t.raft.hardState.currentTerm + 1)
      votes := (∅ : ExtTreeSet NodeId).insert r.id }) s :=
    h.withRaft ⟨h.mem.id, h.mem.configuration, h.mem.stable, h.mem.log, fun _ => rfl,
      by simp, by simp, by simp⟩
  have hquiet := (hpre.quiet (a := .roleChanged .preCandidate t.raft.hardState.currentTerm)
    rfl).quiet (a := .resetElectionTimer) rfl
  dsimp only at hfinal ⊢
  split
  · rename_i hq
    rw [if_pos hq] at hfinal
    exact hquiet.startElection (Nat.lt_succ_self _) happlied hfinal
  · exact ⟨s, hquiet.quiet_foldl (fun r peer => .send peer
      (.preVoteRequest (t.raft.hardState.currentTerm + 1) r.id r.log.lastIndex r.log.lastTerm))
      (fun _ _ => rfl) _⟩

theorem Track.onPreVoteRequest (sender : NodeId)
    (prospectiveTerm : Nat) (candidateId : NodeId) (lastLogIndex lastLogTerm : Nat) :
    σ.Good n role w₀ s₀
      (t.onPreVoteRequest sender prospectiveTerm candidateId lastLogIndex lastLogTerm) := by
  unfold Turn.onPreVoteRequest
  split
  · exact ⟨s, h⟩
  · exact ⟨s, h.quiet rfl⟩

theorem Track.onPreVoteResponse (sender : NodeId)
    (responderTerm prospectiveTerm : Nat) (granted : Bool)
    (happlied : t.raft.appliedIndex = t.raft.hardState.commitIndex) (hfinal : role =
      (t.onPreVoteResponse sender responderTerm prospectiveTerm granted).raft.role) :
    σ.Good n role w₀ s₀ (t.onPreVoteResponse sender responderTerm prospectiveTerm granted) := by
  unfold Turn.onPreVoteResponse at hfinal ⊢
  split
  · exact (h.becomeFollower _ _).quiet rfl
  rename_i hle
  rw [if_neg hle] at hfinal
  split
  · exact ⟨s, h⟩
  · rename_i hcond
    rw [if_neg hcond] at hfinal
    simp only [not_or, not_not] at hcond
    obtain ⟨hr, hcampaign, _⟩ := hcond
    have hterm : prospectiveTerm = t.raft.hardState.currentTerm + 1 := by
      have := h.mem.campaign hr
      rw [hcampaign, Option.some.injEq] at this
      exact this
    have hvoted : σ.Track n role w₀ s₀
        (t.modify fun r => { r with votes := r.votes.insert sender }) s :=
      h.withRaft ⟨h.mem.id, h.mem.configuration, h.mem.stable, h.mem.log, h.mem.campaign,
        by simp [hr], by simp [hr], by simp [hr]⟩
    dsimp only at hfinal ⊢
    split
    · rename_i hq
      rw [if_pos hq] at hfinal
      exact hvoted.startElection (by rw [hterm]; exact Nat.lt_succ_self _) happlied hfinal
    · exact ⟨s, hvoted⟩

/-- The local test of a candidate's log is the protocol's order on logs. -/
theorem Track.upToDate {l : List LogEntry}
    (hup : t.raft.candidateLogIsUpToDate l.length (lastTerm LogEntry.term l) = true) :
    UpToDate LogEntry.term l (s.log n) := by
  simp only [Raft.candidateLogIsUpToDate, Bool.or_eq_true, decide_eq_true_eq, Bool.and_eq_true,
    beq_iff_eq, h.log.lastTerm, h.log.lastIndex] at hup
  exact hup

/-- A node that campaigns in its term or leads it has voted for itself. -/
theorem Track.role_of_vote_none (hnone : t.raft.hardState.votedFor = none) :
    t.raft.role ≠ .candidate ∧ t.raft.role ≠ .leader := by
  have hvote := h.vote
  rw [h.term, hnone] at hvote
  constructor
  · intro hr
    have := (h.mem.candidate hr).vote
    rw [show t.raft.term = t.raft.hardState.currentTerm from rfl, hvote] at this
    cases this
  · intro hr
    have := h.inv.votes_self (h.inv.elected _ _ (h.mem.leader hr).leader)
    rw [show t.raft.term = t.raft.hardState.currentTerm from rfl, hvote] at this
    cases this

/-- Write the vote for a candidate that stands in the node's term. -/
theorem Track.castVote (hnone : t.raft.hardState.votedFor = none) (candidate : NodeId)
    (hstands : s.vote candidate (s.term n) = some candidate)
    (hup : UpToDate LogEntry.term (s.stood (s.term n) candidate) (s.log n)) :
    σ.Track n role w₀ s₀ (t.modify fun r => { r with
      hardState := { r.hardState with votedFor := some candidate } }).persistHardState
      (s.castVote n candidate) := by
  have hvote := h.vote
  rw [hnone] at hvote
  have hev := State.evolve_castVote (s := s) (c := candidate) hvote
  obtain ⟨hcandidate, hleader⟩ := h.role_of_vote_none hnone
  have hd := h.disk
  refine h.push ⟨hev, h.inv.castVote hvote hstands hup, h.reached.sim.numbered, ?_, by simp,
    by simp, ?_⟩ ?_
  · rw [← h.mem.stable]
    refine ⟨hd.term, ?_, hd.log, hd.base_le, hd.applied_le, hd.commit_le,
      fun hs => (hd.settled hs).evolve hev rfl, hd.intact⟩
    simp [State.castVote, StableState.perform, StableState.mutate, Turn.modify]
  · rw [← h.mem.stable]
    refine EventOk.of_hardState rfl fun c hc => ?_
    cases hc
    simp [State.castVote, Turn.modify, h.term]
  · refine ⟨h.mem.id, h.mem.configuration, ?_, h.mem.log, h.mem.campaign,
      fun hr => absurd hr hcandidate, fun hr => absurd hr hleader, fun hr => absurd hr hleader⟩
    rw [World.stable_perform_self, ← h.mem.stable]
    rfl

variable {sender : NodeId} {lastLogIndex lastLogTerm : Nat}

/-- The vote decision in the term of the request or a later one. -/
theorem Track.answerVote
    (hp : ⟨sender, n, .requestVote term sender lastLogIndex lastLogTerm⟩ ∈ w₀.network) :
    let granted := decide (term = t.raft.hardState.currentTerm) &&
      decide (t.raft.hardState.votedFor = none ∨ t.raft.hardState.votedFor = some sender) &&
      t.raft.candidateLogIsUpToDate lastLogIndex lastLogTerm
    let u :=
      if granted then
        let t :=
          if t.raft.hardState.votedFor ≠ some sender then
            (t.modify fun r => { r with
              hardState := { r.hardState with votedFor := some sender } }).persistHardState
          else t
        (t.modify fun r => { r with leaderId := none }).push .resetElectionTimer
      else t
    σ.Good n role w₀ s₀
      (u.push (.send sender (.requestVoteResponse u.raft.hardState.currentTerm granted))) := by
  intro granted u
  obtain ⟨_, hstands, hindex, hlast⟩ := h.packet hp
  -- The answer is sent with the vote already on disk.
  have hsend : ∀ {v : Turn} {s' : Protocol}, σ.Track n role w₀ s₀ v s' →
      (granted = true → s'.vote n v.raft.hardState.currentTerm = some sender) →
      σ.Good n role w₀ s₀
        (v.push (.send sender (.requestVoteResponse v.raft.hardState.currentTerm granted))) := by
    intro v s' hv hgrant
    refine ⟨s', hv.send hgrant ?_ ?_⟩
    · rintro _ _ _ _ _ _ ⟨⟩
    · rintro _ _ _ _ _ _ ⟨⟩
  by_cases hg : granted = true
  · have hcond := hg
    simp only [granted, Bool.and_eq_true, decide_eq_true_eq] at hcond
    obtain ⟨⟨hterm, hfree⟩, hup⟩ := hcond
    have hterm' : term = s.term n := hterm.trans h.term.symm
    simp only [u, if_pos hg]
    by_cases hvoted : t.raft.hardState.votedFor = some sender
    · rw [if_neg (not_not.mpr hvoted)]
      have htouch : σ.Track n role w₀ s₀ (t.modify fun r => { r with leaderId := none }) s :=
        h.withRaft (h.mem.touch _ _ _)
      refine hsend (htouch.quiet rfl) fun _ => ?_
      have hvote := h.vote
      rw [h.term, hvoted] at hvote
      exact hvote
    · rw [if_pos hvoted]
      have hnone : t.raft.hardState.votedFor = none := hfree.resolve_right hvoted
      have hcast := h.castVote hnone sender (by rwa [← hterm'])
        (by rw [hindex, hlast] at hup; rw [← hterm']; exact h.upToDate hup)
      have htouch : σ.Track n role w₀ s₀ (((t.modify fun r => { r with
          hardState := { r.hardState with votedFor := some sender } }).persistHardState).modify
            fun r => { r with leaderId := none }) _ :=
        hcast.withRaft (hcast.mem.touch _ _ _)
      refine hsend (htouch.quiet rfl) fun _ => ?_
      simp [State.castVote, Turn.modify, Turn.push, Turn.persistHardState, h.term]
  · simp only [u, if_neg hg]
    exact hsend h fun hgrant => absurd hgrant hg

theorem Track.onVoteRequest {candidateId : NodeId}
    (hp : ⟨sender, n, .requestVote term candidateId lastLogIndex lastLogTerm⟩ ∈ w₀.network) :
    σ.Good n role w₀ s₀ (t.onVoteRequest sender term candidateId lastLogIndex lastLogTerm) := by
  unfold Turn.onVoteRequest
  split
  · exact ⟨s, h⟩
  rename_i heq
  obtain rfl : candidateId = sender := not_not.mp heq
  have hstep : σ.Good n role w₀ s₀
      (if t.raft.hardState.currentTerm < term then t.becomeFollower term none else t) := by
    split
    · exact h.becomeFollower _ _
    · exact ⟨s, h⟩
  obtain ⟨s', h'⟩ := hstep
  exact h'.answerVote hp

theorem Track.onVoteResponse {granted : Bool}
    (hp : ⟨sender, n, .requestVoteResponse term granted⟩ ∈ w₀.network)
    (happlied : t.raft.appliedIndex = t.raft.hardState.commitIndex)
    (hfinal : role = (t.onVoteResponse sender term granted).raft.role) :
    σ.Good n role w₀ s₀ (t.onVoteResponse sender term granted) := by
  unfold Turn.onVoteResponse at hfinal ⊢
  split
  · exact (h.becomeFollower _ _).quiet rfl
  rename_i hle
  rw [if_neg hle] at hfinal
  split
  · exact ⟨s, h⟩
  · rename_i hcond
    rw [if_neg hcond] at hfinal
    simp only [not_or, not_not, Bool.not_eq_true', Bool.not_eq_false] at hcond
    obtain ⟨hr, hterm, hgranted⟩ := hcond
    have hvote := h.packet hp hgranted
    have hvoted : σ.Track n role w₀ s₀
        (t.modify fun r => { r with votes := r.votes.insert sender }) s := by
      refine h.withRaft ⟨h.mem.id, h.mem.configuration, h.mem.stable, h.mem.log, h.mem.campaign,
        fun _ => { h.mem.candidate hr with votes := fun v hv => ?_ }, by simp [hr], by simp [hr]⟩
      rw [ExtTreeSet.mem_insert, Std.LawfulEqCmp.compare_eq_iff_eq] at hv
      rcases hv with rfl | hv
      · rw [hterm] at hvote
        exact hvote
      · exact (h.mem.candidate hr).votes v hv
    dsimp only at hfinal ⊢
    split
    · rename_i hq
      rw [if_pos hq] at hfinal
      exact hvoted.becomeLeader hr hq happlied hfinal
    · exact ⟨s, hvoted⟩

theorem Track.onTick (tick : Tick) (happlied : t.raft.appliedIndex = t.raft.hardState.commitIndex)
    (hfinal : role = (t.onTick tick).raft.role) : σ.Good n role w₀ s₀ (t.onTick tick) := by
  cases tick with
  | election =>
    simp only [Turn.onTick] at hfinal ⊢
    split
    · rename_i hr
      rw [if_pos hr] at hfinal
      exact h.startPreVote happlied hfinal
    · exact ⟨s, h⟩
  | heartbeat =>
    simp only [Turn.onTick]
    split
    · rename_i hr
      exact ⟨s, (h.broadcastAppend hr none (by simp)).quiet rfl⟩
    · exact ⟨s, h⟩
  | checkQuorum =>
    simp only [Turn.onTick]
    split
    · rename_i hr
      split
      · have htouch : σ.Track n role w₀ s₀ (t.modify fun r => { r with
            recentActive := (∅ : ExtTreeSet NodeId).insert r.id }) s :=
          h.withRaft (h.mem.touch _ _ _)
        exact ⟨s, htouch.broadcastAppend hr none (by simp)⟩
      · exact (h.becomeFollower _ _).quiet rfl
    · exact ⟨s, h⟩

end

end Setting

end AsterRaft
