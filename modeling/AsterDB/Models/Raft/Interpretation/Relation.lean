import AsterDB.Core.Consensus.Transition
import AsterDB.Core.Maps
import AsterDB.Models.Raft.Interpretation.Log
import AsterDB.Models.Raft.Interpretation.Quorum
import AsterDB.Models.Raft.Native.Cluster

/-!
# The cluster as a replicated log under numbered leaders

The abstract protocol state is matched with the disks, the packets on the wire
and the events of the history; `Sim` is what survives crashes. `MemOk` adds
what a node that is up may know. All facts about packets and events only
mention abstract data that never goes back, so they hold for good.

Two optional assumptions on runs are carried along: `strict` for commit
indices that never pass what the leader verified, `fresh` for read contexts
that are never given twice to a node.
-/

namespace AsterRaft

open Std Consensus
open Consensus.State (Evolve)

/-- Protocol state of the cluster. -/
abbrev Protocol := Consensus.State NodeId LogEntry

/-- The configuration of a run and what is assumed about it. -/
structure Setting where
  configuration : Configuration
  /-- Followers only commit what the leader verified. -/
  strict : Prop
  /-- A read context is given to a node at most once. -/
  fresh : Prop
  /-- What is shown of the snapshots on disk. -/
  intact : PersistentSnapshot → Prop := fun _ => True

namespace Setting

variable (σ : Setting)

/-- The invariant of the protocol state under the configuration's quorums. -/
def Inv (s : Protocol) : Prop := s.Inv LogEntry.term σ.configuration.quorumSystem

/-- A leader of `T` saw a quorum hold its own entry at `i`. -/
def Committed (s : Protocol) (T i : Nat) : Prop :=
  s.Committed LogEntry.term σ.configuration.quorumSystem T i

/-- A node checks the snapshots it writes. -/
def Checks [Sha256] : Prop :=
  ∀ snapshot : PersistentSnapshot, snapshot.validate = true →
    snapshot.metadata.configuration = σ.configuration → σ.intact snapshot

/-- Everything up to `k` was committed in some term up to `T`. -/
def Backed (s : Protocol) (T k : Nat) : Prop :=
  k = 0 ∨ ∃ U i, U ≤ T ∧ k ≤ i ∧ σ.Committed s U i

/-- The first `k` entries of a node are committed. -/
def Settled (s : Protocol) (n : NodeId) (k : Nat) : Prop :=
  k = 0 ∨ ∃ U i, U ≤ s.term n ∧ k ≤ i ∧ σ.Committed s U i ∧
    (s.log n).take k = (s.leaderLog U).take k

/-- The disk of a node and its share of the protocol state. -/
structure DiskOk (s : Protocol) (n : NodeId) (d : StableState) : Prop where
  term : s.term n = d.hardState.currentTerm
  vote : s.vote n (s.term n) = d.hardState.votedFor
  log : (RaftLog.new d.snapshot d.entries).Represents (s.log n)
  base_le : (RaftLog.new d.snapshot d.entries).baseIndex ≤ d.appliedIndex
  applied_le : d.appliedIndex ≤ d.hardState.commitIndex
  commit_le : d.hardState.commitIndex ≤ (s.log n).length
  settled : σ.strict → σ.Settled s n d.hardState.commitIndex
  intact : ∀ snapshot, d.snapshot = some snapshot → σ.intact snapshot

/-- What a packet on the wire tells about the protocol state. -/
def PacketOk (w : World) (s : Protocol) (p : Packet) : Prop :=
  match p.message with
  | .requestVote T candidate lastLogIndex lastLogTerm =>
    candidate = p.sender ∧ s.vote p.sender T = some p.sender ∧
      lastLogIndex = (s.stood T p.sender).length ∧
      lastLogTerm = lastTerm LogEntry.term (s.stood T p.sender)
  | .requestVoteResponse T granted => granted = true → s.vote p.sender T = some p.receiver
  | .appendEntries T _ prevLogIndex prevLogTerm entries leaderCommit readContext =>
    s.leader T = some p.sender ∧ termAt (s.leaderLog T) prevLogIndex = some prevLogTerm ∧
      entries <+: (s.leaderLog T).drop prevLogIndex ∧ (σ.strict → σ.Backed s T leaderCommit) ∧
      ∀ context, readContext = some context →
        ∃ U, Event.given p.sender U (.readIndex context) ∈ w.history
  | .appendEntriesResponse T success matchIndex _ _ readContext =>
    (success = true → matchIndex ≤ s.acked p.sender T) ∧
      ∀ context, readContext = some context →
        ∃ U, Event.given p.receiver U (.readIndex context) ∈ w.history
  | .installSnapshot T _ metadata _ _ _ =>
    s.leader T = some p.sender ∧
      termAt (s.leaderLog T) metadata.lastIncludedIndex = some metadata.lastIncludedTerm ∧
      (σ.strict → σ.Backed s T metadata.lastIncludedIndex)
  | .installSnapshotResponse T accepted _ done matchIndex =>
    accepted = true → done = true → ∃ leaderId metadata offset data last,
      metadata.lastIncludedIndex = matchIndex ∧
      { sender := p.receiver, receiver := p.sender,
        message := .installSnapshot T leaderId metadata offset data last } ∈ w.network
  | .preVoteRequest .. => True
  | .preVoteResponse .. => True

/-- A commit of leader `n` covers the entry at an index of its log. -/
def CoveredBy (history : List Event) (n : NodeId) (index : Nat) (entry : LogEntry) : Prop :=
  ∃ e ∈ history, ∃ a, Event.commit? e = some a ∧ a.node = n ∧ index ≤ a.index ∧
    a.log.entry index = some entry

/-- What an event tells about the protocol state and the events before it. -/
structure EventOk (s : Protocol) (older : List Event) (e : Event) : Prop where
  commit : ∀ c, e.commit? = some c → s.leader c.term = some c.node ∧ σ.Committed s c.term c.index ∧
    ∃ full, c.log.Represents full ∧ full <+: s.leaderLog c.term ∧ c.index ≤ full.length
  election : ∀ c, e.election? = some c → s.leader c.term = some c.node ∧
    ∃ full, c.log.Represents full ∧ full <+: s.leaderLog c.term ∧ s.stood c.term c.node <+: full
  vote : ∀ v, e.vote? = some v → s.vote v.node v.term = some v.candidate
  applied : σ.strict → ∀ entry, e.applied? = some entry →
    ∃ U i, σ.Committed s U i ∧ 0 < entry.index ∧ entry.index ≤ i ∧
      (s.leaderLog U)[entry.index - 1]? = some entry
  order : ∀ n role d entry, e = .performed n role d (.apply entry) →
    entry.index = d.appliedIndex + 1 ∧
      (RaftLog.new d.snapshot d.entries).entry entry.index = some entry
  report : ∀ n role d id index, e = .performed n role d (.proposalCommitted id index) →
    ∃ d' entry rest, older = .performed n role d' (.apply entry) :: rest ∧ entry.index = index ∧
      (∃ bytes, entry.payload = .command id bytes) ∧ CoveredBy rest n index entry
  read : ∀ n role d context index, e = .performed n role d (.readReady context index) →
    index ≤ d.appliedIndex ∧ (σ.fresh → ∀ U past,
      Event.given n U (.readIndex context) :: past <:+ older →
        ∀ e' ∈ past, ∀ c, Event.commit? e' = some c → c.index ≤ index)

/-- The disks, the network and the history realise a protocol state. -/
structure Sim (w : World) (s : Protocol) : Prop where
  inv : σ.Inv s
  numbered : ∀ T, Numbered (s.leaderLog T)
  disk : ∀ n, σ.DiskOk s n (w.stable n)
  packets : ∀ p ∈ w.network, σ.PacketOk w s p
  history : ∀ e older, e :: older <:+ w.history → σ.EventOk s older e

/-- What a candidate knows about its term. -/
structure CandidateOk (s : Protocol) (n : NodeId) (r : Raft) : Prop where
  vote : s.vote n r.term = some n
  stood : s.stood r.term n = s.log n
  not_leader : s.leader r.term ≠ some n
  votes : ∀ v ∈ r.votes, s.vote v r.term = some n

/-- A commit known before the read began is covered by the read's index, or a
quorum had left the term by then and can no longer acknowledge the read. -/
def ReadOk (w : World) (s : Protocol) (n : NodeId) (T : Nat) (context : Bytes)
    (pending : PendingRead) : Prop :=
  (∃ U, Event.given n U (.readIndex context) ∈ w.history) ∧
  ∀ U past, Event.given n U (.readIndex context) :: past <:+ w.history →
    ∀ e ∈ past, ∀ c, Event.commit? e = some c → c.index ≤ pending.index ∨
      ∃ Q, σ.configuration.quorumSystem.IsQuorum Q ∧ ∀ v ∈ Q, T < s.term v ∧
        v ∉ pending.acknowledgements ∧ ∀ success matchIndex conflictIndex conflictTerm,
          ({ sender := v, receiver := n, message := .appendEntriesResponse T success matchIndex
              conflictIndex conflictTerm (some context) } : Packet) ∉ w.network

/-- What a leader knows about its followers, its packets and its reads. -/
structure LeaderOk (w : World) (s : Protocol) (n : NodeId) (r : Raft) : Prop where
  leader : s.leader r.term = some n
  progress : ∀ v p, r.progress[v]? = some p →
    p.matchIndex ≤ s.acked v r.term ∨ p.matchIndex ≤ r.commitIndex
  snapshots : ∀ receiver leaderId metadata offset data done,
    { sender := n, receiver,
      message := .installSnapshot r.term leaderId metadata offset data done } ∈ w.network →
    metadata.lastIncludedIndex ≤ r.commitIndex
  commits : ∀ e ∈ w.history, ∀ c, Event.commit? e = some c → c.term = r.term →
    c.index ≤ r.commitIndex
  reads : ∀ context pending, r.pendingReads[context]? = some pending →
    pending.index ≤ r.appliedIndex ∧ (σ.fresh → σ.ReadOk w s n r.term context pending)

/-- A commit of the leader covers what it has committed and not applied. -/
def Covered (history : List Event) (s : Protocol) (n : NodeId) (r : Raft) : Prop :=
  ∀ i e, r.appliedIndex < i → i ≤ r.commitIndex → (s.log n)[i - 1]? = some e →
    CoveredBy history n i e

/-- The memory of a node that is up. -/
structure MemOk (w : World) (s : Protocol) (n : NodeId) (r : Raft) : Prop where
  id : r.id = n
  configuration : r.configuration = σ.configuration
  stable : r.stableState = w.stable n
  log : RaftLog.new r.snapshot r.log.entries = r.log
  campaign : r.role = .preCandidate → r.campaignTerm = some (r.term + 1)
  candidate : r.role = .candidate → CandidateOk s n r
  leader : r.role = .leader → σ.LeaderOk w s n r
  covered : r.role = .leader → Covered w.history s n r

end Setting

namespace World

variable (w : World) (n : NodeId) (role : Role) (a : Action)

theorem stable_perform_self : (w.perform n role a).stable n = (w.stable n).perform a := by
  simp [stable, perform]

theorem stable_perform_of_ne {m : NodeId} (h : m ≠ n) :
    (w.perform n role a).stable m = w.stable m := by
  simp [stable, perform, ExtTreeMap.getElem?_insert, Ne.symm h]

theorem history_perform :
    (w.perform n role a).history = .performed n role (w.stable n) a :: w.history := rfl

/-- A packet on the wire after an action was there before or is the one just sent. -/
theorem mem_network_perform {p : Packet} :
    p ∈ (w.perform n role a).network ↔
      p ∈ w.network ∨ (p.sender = n ∧ a = .send p.receiver p.message) := by
  rcases p with ⟨sender, receiver, message⟩
  cases a <;> simp [perform, eq_comm]

theorem performAll_concat (actions : List Action) :
    w.performAll n role (actions ++ [a]) = (w.performAll n role actions).perform n role a := by
  simp [performAll]

end World

namespace Setting

variable {σ : Setting} {m n : NodeId} {s s' : Protocol} {w : World}

variable {T k : Nat}

theorem Backed.evolve (h : σ.Backed s T k) (hev : Evolve m s s') : σ.Backed s' T k := by
  rcases h with h | ⟨U, i, hU, hk, hc⟩
  · exact Or.inl h
  · exact Or.inr ⟨U, i, hU, hk, hev.committed hc⟩

theorem Backed.mono {k' : Nat} (h : σ.Backed s T k) (hk : k' ≤ k) : σ.Backed s T k' := by
  rcases h with h | ⟨U, i, hU, hi, hc⟩
  · exact Or.inl (by omega)
  · exact Or.inr ⟨U, i, hU, by omega, hc⟩

/-- What is backed in a term lies in the log of the term's leader. -/
theorem Backed.settled (h : σ.Backed s T k) (hi : σ.Inv s) {c : NodeId} (hc : s.leader T = some c)
    (hT : T ≤ s.term n) (hlog : (s.log n).take k = (s.leaderLog T).take k) : σ.Settled s n k := by
  rcases h with h | ⟨U, i, hU, hk, hcom⟩
  · exact Or.inl h
  · refine Or.inr ⟨U, i, by omega, hk, hcom, ?_⟩
    rcases hU.eq_or_lt with rfl | hlt
    · exact hlog
    · exact hlog.trans (take_eq_of_le (hi.leaderLog_of_committed hcom hlt hc) hk)

section

variable (h : σ.Settled s n k)
include h

theorem Settled.mono {k' : Nat} (hk : k' ≤ k) : σ.Settled s n k' := by
  rcases h with h | ⟨U, i, hU, hi, hc, htake⟩
  · exact Or.inl (by omega)
  · exact Or.inr ⟨U, i, hU, by omega, hc, take_eq_of_le htake hk⟩

/-- A settled prefix is backed in the node's term. -/
theorem Settled.backed : σ.Backed s (s.term n) k := by
  rcases h with h | ⟨U, i, hU, hi, hc, _⟩
  · exact Or.inl h
  · exact Or.inr ⟨U, i, hU, hi, hc⟩

/-- A move that keeps the first entries of a node keeps them settled. -/
theorem Settled.evolve (hev : Evolve m s s')
    (hlog : (s'.log n).take k = (s.log n).take k) : σ.Settled s' n k := by
  rcases h with h | ⟨U, i, hU, hi, hc, htake⟩
  · exact Or.inl h
  · refine Or.inr ⟨U, i, hU.trans (hev.term_le n), hi, hev.committed hc, ?_⟩
    rw [hlog, htake, hev.take_leaderLog (hi.trans hc.1.le_length)]

/-- A settled prefix is a prefix of the log of the node's current leader. -/
theorem Settled.take_leaderLog (hi : σ.Inv s) {c : NodeId}
    (hc : s.leader (s.term n) = some c) : (s.log n).take k = (s.leaderLog (s.term n)).take k := by
  rcases h with rfl | ⟨U, i, hU, hk, hcom, htake⟩
  · rfl
  · rcases hU.eq_or_lt with rfl | hlt
    · exact htake
    · exact htake.trans (take_eq_of_le (hi.leaderLog_of_committed hcom hlt hc) hk).symm

end

/-- Moves of other nodes leave a disk in place. -/
theorem DiskOk.other {d : StableState} (h : σ.DiskOk s m d) (hev : Evolve n s s') (hm : m ≠ n) :
    σ.DiskOk s' m d where
  term := (hev.term_other m hm).trans h.term
  vote := by
    rw [hev.vote_other m hm, hev.term_other m hm]
    exact h.vote
  log := by
    rw [hev.log_other m hm]
    exact h.log
  base_le := h.base_le
  applied_le := h.applied_le
  commit_le := by
    rw [hev.log_other m hm]
    exact h.commit_le
  settled hstrict := (h.settled hstrict).evolve hev (by rw [hev.log_other m hm])
  intact := h.intact

/-- Facts carried by packets are permanent. -/
theorem PacketOk.mono {w' : World} {p : Packet} (h : σ.PacketOk w s p) (hev : Evolve n s s')
    (hnet : ∀ q ∈ w.network, q ∈ w'.network) (hhist : ∀ e ∈ w.history, e ∈ w'.history) :
    σ.PacketOk w' s' p := by
  rcases p with ⟨sender, receiver, message⟩
  cases message with
  | preVoteRequest | preVoteResponse => trivial
  | requestVote T candidate lastLogIndex lastLogTerm =>
    obtain ⟨hc, hv, hi, ht⟩ := h
    refine ⟨hc, hev.vote_mono _ _ _ hv, ?_, ?_⟩
    · rw [hev.stood_eq _ _ hv]
      exact hi
    · rw [hev.stood_eq _ _ hv]
      exact ht
  | requestVoteResponse T granted => exact fun hg => hev.vote_mono _ _ _ (h hg)
  | appendEntries T leaderId prevLogIndex prevLogTerm entries leaderCommit readContext =>
    obtain ⟨hl, ht, he, hb, hr⟩ := h
    refine ⟨hev.leader_mono _ _ hl, termAt_of_prefix (hev.leaderLog_mono T) ht, ?_,
      fun hs => (hb hs).evolve hev, fun c hc => (hr c hc).imp fun U hU => hhist _ hU⟩
    obtain ⟨rest, hrest⟩ := hev.leaderLog_mono T
    rw [← hrest, List.drop_append]
    exact he.trans (List.prefix_append _ _)
  | appendEntriesResponse T success matchIndex conflictIndex conflictTerm readContext =>
    exact ⟨fun hs => (h.1 hs).trans (hev.acked_mono _ _),
      fun c hc => (h.2 c hc).imp fun U hU => hhist _ hU⟩
  | installSnapshot T leaderId metadata offset data done =>
    obtain ⟨hl, ht, hb⟩ := h
    exact ⟨hev.leader_mono _ _ hl, termAt_of_prefix (hev.leaderLog_mono T) ht,
      fun hs => (hb hs).evolve hev⟩
  | installSnapshotResponse T accepted nextOffset done matchIndex =>
    intro ha hd
    obtain ⟨leaderId, metadata, offset, data, last, hm, hp⟩ := h ha hd
    exact ⟨leaderId, metadata, offset, data, last, hm, hnet _ hp⟩

/-- Facts carried by events are permanent. -/
theorem EventOk.evolve {older : List Event} {e : Event} (h : σ.EventOk s older e)
    (hi : σ.Inv s) (hev : Evolve n s s') : σ.EventOk s' older e where
  commit c hc := by
    obtain ⟨hl, hcom, full, hrep, hpre, hle⟩ := h.commit c hc
    exact ⟨hev.leader_mono _ _ hl, hev.committed hcom, full, hrep,
      hpre.trans (hev.leaderLog_mono _), hle⟩
  election c hc := by
    obtain ⟨hl, full, hrep, hpre, hstood⟩ := h.election c hc
    refine ⟨hev.leader_mono _ _ hl, full, hrep, hpre.trans (hev.leaderLog_mono _), ?_⟩
    rw [hev.stood_eq _ _ (hi.votes_self (hi.elected _ _ hl))]
    exact hstood
  vote v hv := hev.vote_mono _ _ _ (h.vote v hv)
  applied hs entry he := by
    obtain ⟨U, i, hcom, hpos, hle, hget⟩ := h.applied hs entry he
    exact ⟨U, i, hev.committed hcom, hpos, hle, hev.getElem?_leaderLog hget⟩
  order := h.order
  report := h.report
  read := h.read

variable {r : Raft}

/-- Moves of other nodes keep what a candidate knows. -/
theorem CandidateOk.other (h : CandidateOk s m r) (hev : Evolve n s s') (hm : m ≠ n) :
    CandidateOk s' m r where
  vote := hev.vote_mono _ _ _ h.vote
  stood := by
    rw [hev.stood_eq _ _ h.vote, hev.log_other m hm]
    exact h.stood
  not_leader hl := h.not_leader (hev.leader_other _ _ hm hl)
  votes v hv := hev.vote_mono _ _ _ (h.votes v hv)

/-- Terms only grow, so protocol moves keep what a leader knows. -/
theorem LeaderOk.evolve (h : σ.LeaderOk w s m r) (hev : Evolve n s s') : σ.LeaderOk w s' m r where
  leader := hev.leader_mono _ _ h.leader
  progress v p hp := (h.progress v p hp).imp (fun ha => ha.trans (hev.acked_mono _ _)) fun hc => hc
  snapshots := h.snapshots
  commits := h.commits
  reads context pending hp := by
    obtain ⟨happlied, hread⟩ := h.reads context pending hp
    refine ⟨happlied, fun hf => ⟨(hread hf).1, fun U past hpast e he c hc => ?_⟩⟩
    rcases (hread hf).2 U past hpast e he c hc with hle | ⟨Q, hQ, hq⟩
    · exact Or.inl hle
    · exact Or.inr ⟨Q, hQ, fun v hv => ⟨(hq v hv).1.trans_le (hev.term_le v), (hq v hv).2⟩⟩

variable {history : List Event}

theorem CoveredBy.cons {i : Nat} {entry : LogEntry}
    (h : CoveredBy history n i entry) (e : Event) : CoveredBy (e :: history) n i entry := by
  obtain ⟨e', he', h⟩ := h
  exact ⟨e', List.mem_cons_of_mem _ he', h⟩

theorem Covered.cons (h : Covered history s n r) (e : Event) : Covered (e :: history) s n r :=
  fun i entry hlt hle he => (h i entry hlt hle he).cons e

/-- A leader at rest has applied all it committed. -/
theorem covered_of_applied (h : r.appliedIndex = r.hardState.commitIndex) : Covered history s n r :=
  fun i _ hlt hle _ => by
    rw [h] at hlt
    exact absurd hle (Nat.not_le.mpr hlt)

/-- An action keeps what a leader knows, if the leader's own snapshots stay
below its commit index, new commits of its term are its own, and append
responses carry the term of their sender. -/
theorem LeaderOk.perform {role : Role} {a : Action} (h : σ.LeaderOk w s m r)
    (hsnapshot : m = n → ∀ receiver leaderId metadata offset data done,
      a = .send receiver (.installSnapshot r.term leaderId metadata offset data done) →
      metadata.lastIncludedIndex ≤ r.commitIndex)
    (hcommit : ∀ c, Event.commit? (.performed n role (w.stable n) a) = some c →
      c.term = r.term → c.index ≤ r.commitIndex)
    (hresponse : ∀ receiver T success matchIndex conflictIndex conflictTerm readContext,
      a = .send receiver (.appendEntriesResponse T success matchIndex conflictIndex conflictTerm
        readContext) → T = s.term n) : σ.LeaderOk (w.perform n role a) s m r where
  leader := h.leader
  progress := h.progress
  snapshots receiver leaderId metadata offset data done hp := by
    rw [World.mem_network_perform] at hp
    rcases hp with hp | ⟨hm, ha⟩
    · exact h.snapshots _ _ _ _ _ _ hp
    · exact hsnapshot hm _ _ _ _ _ _ ha
  commits e he c hc hT := by
    rw [World.history_perform, List.mem_cons] at he
    rcases he with rfl | he
    · exact hcommit c hc hT
    · exact h.commits e he c hc hT
  reads context pending hp := by
    obtain ⟨happlied, hread⟩ := h.reads context pending hp
    refine ⟨happlied, fun hf => ?_⟩
    obtain ⟨⟨U, hU⟩, hold⟩ := hread hf
    refine ⟨⟨U, List.mem_cons_of_mem _ hU⟩, fun U past hpast e he c hc => ?_⟩
    rw [World.history_perform, List.suffix_cons_iff] at hpast
    rcases hpast with hpast | hpast
    · cases hpast
    rcases hold U past hpast e he c hc with hle | ⟨Q, hQ, hq⟩
    · exact Or.inl hle
    · refine Or.inr ⟨Q, hQ, fun v hv => ⟨(hq v hv).1, (hq v hv).2.1, ?_⟩⟩
      intro success matchIndex conflictIndex conflictTerm hp
      rw [World.mem_network_perform] at hp
      rcases hp with hp | ⟨hvn, ha⟩
      · exact (hq v hv).2.2 _ _ _ _ hp
      · have hT := hresponse _ _ _ _ _ _ _ ha
        have hlt := (hq v hv).1
        simp only at hvn
        rw [hvn] at hlt
        omega

end Setting

end AsterRaft
