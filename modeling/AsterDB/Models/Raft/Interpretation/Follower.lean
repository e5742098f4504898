import AsterDB.Models.Raft.Interpretation.Read

/-!
# The follower's side of replication

An accepted append or a snapshot makes the follower's log start with the
leader's, and the acknowledgement reports exactly the verified length. The
commit index a follower takes over is a different matter: it is bounded by the
end of its own log, so an append whose entries are all held may commit beyond
what was verified.
-/

namespace AsterRaft

open Std Consensus
open Consensus.State (Evolve)

/-- An append whose entries are all held here, while the leader's commit index
reaches into the part of the local log behind them. -/
def Raft.overreached (r : Raft) : Message → Bool
  | .appendEntries term _ prevLogIndex prevLogTerm entries leaderCommit _ =>
    r.term ≤ term ∧ r.log.term prevLogIndex = some prevLogTerm ∧
      (∀ e ∈ entries, r.log.term e.index = some e.term) ∧
      max r.commitIndex (prevLogIndex + entries.length) < min leaderCommit r.log.lastIndex
  | _ => false

namespace Turn

/-- A scan of a batch that is held entirely finds every entry's term in the log. -/
theorem term_of_scanEntries_held {log : RaftLog} {commit : Nat} (entries : List LogEntry)
    (position : Nat) (h : scanEntries log commit position entries = .held) :
    ∀ e ∈ entries, log.term e.index = some e.term := by
  induction entries generalizing position with
  | nil => simp
  | cons e rest ih =>
    unfold scanEntries at h
    split at h
    · rename_i localTerm hlocal
      split at h
      · rename_i heq
        intro x hx
        rcases List.mem_cons.mp hx with rfl | hx
        · rw [hlocal, heq]
        · exact ih _ h x hx
      · split at h <;> cases h
    · split at h <;> cases h

/-- Whoever handles a current append is a follower afterwards. -/
theorem onAppendEntries_role {t : Turn} {sender leaderId : NodeId}
    {term prevLogIndex prevLogTerm leaderCommit : Nat} {entries : List LogEntry}
    {readContext : Option Bytes} (hsender : leaderId = sender)
    (hterm : t.raft.hardState.currentTerm ≤ term) :
    (t.onAppendEntries sender term leaderId prevLogIndex prevLogTerm entries leaderCommit
      readContext).raft.role = .follower := by
  unfold onAppendEntries
  rw [if_neg (not_not.mpr hsender), if_neg (by omega)]
  dsimp only
  have hrole := (t.follows_becomeFollower term (some sender)).role
  split
  · exact hrole
  split
  · exact hrole
  split
  · exact hrole
  split
  · exact hrole
  split
  · exact hrole
  · exact hrole
  · exact (proceeds_setCommit ..).role.trans hrole
  · exact (proceeds_setCommit ..).role.trans hrole

end Turn

/-- What a scan of a batch of the leader log `L` tells about the local log `l`. -/
def ScanOk (l L : List LogEntry) (prev commit length : Nat) : Turn.Scan → Prop
  | .held => l.take (prev + length) = L.take (prev + length)
  | .changed index position =>
    position < length ∧ index = prev + position + 1 ∧ commit < index ∧ index ≤ l.length + 1 ∧
      l.take (prev + position) = L.take (prev + position) ∧
      l.take (prev + length) ≠ L.take (prev + length)
  | .gap => True
  | .committed _ => True

section Scan

/-- The head of a part of a log, and what follows it. -/
theorem of_cons_prefix_drop {L rest : List LogEntry} {e : LogEntry} {k : Nat}
    (h : e :: rest <+: L.drop k) :
    L[k]? = some e ∧ termAt L (k + 1) = some e.term ∧ rest <+: L.drop (k + 1) := by
  obtain ⟨more, hmore⟩ := h
  have hget : L[k]? = some e := by
    rw [← Nat.add_zero k, ← List.getElem?_drop, ← hmore]
    rfl
  refine ⟨hget, by rw [termAt_succ, hget]; rfl, more, ?_⟩
  rw [← List.tail_drop, ← hmore]
  rfl

variable {log : RaftLog} {l L : List LogEntry} {ls : Nat → List LogEntry} {prev commit : Nat}

variable (hrep : log.Represents l) (hnum : Numbered L)
include hrep hnum

/-- The scan walks along the common prefix and stops at the first difference. -/
theorem scanEntries_eq (hmatching : Matching l L)
    (hbase : log.baseIndex ≤ prev) (hcommit : commit ≤ l.length) (rest : List LogEntry)
    (position : Nat) (hrest : rest <+: L.drop (prev + position))
    (htake : l.take (prev + position) = L.take (prev + position)) :
    (Turn.scanEntries log commit position rest = .held ∧
      l.take (prev + (position + rest.length)) = L.take (prev + (position + rest.length))) ∨
    ∃ k, k < position + rest.length ∧ prev + k ≤ l.length ∧ l.take (prev + k) = L.take (prev + k) ∧
      termAt l (prev + k + 1) ≠ termAt L (prev + k + 1) ∧
      Turn.scanEntries log commit position rest =
        if prev + k + 1 ≤ commit then .committed (prev + k + 1) else .changed (prev + k + 1) k := by
  induction rest generalizing position with
  | nil => exact .inl ⟨rfl, htake⟩
  | cons e rest ih =>
    obtain ⟨hget, hLterm, hrest'⟩ := of_cons_prefix_drop hrest
    have hlt := (List.getElem?_eq_some_iff.mp hget).1
    have hindex : e.index = prev + position + 1 := hnum _ e hget
    have hterm := hrep.term (i := prev + position + 1) (by omega)
    have hlen : prev + position ≤ l.length := by
      have := congrArg List.length htake
      simp only [List.length_take] at this
      omega
    unfold Turn.scanEntries
    rw [hindex, hterm]
    cases hlocal : termAt l (prev + position + 1) with
    | some localTerm =>
      simp only
      by_cases heq : localTerm = e.term
      · rw [heq] at hlocal
        rw [if_pos heq]
        have hnext := ih (position + 1) hrest' (hmatching _ _ hlocal hLterm)
        rwa [show position + 1 + rest.length = position + (e :: rest).length by
          simp only [List.length_cons]; omega] at hnext
      · rw [if_neg heq]
        refine .inr ⟨position, by simp, hlen, htake, ?_, rfl⟩
        rw [hlocal, hLterm]
        simpa using heq
    | none =>
      have hend := termAt_eq_none hlocal
      simp only
      -- the entry follows the last one: there is no gap
      rw [if_neg (by rw [hrep.lastIndex]; omega)]
      refine .inr ⟨position, by simp, hlen, htake, ?_, (if_neg (by omega)).symm⟩
      rw [hlocal, hLterm]
      simp

theorem scanEntries_ok (hl : Rooted LogEntry.term ls l) (hL : Rooted LogEntry.term ls L)
    (hbase : log.baseIndex ≤ prev) (hcommit : commit ≤ l.length) (rest : List LogEntry)
    (position : Nat) (hrest : rest <+: L.drop (prev + position))
    (htake : l.take (prev + position) = L.take (prev + position)) :
    ScanOk l L prev commit (position + rest.length)
      (Turn.scanEntries log commit position rest) := by
  have hmatching : Matching l L := fun i t ht ht' => take_eq_of_termAt hl hL ht ht'
  rcases scanEntries_eq hrep hnum hmatching hbase hcommit rest position hrest htake with
    ⟨hscan, hheld⟩ | ⟨k, hk, hlen, hagree, hdiff, hscan⟩
  · rw [hscan]
    exact hheld
  · rw [hscan]
    split
    · trivial
    · -- past a difference the batch cannot agree as a whole
      exact ⟨hk, rfl, by omega, by omega, hagree, fun heq => hdiff (termAt_congr heq (by omega))⟩

/-- What a log represents after its end was replaced by a batch. -/
theorem RaftLog.Represents.writeSuffix {entries : List LogEntry} {position : Nat}
    (hentries : entries <+: L.drop prev) (hpos : position ≤ entries.length)
    (hbase : log.baseIndex ≤ prev) (hend : prev + position ≤ l.length)
    (htake : l.take (prev + position) = L.take (prev + position)) :
    (log.truncateAndAppend (prev + position + 1) (entries.drop position)).Represents
      (L.take (prev + entries.length)) := by
  -- The kept prefix and the written suffix make up the leader's prefix.
  have hnew :
      l.take (prev + position) ++ entries.drop position = L.take (prev + entries.length) := by
    obtain ⟨more, hmore⟩ := hentries
    have hcut : entries.drop position =
        (L.drop (prev + position)).take (entries.length - position) := by
      rw [← List.drop_drop, ← hmore, List.drop_append_of_le_length hpos,
        List.take_append_of_le_length (by rw [List.length_drop]), List.take_of_length_le
          (by rw [List.length_drop])]
    rw [htake, hcut, ← List.take_add]
    congr 1
    omega
  rw [← hnew]
  apply hrep.truncateAndAppend (by omega) (by omega)
  rw [Nat.add_sub_cancel, hnew]
  exact hnum.take _

end Scan

namespace Setting

variable {σ : Setting} {n : NodeId} {role : Role} {w w₀ : World} {s s₀ : Protocol} {t : Turn}

variable {readContext : Option Bytes}

theorem Track.rejectAppend (h : σ.Track n role w₀ s₀ t s) {receiver : NodeId}
    (conflictIndex : Nat) (conflictTerm : Option Nat)
    (hcontext : ∀ context, readContext = some context → ∃ U,
      Event.given receiver U (.readIndex context) ∈ (w₀.performAll n role t.actions).history) :
    σ.Track n role w₀ s₀ (t.rejectAppend receiver readContext conflictIndex conflictTerm) s := by
  apply h.send
  · exact ⟨by simp, hcontext⟩
  · rintro _ _ _ _ _ _ ⟨⟩
  · rintro _ _ _ _ _ _ ⟨⟩
    rfl

variable {m term : Nat}

/-- Copying a prefix that the log already starts with changes no log. -/
theorem log_accept_of_take
    (h : (s.log n).take m = (s.leaderLog (s.term n)).take m) : (s.accept n m).log n = s.log n := by
  simp [State.accept, State.copied, h]

theorem log_accept_of_take_ne (h : (s.log n).take m ≠ (s.leaderLog (s.term n)).take m) :
    (s.accept n m).log n = (s.leaderLog (s.term n)).take m := by
  simp [State.accept, State.copied, h]

theorem take_log_accept : ((s.accept n m).log n).take m = (s.leaderLog (s.term n)).take m := by
  simp only [State.accept, Function.update_self]
  exact State.take_copied _ _ _

variable {c sender leaderId : NodeId}

/-- A settled prefix survives copying from the current leader. -/
theorem Settled.accept {k : Nat} (h : σ.Settled s n k) (hi : σ.Inv s)
    (hc : s.leader (s.term n) = some c) : σ.Settled (s.accept n m) n k := by
  refine h.evolve State.evolve_accept ?_
  have hagree := h.take_leaderLog hi hc
  simp only [State.accept, Function.update_self]
  rw [State.take_copied_of_agree hagree, hagree]

section

variable (h : σ.Track n role w₀ s₀ t s)
include h

/-- Acknowledge a prefix of the leader's log that the node holds. -/
theorem Track.acknowledge (hr : t.raft.role = .follower) {matched : Nat}
    (hc : s.leader (s.term n) = some c) (hm : matched ≤ (s.leaderLog (s.term n)).length)
    (htake : (s.log n).take matched = (s.leaderLog (s.term n)).take matched)
    (hcontext : ∀ context, readContext = some context → ∃ U,
      Event.given sender U (.readIndex context) ∈ (w₀.performAll n role t.actions).history) :
    σ.Track n role w₀ s₀ (t.push (.send sender (.appendEntriesResponse
      t.raft.hardState.currentTerm true matched 0 none readContext))) (s.accept n matched) := by
  have hlog := log_accept_of_take htake
  have hd := h.disk
  refine h.push ⟨State.evolve_accept, h.inv.accept hc hm, h.reached.sim.numbered, ?_, ?_, ?_, ?_⟩ ?_
  · rw [← h.mem.stable]
    refine ⟨hd.term, hd.vote, ?_, hd.base_le, hd.applied_le, ?_,
      fun hs => (hd.settled hs).accept h.inv hc, hd.intact⟩
    · rw [hlog]
      exact hd.log
    · rw [hlog]
      exact hd.commit_le
  · rintro _ _ ⟨⟩
    refine ⟨fun _ => ?_, hcontext⟩
    rw [← h.term]
    simp [State.accept]
  · rintro _ _ _ _ _ _ _ ⟨⟩
    exact h.term.symm
  · exact EventOk.of_vote (by cases role <;> rfl) rfl rfl (by simp) (by simp) fun v hv => by
      cases hv
  · refine MemOk.of_follower h.mem.id h.mem.configuration ?_ h.mem.log hr
    rw [World.stable_perform_self]
    exact h.mem.stable

variable {entries : List LogEntry}

/-- Replace the log from the first difference on. -/
theorem Track.writeSuffix (hr : t.raft.role = .follower)
    {prev position : Nat} (hc : s.leader (s.term n) = some c)
    (hentries : entries <+: (s.leaderLog (s.term n)).drop prev) (hpos : position < entries.length)
    (hbase : t.raft.log.baseIndex ≤ prev) (hcommit : t.raft.hardState.commitIndex ≤ prev + position)
    (hend : prev + position ≤ (s.log n).length)
    (htake : (s.log n).take (prev + position) = (s.leaderLog (s.term n)).take (prev + position))
    (hne : (s.log n).take (prev + entries.length) ≠
      (s.leaderLog (s.term n)).take (prev + entries.length)) :
    σ.Track n role w₀ s₀ (t.writeSuffix (prev + position + 1) (entries.drop position))
      (s.accept n (prev + entries.length)) := by
  have hlen : prev + entries.length ≤ (s.leaderLog (s.term n)).length := by
    have := hentries.length_le
    rw [List.length_drop] at this
    omega
  have hlog := log_accept_of_take_ne hne
  have hrep :
      (t.raft.log.truncateAndAppend (prev + position + 1) (entries.drop position)).Represents
      ((s.leaderLog (s.term n)).take (prev + entries.length)) :=
    h.log.writeSuffix (h.reached.sim.numbered _) hentries hpos.le hbase hend htake
  have hd := h.disk
  have hmemlog : RaftLog.new t.raft.snapshot t.raft.log.entries = t.raft.log := h.mem.log
  have htrunc : RaftLog.new t.raft.snapshot
      (t.raft.log.truncateAndAppend (prev + position + 1) (entries.drop position)).entries =
        t.raft.log.truncateAndAppend (prev + position + 1) (entries.drop position) := by
    conv_rhs => rw [← hmemlog]
    conv_lhs => rw [← hmemlog]
    rfl
  -- Both mutations leave the entries of the log in memory on disk.
  have hdisk : t.raft.stableState.perform (.persist
      (if prev + position + 1 ≤ t.raft.log.lastIndex then
          .truncateAndAppend (prev + position + 1) (entries.drop position)
        else .append (entries.drop position))) = { t.raft.stableState with
        entries := (t.raft.log.truncateAndAppend (prev + position + 1)
          (entries.drop position)).entries } := by
    have hlen := h.log.length
    have hlast := h.log.lastIndex
    split
    · simp only [StableState.perform, StableState.mutate, Raft.stableState, hmemlog]
      rfl
    · have hall : t.raft.log.entries.take (prev + position + 1 - (t.raft.log.baseIndex + 1)) =
          t.raft.log.entries := List.take_of_length_le (by omega)
      simp only [StableState.perform, StableState.mutate, Raft.stableState,
        RaftLog.truncateAndAppend, hall]
  refine h.push ⟨State.evolve_accept, h.inv.accept hc hlen, h.reached.sim.numbered, ?_, by simp,
    by simp, ?_⟩ ?_
  · rw [← h.mem.stable, hdisk]
    refine ⟨hd.term, hd.vote, ?_, hd.base_le, hd.applied_le, ?_,
      fun hs => (hd.settled hs).accept h.inv hc, hd.intact⟩
    · rw [hlog]
      simp only [Raft.stableState, htrunc]
      exact hrep
    · rw [hlog, List.length_take]
      simp only [Raft.stableState]
      omega
  · refine EventOk.of_vote ?_ rfl rfl (by simp) (by simp) fun v hv => ?_
    · cases role <;> split <;> rfl
    · split at hv <;> cases hv
  · refine MemOk.of_follower h.mem.id h.mem.configuration ?_ htrunc hr
    rw [World.stable_perform_self, ← h.mem.stable, hdisk]
    rfl

/-- Commit and acknowledge after the log was verified up to `matched`. -/
theorem Track.finishAppend (hr : t.raft.role = .follower)
    (hrole : role ≠ .leader) {matched leaderCommit : Nat} (hc : s.leader (s.term n) = some c)
    (hm : matched ≤ (s.leaderLog (s.term n)).length)
    (htake : (s.log n).take matched = (s.leaderLog (s.term n)).take matched)
    (hbacked : σ.strict → σ.Backed s (s.term n) leaderCommit)
    (hcover : σ.strict → min leaderCommit t.raft.log.lastIndex ≤
      max t.raft.hardState.commitIndex matched)
    (hcontext : ∀ context, readContext = some context →
      ∃ U, Event.given sender U (.readIndex context) ∈ w₀.history) :
    σ.Good n role w₀ s₀ (t.finishAppend sender matched leaderCommit readContext) := by
  have hcommit := h.setCommit (k := min leaderCommit t.raft.log.lastIndex)
    (fun hs hgt => by
      have hle := hcover hs
      have hk : min leaderCommit t.raft.log.lastIndex ≤ matched := by omega
      exact ((hbacked hs).mono (Nat.min_le_left _ _)).settled h.inv hc le_rfl
        (take_eq_of_le htake hk))
    (fun hleader => absurd hleader hrole) (fun hleader => by simp [hr] at hleader)
  exact ⟨_, hcommit.acknowledge ((Turn.proceeds_setCommit ..).role.trans hr) hc hm htake
    fun context hctx => (hcontext context hctx).imp fun U hU => World.mem_history_performAll _ hU⟩

theorem Track.onAppendEntries {prevLogIndex prevLogTerm leaderCommit : Nat}
    (hp : ⟨sender, n, .appendEntries term leaderId prevLogIndex prevLogTerm entries leaderCommit
      readContext⟩ ∈ w₀.network)
    (hcover : σ.strict → t.raft.overreached (.appendEntries term leaderId prevLogIndex prevLogTerm
      entries leaderCommit readContext) = false)
    (hrole : role = (t.onAppendEntries sender term leaderId prevLogIndex prevLogTerm entries
      leaderCommit readContext).raft.role)
    (hcontext : ∀ context, readContext = some context →
      ∃ U, Event.given sender U (.readIndex context) ∈ w₀.history) :
    σ.Good n role w₀ s₀ (t.onAppendEntries sender term leaderId prevLogIndex prevLogTerm entries
      leaderCommit readContext) := by
  have hcontext' : ∀ actions context, readContext = some context → ∃ U,
      Event.given sender U (.readIndex context) ∈ (w₀.performAll n role actions).history :=
    fun actions context hc => (hcontext context hc).imp fun U hU =>
      World.mem_history_performAll _ hU
  by_cases hsender : leaderId = sender
  swap
  · unfold Turn.onAppendEntries
    rw [if_pos hsender]
    exact ⟨s, h⟩
  by_cases hold : term < t.raft.hardState.currentTerm
  · unfold Turn.onAppendEntries
    rw [if_neg (not_not.mpr hsender), if_pos hold]
    exact ⟨s, h.rejectAppend _ _ (hcontext' _)⟩
  rw [Turn.onAppendEntries_role hsender (by omega)] at hrole
  unfold Turn.onAppendEntries
  rw [if_neg (not_not.mpr hsender), if_neg hold]
  obtain ⟨s', hfollow⟩ := (h.becomeFollower term (some sender)).quiet (a := .resetElectionTimer) rfl
  have hfollows := t.follows_heard sender term
  unfold Turn.heard at hfollows
  generalize (t.becomeFollower term (some sender)).push .resetElectionTimer = u at *
  have hr := hfollows.role
  have hterm : s'.term n = term := by
    rw [hfollow.term, hfollows.currentTerm, Nat.max_eq_right (Nat.le_of_not_lt hold)]
  obtain ⟨hleader, hprevL, hentries, hbacked, _⟩ := hfollow.packet hp
  rw [← hterm] at hleader hprevL hentries hbacked
  have hlen : prevLogIndex + entries.length ≤ (s'.leaderLog (s'.term n)).length := by
    have := hentries.length_le
    have := le_length_of_termAt hprevL
    rw [List.length_drop] at *
    omega
  dsimp only
  split
  · exact ⟨s', hfollow.rejectAppend _ _ (hcontext' _)⟩
  rename_i hbase
  split
  · exact ⟨s', hfollow.rejectAppend _ _ (hcontext' _)⟩
  rename_i localPrevTerm hprev
  split
  · exact ⟨s', hfollow.rejectAppend _ _ (hcontext' _)⟩
  rename_i hsame
  rw [not_not.mp hsame] at hprev
  split
  · exact ⟨s', hfollow.rejectAppend _ _ (hcontext' _)⟩
  have hagree := take_eq_of_termAt (hfollow.inv.log_rooted n)
    (hfollow.inv.leaderLog_rooted (s'.term n)) (hfollow.log.term_some hprev).2 hprevL
  have hscan := scanEntries_ok hfollow.log (hfollow.reached.sim.numbered (s'.term n))
    (hfollow.inv.log_rooted n) (hfollow.inv.leaderLog_rooted (s'.term n)) (by omega)
    hfollow.commit_le entries 0 hentries hagree
  rw [Nat.zero_add] at hscan
  split
  · exact ⟨s', hfollow.quiet rfl⟩
  · exact ⟨s', hfollow.rejectAppend _ _ (hcontext' _)⟩
  · rename_i index position heq
    rw [heq] at hscan
    obtain ⟨hpos, rfl, hcommit, hend, htake, hne⟩ := hscan
    have hwrite := hfollow.writeSuffix hr hleader hentries hpos (by omega) (by omega) (by omega)
      htake hne
    have hlast : (u.writeSuffix (prevLogIndex + position + 1)
        (entries.drop position)).raft.log.lastIndex = prevLogIndex + entries.length := by
      rw [hwrite.log.lastIndex, log_accept_of_take_ne hne, List.length_take, Nat.min_eq_left hlen]
    refine hwrite.finishAppend hr (by rw [hrole]; decide) hleader hlen ?_ ?_ ?_ hcontext
    · exact take_log_accept
    · exact fun hs => (hbacked hs).evolve State.evolve_accept
    · intro _
      omega
  · rename_i heq
    rw [heq] at hscan
    refine hfollow.finishAppend hr (by rw [hrole]; decide) hleader hlen hscan hbacked ?_ hcontext
    intro hs
    have hheld := Turn.term_of_scanEntries_held _ _ heq
    have hno := hcover hs
    simp only [Raft.overreached, decide_eq_false_iff_not, not_and, Nat.not_lt] at hno
    rw [hfollows.log] at hprev hheld ⊢
    rw [hfollows.commitIndex]
    exact hno (by unfold Raft.term; omega) hprev hheld

/-- Compaction at an applied index forgets nothing of the complete log. -/
theorem Track.snapshotBuilt [Sha256] (hchecks : σ.Checks)
    (snapshot : PersistentSnapshot) : σ.Good n role w₀ s₀ (t.snapshotBuilt snapshot) := by
  unfold Turn.snapshotBuilt
  dsimp only
  split
  swap
  · exact ⟨s, h.quiet rfl⟩
  rename_i hcond
  obtain ⟨hvalid, hsame, hbase, happlied, hterm⟩ := hcond
  rw [h.mem.configuration] at hsame
  have hrep := h.log.compact hbase (h.log.term_some hterm).2
  have hd := h.disk
  refine ⟨s, h.push ⟨Evolve.refl n s, h.inv, h.reached.sim.numbered, ?_, by simp, by simp, ?_⟩ ?_⟩
  · rw [← h.mem.stable]
    exact { hd with
      log := hrep
      base_le := happlied
      intact := by rintro _ ⟨⟩; exact hchecks snapshot hvalid hsame }
  · exact EventOk.of_vote (by cases role <;> rfl) rfl rfl (by simp) (by simp) fun v hv => by
      cases hv
  · refine ⟨h.mem.id, h.mem.configuration, ?_, rfl, h.mem.campaign,
      fun hr => { h.mem.candidate hr with }, fun hr => ?_, fun hr => (h.mem.covered hr).cons _⟩
    · rw [World.stable_perform_self, ← h.mem.stable]
      rfl
    · refine LeaderOk.update (r := t.raft) ((h.mem.leader hr).perform (by simp) ?_ (by simp)) rfl
        (h.mem.leader hr).progress le_rfl le_rfl fun _ _ hp => hp
      intro c hc
      cases role <;> cases hc

/-- Moving the boundary to a snapshot of the leader keeps the suffix exactly if
the log agrees with the leader's up to there. -/
theorem Track.represents_install {index : Nat}
    (hbase : t.raft.log.baseIndex ≤ index)
    (hterm : termAt (s.leaderLog (s.term n)) index = some term) :
    (t.raft.log.compact index term (decide (t.raft.log.term index = some term))).Represents
      ((s.accept n index).log n) := by
  have hlocal := h.log.term hbase
  by_cases hretain : t.raft.log.term index = some term
  · rw [hlocal] at hretain
    have htake := take_eq_of_termAt (h.inv.log_rooted n) (h.inv.leaderLog_rooted (s.term n))
      hretain hterm
    rw [log_accept_of_take htake, hlocal, decide_eq_true hretain]
    exact h.log.compact hbase hretain
  · rw [hlocal] at hretain
    have hne : (s.log n).take index ≠ (s.leaderLog (s.term n)).take index := fun heq =>
      hretain ((termAt_congr heq le_rfl).trans hterm)
    rw [log_accept_of_take_ne hne, hlocal, decide_eq_false hretain]
    refine RaftLog.represents_compact_drop _ ?_ ?_ ((h.reached.sim.numbered _).take _)
    · rw [List.length_take, Nat.min_eq_left (le_length_of_termAt hterm)]
    · rw [termAt_take le_rfl]
      exact hterm

/-- Install a complete snapshot of the leader that lies beyond everything applied. -/
theorem Track.installSnapshot (hr : t.raft.role = .follower)
    (snapshot : PersistentSnapshot) (hc : s.leader (s.term n) = some c)
    (hterm : termAt (s.leaderLog (s.term n)) snapshot.metadata.lastIncludedIndex =
      some snapshot.metadata.lastIncludedTerm)
    (hbacked : σ.strict → σ.Backed s (s.term n) snapshot.metadata.lastIncludedIndex)
    (happlied : t.raft.appliedIndex = t.raft.hardState.commitIndex)
    (hgt : t.raft.appliedIndex < snapshot.metadata.lastIncludedIndex)
    (hintact : σ.intact snapshot) :
    σ.Track n role w₀ s₀ (t.installSnapshot snapshot)
      (s.accept n snapshot.metadata.lastIncludedIndex) := by
  have hbase := h.base_le
  have hrep := h.represents_install (by omega) hterm
  have hlen := le_length_of_termAt hterm
  have hcommit : max t.raft.hardState.commitIndex snapshot.metadata.lastIncludedIndex =
      snapshot.metadata.lastIncludedIndex := by omega
  have hd := h.disk
  refine h.push ⟨State.evolve_accept, h.inv.accept hc hlen, h.reached.sim.numbered, ?_, by simp,
    by simp, ?_⟩ ?_
  · refine ⟨hd.term, hd.vote, hrep, le_rfl, ?_, ?_, fun hs => ?_, by rintro _ ⟨⟩; exact hintact⟩
    · simp only [StableState.perform, StableState.mutate, Turn.modify, hcommit]
      exact le_rfl
    · have := hrep.base_le
      simp only [StableState.perform, StableState.mutate, Turn.modify, hcommit]
      exact this
    · simp only [StableState.perform, StableState.mutate, Turn.modify, hcommit]
      exact ((hbacked hs).evolve State.evolve_accept).settled (h.inv.accept hc hlen) hc le_rfl
        take_log_accept
  · refine EventOk.of_vote (by cases role <;> rfl) rfl rfl (by simp) (by simp) fun v hv => ?_
    simp only [Event.vote?, Turn.modify, Option.map_eq_some_iff] at hv
    obtain ⟨candidate, hvoted, rfl⟩ := hv
    have hvote := h.vote
    rw [h.term, hvoted] at hvote
    exact hvote
  · refine MemOk.of_follower h.mem.id h.mem.configuration ?_ rfl hr
    rw [World.stable_perform_self]
    rfl

variable {done : Bool}

/-- Answer a snapshot chunk; a completed transfer names a snapshot on the wire. -/
theorem Track.snapshotReply {receiver : NodeId} {accepted : Bool}
    (nextOffset : Nat) {matchIndex : Nat}
    (hdone : accepted = true → done = true → ∃ leaderId metadata offset data last,
      metadata.lastIncludedIndex = matchIndex ∧
      ⟨receiver, n, .installSnapshot t.raft.hardState.currentTerm leaderId metadata offset data
        last⟩ ∈ w₀.network) :
    σ.Track n role w₀ s₀ (t.snapshotReply receiver accepted nextOffset done matchIndex) s := by
  apply h.send
  · intro ha hd
    obtain ⟨leaderId, metadata, offset, data, last, hm, hp⟩ := hdone ha hd
    exact ⟨leaderId, metadata, offset, data, last, hm, World.mem_network_performAll _ hp⟩
  · rintro _ _ _ _ _ _ ⟨⟩
  · rintro _ _ _ _ _ _ ⟨⟩

theorem Track.receiveChunk [Sha256] (hchecks : σ.Checks) (hr : t.raft.role = .follower)
    {incoming : IncomingSnapshot} {offset : Nat} {data : Bytes}
    (hp : ⟨sender, n, .installSnapshot t.raft.hardState.currentTerm leaderId incoming.metadata
      offset data done⟩ ∈ w₀.network) (happlied : t.raft.appliedIndex =
        t.raft.hardState.commitIndex)
    (hgt : t.raft.appliedIndex < incoming.metadata.lastIncludedIndex)
    (hsame : incoming.metadata.configuration = σ.configuration) :
    σ.Good n role w₀ s₀ (t.receiveChunk sender incoming offset data done) := by
  obtain ⟨hleader, hterm, hbacked⟩ := h.packet hp
  rw [← h.term] at hleader hterm hbacked
  unfold Turn.receiveChunk
  dsimp only
  split
  · exact ⟨s, h.snapshotReply _ (by simp)⟩
  split
  · exact ⟨s, h.snapshotReply _ (by simp)⟩
  have hmore := h.withRaft (h.mem.touch t.raft.leaderId t.raft.recentActive
    (some { incoming with data := incoming.data ++ data }))
  have hnone := h.withRaft (h.mem.touch t.raft.leaderId t.raft.recentActive none)
  split
  · exact ⟨s, hmore.snapshotReply _ (by simp)⟩
  split
  · exact ⟨s, hnone.snapshotReply _ (by simp)⟩
  · rename_i hvalid
    obtain ⟨hlength, hdigest⟩ := not_or.mp hvalid
    have hintact := hchecks ⟨incoming.metadata, incoming.data ++ data⟩
      (by simp [PersistentSnapshot.validate, ← not_not.mp hlength, ← not_not.mp hdigest]) hsame
    have hinstall := hnone.installSnapshot hr _ hleader hterm hbacked happlied hgt hintact
    exact ⟨_, hinstall.snapshotReply _ fun _ _ => ⟨_, _, _, _, _, rfl, hp⟩⟩

theorem Track.onInstallSnapshot [Sha256] (hchecks : σ.Checks) {metadata : SnapshotMetadata}
    {offset : Nat} {data : Bytes}
    (hp : ⟨sender, n, .installSnapshot term leaderId metadata offset data done⟩ ∈ w₀.network)
    (happlied : t.raft.appliedIndex = t.raft.hardState.commitIndex) :
    σ.Good n role w₀ s₀ (t.onInstallSnapshot sender term leaderId metadata offset data done) := by
  unfold Turn.onInstallSnapshot
  split
  · exact ⟨s, h⟩
  split
  · exact ⟨s, h.snapshotReply _ (by simp)⟩
  rename_i hold
  obtain ⟨s', hfollow⟩ := (h.becomeFollower term (some sender)).quiet (a := .resetElectionTimer) rfl
  have hfollows := t.follows_heard sender term
  unfold Turn.heard at hfollows
  generalize (t.becomeFollower term (some sender)).push .resetElectionTimer = u at *
  have hterm : u.raft.hardState.currentTerm = term :=
    hfollows.currentTerm.trans (Nat.max_eq_right (Nat.le_of_not_lt hold))
  have hcommit : u.raft.appliedIndex = u.raft.hardState.commitIndex := by
    rw [hfollows.appliedIndex, happlied, hfollows.commitIndex]
  rw [← hterm] at hp
  dsimp only
  split
  · exact ⟨s', (hfollow.withRaft (hfollow.mem.touch u.raft.leaderId u.raft.recentActive
      none)).snapshotReply _ (by simp)⟩
  rename_i hmeta
  have hsame := not_not.mp (not_or.mp hmeta).1
  rw [hfollow.mem.configuration] at hsame
  split
  · exact ⟨s', hfollow.snapshotReply _ fun _ _ => ⟨_, _, _, _, _, rfl, hp⟩⟩
  rename_i hgt
  generalize hv : (if offset = 0 ∧ (!_) = true then _ else u : Turn) = v
  have hstart : σ.Track n role w₀ s₀ v s' := by
    rw [← hv]
    split
    · exact hfollow.withRaft (hfollow.mem.touch _ _ _)
    · exact hfollow
  obtain ⟨incoming, hframe⟩ :
      ∃ incoming, v.raft = { u.raft with incomingSnapshot := incoming } := by
    rw [← hv]
    split <;> exact ⟨_, rfl⟩
  split
  · exact ⟨s', hstart.snapshotReply _ (by simp)⟩
  split
  · exact ⟨s', hstart.snapshotReply _ (by simp)⟩
  · rename_i received _ hmetadata
    rw [← not_not.mp hmetadata] at hp hgt hsame
    have hp' : ⟨sender, n, .installSnapshot v.raft.hardState.currentTerm leaderId
        received.metadata offset data done⟩ ∈ w₀.network := by
      rw [hframe]
      exact hp
    refine hstart.receiveChunk hchecks ((congrArg Raft.role hframe).trans hfollows.role) hp' ?_ ?_
      hsame
    · rw [hframe]
      exact hcommit
    · rw [hframe]
      simpa using hgt

end

end Setting

end AsterRaft
