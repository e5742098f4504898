import AsterDB.Models.Raft.Correctness.Transfers

/-!
# Log repair

A leader and a follower that exchange messages: the leader goes back until the logs agree or
it has to send its snapshot, and then hands over its log in batches. It never gets there if
the follower has compacted what the leader would have to start with, or if the follower takes
over a commit index for entries that were not compared.
-/

namespace AsterRaft

open Std Rounds

/-- The leader has a snapshot at its compaction boundary that the follower accepts. -/
structure Provides (s : PersistentSnapshot) (x : Exchange) [Sha256] : Prop where
  snapshot : x.leader.snapshot = some s
  validate : s.validate = true
  index : s.metadata.lastIncludedIndex = x.leader.log.baseIndex
  term : s.metadata.lastIncludedTerm = x.leader.log.baseTerm
  configuration : s.metadata.configuration = x.follower.configuration
  byteLen : s.metadata.byteLen ≤ maxSnapshotBytes
  holding : ∃ chunks, Holding s x.follower chunks

/-- A repair that may need a snapshot. -/
structure Repairs [Sha256] (L l : List LogEntry) (p : Progress) (x : Exchange) : Prop
    extends Appending L l p x where
  snapshot : x.leader.log.baseIndex = 0 ∨ ∃ s, Provides s x
  commit_le : x.leader.hardState.commitIndex ≤ L.length
  followerCommit_le : x.follower.hardState.commitIndex ≤ L.length

/-- The leader knows that the follower has its log. -/
def Caught (x : Exchange) : Prop :=
  (x.leader.progress[x.follower.id]?).map (·.matchIndex) = some x.leader.log.lastIndex

section Commit

variable {r r' : Raft} {peer : NodeId} {p : Progress}

theorem le_commitOnce (r : Raft) (peer : NodeId) (index : Nat) :
    r.hardState.commitIndex ≤ r.commitOnce peer index := by
  unfold Raft.commitOnce
  dsimp only
  split
  · omega
  · exact Nat.le_refl _

theorem commitOnce_le {n : Nat} (hcommit : r.hardState.commitIndex ≤ n)
    (hlast : r.log.lastIndex ≤ n) (index : Nat) : r.commitOnce peer index ≤ n := by
  unfold Raft.commitOnce
  dsimp only
  split
  · omega
  · exact hcommit

/-- Acknowledgements that a leader counted before make no difference later. -/
theorem Heeds.commitOnce (h : Heeds r r' peer p) {before index : Nat}
    (hmatch : p.matchIndex = max (r.matched peer) before) (hle : before ≤ index)
    (hcommit : r.hardState.commitIndex ≤ r'.hardState.commitIndex) :
    r'.commitOnce peer index = max r'.hardState.commitIndex (r.commitOnce peer index) := by
  have hmatched : r'.matched peer = max (r.matched peer) before := by
    rw [← hmatch, matched_eq h.progress]
  have hquorum : (r'.configuration.quorumIndex fun voter =>
      if voter = peer then max (r'.matched peer) index else r'.matched voter) =
      r.configuration.quorumIndex fun voter =>
        if voter = peer then max (r.matched peer) index else r.matched voter := by
    rw [h.reigns.configuration]
    congr 1
    funext voter
    split
    · omega
    · rename_i hne
      unfold Raft.matched
      rw [h.others voter hne]
  unfold Raft.commitOnce
  rw [hquorum, h.reigns.log, h.reigns.currentTerm]
  generalize (r.configuration.quorumIndex _) = quorumIndex
  by_cases hok : quorumIndex ≤ r.log.lastIndex ∧
      r.log.term quorumIndex = some r.hardState.currentTerm
  · simp only [hok, and_true]
    split <;> split <;> omega
  · simp only [hok, and_false, if_false]
    omega

end Commit

section Agree

variable {l L : List LogEntry} {a b : Nat}

/-- The logs agree up to an index, as far as the first of them goes. -/
def Agree (l L : List LogEntry) (index : Nat) : Prop :=
  l.take (min index l.length) = L.take (min index l.length)

theorem Agree.mono (h : Agree l L b) (hle : a ≤ b) : Agree l L a :=
  take_eq_of_le h (by omega)

theorem Agree.max (ha : Agree l L a) (hb : Agree l L b) : Agree l L (max a b) := by
  rcases Nat.le_total a b with hle | hle
  · rwa [Nat.max_eq_right hle]
  · rwa [Nat.max_eq_left hle]

theorem agree_take (L : List LogEntry) (n a : Nat) : Agree (L.take n) L a := by
  unfold Agree
  rw [List.take_take, Nat.min_eq_left]
  rw [List.length_take]
  omega

theorem Apart.lt {index i : Nat} (h : Apart l L index) (htake : l.take i = L.take i)
    (hle : i ≤ l.length) : i < index := by
  by_contra hge
  obtain ⟨t, ht⟩ := termAt_isSome hle
  exact h i t (by omega) ht ((termAt_congr htake (Nat.le_refl i)).symm.trans ht)

theorem matching_take (L : List LogEntry) (n : Nat) : Matching (L.take n) L := by
  intro i t ht _
  have hle := le_length_of_termAt ht
  rw [List.length_take] at hle
  rw [List.take_take, Nat.min_eq_left (by omega)]

theorem Matching.extended (h : Matching l L) (n : Nat) : Matching (Turn.extended l L n) L := by
  unfold Turn.extended
  split
  · exact h
  · exact matching_take L n

theorem Ascending.extended (h : Ascending l) (hL : Ascending L) (n : Nat) :
    Ascending (Turn.extended l L n) := by
  unfold Turn.extended
  split
  · exact h
  · exact hL.take n

theorem take_extended (l L : List LogEntry) (n : Nat) :
    (Turn.extended l L n).take n = L.take n := by
  unfold Turn.extended
  split
  · assumption
  · rw [List.take_take, Nat.min_self]

end Agree

section Rounds

variable [Sha256] {L l : List LogEntry} {p : Progress} {x : Exchange} {s : PersistentSnapshot}

variable {y : Exchange}

/-- It does so as long as the nodes stay what they are. -/
theorem Provides.next (h : Provides s x) (hreigns : Reigns x.leader y.leader)
    (hconfiguration : y.follower.configuration = x.follower.configuration)
    (hholding : ∃ chunks, Holding s y.follower chunks) : Provides s y where
  snapshot := hreigns.snapshot.trans h.snapshot
  validate := h.validate
  index := h.index.trans (by rw [hreigns.log])
  term := h.term.trans (by rw [hreigns.log])
  configuration := h.configuration.trans hconfiguration.symm
  byteLen := h.byteLen
  holding := hholding

theorem Provides.stays (h : Provides s x) (hreigns : Reigns x.leader y.leader)
    (hstays : Stays x.follower y.follower) : Provides s y := by
  obtain ⟨chunks, hholding⟩ := h.holding
  exact h.next hreigns hstays.configuration ⟨chunks, hholding.congr hstays.incomingSnapshot⟩

theorem Repairs.provides (h : Repairs L l p x) (hpos : 0 < x.leader.log.baseIndex) :
    ∃ s, Provides s x :=
  h.snapshot.resolve_left hpos.ne'

theorem Repairs.stays (h : Repairs L l p x) (hreigns : Reigns x.leader y.leader)
    (hstays : Stays x.follower y.follower) :
    y.leader.log.baseIndex = 0 ∨ ∃ s, Provides s y :=
  h.snapshot.imp (fun hzero => hreigns.log ▸ hzero) fun ⟨s, hs⟩ => ⟨s, hs.stays hreigns hstays⟩

/-- The logs agree at the follower's compaction boundary. -/
theorem Repairs.base_lt {index : Nat} (h : Repairs L l p x)
    (hcommitted : l.take x.follower.hardState.commitIndex = L.take x.follower.hardState.commitIndex)
    (hapart : Apart l L index) : x.follower.log.baseIndex < index := by
  have hle := h.follower.base_le.trans h.follower.applied_le
  exact hapart.lt (take_eq_of_le hcommitted hle) (hle.trans h.follower.commit_le)

/-- A refused append. -/
theorem Repairs.refused (h : Repairs L l p x) (hnext : x.leader.log.baseIndex < p.nextIndex)
    (hne : p.nextIndex - 1 < x.follower.log.baseIndex ∨
      termAt l (p.nextIndex - 1) ≠ termAt L (p.nextIndex - 1)) :
    ∃ conflictIndex conflictTerm,
      Refusal x.follower.log l (p.nextIndex - 1) conflictIndex conflictTerm ∧
      Repairs L l (p.afterAppend x.leader.log false 0 conflictIndex conflictTerm) x.round ∧
        Reigns x.leader x.round.leader ∧ x.round.follower.log = x.follower.log ∧
        x.round.follower.hardState.commitIndex = x.follower.hardState.commitIndex := by
  obtain ⟨conflictIndex, conflictTerm, hrefusal, hrefused⟩ := h.toAppending.refused hnext hne
  exact ⟨conflictIndex, conflictTerm, hrefusal, ⟨hrefused.toAppending,
    h.stays hrefused.heeds.reigns hrefused.stays, hrefused.leaderCommit ▸ h.commit_le,
    hrefused.commit ▸ h.followerCommit_le⟩, hrefused.heeds.reigns, hrefused.log, hrefused.commit⟩

/-- An append whose previous entry is held: the follower falls silent, or the leader learns that it
has everything, or the repair goes on behind the batch. -/
theorem Repairs.held (h : Repairs L l p x) (hnext : x.leader.log.baseIndex < p.nextIndex)
    (hbase : x.follower.log.baseIndex ≤ p.nextIndex - 1)
    (heq : termAt l (p.nextIndex - 1) = termAt L (p.nextIndex - 1)) :
    Balks L l (p.batchEnd L) x ∨ TakesOver L l p (p.batchEnd L) x ∧
      (p.batchEnd L = L.length ∧ x.round.message = none ∨ p.batchEnd L < L.length ∧
        Repairs L (Turn.extended l L (p.batchEnd L)) (p.past (p.batchEnd L)) x.round) := by
  rcases h.toAppending.held hnext hbase heq with hbalks | htakes
  · exact .inl hbalks
  refine .inr ⟨htakes, ?_⟩
  have hmessage := htakes.message
  have hend : p.batchEnd L ≤ L.length := Nat.min_le_right _ _
  split at hmessage
  · exact .inl ⟨by omega, hmessage⟩
  refine .inr ⟨by omega, ?_, h.stays htakes.heeds.reigns htakes.stays, ?_, ?_⟩
  · exact h.toAppending.next htakes.heeds htakes.stays.id htakes.stays.configuration
      htakes.currentTerm.le htakes.keeps (h.matching.extended _)
      (h.followerAscending.extended h.leaderAscending _)
      (h.next_pos.trans_le (Nat.le_max_left _ _))
      (Nat.max_le.mpr ⟨h.next_le, Nat.succ_le_succ hend⟩) hmessage
  · rw [htakes.leaderCommit]
    exact commitOnce_le h.commit_le h.leaderLog.lastIndex.le _
  · have hcommit := htakes.commit
    have hle := h.commit_le
    have hle' := h.followerCommit_le
    omega

omit [Sha256] in
theorem Progress.batchEnd_eq (h : p.batchEnd L < L.length) :
    p.batchEnd L = p.nextIndex - 1 + maxAppendEntries := by
  unfold Progress.batchEnd at h ⊢
  omega

omit [Sha256] in
theorem Progress.nextIndex_past {index : Nat} (h : p.nextIndex ≤ index + 1) :
    (p.past index).nextIndex = index + 1 :=
  Nat.max_eq_right h

/-- The leader has heard that the follower has its snapshot. -/
structure Repairs.Past (L l : List LogEntry) (p : Progress) (x y : Exchange) : Prop
    extends Repairs L l (p.past x.leader.log.baseIndex) y where
  heeds : Heeds x.leader y.leader x.follower.id (p.past x.leader.log.baseIndex)
  leaderCommit : y.leader.hardState.commitIndex =
    x.leader.commitOnce x.follower.id x.leader.log.baseIndex
  id : y.follower.id = x.follower.id

/-- A snapshot that the follower needs. -/
theorem Repairs.transfers (h : Repairs L l p x) (hnext : p.nextIndex ≤ x.leader.log.baseIndex)
    (hs : Provides s x) (hneeded : x.follower.hardState.commitIndex < x.leader.log.baseIndex) :
    Transfers s x (p.snapshotOffset.getD 0) := by
  obtain ⟨-, -, -, hsame⟩ := h.follower.replayed
  refine ⟨h.linked, hs.snapshot, ⟨p, h.progress, hnext, rfl⟩, ⟨?_, hs.byteLen, ?_⟩, h.message⟩
  · exact hs.configuration.trans hsame.configuration.symm
  · rw [h.follower.applied_replayed, hs.index]
    exact hneeded

/-- A round of a transfer that goes on. -/
theorem Repairs.waits {offset chunks : Nat} (h : Repairs L l p x) (hs : Provides s x)
    (hwaits : Waits x x.round) (htransfers : Transfers s x.round offset)
    (hholding : Holding s x.round.follower chunks) :
    ∃ offset, Repairs L l { p with snapshotOffset := offset } x.round := by
  obtain ⟨offset, hp⟩ := hwaits.progress p h.progress
  refine ⟨offset, ⟨htransfers.linked, ?_, hwaits.keeps l h.follower, h.matching, h.leaderAscending,
    h.followerAscending, ?_, ?_, h.next_pos, h.next_le, htransfers.message⟩, ?_, ?_, ?_⟩
  · exact hwaits.reigns.log ▸ h.leaderLog
  · exact hwaits.reigns.currentTerm ▸ h.bound
  · exact hwaits.id ▸ hp
  · exact .inr ⟨s, hs.next hwaits.reigns hwaits.configuration ⟨chunks, hholding⟩⟩
  · exact hwaits.commitIndex ▸ h.commit_le
  · exact hwaits.followerCommit ▸ h.followerCommit_le

omit [Sha256] in
/-- A transfer does not change what an acknowledgement will commit. -/
theorem Waits.commitOnce (h : Waits x y) (hp : x.leader.progress[x.follower.id]? = some p)
    (index : Nat) :
    y.leader.commitOnce x.follower.id index = x.leader.commitOnce x.follower.id index := by
  obtain ⟨offset, hprogress⟩ := h.progress p hp
  have hheeds : Heeds x.leader y.leader x.follower.id { p with snapshotOffset := offset } :=
    ⟨h.reigns, hprogress, h.others⟩
  have hmatch : p.matchIndex = max (x.leader.matched x.follower.id) 0 := by
    rw [Nat.max_zero, matched_eq hp]
  rw [hheeds.commitOnce hmatch (Nat.zero_le _) h.commitIndex.ge, h.commitIndex]
  exact Nat.max_eq_right (le_commitOnce _ _ _)

/-- The follower acknowledges the leader's snapshot. -/
theorem Repairs.acknowledged {l' : List LogEntry} {nextOffset : Nat} (h : Repairs L l p x)
    (hs : Provides s x) (hwaits : Waits x y) (hlinked : Linked y.leader y.follower)
    (hsent : sentTo y.leader.id y.delivered.2 = some (.installSnapshotResponse
      y.leader.hardState.currentTerm true nextOffset true x.leader.log.baseIndex))
    (hkeeps : Keeps y.delivered.1 l') (hid : y.delivered.1.id = x.follower.id)
    (hconfiguration : y.delivered.1.configuration = x.follower.configuration)
    (hterm : y.delivered.1.hardState.currentTerm = y.leader.hardState.currentTerm)
    (hmatching : Matching l' L) (hascending : Ascending l')
    (hholding : ∃ chunks, Holding s y.delivered.1 chunks)
    (hcommit : y.delivered.1.hardState.commitIndex ≤ L.length) :
    Past L l' p x y.round ∧ y.round.follower = y.delivered.1 := by
  obtain ⟨q, hq⟩ := hwaits.progress p h.progress
  obtain ⟨⟨hreigns, hprogress, hothers⟩, hleader, hfollower, hmessage⟩ :=
    Exchange.round_snapshotResponse hlinked (hwaits.id ▸ hq) hsent
  rw [hwaits.id, hwaits.commitOnce h.progress] at hleader
  rw [hwaits.id] at hprogress hothers hmessage
  rw [← hfollower] at hkeeps hid hconfiguration hterm hholding hcommit
  have hheeds : Heeds x.leader y.round.leader x.follower.id (p.past x.leader.log.baseIndex) :=
    ⟨hwaits.reigns.trans hreigns, hprogress,
      fun voter hne => (hothers voter hne).trans (hwaits.others voter hne)⟩
  have hpos := h.next_pos
  have hmax := h.next_le
  have hlength := h.leaderLog.base_le
  refine ⟨⟨⟨?_, .inr ⟨s, hs.next hheeds.reigns hconfiguration hholding⟩, ?_, hcommit⟩, hheeds,
    hleader, hid⟩, hfollower⟩
  · refine h.toAppending.next hheeds hid hconfiguration (hterm.trans hwaits.reigns.currentTerm).le
      hkeeps hmatching hascending ?_ ?_ hmessage
    · exact hpos.trans_le (Nat.le_max_left _ _)
    · exact Nat.max_le.mpr ⟨hmax, Nat.succ_le_succ hlength⟩
  · rw [hleader]
    exact commitOnce_le h.commit_le h.leaderLog.lastIndex.le _

/-- A chunk of a snapshot that the follower needs no more. -/
theorem Repairs.known (h : Repairs L l p x) (hnext : p.nextIndex ≤ x.leader.log.baseIndex)
    (hknown : x.leader.log.baseIndex ≤ x.follower.hardState.commitIndex) :
    Past L l p x x.round ∧ x.round.follower.log = x.follower.log ∧
      x.round.follower.hardState.commitIndex = x.follower.hardState.commitIndex := by
  have hpos := h.next_pos
  obtain ⟨s, hs⟩ := h.provides (by omega)
  obtain ⟨chunks, hholding⟩ := hs.holding
  have hdelivered := delivered_chunk h.linked hs.snapshot h.progress hnext h.message rfl
  obtain ⟨-, -, hhard, hsame⟩ := h.follower.replayed
  obtain ⟨hkeeps, hhears, hstays, hinternal⟩ := h.follower.heard h.linked
  have happlied : s.metadata.lastIncludedIndex ≤ x.follower.replayed.appliedIndex := by
    rw [h.follower.applied_replayed, hs.index]
    exact hknown
  rw [offered, Turn.onChunk_applied (hhard ▸ h.linked.term)
    (hs.configuration.trans hsame.configuration.symm) hs.byteLen (by rw [hs.index]; omega) happlied,
    hs.index, ← Exchange.heard] at hdelivered
  generalize x.heard = v at hkeeps hhears hstays hinternal hdelivered
  have hsent : sentTo x.leader.id x.delivered.2 = some (.installSnapshotResponse
      x.leader.hardState.currentTerm true s.metadata.byteLen true x.leader.log.baseIndex) := by
    rw [hdelivered, ← hhears.currentTerm]
    exact sentTo_last hinternal
  have hraft : x.delivered.1 = v.raft := congrArg Prod.fst hdelivered
  rw [← hraft] at hkeeps hhears hstays
  obtain ⟨hpast, hfollower⟩ := h.acknowledged hs (.refl x) h.linked hsent hkeeps hstays.id
    hstays.configuration hhears.currentTerm h.matching h.followerAscending
    ⟨chunks, hholding.congr hstays.incomingSnapshot⟩ (hhears.commitIndex ▸ h.followerCommit_le)
  exact ⟨hpast, hfollower ▸ hhears.log, hfollower ▸ hhears.commitIndex⟩

omit [Sha256] in
/-- Keeping the entries behind a snapshot, or none of them. -/
theorem represents_compact {log leaderLog : RaftLog} (hlog : log.Represents l)
    (hleader : leaderLog.Represents L) (hmatching : Matching l L)
    (hbase : log.baseIndex ≤ leaderLog.baseIndex) :
    (log.compact leaderLog.baseIndex leaderLog.baseTerm
      (decide (log.term leaderLog.baseIndex = some leaderLog.baseTerm))).Represents
        (Turn.extended l L leaderLog.baseIndex) := by
  rw [hlog.term hbase, Turn.extended]
  by_cases heq : termAt l leaderLog.baseIndex = some leaderLog.baseTerm
  · rw [decide_eq_true heq, if_pos (hmatching _ _ heq hleader.base_term)]
    exact hlog.compact hbase heq
  · have hne : l.take leaderLog.baseIndex ≠ L.take leaderLog.baseIndex := fun htake =>
      heq ((termAt_congr htake (Nat.le_refl _)).trans hleader.base_term)
    rw [decide_eq_false heq, if_neg hne]
    refine RaftLog.represents_compact_drop log ?_ ?_ (hleader.numbered.take _)
    · rw [List.length_take, Nat.min_eq_left hleader.base_le]
    · rw [termAt_take (Nat.le_refl _)]
      exact hleader.base_term

/-- The chunk that completes a snapshot. -/
theorem Repairs.completes (h : Repairs L l p x) (hs : Provides s x)
    (hneeded : x.follower.hardState.commitIndex < x.leader.log.baseIndex) (hwaits : Waits x y)
    (hcompletes : Completes s y) :
    Past L (Turn.extended l L x.leader.log.baseIndex) p x y.round ∧
      y.round.follower.log.baseIndex = x.leader.log.baseIndex ∧
      y.round.follower.hardState.commitIndex = x.leader.log.baseIndex := by
  obtain ⟨offset, incoming, htransfers, hu⟩ := hcompletes
  obtain ⟨hinternal, hhears⟩ := heardWith_spec htransfers.linked incoming
  have hdelivered := htransfers.delivered
  rw [hu] at hdelivered
  have hid := hhears.id.trans hwaits.id
  have hlog := hhears.log.trans hwaits.log
  have hcommit := hhears.commitIndex.trans hwaits.followerCommit
  have hbase := h.follower.base_le.trans h.follower.applied_le
  have hlength := h.leaderLog.base_le
  have hsent : sentTo y.leader.id y.delivered.2 = some (.installSnapshotResponse
      y.leader.hardState.currentTerm true s.data.length true x.leader.log.baseIndex) := by
    rw [hdelivered, ← hhears.currentTerm, ← hs.index]
    unfold Turn.snapshotReply Turn.installSnapshot Turn.push Turn.modify
    rw [sentTo_append, sentTo_append, sentTo_internal hinternal]
    simp [sentTo]
  generalize heardWith y incoming = v at hhears hid hlog hcommit hdelivered
  have hraft : y.delivered.1 = _ := congrArg Prod.fst hdelivered
  have hrep := represents_compact h.follower.log h.leaderLog h.matching (by omega)
  rw [← hlog, ← hs.index, ← hs.term] at hrep
  have hinstalled : y.delivered.1.hardState.commitIndex = x.leader.log.baseIndex := by
    rw [hraft]
    unfold Turn.snapshotReply Turn.installSnapshot Turn.push Turn.modify
    dsimp only
    rw [hcommit, hs.index]
    exact Nat.max_eq_right hneeded.le
  have hkeeps : Keeps y.delivered.1 (Turn.extended l L x.leader.log.baseIndex) := by
    have hend := hrep.base_le
    refine ⟨?_, ?_, ?_, ?_⟩
    · rw [hraft, ← hs.index]
      exact hrep
    · rw [hraft]
      exact Nat.le_refl _
    · rw [hraft]
      exact Nat.le_max_right _ _
    · rw [hinstalled, ← hs.index]
      exact hend
  obtain ⟨hpast, hfollower⟩ := h.acknowledged hs hwaits htransfers.linked hsent hkeeps
    (hraft ▸ hid) (hraft ▸ hhears.configuration.trans hwaits.configuration)
    (hraft ▸ hhears.currentTerm) (h.matching.extended _)
    (h.followerAscending.extended h.leaderAscending _) ⟨0, .inl ⟨rfl, by rw [hraft]; rfl⟩⟩
    (hinstalled ▸ hlength)
  refine ⟨hpast, ?_, hfollower ▸ hinstalled⟩
  rw [hfollower, hraft]
  exact hs.index

end Rounds

section Replicate

variable {L l : List LogEntry}

/-- No batch that the follower holds comes with a commit index beyond where the logs agree. The
leader sends batches from an index on, the first one with a given commit index and each later one
with the commit index that follows from the acknowledgement of the one before. -/
def Safe (L l : List LogEntry) (leader : Raft) (peer : NodeId) (start commit : Nat) : Prop :=
  ∀ k, l.take (start + maxAppendEntries * (k + 1)) = L.take (start + maxAppendEntries * (k + 1)) →
    start + maxAppendEntries * (k + 1) < L.length →
      Agree l L (if k = 0 then commit else leader.commitOnce peer (start + maxAppendEntries * k))

/-- The same for the batches behind the leader's snapshot, once that is acknowledged. -/
def SafeBehind (L l : List LogEntry) (leader : Raft) (peer : NodeId) : Prop :=
  Safe L l leader peer leader.log.baseIndex (leader.commitOnce peer leader.log.baseIndex)

variable {start commit : Nat}

/-- Logs that are apart behind the start hold no batch. -/
theorem Apart.safe (h : Apart l L (start + 1)) (leader : Raft) (peer : NodeId) (commit : Nat) :
    Safe L l leader peer start commit := by
  intro k htake hlt
  have hle : start + maxAppendEntries * (k + 1) ≤ l.length := by
    have hlength := congrArg List.length htake
    rw [List.length_take, List.length_take] at hlength
    omega
  have hbelow := h.lt htake hle
  unfold maxAppendEntries at hbelow
  omega

theorem batches_succ (start k : Nat) :
    start + maxAppendEntries * (k + 1) = start + maxAppendEntries + maxAppendEntries * k := by
  rw [Nat.mul_succ]
  omega

theorem batch_le (start k : Nat) :
    start + maxAppendEntries ≤ start + maxAppendEntries * (k + 1) := by
  rw [batches_succ]
  exact Nat.le_add_right _ _

variable {leader : Raft} {peer : NodeId}

theorem Safe.extended {n : Nat} (h : l.take n = L.take n → Safe L l leader peer start commit) :
    Safe L (Turn.extended l L n) leader peer start commit := by
  unfold Turn.extended
  split
  · exact h ‹_›
  · exact fun _ _ _ => agree_take L n _

/-- What remains to be sent after a batch. -/
theorem Safe.shift (h : Safe L l leader peer start commit) :
    Safe L l leader peer (start + maxAppendEntries)
      (leader.commitOnce peer (start + maxAppendEntries)) := by
  intro k htake hlt
  have hlater := h (k + 1) (by rwa [batches_succ]) (by rwa [batches_succ])
  rw [batches_succ] at hlater
  split
  · rename_i hk
    rwa [hk, Nat.mul_zero] at hlater
  · exact hlater

theorem Safe.of_shift (hagree : Agree l L commit)
    (h : Safe L l leader peer (start + maxAppendEntries)
      (leader.commitOnce peer (start + maxAppendEntries))) :
    Safe L l leader peer start commit := by
  intro k htake hlt
  cases k with
  | zero => exact hagree
  | succ k =>
    have hlater := h k (by rwa [← batches_succ]) (by rwa [← batches_succ])
    rw [batches_succ]
    split at hlater
    · rename_i hk
      rwa [hk, Nat.mul_zero]
    · exact hlater

/-- A batch that is not safe is held, and is not the last one. -/
theorem exists_of_not_safe (h : ¬Safe L l leader peer start commit) :
    l.take (start + maxAppendEntries) = L.take (start + maxAppendEntries) ∧
      start + maxAppendEntries < L.length := by
  unfold Safe at h
  push Not at h
  obtain ⟨k, htake, hlt, -⟩ := h
  exact ⟨take_eq_of_le htake (batch_le ..), (batch_le ..).trans_lt hlt⟩

/-- The leader has counted the acknowledgement that it starts with. -/
theorem Heeds.safe_iff {leader' : Raft} {p : Progress} (hheeds : Heeds leader leader' peer p)
    (hmatch : p.matchIndex = max (leader.matched peer) start)
    (hcommit : leader'.hardState.commitIndex = leader.commitOnce peer start) :
    Safe L l leader' peer start leader'.hardState.commitIndex ↔
      Safe L l leader peer start (leader.commitOnce peer start) := by
  have hlater := fun k => hheeds.commitOnce hmatch (Nat.le_add_right start (maxAppendEntries * k))
    (hcommit ▸ le_commitOnce _ _ _)
  unfold Safe
  simp only [hlater, hcommit]
  constructor <;> intro h k htake hlt
  · have hagree := h k htake hlt
    split
    · rwa [if_pos ‹_›] at hagree
    · rw [if_neg ‹_›] at hagree
      exact hagree.mono (Nat.le_max_right _ _)
  · have hfirst := h 0 (take_eq_of_le htake (batch_le ..)) ((batch_le ..).trans_lt hlt)
    have hagree := h k htake hlt
    split
    · exact hfirst
    · rw [if_neg ‹_›] at hagree
      exact hfirst.max hagree

/-- What a follower has committed after a batch agrees with the leader. -/
theorem committed_extended {leaderCommit m : Nat} (hcommitted : l.take commit = L.take commit)
    (hle : commit ≤ (Turn.extended l L m).length)
    (hagree : l.take m = L.take m → Agree l L leaderCommit) :
    (Turn.extended l L m).take (max commit (min leaderCommit (Turn.extended l L m).length)) =
      L.take (max commit (min leaderCommit (Turn.extended l L m).length)) := by
  by_cases htake : l.take m = L.take m
  · rw [Turn.extended, if_pos htake]
    rcases Nat.le_total commit (min leaderCommit l.length) with hmax | hmax
    · rw [Nat.max_eq_right hmax]
      exact hagree htake
    · rw [Nat.max_eq_left hmax]
      exact hcommitted
  · rw [Turn.extended, if_neg htake] at hle ⊢
    rw [List.length_take] at hle
    rw [List.take_take, List.length_take, Nat.min_eq_left (by omega)]

variable [Sha256] {p : Progress} {x : Exchange}

/-- The leader hands over its log from an index on where the logs agree. -/
structure Replicating (L l : List LogEntry) (p : Progress) (x : Exchange) : Prop
    extends Repairs L l p x where
  base_lt : x.leader.log.baseIndex < p.nextIndex
  followerBase_le : x.follower.log.baseIndex ≤ p.nextIndex - 1
  agree : l.take (p.nextIndex - 1) = L.take (p.nextIndex - 1)
  committed : l.take x.follower.hardState.commitIndex = L.take x.follower.hardState.commitIndex
  match_le : p.matchIndex ≤ L.length
  safe : Safe L l x.leader x.follower.id (p.nextIndex - 1) x.leader.hardState.commitIndex

omit [Sha256] in
theorem Caught.of_progress {y : Exchange} (hp : y.leader.progress[y.follower.id]? = some p)
    (hmatch : p.matchIndex = y.leader.log.lastIndex) : Caught y := by
  rw [Caught, hp, Option.map_some, hmatch]

/-- One batch. -/
theorem Replicating.round (h : Replicating L l p x) :
    Caught x.round ∨ ∃ l' p', Replicating L l' p' x.round ∧ p.nextIndex < p'.nextIndex := by
  have hmatch := h.match_le
  rcases h.toRepairs.held h.base_lt h.followerBase_le (termAt_congr h.agree (Nat.le_refl _)) with
    hbalks | ⟨htakes, ⟨hm, -⟩ | ⟨hm, hrepairs⟩⟩
  · obtain ⟨i, -, hi, hdiff⟩ := hbalks.differs
    exact absurd (termAt_congr h.committed hi) hdiff
  · refine .inl (.of_progress (htakes.stays.id ▸ htakes.heeds.progress) ?_)
    rw [htakes.heeds.reigns.log, h.leaderLog.lastIndex, hm]
    exact Nat.max_eq_right hmatch
  · right
    have hend := p.batchEnd_eq hm
    rw [hend] at hm hrepairs htakes
    have hnext : (p.past (p.nextIndex - 1 + maxAppendEntries)).nextIndex =
        p.nextIndex - 1 + maxAppendEntries + 1 := p.nextIndex_past (by omega)
    refine ⟨_, _, ⟨hrepairs, ?_, ?_, ?_, ?_, ?_, ?_⟩, ?_⟩
    · rw [htakes.heeds.reigns.log]
      exact h.base_lt.trans_le (Nat.le_max_left _ _)
    · rw [htakes.base, hnext]
      exact h.followerBase_le.trans (Nat.le_add_right _ _)
    · rw [hnext]
      exact take_extended ..
    · have hle := hrepairs.follower.commit_le
      rw [htakes.commit] at hle ⊢
      exact committed_extended h.committed (by omega) fun htake => h.safe 0 htake hm
    · exact Nat.max_le.mpr ⟨hmatch, hm.le⟩
    · rw [hnext, htakes.stays.id]
      exact .extended fun _ => (htakes.heeds.safe_iff (by rw [matched_eq h.progress]; rfl)
        htakes.leaderCommit).mpr h.safe.shift
    · rw [hnext]
      unfold maxAppendEntries
      omega

/-- Batch by batch the leader hands over all of it. -/
theorem Replicating.run {n : Nat} (h : Replicating L l p x) (hn : L.length + 1 - p.nextIndex ≤ n) :
    Within Exchange.round Caught (n + 1) x := by
  induction n generalizing l p x with
  | zero =>
    rcases h.round with hcaught | ⟨l', p', hnext, hlt⟩
    · exact .next (.now hcaught)
    · have hle := hnext.next_le
      omega
  | succ n ih =>
    rcases h.round with hcaught | ⟨l', p', hnext, hlt⟩
    · exact .next (.now hcaught)
    · exact .next (ih hnext (by omega))

theorem Replicating.catches (h : Replicating L l p x) :
    Within Exchange.round Caught (L.length + 1) x := by
  have hpos := h.next_pos
  exact h.run (by omega)

/-- Behind an acknowledged snapshot the logs agree. -/
theorem Repairs.replicating {y : Exchange} {l' : List LogEntry} (h : Repairs L l p x)
    (hnext : p.nextIndex ≤ x.leader.log.baseIndex) (hmatch : p.matchIndex ≤ L.length)
    (hpast : Past L l' p x y) (hbase : y.follower.log.baseIndex ≤ x.leader.log.baseIndex)
    (hagree : l'.take x.leader.log.baseIndex = L.take x.leader.log.baseIndex)
    (hcommitted : l'.take y.follower.hardState.commitIndex =
      L.take y.follower.hardState.commitIndex)
    (hsafe : SafeBehind L l' x.leader x.follower.id) :
    Replicating L l' (p.past x.leader.log.baseIndex) y := by
  have hstart := p.nextIndex_past (hnext.trans (Nat.le_succ _))
  refine ⟨hpast.toRepairs, ?_, ?_, ?_, hcommitted, ?_, ?_⟩
  · rw [hstart, hpast.heeds.reigns.log]
    exact Nat.lt_succ_self _
  · rw [hstart]
    exact hbase
  · rw [hstart]
    exact hagree
  · exact Nat.max_le.mpr ⟨hmatch, h.leaderLog.base_le⟩
  · rw [hstart, hpast.id]
    exact (hpast.heeds.safe_iff (by rw [matched_eq h.progress]; rfl) hpast.leaderCommit).mpr hsafe

/-- The rounds that a snapshot takes. -/
def snapshotRounds (leader : Raft) : Nat :=
  ((leader.snapshot.map (·.data.length)).getD 0 - 1) / snapshotChunkBytes + 1

/-- The leader sends its snapshot and then the log behind it. -/
theorem Repairs.sends (h : Repairs L l p x) (hnext : p.nextIndex ≤ x.leader.log.baseIndex)
    (hbase : x.follower.log.baseIndex ≤ x.leader.log.baseIndex)
    (hcommitted : l.take x.follower.hardState.commitIndex = L.take x.follower.hardState.commitIndex)
    (hmatch : p.matchIndex ≤ L.length) (hsafe : SafeBehind L l x.leader x.follower.id) :
    Within Exchange.round Caught (snapshotRounds x.leader + (L.length + 2)) x := by
  by_cases hneeded : x.follower.hardState.commitIndex < x.leader.log.baseIndex
  · obtain ⟨s, hs⟩ := h.provides (by omega)
    obtain ⟨chunks, hholding⟩ := hs.holding
    have hrounds : snapshotRounds x.leader = (s.data.length - 1) / snapshotChunkBytes + 1 := by
      rw [snapshotRounds, hs.snapshot]
      rfl
    have hfinishes := (h.transfers hnext hs hneeded).finishes hs.validate hholding
    rw [hrounds]
    refine Within.trans hfinishes fun y ⟨hcompletes, hwaits⟩ => ?_
    obtain ⟨hpast, hlogbase, hfollower⟩ := h.completes hs hneeded hwaits hcompletes
    have hagree := take_extended l L x.leader.log.baseIndex
    exact .next (Replicating.catches (h.replicating hnext hmatch hpast hlogbase.le hagree
      (hfollower ▸ hagree) (Safe.extended fun _ => hsafe)))
  · obtain ⟨hpast, hlog, hfollower⟩ := h.known hnext (by omega)
    have hagree := take_eq_of_le hcommitted (show x.leader.log.baseIndex ≤ _ by omega)
    have hreplicating :=
      h.replicating hnext hmatch hpast (hlog ▸ hbase) hagree (hfollower ▸ hcommitted) hsafe
    exact hreplicating.catches.next.mono (by omega)

/-- The leader goes back until the logs agree. -/
theorem Repairs.probes {n : Nat} (h : Repairs L l p x)
    (hapart : Apart l L (max p.nextIndex x.leader.log.baseIndex))
    (hcommitted : l.take x.follower.hardState.commitIndex = L.take x.follower.hardState.commitIndex)
    (hmatch : p.matchIndex ≤ L.length) (hn : p.nextIndex ≤ n) :
    Within Exchange.round Caught (n + (snapshotRounds x.leader + (L.length + 2))) x := by
  induction n generalizing p x with
  | zero =>
    have hpos := h.next_pos
    omega
  | succ n ih =>
    have hpos := h.next_pos
    have hle := h.next_le
    have hlt := h.base_lt hcommitted hapart
    by_cases hnext : p.nextIndex ≤ x.leader.log.baseIndex
    · rw [Nat.max_eq_right hnext] at hapart hlt
      have hsafe : Apart l L (x.leader.log.baseIndex + 1) :=
        fun i t hi => hapart i t (Nat.le_of_succ_le hi)
      exact (h.sends hnext hlt.le hcommitted hmatch (hsafe.safe _ _ _)).mono (by omega)
    · rw [Nat.max_eq_left (by omega)] at hapart hlt
      obtain ⟨prevTerm, hprev⟩ := termAt_isSome (show p.nextIndex - 1 ≤ L.length by omega)
      by_cases heq : termAt l (p.nextIndex - 1) = termAt L (p.nextIndex - 1)
      · have hsafe : Apart l L (p.nextIndex - 1 + 1) := by rwa [Nat.sub_add_cancel hpos]
        have hreplicating : Replicating L l p x := ⟨h, by omega, by omega,
          h.matching _ _ (heq.trans hprev) hprev, hcommitted, hmatch, hsafe.safe _ _ _⟩
        exact hreplicating.catches.mono (by omega)
      · obtain ⟨conflictIndex, conflictTerm, hrefusal, hrepairs, hreigns, hlog, hcommit⟩ :=
          h.refused (by omega) (.inr heq)
        have hpositive : 0 < p.nextIndex - 1 := by
          refine Nat.pos_of_ne_zero fun hzero => heq ?_
          rw [hzero, termAt_zero, termAt_zero]
        have hnextIndex :
            (p.afterAppend x.leader.log false 0 conflictIndex conflictTerm).nextIndex =
            min (Turn.retryIndex x.leader.log conflictIndex conflictTerm) (p.nextIndex - 1) := by
          unfold Progress.afterAppend
          simp only [Bool.false_eq_true, if_false]
          rw [Nat.max_eq_left hpositive]
        have hrounds : snapshotRounds x.round.leader = snapshotRounds x.leader := by
          rw [snapshotRounds, hreigns.snapshot]
          rfl
        rw [← hrounds, Nat.add_right_comm]
        refine .next (ih hrepairs ?_ (hcommit ▸ hcommitted) hmatch (by rw [hnextIndex]; omega))
        rw [hnextIndex, hreigns.log]
        exact hrefusal.apart h.follower.log h.leaderLog h.matching h.followerAscending
          h.leaderAscending (by omega) hprev (hprev ▸ heq)

end Replicate

section Never

variable [Sha256] {L : List LogEntry} {x : Exchange}

/-- Exchanges in which the leader never learns that the follower has its log. -/
inductive Hopeless (L : List LogEntry) (x : Exchange) : Prop
  /-- Nobody says anything anymore. -/
  | silent : x.message = none → ¬Caught x → Hopeless L x
  /-- The leader believes that the follower has more than there is. -/
  | ahead {l p} : Repairs L l p x → L.length < p.matchIndex → Hopeless L x
  /-- The follower has compacted what the leader would have to start with. -/
  | compacted {l p} : Repairs L l p x → p.matchIndex ≠ L.length →
    p.nextIndex ≤ x.follower.log.baseIndex →
    x.leader.log.baseIndex < x.follower.log.baseIndex → Hopeless L x
  /-- The follower has committed something that is not in the leader's log. -/
  | committed {l p} : Repairs L l p x → p.matchIndex ≠ L.length →
    x.leader.log.baseIndex < p.nextIndex → x.follower.log.baseIndex ≤ p.nextIndex - 1 →
    l.take (p.nextIndex - 1) = L.take (p.nextIndex - 1) →
    l.take x.follower.hardState.commitIndex ≠ L.take x.follower.hardState.commitIndex → Hopeless L x
  /-- The follower is going to do so. -/
  | overreaching {l p} : Repairs L l p x → p.matchIndex ≠ L.length →
    x.leader.log.baseIndex < p.nextIndex → x.follower.log.baseIndex ≤ p.nextIndex - 1 →
    ¬Safe L l x.leader x.follower.id (p.nextIndex - 1) x.leader.hardState.commitIndex → Hopeless L x
  /-- The follower is going to do so once it has the snapshot. -/
  | sending {l p} : Repairs L l p x → p.matchIndex ≠ L.length →
    p.nextIndex ≤ x.leader.log.baseIndex → x.follower.log.baseIndex ≤ x.leader.log.baseIndex →
    ¬SafeBehind L l x.leader x.follower.id → Hopeless L x

variable {l : List LogEntry} {p : Progress}

theorem Repairs.not_caught (h : Repairs L l p x) (hmatch : p.matchIndex ≠ L.length) :
    ¬Caught x := by
  unfold Caught
  rw [h.progress, Option.map_some, h.leaderLog.lastIndex, Option.some.injEq]
  exact hmatch

theorem Hopeless.not_caught (h : Hopeless L x) : ¬Caught x := by
  cases h with
  | silent _ hnot => exact hnot
  | ahead h hlt => exact h.not_caught hlt.ne'
  | compacted h hne | committed h hne | overreaching h hne | sending h hne => exact h.not_caught hne

section

variable (h : Repairs L l p x) (hmatch : p.matchIndex ≠ L.length)
include h hmatch

/-- A follower that did not answer. -/
theorem Hopeless.of_balks {index : Nat} (hbalks : Balks L l index x) : Hopeless L x.round := by
  refine .silent hbalks.message ?_
  have hnot := h.not_caught hmatch
  unfold Caught at hnot ⊢
  rwa [hbalks.leader, hbalks.id]

omit h hmatch in
theorem Hopeless.round_silent (hmessage : x.message = none) (hnot : ¬Caught x) :
    Hopeless L x.round := by
  have hround : x.round = x := by
    unfold Exchange.round Exchange.delivered
    rw [hmessage]
    dsimp only [sentTo]
    rw [← hmessage]
  rw [hround]
  exact .silent hmessage hnot

theorem Hopeless.round_compacted (hnext : p.nextIndex ≤ x.follower.log.baseIndex)
    (hbase : x.leader.log.baseIndex < x.follower.log.baseIndex) : Hopeless L x.round := by
  have hle := h.follower.base_le.trans h.follower.applied_le
  have hcommit := h.followerCommit_le
  rcases Nat.lt_or_ge x.leader.log.baseIndex p.nextIndex with hlt | hge
  · obtain ⟨conflictIndex, conflictTerm, -, hrepairs, hreigns, hlog, -⟩ :=
      h.refused hlt (.inl (by omega))
    refine .compacted hrepairs hmatch ?_ ?_
    · rw [hlog]
      unfold Progress.afterAppend
      simp only [Bool.false_eq_true, if_false]
      omega
    · rwa [hreigns.log, hlog]
  · obtain ⟨hpast, hlog, -⟩ := h.known hge (by omega)
    refine .compacted hpast.toRepairs ?_ ?_ ?_
    · unfold Progress.past
      dsimp only
      omega
    · rwa [hlog, p.nextIndex_past (hge.trans (Nat.le_succ _))]
    · rwa [hpast.heeds.reigns.log, hlog]

section

variable (hnext : x.leader.log.baseIndex < p.nextIndex)
  (hbase : x.follower.log.baseIndex ≤ p.nextIndex - 1)
include hnext hbase

theorem Hopeless.round_committed (htake : l.take (p.nextIndex - 1) = L.take (p.nextIndex - 1))
    (hne : l.take x.follower.hardState.commitIndex ≠ L.take x.follower.hardState.commitIndex) :
    Hopeless L x.round := by
  have hle := h.followerCommit_le
  rcases h.held hnext hbase (termAt_congr htake (Nat.le_refl _)) with
    hbalks | ⟨htakes, ⟨hm, -⟩ | ⟨hm, hrepairs⟩⟩
  · exact .of_balks h hmatch hbalks
  · have hcompared := htakes.compared
    rw [hm, Nat.min_eq_left hle] at hcompared
    exact absurd hcompared hne
  · -- the difference is behind the batch
    have hcompared := htakes.compared
    have hcommit := htakes.commit
    have hbeyond : p.batchEnd L < x.follower.hardState.commitIndex := by
      by_contra hwithin
      rw [Nat.min_eq_left (Nat.le_of_not_lt hwithin)] at hcompared
      exact hne hcompared
    have hend := p.batchEnd_eq hm
    have hindex : (p.past (p.batchEnd L)).nextIndex = p.batchEnd L + 1 :=
      p.nextIndex_past (by omega)
    rw [Nat.min_eq_right hbeyond.le] at hcompared
    rw [Turn.extended, if_pos hcompared] at hrepairs hcommit
    refine .committed hrepairs ?_ ?_ ?_ ?_ ?_
    · unfold Progress.past
      dsimp only
      omega
    · rw [htakes.heeds.reigns.log]
      exact hnext.trans_le (Nat.le_max_left _ _)
    · rw [htakes.base, hindex]
      omega
    · rwa [hindex]
    · rw [hcommit]
      exact fun heq => hne (take_eq_of_le heq (Nat.le_max_left _ _))

theorem Hopeless.round_overreaching
    (hrisky : ¬Safe L l x.leader x.follower.id (p.nextIndex - 1) x.leader.hardState.commitIndex) :
    Hopeless L x.round := by
  obtain ⟨htake, hlt⟩ := exists_of_not_safe hrisky
  have hstart := take_eq_of_le htake (Nat.le_add_right (p.nextIndex - 1) maxAppendEntries)
  have hm : p.batchEnd L = p.nextIndex - 1 + maxAppendEntries := Nat.min_eq_left hlt.le
  have hheld := h.held hnext hbase (termAt_congr hstart (Nat.le_refl _))
  rw [hm] at hheld
  rcases hheld with hbalks | ⟨htakes, ⟨hend, -⟩ | ⟨-, hrepairs⟩⟩
  · exact .of_balks h hmatch hbalks
  · omega
  · have hcommit := htakes.commit
    rw [Turn.extended, if_pos htake] at hrepairs hcommit
    have hindex : (p.past (p.nextIndex - 1 + maxAppendEntries)).nextIndex - 1 =
        p.nextIndex - 1 + maxAppendEntries := by rw [p.nextIndex_past (by omega)]; rfl
    have hmatch' : (p.past (p.nextIndex - 1 + maxAppendEntries)).matchIndex ≠ L.length := by
      unfold Progress.past
      dsimp only
      omega
    have hnext' : x.round.leader.log.baseIndex <
        (p.past (p.nextIndex - 1 + maxAppendEntries)).nextIndex := by
      rw [htakes.heeds.reigns.log]
      exact hnext.trans_le (Nat.le_max_left _ _)
    have hbase' : x.round.follower.log.baseIndex ≤
        (p.past (p.nextIndex - 1 + maxAppendEntries)).nextIndex - 1 := by
      rw [hindex, htakes.base]
      exact hbase.trans (Nat.le_add_right _ _)
    by_cases hsafe : Safe L l x.round.leader x.follower.id (p.nextIndex - 1 + maxAppendEntries)
        x.round.leader.hardState.commitIndex
    · -- only the commit index of this batch was not safe, and the follower took it over
      have hdisagree : ¬Agree l L x.leader.hardState.commitIndex := fun hagree =>
        hrisky (((htakes.heeds.safe_iff (by rw [matched_eq h.progress]; rfl)
          htakes.leaderCommit).mp hsafe).of_shift hagree)
      refine .committed hrepairs hmatch' hnext' hbase' (by rwa [hindex]) fun heq => hdisagree ?_
      rw [hcommit] at heq
      exact take_eq_of_le heq (Nat.le_max_right _ _)
    · exact .overreaching hrepairs hmatch' hnext' hbase' (by rwa [hindex, htakes.stays.id])

end

/-- A follower that is going to hold unsafe batches behind a snapshot. -/
theorem Hopeless.of_past {y : Exchange} (hnext : p.nextIndex ≤ x.leader.log.baseIndex)
    (hpast : Repairs.Past L l p x y) (hbase : y.follower.log.baseIndex ≤ x.leader.log.baseIndex)
    (hrisky : ¬SafeBehind L l x.leader x.follower.id) : Hopeless L y := by
  obtain ⟨-, hlt⟩ := exists_of_not_safe hrisky
  have hstart := p.nextIndex_past (hnext.trans (Nat.le_succ _))
  refine .overreaching hpast.toRepairs ?_ ?_ ?_ fun hsafe => hrisky ?_
  · unfold Progress.past
    dsimp only
    omega
  · rw [hstart, hpast.heeds.reigns.log]
    exact Nat.lt_succ_self _
  · rw [hstart]
    exact hbase
  · rw [hstart, hpast.id] at hsafe
    exact (hpast.heeds.safe_iff (by rw [matched_eq h.progress]; rfl) hpast.leaderCommit).mp hsafe

omit hmatch in
/-- A chunk: the leader hears that the follower has the snapshot, or the transfer goes on. -/
theorem Repairs.round_chunk (hnext : p.nextIndex ≤ x.leader.log.baseIndex) :
    (∃ l', Past L l' p x x.round ∧
      (l' = Turn.extended l L x.leader.log.baseIndex ∧
        x.round.follower.log.baseIndex = x.leader.log.baseIndex ∨
      l' = l ∧ x.round.follower.log = x.follower.log)) ∨
    Waits x x.round ∧ ∃ offset, Repairs L l { p with snapshotOffset := offset } x.round := by
  by_cases hneeded : x.follower.hardState.commitIndex < x.leader.log.baseIndex
  · obtain ⟨s, hs⟩ := h.provides (by omega)
    obtain ⟨chunks, hholding⟩ := hs.holding
    rcases (h.transfers hnext hs hneeded).step hs.validate hholding with hcompletes |
      ⟨hwaits, offset, chunks', htransfers, hholding'⟩
    · obtain ⟨hpast, hlogbase, -⟩ := h.completes hs hneeded (.refl x) hcompletes
      exact .inl ⟨_, hpast, .inl ⟨rfl, hlogbase⟩⟩
    · exact .inr ⟨hwaits, h.waits hs hwaits htransfers hholding'⟩
  · obtain ⟨hpast, hlog, -⟩ := h.known hnext (by omega)
    exact .inl ⟨l, hpast, .inr ⟨rfl, hlog⟩⟩

theorem Hopeless.round_sending (hnext : p.nextIndex ≤ x.leader.log.baseIndex)
    (hbase : x.follower.log.baseIndex ≤ x.leader.log.baseIndex)
    (hrisky : ¬SafeBehind L l x.leader x.follower.id) : Hopeless L x.round := by
  obtain ⟨htake, -⟩ := exists_of_not_safe hrisky
  rcases h.round_chunk hnext with
    ⟨l', hpast, ⟨rfl, hlogbase⟩ | ⟨rfl, hlog⟩⟩ | ⟨hwaits, offset, hrepairs⟩
  · rw [Turn.extended, if_pos (take_eq_of_le htake (Nat.le_add_right _ _))] at hpast
    exact .of_past h hmatch hnext hpast hlogbase.le hrisky
  · exact .of_past h hmatch hnext hpast (hlog ▸ hbase) hrisky
  · refine .sending hrepairs hmatch ?_ ?_ fun hsafe => hrisky ?_
    · rw [hwaits.reigns.log]
      exact hnext
    · rw [hwaits.log, hwaits.reigns.log]
      exact hbase
    · unfold SafeBehind Safe at hsafe ⊢
      simpa only [hwaits.id, hwaits.reigns.log, hwaits.commitOnce h.progress] using hsafe

end

theorem Hopeless.round_ahead (h : Repairs L l p x)
    (hahead : L.length < p.matchIndex) : Hopeless L x.round := by
  by_cases hnext : p.nextIndex ≤ x.leader.log.baseIndex
  · rcases h.round_chunk hnext with ⟨l', hpast, -⟩ | ⟨-, offset, hrepairs⟩
    · exact .ahead hpast.toRepairs (hahead.trans_le (Nat.le_max_left _ _))
    · exact .ahead hrepairs hahead
  · by_cases hheld : x.follower.log.baseIndex ≤ p.nextIndex - 1 ∧
        termAt l (p.nextIndex - 1) = termAt L (p.nextIndex - 1)
    · rcases h.held (by omega) hheld.1 hheld.2 with
        hbalks | ⟨htakes, ⟨-, hmessage⟩ | ⟨-, hrepairs⟩⟩
      · exact .of_balks h hahead.ne' hbalks
      · refine .silent hmessage ?_
        unfold Caught
        rw [htakes.stays.id, htakes.heeds.progress, htakes.heeds.reigns.log, h.leaderLog.lastIndex,
          Option.map_some, Option.some.injEq]
        exact (hahead.trans_le (Nat.le_max_left _ _)).ne'
      · exact .ahead hrepairs (hahead.trans_le (Nat.le_max_left _ _))
    · obtain ⟨conflictIndex, conflictTerm, -, hrepairs, -⟩ := h.refused (by omega) (by
        rw [not_and_or, Nat.not_le] at hheld
        exact hheld)
      exact .ahead hrepairs hahead

/-- There is no way out. -/
theorem Hopeless.round (h : Hopeless L x) : Hopeless L x.round := by
  cases h with
  | silent hmessage hnot => exact .round_silent hmessage hnot
  | ahead h hahead => exact .round_ahead h hahead
  | compacted h hmatch hnext hbase => exact .round_compacted h hmatch hnext hbase
  | committed h hmatch hnext hbase htake hne =>
    exact .round_committed h hmatch hnext hbase htake hne
  | overreaching h hmatch hnext hbase hrisky =>
    exact .round_overreaching h hmatch hnext hbase hrisky
  | sending h hmatch hnext hbase hrisky => exact .round_sending h hmatch hnext hbase hrisky

theorem Hopeless.never (h : Hopeless L x) (n : Nat) : ¬Caught (Exchange.round^[n] x) :=
  (keep (fun _ => Hopeless.round) h n).not_caught

end Never

section Main

variable [Sha256] {L l : List LogEntry} {p : Progress} {leader follower : Raft}

/-- The logs can be repaired: the leader's knowledge is not ahead of its log, the follower has not
compacted more than the leader starts with or has in its snapshot, and no batch that the follower
holds comes with a commit index beyond where the logs agree. -/
def Repairable (L l : List LogEntry) (p : Progress) (leader follower : Raft) : Prop :=
  p.matchIndex = L.length ∨
    p.matchIndex ≤ L.length ∧
    follower.log.baseIndex ≤ max leader.log.baseIndex (p.nextIndex - 1) ∧
    if p.nextIndex ≤ leader.log.baseIndex then SafeBehind L l leader follower.id
    else Safe L l leader follower.id (p.nextIndex - 1) leader.hardState.commitIndex

theorem Repairs.catches (h : Repairs L l p (.start leader follower))
    (hcommitted : l.take follower.hardState.commitIndex = L.take follower.hardState.commitIndex)
    (hrepairable : Repairable L l p leader follower) :
    Within Exchange.round Caught (2 * L.length + snapshotRounds leader + 3)
      (.start leader follower) := by
  have hle := h.next_le
  rcases hrepairable with hmatch | ⟨hmatch, hbase, hsafe⟩
  · exact .now (.of_progress h.progress (hmatch.trans h.leaderLog.lastIndex.symm))
  by_cases hnext : p.nextIndex ≤ leader.log.baseIndex
  · rw [if_pos hnext] at hsafe
    have hbelow : follower.log.baseIndex ≤ leader.log.baseIndex := by omega
    exact Within.mono (h.sends hnext hbelow hcommitted hmatch hsafe)
      (show snapshotRounds leader + (L.length + 2) ≤ _ by omega)
  · rw [if_neg hnext] at hsafe
    obtain ⟨prevTerm, hprev⟩ := termAt_isSome (show p.nextIndex - 1 ≤ L.length by omega)
    by_cases heq : termAt l (p.nextIndex - 1) = termAt L (p.nextIndex - 1)
    · have hreplicating : Replicating L l p (.start leader follower) :=
        ⟨h, Nat.lt_of_not_le hnext, show follower.log.baseIndex ≤ p.nextIndex - 1 by omega,
          h.matching _ _ (heq.trans hprev) hprev, hcommitted, hmatch, hsafe⟩
      exact hreplicating.catches.mono (by omega)
    · have hapart : Apart l L (p.nextIndex - 1) := h.matching.apart hprev (hprev ▸ heq)
      refine Within.mono (h.probes (fun i t hi => hapart i t ?_) hcommitted hmatch hle)
        (show L.length + 1 + (snapshotRounds leader + (L.length + 2)) ≤ _ by omega)
      omega

theorem Repairs.hopeless (h : Repairs L l p (.start leader follower))
    (hnot : ¬Repairable L l p leader follower) : Hopeless L (.start leader follower) := by
  unfold Repairable at hnot
  rw [not_or] at hnot
  obtain ⟨hmatch, hnot⟩ := hnot
  by_cases hahead : L.length < p.matchIndex
  · exact .ahead h hahead
  by_cases hbase : follower.log.baseIndex ≤ max leader.log.baseIndex (p.nextIndex - 1)
  · have hrisky := fun hsafe => hnot ⟨Nat.le_of_not_lt hahead, hbase, hsafe⟩
    by_cases hnext : p.nextIndex ≤ leader.log.baseIndex
    · rw [if_pos hnext] at hrisky
      exact .sending h hmatch hnext (show follower.log.baseIndex ≤ leader.log.baseIndex by omega)
        hrisky
    · rw [if_neg hnext] at hrisky
      exact .overreaching h hmatch (Nat.lt_of_not_le hnext)
        (show follower.log.baseIndex ≤ p.nextIndex - 1 by omega) hrisky
  · exact .compacted h hmatch (show p.nextIndex ≤ follower.log.baseIndex by omega)
      (show leader.log.baseIndex < follower.log.baseIndex by omega)

/-- A leader and a follower that only hear each other: the leader learns that the follower has its
log if and only if the logs can be repaired, and then after a number of rounds that is bounded by
the log and the snapshot. -/
theorem repaired_iff (h : Repairs L l p (.start leader follower))
    (hcommitted : l.take follower.hardState.commitIndex = L.take follower.hardState.commitIndex) :
    ((∃ n, Caught (Exchange.round^[n] (.start leader follower))) ↔
      Repairable L l p leader follower) ∧ (Repairable L l p leader follower →
        ∃ n ≤ 2 * L.length + snapshotRounds leader + 3,
          Caught (Exchange.round^[n] (.start leader follower))) := by
  refine ⟨⟨fun ⟨n, hcaught⟩ => ?_, fun hrepairable => ?_⟩, h.catches hcommitted⟩
  · by_contra hnot
    exact (h.hopeless hnot).never n hcaught
  · obtain ⟨n, -, hcaught⟩ := h.catches hcommitted hrepairable
    exact ⟨n, hcaught⟩

end Main

section Run

/-- Markers of term one. -/
def markers (n : Nat) : List LogEntry := (List.range n).map fun i => ⟨i + 1, 1, .noop⟩

theorem numbered_markers (n : Nat) : Numbered (markers n) := by
  intro i e he
  rw [markers, List.getElem?_map, Option.map_eq_some_iff] at he
  obtain ⟨j, hj, rfl⟩ := he
  rw [List.getElem?_eq_some_iff] at hj
  obtain ⟨_, rfl⟩ := hj
  simp

theorem termAt_markers {n i t : Nat} (h : termAt (markers n) i = some t) :
    t = if i = 0 then 0 else 1 := by
  cases i with
  | zero => simpa [termAt] using h.symm
  | succ i =>
    rw [termAt_succ, Option.map_eq_some_iff] at h
    obtain ⟨e, he, rfl⟩ := h
    rw [markers, List.getElem?_map, Option.map_eq_some_iff] at he
    obtain ⟨j, -, rfl⟩ := he
    rfl

theorem ascending_markers (n : Nat) : Ascending (markers n) := by
  intro i j t u hle ht hu
  rw [termAt_markers ht, termAt_markers hu]
  split <;> split <;> omega

/-- Node 1 leads with three markers, and takes node 2 to be at an index. -/
def leadingFrom (nextIndex : Nat) : Raft :=
  { nodeBehind 1 none (markers 3) with
    role := .leader
    progress := (∅ : ExtTreeMap NodeId Progress).insert 2 ⟨0, nextIndex, none⟩ }

/-- Node 2 keeps some of them. -/
theorem repairs_markers {snapshot : Option PersistentSnapshot} {entries : List LogEntry}
    {n nextIndex : Nat}
    (hkeeps : Keeps (nodeBehind 2 snapshot entries) (markers n)) (hn : n ≤ 3) (hpos : 0 < nextIndex)
    (hle : nextIndex ≤ 4) :
    @Repairs lengthHash (markers 3) (markers n) ⟨0, nextIndex, none⟩
      (.start (leadingFrom nextIndex) (nodeBehind 2 snapshot entries)) := by
  have hlength : ∀ n, (markers n).length = n := fun n => by simp [markers]
  have hcut : markers n = (markers 3).take n := by
    rw [markers, markers, ← List.map_take, List.take_range, Nat.min_eq_left hn]
  have hcommit := hkeeps.commit_le
  rw [hlength] at hcommit
  refine @Repairs.mk lengthHash _ _ _ _ ⟨⟨rfl, ?_, ?_, ?_, ?_⟩, ?_, hkeeps, ?_, ascending_markers 3,
    ascending_markers n, ?_, ExtTreeMap.getElem?_insert_self, hpos, hle, rfl⟩ (.inl rfl)
      (Nat.zero_le _) ?_
  · exact (by decide : (2 : NodeId) ≠ 1)
  · exact (by decide : twoVoters.contains 2 = true)
  · exact (by decide : twoVoters.contains 1 = true)
  · exact Nat.le_refl 1
  · exact ⟨Nat.zero_le _, rfl, rfl, numbered_markers 3⟩
  · rw [hcut]
    exact matching_take _ _
  · intro i t ht
    rw [termAt_markers ht]
    exact (by split <;> decide : (if i = 0 then 0 else 1) ≤ 1)
  · exact hcommit.trans hn

/-- Node 2 has the leader's log, compacted up to the second marker. -/
def compactedNode : Raft :=
  nodeBehind 2 (some (@PersistentSnapshot.new lengthHash 2 1 twoVoters [])) [⟨3, 1, .noop⟩]

/-- The leader starts with the first marker, and goes on with it for ever. -/
theorem repair_without_end :
    @Repairs lengthHash (markers 3) (markers 3) ⟨0, 1, none⟩
      (.start (leadingFrom 1) compactedNode) ∧
      compactedNode.log.Represents (leadingFrom 1).log.entries ∧
      ∀ n, ¬Caught ((@Exchange.round lengthHash)^[n] (.start (leadingFrom 1) compactedNode)) := by
  have hrepresents : compactedNode.log.Represents (markers 3) :=
    ⟨by decide, rfl, rfl, numbered_markers 3⟩
  have hrepairs : @Repairs lengthHash (markers 3) (markers 3) ⟨0, 1, none⟩
      (.start (leadingFrom 1) compactedNode) :=
    repairs_markers ⟨hrepresents, by decide, by decide, by decide⟩ (Nat.le_refl 3) (by decide)
      (by decide)
  exact ⟨hrepairs, hrepresents, @Hopeless.never lengthHash _ _
    (@Hopeless.compacted lengthHash _ _ _ _ hrepairs (by decide) (by decide) (by decide))⟩

/-- A follower without a log gets the leader's. -/
theorem repaired_markers :
    Repairable (markers 3) (markers 0) ⟨0, 4, none⟩ (leadingFrom 4) (nodeBehind 2 none []) ∧
      ∃ n ≤ 10, Caught
        ((@Exchange.round lengthHash)^[n] (.start (leadingFrom 4) (nodeBehind 2 none []))) := by
  have hkeeps : Keeps (nodeBehind 2 none []) (markers 0) :=
    ⟨⟨by decide, rfl, rfl, numbered_markers 0⟩, by decide, by decide, by decide⟩
  have hrepairs :
      @Repairs lengthHash (markers 3) (markers 0) ⟨0, 4, none⟩ (.start (leadingFrom 4) _) :=
    repairs_markers hkeeps (by decide) (by decide) (Nat.le_refl 4)
  have hrepairable :
      Repairable (markers 3) (markers 0) ⟨0, 4, none⟩ (leadingFrom 4) (nodeBehind 2 none []) := by
    refine .inr ⟨by decide, by decide, ?_⟩
    intro k _ hlt
    have hlength : (markers 3).length = 3 := rfl
    dsimp only at hlt
    omega
  exact ⟨hrepairable, (@repaired_iff lengthHash _ _ _ _ _ hrepairs rfl).2 hrepairable⟩

end Run

end AsterRaft
