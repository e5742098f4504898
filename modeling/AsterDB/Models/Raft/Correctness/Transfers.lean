import AsterDB.Models.Raft.Interpretation.Appends

/-!
# Snapshot transfers

A follower collects chunks of one snapshot at a time. Whatever chunks of valid snapshots
reach it in whatever order, it holds a whole number of chunks from the start of one of
them, and installs only complete ones. From any such state a leader and a follower that
hear each other finish the transfer.
-/

namespace AsterRaft

open Std Rounds

section Chunks

variable (s : PersistentSnapshot) (offset : Nat)

def chunkStart : Nat := min offset s.data.length

def chunkStop : Nat := min (chunkStart s offset + snapshotChunkBytes) s.data.length

def chunkData : Bytes := (s.data.take (chunkStop s offset)).drop (chunkStart s offset)

/-- The chunk of a snapshot from an offset on. -/
def chunk (term : Nat) (leaderId : NodeId) : Message :=
  .installSnapshot term leaderId s.metadata (chunkStart s offset) (chunkData s offset)
    (chunkStop s offset == s.data.length)

variable {s} {offset}

theorem sendSnapshotChunk_eq {t : Turn} (h : t.raft.snapshot = some s) (peer : NodeId)
    (offset : Nat) : t.sendSnapshotChunk peer offset =
      t.push (.send peer (chunk s offset t.raft.hardState.currentTerm t.raft.id)) := by
  unfold Turn.sendSnapshotChunk
  rw [h]
  rfl

theorem chunkStart_le_stop : chunkStart s offset ≤ chunkStop s offset := by
  unfold chunkStop chunkStart
  omega

theorem chunkStop_le : chunkStop s offset ≤ s.data.length := Nat.min_le_right ..

theorem length_chunkData :
    (chunkData s offset).length = chunkStop s offset - chunkStart s offset := by
  unfold chunkData
  rw [List.length_drop, List.length_take, Nat.min_eq_left chunkStop_le]

theorem chunkStart_add_length :
    chunkStart s offset + (chunkData s offset).length = chunkStop s offset := by
  rw [length_chunkData]
  exact Nat.add_sub_cancel' chunkStart_le_stop

/-- A chunk behind the bytes before it. -/
theorem take_append_chunkData :
    s.data.take (chunkStart s offset) ++ chunkData s offset = s.data.take (chunkStop s offset) := by
  have htake : s.data.take (chunkStart s offset) =
      (s.data.take (chunkStop s offset)).take (chunkStart s offset) := by
    rw [List.take_take, Nat.min_eq_left chunkStart_le_stop]
  rw [htake]
  exact List.take_append_drop ..

end Chunks

namespace Turn

variable [Sha256] {s : PersistentSnapshot} {offset : Nat} {t : Turn} {i : IncomingSnapshot}
  {sender : NodeId}

section Receive

/-- The chunk is put to the transfer in progress. -/
def receive (t : Turn) (sender : NodeId) (i : IncomingSnapshot) (s : PersistentSnapshot)
    (offset : Nat) : Turn :=
  t.receiveChunk sender i (chunkStart s offset) (chunkData s offset)
    (chunkStop s offset == s.data.length)

/-- The next chunk of a snapshot was appended, and a complete snapshot installed. -/
def received (t : Turn) (sender : NodeId) (s : PersistentSnapshot) (offset : Nat) : Turn :=
  if chunkStop s offset < s.data.length then
    (t.modify fun r => { r with
      incomingSnapshot := some ⟨s.metadata, s.data.take (chunkStop s offset)⟩ }).snapshotReply
        sender true (chunkStop s offset) false 0
  else
    ((t.modify fun r => { r with incomingSnapshot := none }).installSnapshot s).snapshotReply sender
      true s.data.length true s.metadata.lastIncludedIndex

variable {held : Nat} (hle : held ≤ s.data.length) (hdata : i.data = s.data.take held)

include hle hdata

omit [Sha256] in
theorem length_held : i.data.length = held := by rw [hdata, List.length_take, Nat.min_eq_left hle]

/-- A chunk that starts in the bytes held changes nothing; it is accepted if it ends in them. -/
theorem receive_of_lt (h : chunkStart s offset < held) : t.receive sender i s offset =
    t.snapshotReply sender (decide (chunkStop s offset ≤ held)) held false 0 := by
  have hmatches : (chunkStop s offset ≤ held ∧
      (i.data.take (chunkStop s offset)).drop (chunkStart s offset) = chunkData s offset) ↔
      chunkStop s offset ≤ held := by
    refine and_iff_left_of_imp fun hstop => ?_
    rw [hdata, List.take_take, Nat.min_eq_left hstop, chunkData]
  unfold receive receiveChunk
  rw [length_held hle hdata, if_pos h, chunkStart_add_length]
  simp only [hmatches]

/-- A chunk that starts behind them is refused. -/
theorem receive_of_gt (h : held < chunkStart s offset) :
    t.receive sender i s offset = t.snapshotReply sender false held false 0 := by
  unfold receive receiveChunk
  rw [length_held hle hdata, if_neg (by omega), if_pos (.inl (by omega))]

variable (hmetadata : i.metadata = s.metadata) (hvalid : s.validate = true)

include hmetadata hvalid

theorem receive_of_eq (h : chunkStart s offset = held) :
    t.receive sender i s offset = t.received sender s offset := by
  simp only [PersistentSnapshot.validate, Bool.and_eq_true, beq_iff_eq] at hvalid
  have hreceived : i.data ++ chunkData s offset = s.data.take (chunkStop s offset) := by
    rw [hdata, ← h, take_append_chunkData]
  have hstop : chunkStop s offset ≤ s.data.length := chunkStop_le
  unfold receive receiveChunk received
  dsimp only
  rw [length_held hle hdata, if_neg (by omega), hmetadata, hreceived, ← h, chunkStart_add_length,
    hvalid.1, if_neg (by omega)]
  by_cases hless : chunkStop s offset < s.data.length
  · have hdone : (chunkStop s offset == s.data.length) = false := beq_eq_false_iff_ne.mpr hless.ne
    rw [if_pos hless, hdone, List.length_take, Nat.min_eq_left hstop]
    rfl
  · have hend : chunkStop s offset = s.data.length := by omega
    rw [hend, List.take_length, hvalid.2]
    simp [modify]

end Receive

section Handle

/-- What a node makes of a chunk. -/
def onChunk (t : Turn) (sender : NodeId) (term : Nat) (leaderId : NodeId) (s : PersistentSnapshot)
    (offset : Nat) : Turn :=
  t.onInstallSnapshot sender term leaderId s.metadata (chunkStart s offset) (chunkData s offset)
    (chunkStop s offset == s.data.length)

variable {term : Nat}

/-- A snapshot that a node takes chunks of: it has the node's configuration and at most
`maxSnapshotBytes` (512 MiB) of data, and goes beyond what the node has applied. A valid snapshot
that is larger or has another configuration is refused. -/
structure Takes (r : Raft) (s : PersistentSnapshot) : Prop where
  configuration : s.metadata.configuration = r.configuration
  byteLen : s.metadata.byteLen ≤ maxSnapshotBytes
  newer : r.appliedIndex < s.metadata.lastIncludedIndex

/-- The transfer in progress is one of the snapshot. -/
def holds (r : Raft) (s : PersistentSnapshot) : Bool :=
  r.incomingSnapshot.any fun i => i.metadata = s.metadata

omit [Sha256] in
theorem holds_eq_true {r : Raft} :
    holds r s = true ↔ ∃ i, r.incomingSnapshot = some i ∧ i.metadata = s.metadata := by
  simp [holds, Option.any_eq_true]

variable (hterm : t.raft.hardState.currentTerm ≤ term) (htakes : Takes t.raft s)

include hterm htakes

theorem onChunk_eq : t.onChunk sender term sender s offset =
    let u :=
      if chunkStart s offset = 0 ∧ !holds t.raft s then
        (t.heard sender term).modify fun r => { r with incomingSnapshot := some ⟨s.metadata, []⟩ }
      else t.heard sender term
    match u.raft.incomingSnapshot with
    | none => u.snapshotReply sender false 0 false 0
    | some incoming =>
      if incoming.metadata ≠ s.metadata then u.snapshotReply sender false 0 false 0
      else u.receive sender incoming s offset := by
  have hfollows := t.follows_heard sender term
  have hindex := htakes.newer
  unfold onChunk onInstallSnapshot holds
  rw [if_neg (not_not.mpr rfl), if_neg (by omega)]
  rewrite [← heard, if_neg, hfollows.appliedIndex, if_neg (by omega), hfollows.incomingSnapshot]
  · rfl
  · rw [hfollows.configuration]
    rintro (h | h | h)
    · exact h htakes.configuration
    · exact absurd h htakes.byteLen.not_gt
    · omega

/-- A chunk of the transfer in progress. -/
theorem onChunk_of_some (h : t.raft.incomingSnapshot = some i)
    (hmetadata : i.metadata = s.metadata) :
    t.onChunk sender term sender s offset = (t.heard sender term).receive sender i s offset := by
  have hholds : holds t.raft s = true := by simp [holds, h, hmetadata]
  have hincoming := (t.follows_heard sender term).incomingSnapshot.trans h
  rw [onChunk_eq hterm htakes]
  dsimp only
  rw [if_neg (by simp [hholds]), hincoming]
  exact if_neg (not_not.mpr hmetadata)

/-- The first chunk of a transfer. -/
theorem onChunk_of_zero (h : holds t.raft s = false) (hoffset : chunkStart s offset = 0) :
    t.onChunk sender term sender s offset = ((t.heard sender term).modify fun r =>
      { r with incomingSnapshot := some ⟨s.metadata, []⟩ }).receive sender ⟨s.metadata, []⟩
        s offset := by
  rw [onChunk_eq hterm htakes]
  rw [if_pos (by simp [h, hoffset])]
  exact if_neg (not_not.mpr rfl)

/-- A later chunk of another transfer. -/
theorem onChunk_of_pos (h : holds t.raft s = false) (hoffset : chunkStart s offset ≠ 0) :
    t.onChunk sender term sender s offset =
      (t.heard sender term).snapshotReply sender false 0 false 0 := by
  rw [onChunk_eq hterm htakes]
  dsimp only
  rw [if_neg (by simp [hoffset]), (t.follows_heard sender term).incomingSnapshot]
  cases hincoming : t.raft.incomingSnapshot with
  | none => rfl
  | some i => exact if_pos (by simpa [holds, hincoming] using h)

omit htakes in
/-- A chunk of a snapshot that brings nothing new. -/
theorem onChunk_applied (hconfiguration : s.metadata.configuration = t.raft.configuration)
    (hbyteLen : s.metadata.byteLen ≤ maxSnapshotBytes) (hindex : 0 < s.metadata.lastIncludedIndex)
    (happlied : s.metadata.lastIncludedIndex ≤ t.raft.appliedIndex) :
    t.onChunk sender term sender s offset =
      (t.heard sender term).snapshotReply sender true s.metadata.byteLen true
        s.metadata.lastIncludedIndex := by
  have hfollows := t.follows_heard sender term
  unfold onChunk onInstallSnapshot
  rw [if_neg (not_not.mpr rfl), if_neg (by omega)]
  rw [← heard, if_neg, hfollows.appliedIndex, if_pos happlied]
  rw [hfollows.configuration]
  rintro (h | h | h)
  · exact h hconfiguration
  · omega
  · omega

end Handle

omit [Sha256] in
theorem installed_snapshotReply (t : Turn) (receiver : NodeId) (accepted : Bool) (nextOffset : Nat)
    (done : Bool) (matchIndex : Nat) :
    installed (t.snapshotReply receiver accepted nextOffset done matchIndex).actions =
      installed t.actions :=
  (installed_append t.actions _).trans (List.append_nil _)

/-- A chunk that is not taken empties the buffer or leaves it alone. -/
theorem onChunk_idle {term : Nat} {leaderId : NodeId}
    (h : ¬(leaderId = sender ∧ t.raft.hardState.currentTerm ≤ term ∧ Takes t.raft s))
    (offset : Nat) :
    ((t.onChunk sender term leaderId s offset).raft.incomingSnapshot = none ∨
      (t.onChunk sender term leaderId s offset).raft.incomingSnapshot =
        t.raft.incomingSnapshot) ∧
      installed (t.onChunk sender term leaderId s offset).actions = installed t.actions := by
  have hfollows := t.follows_heard sender term
  have hinstalled := (t.continues_heard sender term).installed
  unfold onChunk onInstallSnapshot
  split
  · exact ⟨.inr rfl, rfl⟩
  rename_i hsender
  split
  · exact ⟨.inr rfl, installed_snapshotReply _ _ _ _ _ _⟩
  rename_i hterm
  dsimp only
  rw [← heard]
  split
  · exact ⟨.inl rfl, (installed_snapshotReply _ _ _ _ _ _).trans hinstalled⟩
  rename_i hgood
  split
  · exact ⟨.inr hfollows.incomingSnapshot, (installed_snapshotReply _ _ _ _ _ _).trans hinstalled⟩
  rename_i hnewer
  rw [hfollows.configuration, not_or, not_not] at hgood
  rw [hfollows.appliedIndex] at hnewer
  exact absurd ⟨not_not.mp hsender, by omega, hgood.1, by omega, by omega⟩ h

end Turn

/-- Whole chunks from the start of a snapshot, and not all of it. -/
structure Partial (s : PersistentSnapshot) (i : IncomingSnapshot) (chunks : Nat) : Prop where
  metadata : i.metadata = s.metadata
  pos : 0 < chunks
  lt : chunks * snapshotChunkBytes < s.data.length
  data : i.data = s.data.take (chunks * snapshotChunkBytes)

/-- The transfer in progress is one of a snapshot. -/
def Buffered (snapshots : PersistentSnapshot → Prop) (r : Raft) : Prop :=
  ∀ i, r.incomingSnapshot = some i → ∃ s chunks, snapshots s ∧ Partial s i chunks

section Delivery

variable {snapshots : PersistentSnapshot → Prop} {s : PersistentSnapshot} {offset : Nat} {t : Turn}
  {sender : NodeId}

theorem chunkStop_eq {chunks : Nat} (hstart : chunkStart s offset = chunks * snapshotChunkBytes)
    (hstop : chunkStop s offset < s.data.length) :
    chunkStop s offset = (chunks + 1) * snapshotChunkBytes := by
  unfold chunkStop at hstop ⊢
  rw [Nat.add_mul, Nat.one_mul]
  omega

/-- A turn that leaves whole chunks in the buffer and installs nothing but one snapshot. -/
def Buffers (snapshots : PersistentSnapshot → Prop) (s : PersistentSnapshot) (t u : Turn) : Prop :=
  Buffered snapshots u.raft ∧
    ∀ snapshot ∈ installed u.actions, snapshot ∈ installed t.actions ∨ snapshot = s

/-- What the next chunk makes of the buffer. -/
theorem buffered_received {chunks : Nat} (hs : snapshots s)
    (hstart : chunkStart s offset = chunks * snapshotChunkBytes) :
    Buffers snapshots s t (t.received sender s offset) := by
  unfold Turn.received
  split
  · rename_i hstop
    refine ⟨fun i hi => ⟨s, chunks + 1, hs, ?_⟩, fun snapshot hmem => .inl ?_⟩
    · cases hi
      have heq := chunkStop_eq hstart hstop
      exact ⟨rfl, Nat.succ_pos _, heq ▸ hstop, congrArg s.data.take heq⟩
    · rwa [Turn.installed_snapshotReply] at hmem
  · refine ⟨nofun, fun snapshot hmem => ?_⟩
    rw [Turn.installed_snapshotReply, Turn.installSnapshot, Turn.push, installed_append,
      List.mem_append] at hmem
    exact hmem.imp id fun h => List.mem_singleton.mp h

variable [Sha256]

/-- Snapshots with the length and the hash that their metadata says, and no collision among them. -/
structure ValidSnapshots (snapshots : PersistentSnapshot → Prop) : Prop where
  validate : ∀ s, snapshots s → s.validate = true
  collision : ∀ s s', snapshots s → snapshots s' →
    Sha256.digest s.data = Sha256.digest s'.data → s.data = s'.data

theorem validate_new (lastIncludedIndex lastIncludedTerm : Nat) (configuration : Configuration)
    (data : Bytes) :
    (PersistentSnapshot.new lastIncludedIndex lastIncludedTerm configuration data).validate =
      true := by
  simp [PersistentSnapshot.validate, PersistentSnapshot.new]

/-- Metadata belong to one of them. -/
theorem ValidSnapshots.eq (h : ValidSnapshots snapshots) {s s' : PersistentSnapshot}
    (hs : snapshots s) (hs' : snapshots s') (heq : s.metadata = s'.metadata) : s = s' := by
  have hvalid := h.validate s hs
  have hvalid' := h.validate s' hs'
  simp only [PersistentSnapshot.validate, Bool.and_eq_true, beq_iff_eq] at hvalid hvalid'
  have hdata := h.collision s s' hs hs' (by rw [← hvalid.2, ← hvalid'.2, heq])
  cases s
  cases s'
  cases heq
  cases hdata
  rfl

variable (hsnapshots : ValidSnapshots snapshots) (hs : snapshots s)

include hsnapshots hs

/-- A chunk of a valid snapshot leaves whole chunks in the buffer and installs nothing else. -/
theorem buffered_onChunk {term : Nat} {leaderId : NodeId} (hb : Buffered snapshots t.raft) :
    Buffers snapshots s t (t.onChunk sender term leaderId s offset) := by
  by_cases htaken : leaderId = sender ∧ t.raft.hardState.currentTerm ≤ term ∧ Turn.Takes t.raft s
  · obtain ⟨rfl, hterm, htakes⟩ := htaken
    have hheard := (t.continues_heard leaderId term).installed
    have hincoming := (t.follows_heard leaderId term).incomingSnapshot
    have hvalid := hsnapshots.validate s hs
    have hkept : ∀ accepted nextOffset, Buffers snapshots s (t.heard leaderId term)
        ((t.heard leaderId term).snapshotReply leaderId accepted nextOffset false 0) := by
      intro accepted nextOffset
      refine ⟨fun i hi => hb i (hincoming ▸ hi), fun snapshot hmem => .inl ?_⟩
      rwa [Turn.installed_snapshotReply] at hmem
    rw [Buffers, ← hheard, ← Buffers]
    by_cases hholds : Turn.holds t.raft s = true
    · obtain ⟨i, hi, hmetadata⟩ := Turn.holds_eq_true.mp hholds
      obtain ⟨s', chunks, hs', hheld⟩ := hb i hi
      cases hsnapshots.eq hs' hs (hheld.metadata.symm.trans hmetadata)
      rw [Turn.onChunk_of_some hterm htakes hi hmetadata]
      rcases Nat.lt_trichotomy (chunkStart s offset) (chunks * snapshotChunkBytes) with
        hlt | heq | hgt
      · rw [Turn.receive_of_lt hheld.lt.le hheld.data hlt]
        exact hkept _ _
      · rw [Turn.receive_of_eq hheld.lt.le hheld.data hmetadata hvalid heq]
        exact buffered_received hs heq
      · rw [Turn.receive_of_gt hheld.lt.le hheld.data hgt]
        exact hkept _ _
    · rw [Bool.not_eq_true] at hholds
      by_cases hzero : chunkStart s offset = 0
      · rw [Turn.onChunk_of_zero hterm htakes hholds hzero,
          Turn.receive_of_eq (Nat.zero_le _) rfl rfl hvalid hzero]
        exact buffered_received hs (hzero.trans (Nat.zero_mul _).symm)
      · rw [Turn.onChunk_of_pos hterm htakes hholds hzero]
        exact hkept _ _
  · obtain ⟨hincoming, hinstalled⟩ := Turn.onChunk_idle htaken offset
    refine ⟨fun i hi => ?_, fun snapshot hmem => .inl (hinstalled ▸ hmem)⟩
    rcases hincoming with hnone | hsame
    · rw [hnone] at hi
      cases hi
    · exact hb i (hsame ▸ hi)

theorem buffered_step {r : Raft} (hb : Buffered snapshots r) (sender : NodeId) (term : Nat)
    (leaderId : NodeId) :
    Buffered snapshots (r.step (.message sender (chunk s offset term leaderId))).1 ∧
      ∀ snapshot ∈ installed (r.step (.message sender (chunk s offset term leaderId))).2,
        snapshot = s := by
  obtain ⟨applied, happlied, -, -, hcontinues⟩ := Turn.applyCommitted_spec ⟨r, []⟩
  have hinstalled : installed (Turn.applyCommitted ⟨r, []⟩).actions = [] := hcontinues.installed
  have hreplayed : Buffered snapshots (Turn.applyCommitted ⟨r, []⟩).raft := by
    rw [happlied]
    exact hb
  unfold Raft.step chunk
  dsimp only
  generalize Turn.applyCommitted ⟨r, []⟩ = t at hinstalled hreplayed ⊢
  unfold Turn.onMessage
  split
  · refine ⟨hreplayed, fun snapshot hmem => ?_⟩
    rw [hinstalled] at hmem
    cases hmem
  · obtain ⟨hbuffered, hall⟩ := buffered_onChunk hsnapshots hs hreplayed
    refine ⟨hbuffered, fun snapshot hmem => (hall snapshot hmem).resolve_left fun hbefore => ?_⟩
    rw [hinstalled] at hbefore
    cases hbefore

end Delivery

/-- A message that `sendSnapshotChunk` sends for a snapshot. -/
def SentFor (s : PersistentSnapshot) (message : Message) : Prop :=
  ∃ (t : Turn) (peer : NodeId) (offset : Nat), t.raft.snapshot = some s ∧
    (t.sendSnapshotChunk peer offset).actions = t.actions ++ [.send peer message]

theorem SentFor.eq_chunk {s : PersistentSnapshot} {message : Message} (h : SentFor s message) :
    ∃ offset term leaderId, message = chunk s offset term leaderId := by
  obtain ⟨t, peer, offset, hsnapshot, hactions⟩ := h
  rw [sendSnapshotChunk_eq hsnapshot] at hactions
  have hlast := List.append_cancel_left hactions
  simp only [List.cons.injEq, Action.send.injEq, true_and, and_true] at hlast
  exact ⟨offset, _, _, hlast.symm⟩

/-- Nodes after chunks of some snapshots reached them, in any order and from anybody, and anything
else happened that leaves the buffer alone. -/
inductive Receiving [Sha256] (snapshots : PersistentSnapshot → Prop) : Raft → Prop
  | start {r : Raft} : r.incomingSnapshot = none → Receiving snapshots r
  | deliver {r : Raft} {s : PersistentSnapshot} {message : Message} (sender : NodeId) :
    Receiving snapshots r → snapshots s → SentFor s message →
    Receiving snapshots (r.step (.message sender message)).1
  | other {r r' : Raft} : Receiving snapshots r → r'.incomingSnapshot = r.incomingSnapshot →
    Receiving snapshots r'

theorem Receiving.buffered [Sha256] {snapshots : PersistentSnapshot → Prop}
    (hsnapshots : ValidSnapshots snapshots) {r : Raft} (h : Receiving snapshots r) :
    Buffered snapshots r := by
  induction h with
  | start hnone =>
    intro i hi
    rw [hnone] at hi
    cases hi
  | deliver sender _ hs hsent ih =>
    obtain ⟨offset, term, leaderId, rfl⟩ := hsent.eq_chunk
    exact (buffered_step hsnapshots hs ih sender term leaderId).1
  | other _ hsame ih => exact fun i hi => ih i (hsame ▸ hi)

section Exchange

variable [Sha256] {s : PersistentSnapshot} {x : Exchange} {offset : Nat}

/-- The leader transfers a snapshot, from an offset on, that the follower takes. -/
structure Transfers (s : PersistentSnapshot) (x : Exchange) (offset : Nat) : Prop where
  linked : Linked x.leader x.follower
  snapshot : x.leader.snapshot = some s
  progress : ∃ p, x.leader.progress[x.follower.id]? = some p ∧
    p.nextIndex ≤ x.leader.log.baseIndex ∧ p.snapshotOffset.getD 0 = offset
  takes : Turn.Takes x.follower.replayed s
  message : x.message = x.leader.messageFor x.follower.id

variable {r : Raft}

omit [Sha256] in
theorem messageFor_chunk {peer : NodeId} {p : Progress} (hp : r.progress[peer]? = some p)
    (hnext : p.nextIndex ≤ r.log.baseIndex) (hsnapshot : r.snapshot = some s) :
    r.messageFor peer = some (chunk s (p.snapshotOffset.getD 0) r.hardState.currentTerm r.id) := by
  unfold Raft.messageFor Turn.sendAppend
  rw [hp]
  dsimp only
  rw [if_pos hnext, sendSnapshotChunk_eq (t := ⟨r, []⟩) hsnapshot]
  simp [Turn.push, sentTo]

/-- What the follower makes of a chunk of the leader. -/
def offered (s : PersistentSnapshot) (x : Exchange) (offset : Nat) : Turn :=
  (Turn.applyCommitted ⟨x.follower, []⟩).onChunk x.leader.id x.leader.hardState.currentTerm
    x.leader.id s offset

theorem delivered_chunk {p : Progress} (hlinked : Linked x.leader x.follower)
    (hsnapshot : x.leader.snapshot = some s) (hp : x.leader.progress[x.follower.id]? = some p)
    (hnext : p.nextIndex ≤ x.leader.log.baseIndex)
    (hmessage : x.message = x.leader.messageFor x.follower.id)
    (hoffset : p.snapshotOffset.getD 0 = offset) :
    x.delivered = ((offered s x offset).raft, (offered s x offset).actions) := by
  obtain ⟨applied, happlied, -⟩ := Turn.applyCommitted_spec ⟨x.follower, []⟩
  unfold Exchange.delivered
  rw [hmessage, messageFor_chunk hp hnext hsnapshot, hoffset]
  unfold Raft.step chunk Turn.onMessage
  dsimp only
  rw [happlied]
  rw [if_neg]
  · rfl
  · simpa [hlinked.followerKnows] using hlinked.ne.symm

theorem Transfers.delivered (h : Transfers s x offset) :
    x.delivered = ((offered s x offset).raft, (offered s x offset).actions) := by
  obtain ⟨p, hp, hnext, hoffset⟩ := h.progress
  exact delivered_chunk h.linked h.snapshot hp hnext h.message hoffset

/-- A transfer went on, and nothing else happened. -/
structure Waits (x y : Exchange) : Prop where
  reigns : Reigns x.leader y.leader
  commitIndex : y.leader.hardState.commitIndex = x.leader.hardState.commitIndex
  progress : ∀ p, x.leader.progress[x.follower.id]? = some p →
    ∃ offset, y.leader.progress[x.follower.id]? = some { p with snapshotOffset := offset }
  others : ∀ voter, voter ≠ x.follower.id → y.leader.progress[voter]? = x.leader.progress[voter]?
  id : y.follower.id = x.follower.id
  configuration : y.follower.configuration = x.follower.configuration
  log : y.follower.log = x.follower.log
  followerCommit : y.follower.hardState.commitIndex = x.follower.hardState.commitIndex
  keeps : ∀ l, Keeps x.follower l → Keeps y.follower l

omit [Sha256] in
theorem Waits.refl (x : Exchange) : Waits x x :=
  ⟨⟨rfl, rfl, rfl, rfl, rfl, rfl⟩, rfl, fun p hp => ⟨p.snapshotOffset, hp⟩, fun _ _ => rfl, rfl,
    rfl, rfl, rfl, fun _ h => h⟩

omit [Sha256] in
theorem Waits.trans {y z : Exchange} (h : Waits x y) (h' : Waits y z) : Waits x z where
  reigns := h.reigns.trans h'.reigns
  commitIndex := h'.commitIndex.trans h.commitIndex
  progress p hp := by
    obtain ⟨offset, hy⟩ := h.progress p hp
    obtain ⟨offset', hz⟩ := h'.progress _ (h.id ▸ hy)
    exact ⟨offset', h.id ▸ hz⟩
  others voter hne := (h'.others voter (h.id ▸ hne)).trans (h.others voter hne)
  id := h'.id.trans h.id
  configuration := h'.configuration.trans h.configuration
  log := h'.log.trans h.log
  followerCommit := h'.followerCommit.trans h.followerCommit
  keeps l hl := h'.keeps l (h.keeps l hl)

/-- A reply that leaves the transfer open. -/
theorem Transfers.reply (h : Transfers s x offset) {incoming : Option IncomingSnapshot}
    {accepted : Bool} {nextOffset : Nat}
    (hu : offered s x offset =
      (heardWith x incoming).snapshotReply x.leader.id accepted nextOffset false 0) :
    Transfers s x.round (if accepted then nextOffset else 0) ∧
      x.round.follower.incomingSnapshot = incoming ∧ Waits x x.round := by
  obtain ⟨p, hp, hnext, -⟩ := h.progress
  have hdelivered := h.delivered
  rw [hu] at hdelivered
  obtain ⟨hinternal, hhears⟩ := heardWith_spec h.linked incoming
  have hsent : sentTo x.leader.id x.delivered.2 = some (.installSnapshotResponse
      x.leader.hardState.currentTerm accepted nextOffset false 0) := by
    rw [hdelivered, ← hhears.currentTerm]
    exact sentTo_last hinternal
  obtain ⟨⟨hreigns, hprogress, hothers⟩, hleader, hfollower, hmessage⟩ :=
    Exchange.round_snapshotResponse h.linked hp hsent
  replace hfollower : x.round.follower = (heardWith x incoming).raft := by
    rw [hfollower, hdelivered]; rfl
  have hincoming : x.round.follower.incomingSnapshot = incoming := by rw [hfollower]; rfl
  rw [← hfollower] at hhears
  -- the replay before the next chunk finds nothing to do
  have hreplayed : x.round.follower.replayed = x.round.follower := by
    have hsettled : Turn.Settled ⟨x.round.follower, []⟩ := by
      have hbefore := Turn.settled_applyCommitted ⟨x.follower, []⟩
      obtain ⟨applied, hraft, -⟩ := Turn.applyCommitted_spec ⟨x.follower, []⟩
      unfold Turn.Settled at hbefore ⊢
      rw [hhears.commitIndex, hhears.log, hhears.appliedIndex]
      unfold Raft.replayed
      rw [hraft] at hbefore ⊢
      exact hbefore
    exact hsettled.applyCommitted
  refine ⟨⟨?_, hreigns.snapshot.trans h.snapshot,
    ⟨p.afterSnapshot accepted nextOffset false 0, ?_, ?_, ?_⟩,
    ⟨?_, h.takes.byteLen, ?_⟩, hhears.id ▸ hmessage⟩, hincoming, ⟨hreigns, hleader, ?_, hothers,
    hhears.id, hhears.configuration, hhears.log, hhears.commitIndex, fun l hl => hl.hears hhears⟩⟩
  · exact h.linked.next hreigns hhears.id hhears.configuration hhears.currentTerm.le
  · exact hhears.id ▸ hprogress
  · exact hreigns.log ▸ hnext
  · simp [Progress.afterSnapshot]
  · rw [hreplayed, hhears.configuration]
    obtain ⟨applied, hraft, -⟩ := Turn.applyCommitted_spec ⟨x.follower, []⟩
    have hsame := h.takes.configuration
    unfold Raft.replayed at hsame
    rwa [hraft] at hsame
  · rw [hreplayed, hhears.appliedIndex]
    exact h.takes.newer
  · intro q hq
    rw [hp, Option.some.injEq] at hq
    subst hq
    exact ⟨some (if accepted then nextOffset else 0),
      hprogress.trans (by simp [Progress.afterSnapshot])⟩

/-- The whole chunks of the snapshot that a node holds; none if it is not receiving it. -/
def Holding (s : PersistentSnapshot) (r : Raft) (chunks : Nat) : Prop :=
  (chunks = 0 ∧ Turn.holds r s = false) ∨ ∃ i, r.incomingSnapshot = some i ∧ Partial s i chunks

variable {chunks : Nat}

omit [Sha256] in
theorem Holding.congr {r' : Raft} (h : Holding s r chunks)
    (heq : r'.incomingSnapshot = r.incomingSnapshot) : Holding s r' chunks := by
  unfold Holding Turn.holds at h ⊢
  rwa [heq]

omit [Sha256] in
theorem Holding.le (h : Holding s r chunks) :
    chunks ≤ (s.data.length - 1) / snapshotChunkBytes := by
  rcases h with ⟨rfl, -⟩ | ⟨i, -, hheld⟩
  · exact Nat.zero_le _
  · have hlt := hheld.lt
    exact (Nat.le_div_iff_mul_le (by decide)).mpr (by omega)

omit [Sha256] in
theorem holds_applyCommitted (r : Raft) :
    Turn.holds (Turn.applyCommitted ⟨r, []⟩).raft s = Turn.holds r s := by
  unfold Turn.holds
  rw [incomingSnapshot_applyCommitted]

omit [Sha256] in
theorem Transfers.term_le (h : Transfers s x offset) :
    (Turn.applyCommitted ⟨x.follower, []⟩).raft.hardState.currentTerm ≤
      x.leader.hardState.currentTerm := by
  obtain ⟨applied, happlied, -⟩ := Turn.applyCommitted_spec ⟨x.follower, []⟩
  rw [happlied]
  exact h.linked.term

/-- The chunk on its way completes the snapshot. -/
def Completes (s : PersistentSnapshot) (x : Exchange) : Prop :=
  ∃ offset incoming, Transfers s x offset ∧ offered s x offset =
    (((heardWith x incoming).modify fun r => { r with incomingSnapshot := none }).installSnapshot
      s).snapshotReply x.leader.id true s.data.length true s.metadata.lastIncludedIndex

theorem Completes.mem_installed (h : Completes s x) : s ∈ installed x.delivered.2 := by
  obtain ⟨offset, incoming, htransfers, hu⟩ := h
  rw [htransfers.delivered, hu, Turn.installed_snapshotReply, Turn.installSnapshot, Turn.push,
    installed_append]
  exact List.mem_append_right _ (List.mem_singleton.mpr rfl)

section

variable (h : Transfers s x offset) (hvalid : s.validate = true)
  (hholding : Holding s x.follower chunks)
include h hvalid hholding

/-- The next chunk is kept, or completes the snapshot. -/
theorem Transfers.advance (hstart : chunkStart s offset = chunks * snapshotChunkBytes) :
    Completes s x ∨ (chunks + 1) * snapshotChunkBytes < s.data.length ∧
        Transfers s x.round ((chunks + 1) * snapshotChunkBytes) ∧
        Holding s x.round.follower (chunks + 1) ∧ Waits x x.round := by
  have hu :
      ∃ incoming, offered s x offset = (heardWith x incoming).received x.leader.id s offset := by
    rcases hholding with ⟨rfl, hholds⟩ | ⟨i, hi, hheld⟩
    · refine ⟨some ⟨s.metadata, []⟩, ?_⟩
      rw [← holds_applyCommitted] at hholds
      rw [Nat.zero_mul] at hstart
      rw [offered, Turn.onChunk_of_zero h.term_le h.takes hholds hstart]
      exact Turn.receive_of_eq (Nat.zero_le _) rfl rfl hvalid hstart
    · refine ⟨x.follower.incomingSnapshot, ?_⟩
      rw [heardWith_same, offered, Turn.onChunk_of_some h.term_le h.takes
        ((incomingSnapshot_applyCommitted _).trans hi) hheld.metadata]
      exact Turn.receive_of_eq hheld.lt.le hheld.data hheld.metadata hvalid hstart
  obtain ⟨incoming, hu⟩ := hu
  unfold Turn.received at hu
  split at hu
  · rename_i hstop
    have hmore := chunkStop_eq hstart hstop
    obtain ⟨htransfers, hincoming, hwaits⟩ := h.reply hu
    rw [hmore] at hstop htransfers hincoming
    exact .inr ⟨hstop, htransfers, .inr ⟨_, hincoming, rfl, Nat.succ_pos _, hstop, rfl⟩, hwaits⟩
  · exact .inl ⟨offset, incoming, h, hu⟩

omit hvalid in
/-- Any other chunk brings the leader to where the follower is, or back to the start. -/
theorem Transfers.realign (hstart : chunkStart s offset ≠ chunks * snapshotChunkBytes) :
    Holding s x.round.follower chunks ∧ Waits x x.round ∧
    (Transfers s x.round (chunks * snapshotChunkBytes) ∨ Transfers s x.round 0 ∧ 0 < offset) := by
  rcases hholding with ⟨rfl, hholds⟩ | ⟨i, hi, hheld⟩
  · rw [← holds_applyCommitted] at hholds
    have hu : offered s x offset = _ :=
      Turn.onChunk_of_pos h.term_le h.takes hholds (Nat.zero_mul _ ▸ hstart)
    rw [← Exchange.heard, ← heardWith_same] at hu
    obtain ⟨htransfers, hincoming, hwaits⟩ := h.reply hu
    rw [holds_applyCommitted] at hholds
    exact ⟨.congr (.inl ⟨rfl, hholds⟩) hincoming, hwaits, .inl htransfers⟩
  · have hu : offered s x offset = _ := Turn.onChunk_of_some h.term_le h.takes
      ((incomingSnapshot_applyCommitted _).trans hi) hheld.metadata
    rw [← Exchange.heard, ← heardWith_same] at hu
    rcases Nat.lt_or_gt_of_ne hstart with hlt | hgt
    · rw [Turn.receive_of_lt hheld.lt.le hheld.data hlt] at hu
      obtain ⟨htransfers, hincoming, hwaits⟩ := h.reply hu
      refine ⟨.congr (.inr ⟨i, hi, hheld⟩) hincoming, hwaits, ?_⟩
      by_cases hstop : chunkStop s offset ≤ chunks * snapshotChunkBytes
      · exact .inl (by simpa [hstop] using htransfers)
      · refine .inr ⟨by simpa [hstop] using htransfers, Nat.pos_of_ne_zero ?_⟩
        -- the first chunk ends in what is held
        rintro rfl
        have hpos := Nat.mul_le_mul_right snapshotChunkBytes hheld.pos
        unfold chunkStop chunkStart at hstop
        omega
    · rw [Turn.receive_of_gt hheld.lt.le hheld.data hgt] at hu
      obtain ⟨htransfers, hincoming, hwaits⟩ := h.reply hu
      refine ⟨.congr (.inr ⟨i, hi, hheld⟩) hincoming, hwaits, .inr ⟨htransfers, ?_⟩⟩
      unfold chunkStart at hgt
      omega

/-- A chunk completes the snapshot, or the transfer goes on. -/
theorem Transfers.step :
    Completes s x ∨ Waits x x.round ∧
      ∃ offset' chunks', Transfers s x.round offset' ∧ Holding s x.round.follower chunks' := by
  by_cases hstart : chunkStart s offset = chunks * snapshotChunkBytes
  · rcases h.advance hvalid hholding hstart with hcompletes | ⟨-, htransfers, hholding', hwaits⟩
    · exact .inl hcompletes
    · exact .inr ⟨hwaits, _, _, htransfers, hholding'⟩
  · obtain ⟨hholding', hwaits, haligned | ⟨hzero, -⟩⟩ := h.realign hholding hstart
    · exact .inr ⟨hwaits, _, _, haligned, hholding'⟩
    · exact .inr ⟨hwaits, _, _, hzero, hholding'⟩

/-- A transfer that is completed in the end. -/
def Finishes (s : PersistentSnapshot) (n : Nat) (x : Exchange) : Prop :=
  Within Exchange.round (fun y => Completes s y ∧ Waits x y) n x

omit h hvalid hholding in
theorem Finishes.next {n : Nat} (h : Finishes s n x.round) (hwaits : Waits x x.round) :
    Finishes s (n + 1) x :=
  Within.next (h.imp fun _ hy => ⟨hy.1, hwaits.trans hy.2⟩)

/-- Leader and follower are at the same chunk: the rest follows chunk by chunk. -/
theorem Transfers.finish (hstart : chunkStart s offset = chunks * snapshotChunkBytes) :
    Finishes s ((s.data.length - 1) / snapshotChunkBytes - chunks) x := by
  generalize hn : (s.data.length - 1) / snapshotChunkBytes - chunks = n
  induction n generalizing x offset chunks with
  | zero =>
    rcases h.advance hvalid hholding hstart with hcompletes | ⟨-, -, hholding', -⟩
    · exact .now ⟨hcompletes, .refl x⟩
    · have hle := hholding'.le
      omega
  | succ n ih =>
    rcases h.advance hvalid hholding hstart with hcompletes | ⟨hlt, htransfers, hholding', hwaits⟩
    · exact .now ⟨hcompletes, .refl x⟩
    · exact .next (ih htransfers hholding' (Nat.min_eq_left hlt.le) (by omega)) hwaits

omit h in
/-- The leader is where the follower is. -/
theorem Transfers.finish_aligned (h : Transfers s x (chunks * snapshotChunkBytes)) :
    Finishes s ((s.data.length - 1) / snapshotChunkBytes - chunks) x := by
  refine h.finish hvalid hholding (Nat.min_eq_left ?_)
  rcases hholding with ⟨rfl, -⟩ | ⟨i, -, hheld⟩
  · exact Nat.zero_le _
  · exact hheld.lt.le

omit h in
/-- The leader is at the start. -/
theorem Transfers.finish_zero (h : Transfers s x 0) :
    Finishes s ((s.data.length - 1) / snapshotChunkBytes) x := by
  by_cases hstart : chunkStart s 0 = chunks * snapshotChunkBytes
  · exact Within.mono (h.finish hvalid hholding hstart) (Nat.sub_le _ _)
  · obtain ⟨hholding', hwaits, htransfers⟩ := h.realign hholding hstart
    have haligned := htransfers.resolve_right fun hzero => Nat.lt_irrefl 0 hzero.2
    have hpos : chunks ≠ 0 := by
      rintro rfl
      exact hstart (by simp [chunkStart])
    have hle := hholding.le
    exact Within.mono ((haligned.finish_aligned hvalid hholding').next hwaits) (by omega)

/-- Wherever they are, the snapshot is completed. -/
theorem Transfers.finishes : Finishes s ((s.data.length - 1) / snapshotChunkBytes + 1) x := by
  by_cases hstart : chunkStart s offset = chunks * snapshotChunkBytes
  · exact Within.mono (h.finish hvalid hholding hstart) ((Nat.sub_le _ _).trans (Nat.le_succ _))
  · obtain ⟨hholding', hwaits, haligned | ⟨hzero, -⟩⟩ := h.realign hholding hstart
    · exact Within.mono ((haligned.finish_aligned hvalid hholding').next hwaits)
        (Nat.succ_le_succ (Nat.sub_le _ _))
    · exact (hzero.finish_zero hvalid hholding').next hwaits

end

end Exchange

section Main

variable [Sha256] {snapshots : PersistentSnapshot → Prop} {r : Raft}

omit [Sha256] in
theorem Buffered.isPrefix (h : Buffered snapshots r) {i : IncomingSnapshot}
    (hi : r.incomingSnapshot = some i) :
    ∃ s, snapshots s ∧ i.metadata = s.metadata ∧ i.data <+: s.data := by
  obtain ⟨s, chunks, hs, hheld⟩ := h i hi
  exact ⟨s, hs, hheld.metadata, hheld.data ▸ List.take_prefix ..⟩

theorem Buffered.holding (hsnapshots : ValidSnapshots snapshots) (h : Buffered snapshots r)
    {s : PersistentSnapshot} (hs : snapshots s) : ∃ chunks, Holding s r chunks := by
  by_cases hholds : Turn.holds r s = true
  · obtain ⟨i, hi, hmetadata⟩ := Turn.holds_eq_true.mp hholds
    obtain ⟨s', chunks, hs', hheld⟩ := h i hi
    cases hsnapshots.eq hs' hs (hheld.metadata.symm.trans hmetadata)
    exact ⟨chunks, .inr ⟨i, hi, hheld⟩⟩
  · exact ⟨0, .inl ⟨rfl, Bool.not_eq_true _ ▸ hholds⟩⟩

/-- Chunks of valid snapshots in any order leave the start of one of them in the buffer, and install
only the snapshot they are of; and from wherever they left it, a leader and a follower that hear
each other finish the transfer of a snapshot that the follower takes, which has at most 512 MiB and
the follower's configuration. -/
theorem chunked_transfer (hsnapshots : ValidSnapshots snapshots) (h : Receiving snapshots r) :
    (∀ i, r.incomingSnapshot = some i →
      ∃ s, snapshots s ∧ i.metadata = s.metadata ∧ i.data <+: s.data) ∧
    (∀ s message sender snapshot retainedEntries hardState, snapshots s → SentFor s message →
      .persist (.installSnapshot snapshot retainedEntries hardState) ∈
        (r.step (.message sender message)).2 → snapshot = s) ∧
    ∀ s leader p, snapshots s → leader.snapshot = some s → Linked leader r →
      leader.progress[r.id]? = some p → p.nextIndex ≤ leader.log.baseIndex →
      Turn.Takes r.replayed s →
      ∃ n < 2 + (s.data.length + snapshotChunkBytes - 1) / snapshotChunkBytes + 1,
        ∃ retainedEntries hardState, .persist (.installSnapshot s retainedEntries hardState) ∈
          (Exchange.round^[n] (.start leader r)).delivered.2 := by
  have hbuffered := h.buffered hsnapshots
  refine ⟨fun i hi => hbuffered.isPrefix hi, ?_, ?_⟩
  · intro s message sender snapshot retainedEntries hardState hs hsent hmem
    obtain ⟨offset, term, leaderId, rfl⟩ := hsent.eq_chunk
    exact (buffered_step hsnapshots hs hbuffered sender term leaderId).2 snapshot
      (mem_installed.mpr ⟨_, _, hmem⟩)
  · intro s leader p hs hsnapshot hlinked hp hnext htakes
    obtain ⟨chunks, hholding⟩ := hbuffered.holding hsnapshots hs
    have htransfers : Transfers s (.start leader r) (p.snapshotOffset.getD 0) :=
      ⟨hlinked, hsnapshot, ⟨p, hp, hnext, rfl⟩, htakes, rfl⟩
    obtain ⟨n, hn, hcompletes, -⟩ := htransfers.finishes (hsnapshots.validate s hs) hholding
    have hceil : (s.data.length - 1) / snapshotChunkBytes ≤
        (s.data.length + snapshotChunkBytes - 1) / snapshotChunkBytes :=
          Nat.div_le_div_right (by omega)
    exact ⟨n, by omega, mem_installed.mp hcompletes.mem_installed⟩

end Main

section Run

/-- A placeholder for SHA-256. -/
@[reducible] def lengthHash : Sha256 := ⟨fun data => Vector.replicate 32 (.ofNat data.length)⟩

def twoVoters : Configuration where
  participants := ExtTreeSet.ofList [1, 2]
  incoming := ExtTreeSet.ofList [1, 2]
  outgoing := none

/-- A node of term one whose log starts behind a snapshot. -/
def nodeBehind (id : NodeId) (snapshot : Option PersistentSnapshot) (entries : List LogEntry) :
    Raft where
  id := id
  configuration := twoVoters
  hardState :=
    { currentTerm := 1, votedFor := none, commitIndex := (RaftLog.new snapshot entries).baseIndex }
  log := .new snapshot entries
  snapshot := snapshot
  appliedIndex := (RaftLog.new snapshot entries).baseIndex
  role := .follower
  leaderId := none
  campaignTerm := none
  votes := ∅
  progress := ∅
  recentActive := ∅
  pendingReads := ∅
  incomingSnapshot := none

/-- Three chunks up to index seven. -/
def threeChunks : PersistentSnapshot :=
  @PersistentSnapshot.new lengthHash 7 1 twoVoters (List.replicate 40000 0)

/-- Node 1 leads, and believes that node 2 has two chunks. -/
def sending : Raft :=
  { nodeBehind 1 (some threeChunks) [] with
    role := .leader
    progress := (∅ : ExtTreeMap NodeId Progress).insert 2 ⟨0, 1, some 32768⟩ }

/-- Node 2 has none of them, and still gets the snapshot. -/
theorem chunked_transfer_threeChunks :
    ∃ n < 6, ∃ retainedEntries hardState,
      .persist (.installSnapshot threeChunks retainedEntries hardState) ∈
        (@Exchange.delivered lengthHash ((@Exchange.round lengthHash)^[n]
          (.start sending (nodeBehind 2 none [])))).2 := by
  have hvalid : @ValidSnapshots lengthHash (· = threeChunks) := by
    refine @ValidSnapshots.mk lengthHash _ ?_ ?_
    · rintro s rfl
      exact @validate_new lengthHash 7 1 twoVoters _
    · rintro s s' rfl rfl -
      rfl
  have hreceiving : @Receiving lengthHash (· = threeChunks) (nodeBehind 2 none []) :=
    @Receiving.start lengthHash _ _ rfl
  have hlinked : Linked sending (nodeBehind 2 none []) :=
    ⟨rfl, by decide, by decide, by decide, by decide⟩
  have hp : sending.progress[(nodeBehind 2 none []).id]? = some ⟨0, 1, some 32768⟩ :=
    ExtTreeMap.getElem?_insert_self
  have htakes : Turn.Takes (nodeBehind 2 none []).replayed threeChunks := by
    refine ⟨rfl, ?_, by decide⟩
    have hbyteLen : threeChunks.metadata.byteLen = 40000 := List.length_replicate
    rw [hbyteLen]
    decide
  obtain ⟨n, hn, hinstalled⟩ := (@chunked_transfer lengthHash _ _ hvalid hreceiving).2.2 threeChunks
    sending _ rfl rfl hlinked hp (by decide) htakes
  have hlength : threeChunks.data.length = 40000 := List.length_replicate
  rw [hlength] at hn
  exact ⟨n, hn, hinstalled⟩

end Run

end AsterRaft
