import AsterDB.Core.Rounds
import AsterDB.Models.Raft.Native.Exchange
import AsterDB.Models.Raft.Interpretation.Election

/-!
# Steps of an exchange

What the handlers of both sides leave alone, and the one message each of them sends.
-/

namespace AsterRaft

open Std

theorem sentTo_append (receiver : NodeId) (actions more : List Action) :
    sentTo receiver (actions ++ more) = (sentTo receiver actions).or (sentTo receiver more) := by
  induction actions with
  | nil => rfl
  | cons a rest ih =>
    cases a with
    | send other message =>
      simp only [List.cons_append, sentTo]
      split
      · rfl
      · exact ih
    | _ => exact ih

variable {actions : List Action} {receiver : NodeId}

theorem sentTo_internal
    (h : ∀ a ∈ actions, a.internal = true) : sentTo receiver actions = none := by
  induction actions with
  | nil => rfl
  | cons a rest ih =>
    rw [List.forall_mem_cons] at h
    cases a with
    | send other message => cases h.1
    | _ => exact ih h.2

/-- The message behind internal actions. -/
theorem sentTo_last {message : Message} (h : ∀ a ∈ actions, a.internal = true) :
    sentTo receiver (actions ++ [.send receiver message]) = some message := by
  rw [sentTo_append, sentTo_internal h]
  simp [sentTo]

/-- The snapshots that actions install. -/
def installed (actions : List Action) : List PersistentSnapshot :=
  actions.filterMap fun
    | .persist (.installSnapshot snapshot _ _) => some snapshot
    | _ => none

theorem mem_installed {snapshot : PersistentSnapshot} :
    snapshot ∈ installed actions ↔
      ∃ retainedEntries hardState,
        .persist (.installSnapshot snapshot retainedEntries hardState) ∈ actions := by
  unfold installed
  rw [List.mem_filterMap]
  constructor
  · rintro ⟨a, ha, hsome⟩
    split at hsome
    · cases hsome
      exact ⟨_, _, ha⟩
    · cases hsome
  · rintro ⟨retainedEntries, hardState, ha⟩
    exact ⟨_, ha, rfl⟩

theorem installed_append (actions more : List Action) :
    installed (actions ++ more) = installed actions ++ installed more := List.filterMap_append

theorem installed_internal (h : ∀ a ∈ actions, a.internal = true) : installed actions = [] := by
  refine List.filterMap_eq_nil_iff.mpr fun a ha => ?_
  have hinternal := h a ha
  split
  · cases hinternal
  · rfl

/-- A node after the replay of committed entries that every step begins with. -/
def Raft.replayed (r : Raft) : Raft := (Turn.applyCommitted { raft := r, actions := [] }).raft

namespace Turn

/-- A turn went on with internal actions only. -/
def Continues (t t' : Turn) : Prop :=
  ∃ more, t'.actions = t.actions ++ more ∧ ∀ a ∈ more, a.internal = true

namespace Continues

variable {t t' t'' : Turn}

theorem refl (t : Turn) : t.Continues t := ⟨[], (List.append_nil _).symm, nofun⟩

variable (h : t.Continues t')
include h

theorem trans (h' : t'.Continues t'') : t.Continues t'' := by
  obtain ⟨more, hmore, hinternal⟩ := h
  obtain ⟨more', hmore', hinternal'⟩ := h'
  refine ⟨more ++ more', by rw [hmore', hmore, List.append_assoc], fun a ha => ?_⟩
  rcases List.mem_append.mp ha with ha | ha
  · exact hinternal a ha
  · exact hinternal' a ha

theorem push {a : Action} (ha : a.internal = true) : t.Continues (t'.push a) :=
  h.trans ⟨[a], rfl, fun _ hb => List.mem_singleton.mp hb ▸ ha⟩

theorem modify (f : Raft → Raft) : t.Continues (t'.modify f) := h

/-- What is internal at first stays so. -/
theorem internal (ht : ∀ a ∈ t.actions, a.internal = true) :
    ∀ a ∈ t'.actions, a.internal = true := by
  obtain ⟨more, hmore, hinternal⟩ := h
  intro a ha
  rw [hmore] at ha
  rcases List.mem_append.mp ha with ha | ha
  · exact ht a ha
  · exact hinternal a ha

theorem installed : installed t'.actions = AsterRaft.installed t.actions := by
  obtain ⟨more, hmore, hinternal⟩ := h
  rw [hmore, installed_append, installed_internal hinternal, List.append_nil]

end Continues

/-- The entry loop moves the applied index only, up to the commit index. -/
theorem applyCommittedLoop_spec (fuel : Nat) (t : Turn) : ∃ applied,
    (t.applyCommittedLoop fuel).raft = { t.raft with appliedIndex := applied } ∧
      t.raft.appliedIndex ≤ applied ∧
      applied ≤ max t.raft.appliedIndex t.raft.hardState.commitIndex ∧
      t.Continues (t.applyCommittedLoop fuel) := by
  induction fuel generalizing t with
  | zero => exact ⟨t.raft.appliedIndex, rfl, Nat.le_refl _, Nat.le_max_left .., .refl t⟩
  | succ fuel ih =>
    unfold applyCommittedLoop
    dsimp only
    split
    · rename_i hlt
      split
      · exact ⟨t.raft.appliedIndex, rfl, Nat.le_refl _, Nat.le_max_left ..,
          (Continues.refl t).push rfl⟩
      · rename_i entry _
        generalize hu :
            (if ((t.modify fun r => { r with appliedIndex := t.raft.appliedIndex + 1 }).push
              (.apply entry)).raft.role = .leader then _ else _ : Turn) = u
        have hraft : u.raft = { t.raft with appliedIndex := t.raft.appliedIndex + 1 } := by
          rw [← hu]
          split
          · split <;> rfl
          · rfl
        have hcontinues : t.Continues u := by
          rw [← hu]
          have hstart : t.Continues ((t.modify fun r =>
              { r with appliedIndex := t.raft.appliedIndex + 1 }).push (.apply entry)) :=
            ((Continues.refl t).modify _).push rfl
          split
          · split
            · exact hstart.push rfl
            · exact hstart
          · exact hstart
        obtain ⟨applied, happlied, hle, hmax, hrest⟩ := ih u
        rw [hraft] at happlied hle hmax
        dsimp only at hle hmax
        exact ⟨applied, happlied, by omega, by omega, hcontinues.trans hrest⟩
    · exact ⟨t.raft.appliedIndex, rfl, Nat.le_refl _, Nat.le_max_left .., .refl t⟩

theorem applyCommitted_spec (t : Turn) : ∃ applied,
    t.applyCommitted.raft = { t.raft with appliedIndex := applied } ∧
      t.raft.appliedIndex ≤ applied ∧
      applied ≤ max t.raft.appliedIndex t.raft.hardState.commitIndex ∧
      t.Continues t.applyCommitted :=
  applyCommittedLoop_spec _ t

/-- Nothing is left to apply, or the next entry is missing. -/
def Settled (t : Turn) : Prop :=
  t.raft.hardState.commitIndex ≤ t.raft.appliedIndex ∨ t.raft.log.entry (t.raft.appliedIndex + 1) =
    none

theorem settled_applyCommittedLoop (fuel : Nat) (t : Turn)
    (hfuel : t.raft.hardState.commitIndex - t.raft.appliedIndex ≤ fuel) :
    (t.applyCommittedLoop fuel).Settled := by
  induction fuel generalizing t with
  | zero => exact .inl (Nat.le_of_sub_eq_zero (Nat.le_zero.mp hfuel))
  | succ fuel ih =>
    unfold applyCommittedLoop
    dsimp only
    split
    · split
      · rename_i hnone
        exact .inr hnone
      · refine ih _ ?_
        split
        · split <;> simp only [push, modify] <;> omega
        · simp only [push, modify]
          omega
    · rename_i hle
      exact .inl (by omega)

theorem settled_applyCommitted (t : Turn) : t.applyCommitted.Settled :=
  settled_applyCommittedLoop _ t (Nat.le_refl _)

theorem Settled.applyCommitted {t : Turn} (h : t.Settled) : t.applyCommitted.raft = t.raft := by
  unfold Turn.applyCommitted
  generalize t.raft.hardState.commitIndex - t.raft.appliedIndex = fuel
  cases fuel with
  | zero => rfl
  | succ fuel =>
    unfold applyCommittedLoop
    dsimp only
    split
    · rename_i hlt
      rw [h.resolve_left (by omega)]
      rfl
    · rfl

/-- Committing moves the commit and the applied index only. -/
theorem setCommit_spec (t : Turn) (newCommit : Nat) :
    t.raft.Advances (t.setCommit newCommit).raft ∧ t.Continues (t.setCommit newCommit) ∧
      (t.setCommit newCommit).raft.hardState.commitIndex =
        if t.raft.hardState.commitIndex < newCommit ∧
        newCommit ≤ t.raft.log.lastIndex then newCommit else t.raft.hardState.commitIndex := by
  unfold setCommit
  split
  · exact ⟨.refl _, .refl t, (if_neg (by omega)).symm⟩
  split
  · exact ⟨.refl _, (Continues.refl t).push rfl, (if_neg (by omega)).symm⟩
  · obtain ⟨applied, happlied, -, -, hcontinues⟩ := applyCommitted_spec
      (t.modify fun r =>
        { r with hardState := { r.hardState with commitIndex := newCommit } }).persistHardState
    refine ⟨⟨newCommit, applied, happlied⟩, (((Continues.refl t).modify _).push rfl).trans
      hcontinues, ?_⟩
    rw [if_pos (by omega)]
    exact congrArg (·.hardState.commitIndex) happlied

theorem advanceLeaderCommit_spec (t : Turn) (hrole : t.raft.role = .leader) :
    t.raft.Advances t.advanceLeaderCommit.raft ∧ t.Continues t.advanceLeaderCommit ∧
      t.advanceLeaderCommit.raft.hardState.commitIndex =
        if t.raft.hardState.commitIndex < t.quorumIndex ∧ t.quorumIndex ≤ t.raft.log.lastIndex ∧
          t.raft.log.term t.quorumIndex = some t.raft.hardState.currentTerm then t.quorumIndex
        else t.raft.hardState.commitIndex := by
  unfold advanceLeaderCommit
  rw [if_neg (not_not.mpr hrole)]
  split
  · rename_i hcounts
    obtain ⟨hadvances, hcontinues, hcommit⟩ := setCommit_spec t t.quorumIndex
    refine ⟨hadvances, hcontinues, hcommit.trans ?_⟩
    simp only [hcounts, true_and, and_true]
  · rename_i hcounts
    exact ⟨.refl _, .refl t, (if_neg fun h => hcounts ⟨h.1, h.2.2⟩).symm⟩

theorem continues_becomeFollower (t : Turn) (term : Nat) (leaderId : Option NodeId) :
    t.Continues (t.becomeFollower term leaderId) := by
  obtain ⟨reads, quiets, hquiets, heq⟩ := t.becomeFollower_eq term leaderId
  rw [heq]
  refine ⟨_, List.append_assoc .., fun a ha => ?_⟩
  rcases List.mem_append.mp ha with ha | ha
  · split at ha
    · exact List.mem_singleton.mp ha ▸ rfl
    · cases ha
  · exact (hquiets a ha).2

theorem continues_heard (t : Turn) (sender : NodeId) (term : Nat) :
    t.Continues (t.heard sender term) :=
  (t.continues_becomeFollower term (some sender)).push rfl

end Turn

/-- A leader and a follower that know each other; the follower is not ahead in terms. -/
structure Linked (leader follower : Raft) : Prop where
  role : leader.role = .leader
  ne : follower.id ≠ leader.id
  leaderKnows : leader.configuration.contains follower.id = true
  followerKnows : follower.configuration.contains leader.id = true
  term : follower.hardState.currentTerm ≤ leader.hardState.currentTerm

/-- The parts of a leader that replies do not change. -/
structure Reigns (r r' : Raft) : Prop where
  id : r'.id = r.id
  configuration : r'.configuration = r.configuration
  log : r'.log = r.log
  snapshot : r'.snapshot = r.snapshot
  role : r'.role = r.role
  currentTerm : r'.hardState.currentTerm = r.hardState.currentTerm

variable {r : Raft}

theorem Raft.Advances.reigns {r' : Raft} (h : r.Advances r') :
    Reigns r r' ∧ r'.progress = r.progress := by
  obtain ⟨commit, applied, rfl⟩ := h
  exact ⟨⟨rfl, rfl, rfl, rfl, rfl, rfl⟩, rfl⟩

theorem Reigns.trans {r' r'' : Raft} (h : Reigns r r') (h' : Reigns r' r'') : Reigns r r'' :=
  ⟨h'.id.trans h.id, h'.configuration.trans h.configuration, h'.log.trans h.log,
    h'.snapshot.trans h.snapshot, h'.role.trans h.role, h'.currentTerm.trans h.currentTerm⟩

/-- The nodes stay linked as long as they are who they are. -/
theorem Linked.next {leader leader' follower follower' : Raft} (h : Linked leader follower)
    (hreigns : Reigns leader leader') (hid : follower'.id = follower.id)
    (hconfiguration : follower'.configuration = follower.configuration)
    (hterm : follower'.hardState.currentTerm ≤ leader.hardState.currentTerm) :
    Linked leader' follower' where
  role := hreigns.role.trans h.role
  ne := by
    rw [hid, hreigns.id]
    exact h.ne
  leaderKnows := by
    rw [hid, hreigns.configuration]
    exact h.leaderKnows
  followerKnows := by
    rw [hconfiguration, hreigns.id]
    exact h.followerKnows
  term := hreigns.currentTerm ▸ hterm

theorem Turn.sendAppend_actions_eq (t : Turn) (peer : NodeId) (readContext : Option Bytes) :
    (t.sendAppend peer readContext).actions =
      t.actions ++
        (Turn.sendAppend { raft := t.raft, actions := [] } peer readContext).actions := by
  unfold Turn.sendAppend Turn.sendSnapshotChunk
  dsimp only
  split
  · exact (List.append_nil _).symm
  · split
    · split <;> rfl
    · split <;> rfl

/-- The message of a turn that so far had internal actions only. -/
theorem Turn.sentTo_sendAppend {t : Turn} (h : ∀ a ∈ t.actions, a.internal = true) (peer : NodeId) :
    sentTo peer (t.sendAppend peer none).actions = t.raft.messageFor peer := by
  rw [t.sendAppend_actions_eq, sentTo_append, sentTo_internal h]
  rfl

/-- What a leader knows a voter to have. -/
def Raft.matched (r : Raft) (voter : NodeId) :
    Nat := ((r.progress[voter]?).map (·.matchIndex)).getD 0

theorem matched_eq {peer : NodeId} {p : Progress} (hp : r.progress[peer]? = some p) :
    r.matched peer = p.matchIndex := by
  rw [Raft.matched, hp]
  rfl

/-- The commit index of a leader once a voter has acknowledged its log up to an index. -/
def Raft.commitOnce (r : Raft) (peer : NodeId) (index : Nat) : Nat :=
  let quorumIndex := r.configuration.quorumIndex fun voter =>
    if voter = peer then max (r.matched peer) index else r.matched voter
  if r.hardState.commitIndex < quorumIndex ∧ quorumIndex ≤ r.log.lastIndex ∧
    r.log.term quorumIndex = some r.hardState.currentTerm then quorumIndex
  else r.hardState.commitIndex

/-- A leader that took a reply of a peer into account. -/
structure Heeds (r r' : Raft) (peer : NodeId) (p : Progress) : Prop where
  reigns : Reigns r r'
  progress : r'.progress[peer]? = some p
  others : ∀ voter, voter ≠ peer → r'.progress[voter]? = r.progress[voter]?

/-- A leader counts an acknowledgement. -/
theorem Turn.advanceLeaderCommit_heeds {t : Turn} {peer : NodeId} {p : Progress} {index : Nat}
    (hheeds : Heeds r t.raft peer p) (hrole : r.role = .leader)
    (hcommit : t.raft.hardState.commitIndex = r.hardState.commitIndex)
    (hmatch : p.matchIndex = max (r.matched peer) index) :
    Heeds r t.advanceLeaderCommit.raft peer p ∧ t.Continues t.advanceLeaderCommit ∧
      t.advanceLeaderCommit.raft.hardState.commitIndex = r.commitOnce peer index := by
  obtain ⟨hadvances, hcontinues, hafter⟩ :=
    t.advanceLeaderCommit_spec (hheeds.reigns.role.trans hrole)
  obtain ⟨hreigns, hprogress⟩ := hadvances.reigns
  refine ⟨⟨hheeds.reigns.trans hreigns, ?_, fun voter hne => ?_⟩, hcontinues, hafter.trans ?_⟩
  · rw [hprogress]
    exact hheeds.progress
  · rw [hprogress]
    exact hheeds.others voter hne
  · have hquorum : t.quorumIndex = r.configuration.quorumIndex fun voter =>
        if voter = peer then max (r.matched peer) index else r.matched voter := by
      unfold Turn.quorumIndex
      rw [hheeds.reigns.configuration]
      congr 1
      funext voter
      split
      · rename_i heq
        rw [heq, hheeds.progress]
        exact hmatch
      · rename_i hne
        rw [hheeds.others voter hne]
        rfl
    unfold Raft.commitOnce
    rw [hquorum, hcommit, hheeds.reigns.log, hheeds.reigns.currentTerm]

section Leader

variable [Sha256] {x : Exchange} {p : Progress}

/-- The progress after everything up to an index was acknowledged. -/
def Progress.past (p : Progress) (index : Nat) : Progress :=
  ⟨max p.matchIndex index, max p.nextIndex (index + 1), none⟩

/-- The leader's progress after a reply about a snapshot. -/
def Progress.afterSnapshot (p : Progress) (accepted : Bool) (nextOffset : Nat) (done : Bool)
    (matchIndex : Nat) : Progress :=
  if done ∧ accepted then p.past matchIndex
  else { p with snapshotOffset := some (if accepted then nextOffset else 0) }

/-- The leader's progress after a reply to an append. -/
def Progress.afterAppend (p : Progress) (log : RaftLog) (success : Bool)
    (matchIndex conflictIndex : Nat) (conflictTerm : Option Nat) : Progress :=
  if success then p.past matchIndex
  else
    { p with
      nextIndex := min (Turn.retryIndex log conflictIndex conflictTerm) (max (p.nextIndex - 1) 1)
      snapshotOffset := none }

/-- The leader takes a reply in a turn that has applied what is committed. -/
theorem Exchange.round_reply {reply : Message}
    (h : sentTo x.leader.id x.delivered.2 = some reply) :
    ∃ applied actions, (∀ a ∈ actions, a.internal = true) ∧ x.round.follower = x.delivered.1 ∧
      ∃ t, t = Turn.onMessage ⟨{ x.leader with appliedIndex := applied }, actions⟩ x.follower.id
        reply ∧ x.round.leader = t.raft ∧ x.round.message = sentTo x.follower.id t.actions := by
  obtain ⟨applied, happlied, -, -, hcontinues⟩ := Turn.applyCommitted_spec ⟨x.leader, []⟩
  refine ⟨applied, _, hcontinues.internal nofun, ?_⟩
  rw [← happlied]
  unfold Exchange.round Raft.step
  dsimp only
  rw [h]
  exact ⟨rfl, _, rfl, rfl, rfl⟩

/-- A round in which the follower replies about a snapshot. The leader turns to it again. -/
theorem Exchange.round_snapshotResponse (hlinked : Linked x.leader x.follower)
    (hp : x.leader.progress[x.follower.id]? = some p) {accepted done : Bool}
    {nextOffset matchIndex : Nat}
    (hsent : sentTo x.leader.id x.delivered.2 = some (.installSnapshotResponse
      x.leader.hardState.currentTerm accepted nextOffset done matchIndex)) :
    Heeds x.leader x.round.leader x.follower.id
        (p.afterSnapshot accepted nextOffset done matchIndex) ∧
      x.round.leader.hardState.commitIndex =
        (if done ∧ accepted then x.leader.commitOnce x.follower.id matchIndex
         else x.leader.hardState.commitIndex) ∧
      x.round.follower = x.delivered.1 ∧
      x.round.message = x.round.leader.messageFor x.follower.id := by
  obtain ⟨applied, actions, hinternal, hfollower, t, ht, hleader, hmessage⟩ := round_reply hsent
  rw [hleader, hmessage, hfollower, ht, Turn.onMessage,
    if_neg (by simp [hlinked.leaderKnows, hlinked.ne])]
  dsimp only
  rw [Turn.onSnapshotResponse, if_neg (Nat.lt_irrefl _), if_neg (by simp [hlinked.role])]
  dsimp only [Turn.modify]
  rw [hp]
  dsimp only
  generalize hu : (if done = true ∧ accepted = true then _ else _ : Turn) = u
  obtain ⟨hheeds, hcommit, hactions⟩ :
      Heeds x.leader u.raft x.follower.id
          (p.afterSnapshot accepted nextOffset done matchIndex) ∧
        u.raft.hardState.commitIndex =
          (if done ∧ accepted then x.leader.commitOnce x.follower.id matchIndex
           else x.leader.hardState.commitIndex) ∧
        ∀ a ∈ u.actions, a.internal = true := by
    rw [← hu]
    unfold Progress.afterSnapshot
    split
    · generalize hv : (Turn.mk _ actions : Turn) = v
      have hfirst : Heeds x.leader v.raft x.follower.id (p.past matchIndex) := by
        rw [← hv]
        exact ⟨⟨rfl, rfl, rfl, rfl, rfl, rfl⟩, ExtTreeMap.getElem?_insert_self,
          fun _ => Maps.insert_of_ne⟩
      obtain ⟨hheeds, hcontinues, hcommit⟩ := Turn.advanceLeaderCommit_heeds hfirst hlinked.role
        (by rw [← hv]) (by rw [matched_eq hp]; rfl)
      exact ⟨hheeds, hcommit, hcontinues.internal (hv ▸ hinternal)⟩
    · exact ⟨⟨⟨rfl, rfl, rfl, rfl, rfl, rfl⟩, ExtTreeMap.getElem?_insert_self,
        fun _ => Maps.insert_of_ne⟩, rfl, hinternal⟩
  rw [Turn.sendAppend_raft, Turn.sentTo_sendAppend hactions]
  exact ⟨hheeds, hcommit, rfl, rfl⟩

/-- A round in which the follower does not reply. -/
theorem Exchange.round_silent (h : sentTo x.leader.id x.delivered.2 = none) :
    x.round.leader = x.leader ∧ x.round.follower = x.delivered.1 ∧ x.round.message = none := by
  unfold Exchange.round
  dsimp only
  rw [h]
  exact ⟨rfl, rfl, rfl⟩

/-- A round in which the follower replies to an append. The leader turns to it again unless it has
everything. -/
theorem Exchange.round_appendResponse (hlinked : Linked x.leader x.follower)
    (hp : x.leader.progress[x.follower.id]? = some p) {success : Bool}
    {matchIndex conflictIndex : Nat} {conflictTerm : Option Nat}
    (hsent : sentTo x.leader.id x.delivered.2 = some (.appendEntriesResponse
      x.leader.hardState.currentTerm success matchIndex conflictIndex conflictTerm none)) :
    Heeds x.leader x.round.leader x.follower.id
        (p.afterAppend x.leader.log success matchIndex conflictIndex conflictTerm) ∧
      x.round.leader.hardState.commitIndex =
        (if success then x.leader.commitOnce x.follower.id matchIndex
         else x.leader.hardState.commitIndex) ∧
      x.round.follower = x.delivered.1 ∧
      x.round.message =
        if success ∧ x.leader.log.lastIndex ≤ matchIndex then none
        else x.round.leader.messageFor x.follower.id := by
  obtain ⟨applied, actions, hinternal, hfollower, t, ht, hleader, hmessage⟩ := round_reply hsent
  rw [hleader, hmessage, hfollower, ht, Turn.onMessage,
    if_neg (by simp [hlinked.leaderKnows, hlinked.ne])]
  dsimp only
  rw [Turn.onAppendResponse, if_neg (Nat.lt_irrefl _), if_neg (by simp [hlinked.role])]
  dsimp only [Turn.modify]
  have hmodify (f : Progress → Progress) :
      (x.leader.progress.modify x.follower.id f)[x.follower.id]? = some (f p) := by
    rw [ExtTreeMap.getElem?_modify_self, hp]
    rfl
  cases success with
  | true =>
    generalize hv : (Turn.mk _ actions : Turn) = v
    have hfirst : Heeds x.leader v.raft x.follower.id (p.past matchIndex) := by
      rw [← hv]
      exact ⟨⟨rfl, rfl, rfl, rfl, rfl, rfl⟩, hmodify _, fun _ => Maps.modify_of_ne⟩
    obtain ⟨hheeds, hcontinues, hcommit⟩ := Turn.advanceLeaderCommit_heeds hfirst hlinked.role
      (by rw [← hv]) (by rw [matched_eq hp]; rfl)
    have hactions := hcontinues.internal (hv ▸ hinternal)
    rw [if_pos rfl, hheeds.reigns.log]
    split
    · rename_i hlt
      rw [Turn.sendAppend_raft, Turn.sentTo_sendAppend hactions]
      exact ⟨hheeds, hcommit, rfl, (if_neg (by simpa using hlt)).symm⟩
    · rename_i hle
      rw [sentTo_internal hactions]
      exact ⟨hheeds, hcommit, rfl, (if_pos (by simpa using hle)).symm⟩
  | false =>
    rw [if_neg Bool.false_ne_true, Turn.sendAppend_raft, Turn.sentTo_sendAppend hinternal]
    exact ⟨⟨⟨rfl, rfl, rfl, rfl, rfl, rfl⟩, hmodify _, fun _ => Maps.modify_of_ne⟩, rfl, rfl, rfl⟩

end Leader

end AsterRaft
