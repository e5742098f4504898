import AsterDB.Models.Raft.Interpretation.Follower

/-!
# What a leader's step does to its log

As long as it leads, a node only appends what it is given to propose and
compacts; everything else happens after it announced the loss of leadership.
-/

namespace AsterRaft

open Std

/-- Actions that keep a leader in office and touch the entries of its log only
by appending allowed ones or by compaction. -/
def Action.Calm (log : RaftLog) (allowed : LogEntry → Prop) : Action → Prop
  | .persist (.hardState _) => True
  | .persist (.append entries) => ∀ e ∈ entries, allowed e
  | .persist (.compactSnapshot snapshot retained) =>
    ∀ i e, (RaftLog.new (some snapshot) retained).entry i = some e → log.entry i = some e
  | .persist (.truncateAndAppend _ _) | .persist (.installSnapshot _ _ _) => False
  | .roleChanged role _ => role = .leader
  | _ => True

namespace Turn

/-- The turn goes on with calm actions and the node still leads. -/
def StaysCalm (log : RaftLog) (allowed : LogEntry → Prop) (t t' : Turn) : Prop :=
  ∃ more, t'.actions = t.actions ++ more ∧ (∀ a ∈ more, a.Calm log allowed) ∧
    (t.raft.role = .leader → t'.raft.role = .leader)

/-- The turn goes on with calm actions up to a loss of leadership. -/
def StepsDown (log : RaftLog) (allowed : LogEntry → Prop) (t t' : Turn) : Prop :=
  ∃ calm role term more, t'.actions = t.actions ++ calm ++ .roleChanged role term :: more ∧
    role ≠ .leader ∧ ∀ a ∈ calm, a.Calm log allowed

/-- The turn goes on. -/
def Grows (t t' : Turn) : Prop := ∃ more, t'.actions = t.actions ++ more

variable {log : RaftLog} {allowed : LogEntry → Prop} {t t' t'' : Turn}

theorem Grows.refl (t : Turn) : Grows t t := ⟨[], (List.append_nil _).symm⟩

theorem Grows.push (t : Turn) (a : Action) : Grows t (t.push a) := ⟨[a], rfl⟩

theorem Grows.trans (h : Grows t t') (h' : Grows t' t'') : Grows t t'' := by
  obtain ⟨more, hmore⟩ := h
  obtain ⟨more', hmore'⟩ := h'
  exact ⟨more ++ more', by rw [hmore', hmore, List.append_assoc]⟩

theorem StaysCalm.grows (h : StaysCalm log allowed t t') : Grows t t' := h.imp fun _ h => h.1

theorem StaysCalm.refl (t : Turn) : StaysCalm log allowed t t :=
  ⟨[], (List.append_nil _).symm, by simp, fun h => h⟩

section

variable (h : StaysCalm log allowed t t')
include h

theorem StaysCalm.trans (h' : StaysCalm log allowed t' t'') : StaysCalm log allowed t t'' := by
  obtain ⟨more, heq, hcalm, hrole⟩ := h
  obtain ⟨more', heq', hcalm', hrole'⟩ := h'
  refine ⟨more ++ more', by rw [heq', heq, List.append_assoc], fun a ha => ?_,
    fun hr => hrole' (hrole hr)⟩
  rcases List.mem_append.mp ha with ha | ha
  · exact hcalm a ha
  · exact hcalm' a ha

theorem StaysCalm.push {a : Action} (ha : a.Calm log allowed) :
    StaysCalm log allowed t (t'.push a) :=
  h.trans ⟨[a], rfl, by simpa using ha, fun hr => hr⟩

theorem StaysCalm.persistHardState : StaysCalm log allowed t t'.persistHardState :=
  h.push trivial

end

variable {f : Raft → Raft}

/-- Changes of the node in memory that keep its role. -/
theorem StaysCalm.modify (h : StaysCalm log allowed t t')
    (hf : ∀ r, (f r).role = r.role) : StaysCalm log allowed t (t'.modify f) :=
  h.trans ⟨[], (List.append_nil _).symm, by simp, fun hr => (hf _).trans hr⟩

theorem StaysCalm.of_modify (h : StaysCalm log allowed (t.modify f) t')
    (hf : ∀ r, (f r).role = r.role) : StaysCalm log allowed t t' :=
  ((StaysCalm.refl t).modify hf).trans h

theorem StepsDown.after (h : StaysCalm log allowed t t') (h' : StepsDown log allowed t' t'') :
    StepsDown log allowed t t'' := by
  obtain ⟨more, heq, hcalm, _⟩ := h
  obtain ⟨calm, role, term, rest, heq', hrole, hcalm'⟩ := h'
  refine ⟨more ++ calm, role, term, rest, by rw [heq', heq]; simp, hrole, fun a ha => ?_⟩
  rcases List.mem_append.mp ha with ha | ha
  · exact hcalm a ha
  · exact hcalm' a ha

/-- Whatever comes after the loss of leadership. -/
theorem StepsDown.extend (h : StepsDown log allowed t t')
    (hmore : Grows t' t'') : StepsDown log allowed t t'' := by
  obtain ⟨calm, role, term, rest, heq, hrole, hcalm⟩ := h
  obtain ⟨more, hmore⟩ := hmore
  exact ⟨calm, role, term, rest ++ more, by rw [hmore, heq]; simp, hrole, hcalm⟩

/-- Routine work keeps a leader in office. -/
theorem Proceeds.staysCalm (h : t.Proceeds t') : StaysCalm log allowed t t' := by
  obtain ⟨_, _, _, more, rfl, hmore⟩ := h
  refine ⟨more, rfl, fun a ha => ?_, fun hr => hr⟩
  have hroutine := hmore a ha
  cases a with
  | persist mutation =>
    cases mutation with
    | hardState => trivial
    | _ => cases hroutine
  | roleChanged => cases hroutine
  | _ => trivial

theorem Proceeds.grows (h : t.Proceeds t') : Grows t t' := by
  obtain ⟨_, _, _, more, rfl, -⟩ := h
  exact ⟨more, rfl⟩

section

variable (hr : t.raft.role = .leader)
include hr

/-- A leader that steps down says so before it does anything else to its log. -/
theorem stepsDown_becomeFollower (term : Nat)
    (leaderId : Option NodeId) : StepsDown log allowed t (t.becomeFollower term leaderId) := by
  unfold becomeFollower
  dsimp only
  rw [if_pos (Or.inl hr), if_pos (by simp [hr])]
  generalize hu : (if t.raft.hardState.currentTerm < term then _ else t : Turn) = u
  have hpersist : StaysCalm log allowed t u := by
    rw [← hu]
    split
    · exact ((StaysCalm.refl t).modify fun _ => by rfl).persistHardState
    · exact .refl t
  refine StepsDown.after hpersist ?_
  rw [foldl_push]
  refine ⟨u.raft.pendingReads.toList.map fun p => .readRejected p.1 .leadershipLost, .follower,
    u.raft.hardState.currentTerm, [], rfl, by simp, fun a ha => ?_⟩
  obtain ⟨p, _, rfl⟩ := List.mem_map.mp ha
  trivial

/-- Going on with calm actions or losing leadership. -/
def Leads (log : RaftLog) (allowed : LogEntry → Prop) (t t' : Turn) : Prop :=
  StaysCalm log allowed t t' ∨ StepsDown log allowed t t'

omit hr in
theorem Leads.after (h : StaysCalm log allowed t t') (h' : Leads log allowed t' t'') :
    Leads log allowed t t'' :=
  h'.imp h.trans fun h' => h'.after h

omit hr in
theorem Leads.then (h : Leads log allowed t t') (h' : StaysCalm log allowed t' t'') :
    Leads log allowed t t'' :=
  h.imp (fun h => h.trans h') fun h => h.extend h'.grows

/-- After a current message of another leader. -/
theorem leads_becomeFollower (term : Nat) (leaderId : Option NodeId)
    (hmore : Grows ((t.becomeFollower term leaderId).push .resetElectionTimer) t') :
    Leads log allowed t t' :=
  Or.inr ((stepsDown_becomeFollower hr term leaderId).extend ((Grows.push _ _).trans hmore))

theorem leads_onTick (tick : Tick) : Leads log allowed t (t.onTick tick) := by
  cases tick with
  | election =>
    simp only [onTick, hr, ne_eq, not_true_eq_false, if_false]
    exact Or.inl (.refl t)
  | heartbeat =>
    simp only [onTick, if_pos hr]
    exact Or.inl ((proceeds_broadcastAppend t none).staysCalm.push trivial)
  | checkQuorum =>
    simp only [onTick, if_pos hr]
    split
    · exact Or.inl (((StaysCalm.refl t).modify (f := fun r => { r with
        recentActive := (∅ : ExtTreeSet NodeId).insert r.id }) fun _ => rfl).trans
          (proceeds_broadcastAppend _ none).staysCalm)
    · exact leads_becomeFollower hr _ _ (.refl _)

omit hr in
theorem leads_onPreVoteRequest (t : Turn) (sender : NodeId) (prospectiveTerm : Nat)
    (candidateId : NodeId) (lastLogIndex lastLogTerm : Nat) : Leads log allowed t
      (t.onPreVoteRequest sender prospectiveTerm candidateId lastLogIndex lastLogTerm) := by
  unfold onPreVoteRequest
  split
  · exact Or.inl (.refl t)
  · exact Or.inl ((StaysCalm.refl t).push trivial)

variable (sender : NodeId)

theorem leads_onPreVoteResponse
    (responderTerm prospectiveTerm : Nat) (granted : Bool) : Leads log allowed t
      (t.onPreVoteResponse sender responderTerm prospectiveTerm granted) := by
  unfold onPreVoteResponse
  split
  · exact leads_becomeFollower hr _ _ (.refl _)
  · rw [if_pos (Or.inl (by simp [hr]))]
    exact Or.inl (.refl t)

theorem leads_onVoteRequest (term : Nat)
    (candidateId : NodeId) (lastLogIndex lastLogTerm : Nat) : Leads log allowed t
      (t.onVoteRequest sender term candidateId lastLogIndex lastLogTerm) := by
  unfold onVoteRequest
  split
  · exact Or.inl (.refl t)
  generalize hu : (if t.raft.hardState.currentTerm < term then _ else t : Turn) = u
  have hstep : Leads log allowed t u := by
    rw [← hu]
    split
    · exact Or.inr (stepsDown_becomeFollower hr _ _)
    · exact Or.inl (.refl t)
  refine hstep.then ?_
  refine StaysCalm.push ?_ trivial
  split
  · refine StaysCalm.push (StaysCalm.modify ?_ fun _ => rfl) trivial
    split
    · exact ((StaysCalm.refl u).modify fun _ => by rfl).persistHardState
    · exact .refl u
  · exact .refl u

theorem leads_onVoteResponse (term : Nat)
    (granted : Bool) : Leads log allowed t (t.onVoteResponse sender term granted) := by
  unfold onVoteResponse
  split
  · exact leads_becomeFollower hr _ _ (.refl _)
  · rw [if_pos (Or.inl (by simp [hr]))]
    exact Or.inl (.refl t)

omit hr in
theorem finishAppend_grows (t : Turn) (sender : NodeId) (matched leaderCommit : Nat)
    (readContext : Option Bytes) :
    Grows t (t.finishAppend sender matched leaderCommit readContext) :=
  (proceeds_setCommit t _).grows.trans (.push _ _)

theorem leads_onAppendEntries (term : Nat)
    (leaderId : NodeId) (prevLogIndex prevLogTerm : Nat) (entries : List LogEntry)
    (leaderCommit : Nat) (readContext : Option Bytes) : Leads log allowed t
      (t.onAppendEntries sender term leaderId prevLogIndex prevLogTerm entries leaderCommit
        readContext) := by
  unfold onAppendEntries
  split
  · exact Or.inl (.refl t)
  split
  · exact Or.inl ((StaysCalm.refl t).push trivial)
  refine leads_becomeFollower hr term (some sender) ?_
  generalize (t.becomeFollower term (some sender)).push .resetElectionTimer = u
  dsimp only
  split
  · exact .push u _
  split
  · exact .push u _
  split
  · exact .push u _
  split
  · exact .push u _
  split
  · exact .push u _
  · exact .push u _
  · have hwrite : ∀ index suffix, Grows u (u.writeSuffix index suffix) :=
      fun _ _ => .push u _
    exact (hwrite _ _).trans (finishAppend_grows _ _ _ _ _)
  · exact finishAppend_grows _ _ _ _ _

omit hr in
theorem receiveChunk_grows [Sha256] (t : Turn) (sender : NodeId) (incoming : IncomingSnapshot)
    (offset : Nat) (data : Bytes) (done : Bool) :
    Grows t (t.receiveChunk sender incoming offset data done) := by
  unfold receiveChunk
  dsimp only
  split
  · exact .push t _
  split
  · exact .push t _
  split
  · exact .push t _
  split
  · exact .push t _
  · exact (Grows.push t _).trans (.push _ _)

theorem leads_onInstallSnapshot [Sha256] (term : Nat) (leaderId : NodeId)
    (metadata : SnapshotMetadata) (offset : Nat) (data : Bytes) (done : Bool) : Leads log allowed t
      (t.onInstallSnapshot sender term leaderId metadata offset data done) := by
  unfold onInstallSnapshot
  split
  · exact Or.inl (.refl t)
  split
  · exact Or.inl ((StaysCalm.refl t).push trivial)
  refine leads_becomeFollower hr term (some sender) ?_
  generalize (t.becomeFollower term (some sender)).push .resetElectionTimer = u
  dsimp only
  split
  · exact .push u _
  split
  · exact .push u _
  generalize hv : (if offset = 0 ∧ (!_) = true then _ else u : Turn) = v
  have htransfer : Grows u v := by
    rw [← hv]
    split <;> exact .refl u
  refine htransfer.trans ?_
  split
  · exact .push v _
  split
  · exact .push v _
  · exact receiveChunk_grows _ _ _ _ _ _

omit hr in
/-- Handling the outcome of an append. -/
theorem staysCalm_noteAppend (t : Turn) (sender : NodeId) (success : Bool)
    (matchIndex conflictIndex : Nat) (conflictTerm : Option Nat) :
    StaysCalm log allowed t
      (t.noteAppend sender success matchIndex conflictIndex conflictTerm) := by
  unfold noteAppend
  split
  · dsimp only
    split
    · exact StaysCalm.of_modify ((proceeds_advanceLeaderCommit _).staysCalm.trans
        (proceeds_sendAppend _ _ _).staysCalm) fun _ => rfl
    · exact StaysCalm.of_modify (proceeds_advanceLeaderCommit _).staysCalm fun _ => rfl
  · exact StaysCalm.of_modify (proceeds_sendAppend _ _ _).staysCalm fun _ => rfl

theorem leads_onAppendResponse (term : Nat) (success : Bool) (matchIndex conflictIndex : Nat)
    (conflictTerm : Option Nat) (readContext : Option Bytes) : Leads log allowed t
      (t.onAppendResponse sender term success matchIndex conflictIndex conflictTerm
        readContext) := by
  unfold onAppendResponse
  split
  · exact leads_becomeFollower hr _ _ (.refl _)
  split
  · exact Or.inl (.refl t)
  cases readContext with
  | none =>
    exact Or.inl (StaysCalm.of_modify (staysCalm_noteAppend _ _ _ _ _ _) fun _ => rfl)
  | some context =>
    exact Or.inl (StaysCalm.of_modify ((proceeds_acknowledgeRead _ _ _).staysCalm.trans
      (staysCalm_noteAppend _ _ _ _ _ _)) fun _ => rfl)

theorem leads_onSnapshotResponse (term : Nat)
    (accepted : Bool) (nextOffset : Nat) (done : Bool) (matchIndex : Nat) : Leads log allowed t
      (t.onSnapshotResponse sender term accepted nextOffset done matchIndex) := by
  unfold onSnapshotResponse
  split
  · exact leads_becomeFollower hr _ _ (.refl _)
  split
  · exact Or.inl (.refl t)
  refine Or.inl (StaysCalm.of_modify (f := fun r => { r with
    recentActive := r.recentActive.insert sender }) ?_ fun _ => rfl)
  generalize t.modify _ = u
  dsimp only
  split
  · exact .refl u
  · refine StaysCalm.trans ?_ (proceeds_sendAppend _ _ _).staysCalm
    split
    · exact StaysCalm.of_modify (proceeds_advanceLeaderCommit _).staysCalm fun _ => rfl
    · exact (StaysCalm.refl u).modify fun _ => rfl

theorem leads_onMessage [Sha256]
    (message : Message) : Leads log allowed t (t.onMessage sender message) := by
  unfold onMessage
  split
  · exact Or.inl (.refl t)
  cases message with
  | preVoteRequest => exact leads_onPreVoteRequest _ _ _ _ _ _
  | preVoteResponse => exact leads_onPreVoteResponse hr _ _ _ _
  | requestVote => exact leads_onVoteRequest hr _ _ _ _ _
  | requestVoteResponse => exact leads_onVoteResponse hr _ _ _
  | appendEntries => exact leads_onAppendEntries hr _ _ _ _ _ _ _ _
  | appendEntriesResponse => exact leads_onAppendResponse hr _ _ _ _ _ _ _
  | installSnapshot => exact leads_onInstallSnapshot hr _ _ _ _ _ _ _
  | installSnapshotResponse => exact leads_onSnapshotResponse hr _ _ _ _ _ _

theorem leads_propose (id : CommandId) (command : Bytes)
    (hallowed : ∀ e : LogEntry, e.payload = .command id command → allowed e) :
    Leads log allowed t (t.propose id command) := by
  unfold propose
  rw [if_neg (by simp [hr])]
  refine Or.inl ((StaysCalm.trans ?_ (proceeds_advanceLeaderCommit _).staysCalm).trans
    (proceeds_broadcastAppend _ _).staysCalm)
  refine ((StaysCalm.refl t).modify fun _ => by rfl).push fun e he => ?_
  rw [List.mem_singleton] at he
  subst he
  exact hallowed _ rfl

end

theorem leads_readIndex (t : Turn) (context : Bytes) :
    Leads log allowed t (t.readIndex context) := by
  unfold readIndex
  split
  · exact Or.inl ((StaysCalm.refl t).push trivial)
  split
  · exact Or.inl ((StaysCalm.refl t).push trivial)
  split
  · exact Or.inl ((StaysCalm.refl t).push trivial)
  dsimp only
  split
  · exact Or.inl (StaysCalm.of_modify (proceeds_completeRead _ _).staysCalm fun _ => rfl)
  · exact Or.inl (StaysCalm.of_modify (proceeds_broadcastAppend _ _).staysCalm fun _ => rfl)

/-- Compaction retains entries of the log. -/
theorem leads_snapshotBuilt [Sha256] {full : List LogEntry} (hrep : t.raft.log.Represents full)
    (snapshot : PersistentSnapshot) : Leads t.raft.log allowed t (t.snapshotBuilt snapshot) := by
  unfold snapshotBuilt
  dsimp only
  split
  · rename_i hcond
    obtain ⟨_, _, hbase, _, hterm⟩ := hcond
    refine Or.inl (StaysCalm.push ((StaysCalm.refl t).modify fun _ => rfl) fun i e he => ?_)
    have hcompact := hrep.compact hbase (hrep.term_some hterm).2
    obtain ⟨hlt, hget⟩ := hcompact.entry_some (i := i) (e := e) he
    rw [hrep.entry (hbase.trans_lt hlt)]
    exact hget
  · exact Or.inl ((StaysCalm.refl t).push trivial)

end Turn

/-- A step of a leader: calm throughout, or calm up to the loss of leadership. -/
theorem Raft.leads_step [Sha256] {r : Raft} {full : List LogEntry} {allowed : LogEntry → Prop}
    (hr : r.role = .leader) (hrep : r.log.Represents full) (input : Input)
    (hallowed : ∀ id command, input = .propose id command →
      ∀ e : LogEntry, e.payload = .command id command → allowed e) :
    Turn.Leads r.log allowed { raft := r, actions := [] }
      { raft := (r.step input).1, actions := (r.step input).2 } := by
  unfold Raft.step
  have hreplay : Turn.Proceeds { raft := r, actions := [] }
      (Turn.applyCommitted { raft := r, actions := [] }) := Turn.proceeds_applyCommittedLoop _ _
  generalize Turn.applyCommitted { raft := r, actions := [] } = t at hreplay ⊢
  have hr' : t.raft.role = .leader := hreplay.role.trans hr
  have hlog : t.raft.log = r.log := hreplay.log
  refine Turn.Leads.after hreplay.staysCalm ?_
  cases input with
  | tick tick => exact Turn.leads_onTick hr' tick
  | message sender message => exact Turn.leads_onMessage hr' sender message
  | propose id command => exact Turn.leads_propose hr' id command (hallowed id command rfl)
  | readIndex context => exact Turn.leads_readIndex t context
  | snapshotBuilt snapshot =>
    rw [← hlog] at hrep ⊢
    exact Turn.leads_snapshotBuilt hrep snapshot

end AsterRaft
