import AsterDB.Models.Raft.Interpretation.Follower

/-!
# Every reachable cluster realises the protocol

One step of a node is justified action by action; a run is justified step by
step, through crashes after any prefix of the actions and restarts from disk.
-/

namespace AsterRaft

open Std Consensus
open Consensus.State (Evolve)

namespace World

/-- Performing actions of `n` sends no packet of another node. -/
theorem mem_network_of_sender_ne {w : World} {n : NodeId} {role : Role} {p : Packet}
    (actions : List Action) (hp : p ∈ (w.performAll n role actions).network)
    (hne : p.sender ≠ n) : p ∈ w.network := by
  induction actions generalizing w with
  | nil => exact hp
  | cons a rest ih =>
    rcases (mem_network_perform _ _ _ _).mp (ih hp) with h | ⟨hs, _⟩
    · exact h
    · exact absurd hs hne

end World

namespace Cluster

/-- The transition delivers an append that overreaches. -/
def overreaches (c : Cluster) (label : Label) : Bool :=
  let delivers (k : Nat) : Bool :=
    match c.world.network[k]? with
    | none => false
    | some p =>
      match c.memory[p.receiver]? with
      | none => false
      | some r => r.overreached p.message
  match label with
  | .deliver k | .deliverCrash k _ => delivers k
  | _ => false

/-- The transition gives a node a read context that it was given before. -/
def rereads (c : Cluster) (label : Label) : Bool :=
  match label with
  | .input n (.readIndex context) | .inputCrash n (.readIndex context) _ =>
    c.reads.any fun read => read.node = n ∧ read.context = context
  | _ => false

/-- A node can be handed its own inputs and the messages addressed to it. -/
def Offers (c : Cluster) (n : NodeId) (input : Input) : Prop :=
  ∀ sender message, input = .message sender message → ⟨sender, n, message⟩ ∈ c.world.network

/-- What a transition hands to a node. -/
structure Hands (c : Cluster) (label : Label) (n : NodeId) (input : Input) : Prop where
  offers : c.Offers n input
  covered : ∀ r sender message, c.memory[n]? = some r → input = .message sender message →
    c.overreaches label = r.overreached message
  fresh : ∀ context, input = .readIndex context → c.rereads label = false →
    ∀ U, Event.given n U (.readIndex context) ∉ c.world.history

variable {label : Label}

theorem hands_local {c : Cluster} {n : NodeId} {input : Input} (hlocal : localInput input = true)
    (hlabel : label = .input n input ∨ ∃ count, label = .inputCrash n input count) :
    c.Hands label n input where
  offers := by
    rintro sender message rfl
    cases hlocal
  covered := by
    rintro r sender message _ rfl
    cases hlocal
  fresh := by
    rintro context rfl h U hmem
    have hread : { node := n, term := U, context } ∈ c.reads :=
      List.mem_filterMap.mpr ⟨_, hmem, rfl⟩
    have hany : (c.reads.any fun read => read.node = n ∧ read.context = context) = false := by
      rcases hlabel with rfl | ⟨_, rfl⟩ <;> exact h
    rw [List.any_eq_false] at hany
    exact hany _ hread (by simp)

theorem hands_packet {c : Cluster} {k : Nat} {p : Packet} (hp : c.world.network[k]? = some p)
    (hlabel : label = .deliver k ∨ ∃ count, label = .deliverCrash k count) :
    c.Hands label p.receiver (.message p.sender p.message) where
  offers := by
    rintro sender message ⟨⟩
    exact List.mem_of_getElem? hp
  covered := by
    rintro r sender message hr ⟨⟩
    rcases hlabel with rfl | ⟨_, rfl⟩ <;> simp [overreaches, hp, hr]
  fresh := nofun

/-- A transition runs an input on a node, or drops or recovers a node. -/
theorem next_cases [Sha256] {configuration : Configuration} {c c' : Cluster}
    (h : c.next configuration label = some c') :
    (∃ n input count, c.run n input count = some c' ∧ c.Hands label n input) ∨
    (∃ n, c' = { c with memory := c.memory.erase n }) ∨
    ∃ n r, Raft.recover n configuration (c.world.stable n) = .ok r ∧
      c' = { c with memory := c.memory.insert n r } := by
  cases label with
  | input n input | inputCrash n input count =>
    simp only [next] at h
    split at h
    · exact .inl ⟨n, input, _, h, hands_local ‹_› (by simp)⟩
    · cases h
  | deliver k | deliverCrash k count =>
    simp only [next] at h
    split at h
    · cases h
    · exact .inl ⟨_, _, _, h, hands_packet ‹_› (by simp)⟩
  | crash n => exact .inr (.inl ⟨n, (Option.some.inj h).symm⟩)
  | restart n =>
    simp only [next] at h
    split at h
    · cases h
    split at h
    · cases h
    · exact .inr (.inr ⟨n, _, ‹_›, (Option.some.inj h).symm⟩)

end Cluster

namespace Setting

variable {σ : Setting} {m n : NodeId} {role : Role} {w w₀ : World} {s s₀ : Protocol}

/-- Recording an input tells nothing about the protocol. -/
theorem Sim.given (h : σ.Sim w s) (n : NodeId) (term : Nat) (input : Input) :
    σ.Sim (w.given n term input) s where
  inv := h.inv
  numbered := h.numbered
  disk := h.disk
  packets p hp := (h.packets p hp).mono (Evolve.refl n s) (fun _ hq => hq)
    fun _ he => List.mem_cons_of_mem _ he
  history e older he := by
    rw [World.given, List.suffix_cons_iff] at he
    rcases he with he | he
    · cases he
      exact EventOk.of_vote rfl rfl rfl (by simp) (by simp) fun v hv => by cases hv
    · exact h.history e older he

variable {r : Raft}

/-- An input leaves pending reads covered, unless it repeats a read context. -/
theorem MemOk.given (h : σ.MemOk w s m r) (n : NodeId) (term : Nat) (input : Input)
    (hfresh : σ.fresh → ∀ context, input = .readIndex context →
      ∀ U, Event.given n U (.readIndex context) ∉ w.history) :
    σ.MemOk (w.given n term input) s m r where
  id := h.id
  configuration := h.configuration
  stable := h.stable
  log := h.log
  campaign := h.campaign
  candidate := h.candidate
  leader hr := by
    have hlead := h.leader hr
    refine { hlead with
      snapshots := hlead.snapshots
      commits := fun e he c hc hT => ?_
      reads := fun context pending hp => ?_ }
    · rcases List.mem_cons.mp he with rfl | he
      · cases hc
      · exact hlead.commits e he c hc hT
    · obtain ⟨happlied, hread⟩ := hlead.reads context pending hp
      refine ⟨happlied, fun hf => ⟨?_, fun U past hpast e he c hc => ?_⟩⟩
      · exact (hread hf).1.imp fun U hU => List.mem_cons_of_mem _ hU
      · rw [World.given, List.suffix_cons_iff] at hpast
        rcases hpast with hpast | hpast
        · cases hpast
          obtain ⟨U', hU'⟩ := (hread hf).1
          exact absurd hU' (hfresh hf context rfl U')
        · exact (hread hf).2 U past hpast e he c hc
  covered hr := (h.covered hr).cons _

/-- A node at rest. -/
theorem Track.start (role : Role) (hsim : σ.Sim w s) (hmem : σ.MemOk w s n r) :
    σ.Track n role w s { raft := r, actions := [] } s :=
  ⟨⟨hsim, fun _ _ _ h => h⟩, hmem, fun k => ⟨s, by
    rw [List.take_nil]
    exact ⟨hsim, fun _ _ _ h => h⟩⟩⟩

/-- The inputs a step may be given. -/
structure InputOk (σ : Setting) (w : World) (n : NodeId) (r : Raft) (input : Input) : Prop where
  packet : ∀ sender message, input = .message sender message →
    ⟨sender, n, message⟩ ∈ w.network ∧ (σ.strict → r.overreached message = false)
  given : ∀ context, input = .readIndex context →
    (∃ U, Event.given n U (.readIndex context) ∈ w.history) ∧
    (σ.fresh → ∀ v T success matchIndex conflictIndex conflictTerm, v ≠ n →
      ⟨v, n, .appendEntriesResponse T success matchIndex conflictIndex conflictTerm
        (some context)⟩ ∉ w.network)

/-- Handling a message of the network. -/
theorem Track.onMessage [Sha256] (hchecks : σ.Checks) {t : Turn} (hsim : σ.Sim w₀ s₀)
    (h : σ.Track n role w₀ s₀ t s)
    {sender : NodeId} {message : Message} (hp : ⟨sender, n, message⟩ ∈ w₀.network)
    (hcover : σ.strict → t.raft.overreached message = false)
    (happlied : t.raft.appliedIndex = t.raft.hardState.commitIndex)
    (hrole : role = (t.onMessage sender message).raft.role) :
    σ.Good n role w₀ s₀ (t.onMessage sender message) := by
  unfold Turn.onMessage at hrole ⊢
  split
  · exact ⟨s, h⟩
  rename_i hcond
  rw [if_neg hcond] at hrole
  cases message with
  | preVoteRequest => exact h.onPreVoteRequest _ _ _ _ _
  | preVoteResponse => exact h.onPreVoteResponse _ _ _ _ happlied hrole
  | requestVote => exact h.onVoteRequest hp
  | requestVoteResponse => exact h.onVoteResponse hp happlied hrole
  | appendEntries => exact h.onAppendEntries hp hcover hrole (hsim.packets _ hp).2.2.2.2
  | appendEntriesResponse =>
    refine h.onAppendResponse hp fun hr hterm => ?_
    rw [hrole, hterm]
    exact Turn.onAppendResponse_role hr _ _ _ _ _ _
  | installSnapshot => exact h.onInstallSnapshot hchecks hp happlied
  | installSnapshotResponse =>
    refine h.onSnapshotResponse hp fun hr hterm => ?_
    rw [hrole, hterm]
    exact Turn.onSnapshotResponse_role hr _ _ _ _ _

variable {input : Input}

/-- One step of a node is justified, whatever the input. -/
theorem good_step [Sha256] (hchecks : σ.Checks) (hsim : σ.Sim w s) (hmem : σ.MemOk w s n r)
    (hin : σ.InputOk w n r input) :
    σ.Good n (r.step input).1.role w s { raft := (r.step input).1, actions :=
      (r.step input).2 } := by
  generalize hrole : (r.step input).1.role = role
  obtain ⟨htrack, hraft⟩ := (Track.start role hsim hmem).applyCommitted
  have happlied : (Turn.applyCommitted { raft := r, actions := [] }).raft.appliedIndex =
      (Turn.applyCommitted { raft := r, actions := [] }).raft.hardState.commitIndex := by
    rw [hraft]
  unfold Raft.step at hrole ⊢
  cases input with
  | tick tick => exact htrack.onTick tick happlied hrole.symm
  | message sender message =>
    obtain ⟨hp, hcover⟩ := hin.packet sender message rfl
    refine htrack.onMessage hchecks hsim hp (fun hs => ?_) happlied hrole.symm
    rw [hraft]
    cases message <;> exact hcover hs
  | propose id command =>
    refine htrack.propose id command happlied fun hr => ?_
    rw [← hrole]
    exact (Turn.propose_role _ _ _).trans hr
  | readIndex context =>
    obtain ⟨⟨U, hU⟩, hnew⟩ := hin.given context rfl
    refine htrack.readIndex ⟨U, World.mem_history_performAll _ hU⟩ ?_ happlied
    intro hf v T success matchIndex conflictIndex conflictTerm hv hp
    exact hnew hf v _ _ _ _ _ hv (World.mem_network_of_sender_ne _ hp hv)
  | snapshotBuilt snapshot => exact htrack.snapshotBuilt hchecks snapshot

/-- The cluster realises a protocol state, disks and memories alike. -/
def ClusterOk (σ : Setting) (c : Cluster) : Prop :=
  ∃ s, σ.Sim c.world s ∧ ∀ n r, c.memory[n]? = some r → σ.MemOk c.world s n r

theorem sim_init : σ.Sim Cluster.init.world State.init where
  inv := State.inv_init _ _
  numbered _ := Numbered.nil
  disk n := by
    refine ⟨rfl, rfl, RaftLog.represents_empty, ?_, ?_, ?_, fun _ => Or.inl ?_, ?_⟩ <;>
      simp [World.stable, Cluster.init, StableState.default, RaftLog.new]
  packets _ hp := by simp [Cluster.init] at hp
  history _ _ he := by simp [Cluster.init] at he

theorem clusterOk_init : σ.ClusterOk Cluster.init :=
  ⟨State.init, sim_init, fun n r h => by simp [Cluster.init] at h⟩

/-- What the setting assumes of a transition. -/
structure Allows (σ : Setting) (c : Cluster) (label : Cluster.Label) : Prop where
  covers : σ.strict → c.overreaches label = false
  fresh : σ.fresh → c.rereads label = false

variable {c : Cluster}

/-- A node that is handed an input takes a justified step. -/
theorem ClusterOk.good [Sha256] (hchecks : σ.Checks) (h : σ.ClusterOk c)
    (hr : c.memory[n]? = some r)
    (hpacket : ∀ sender message, input = .message sender message →
      ⟨sender, n, message⟩ ∈ c.world.network ∧ (σ.strict → r.overreached message = false))
    (hfresh : σ.fresh → ∀ context, input = .readIndex context →
      ∀ U, Event.given n U (.readIndex context) ∉ c.world.history) :
    ∃ s, (∀ m r', c.memory[m]? = some r' → σ.MemOk (c.world.given n r.term input) s m r') ∧
      σ.Good n (r.step input).1.role (c.world.given n r.term input) s
        { raft := (r.step input).1, actions := (r.step input).2 } := by
  obtain ⟨s, hsim, hmem⟩ := h
  have hmem' := fun m r' hr' => (hmem m r' hr').given n r.term input hfresh
  refine ⟨s, hmem', good_step hchecks (hsim.given n r.term input) (hmem' n r hr) ⟨hpacket, ?_⟩⟩
  rintro context rfl
  refine ⟨⟨r.term, List.mem_cons_self⟩, ?_⟩
  intro hf v T success matchIndex conflictIndex conflictTerm _ hp
  obtain ⟨U, hU⟩ := (hsim.packets _ hp).2 context rfl
  exact hfresh hf context rfl U hU

variable {label : Cluster.Label}

/-- One input, run to its end or to a crash. -/
theorem ClusterOk.run [Sha256] (hchecks : σ.Checks) {c' : Cluster} {count : Option Nat}
    (h : σ.ClusterOk c) (hrun : c.run n input count = some c') (hhands : c.Hands label n input)
    (hallow : σ.Allows c label) : σ.ClusterOk c' := by
  unfold Cluster.run at hrun
  split at hrun
  · cases hrun
  rename_i r hr
  obtain ⟨s, hmem, s', htrack⟩ := h.good hchecks hr (fun sender message hinput =>
      ⟨hhands.offers _ _ hinput, fun hs => hhands.covered r _ _ hr hinput ▸ hallow.covers hs⟩)
    fun hf context hinput => hhands.fresh context hinput (hallow.fresh hf)
  dsimp only at hrun
  split at hrun
  · cases hrun
    refine ⟨s', htrack.reached.sim, fun m r' hr' => ?_⟩
    rcases Maps.of_insert hr' with ⟨rfl, rfl⟩ | ⟨hne, hr'⟩
    · exact htrack.mem
    · exact htrack.reached.others m r' hne (hmem m r' hr')
  · cases hrun
    rename_i k
    obtain ⟨s'', hcut⟩ := htrack.cut k
    refine ⟨s'', hcut.sim, fun m r' hr' => ?_⟩
    obtain ⟨hne, hr'⟩ := Maps.of_erase hr'
    exact hcut.others m r' hne (hmem m r' hr')

/-- A recovered node knows exactly what its disk holds. -/
theorem memOk_recover [Sha256]
    (h : Raft.recover n σ.configuration (w.stable n) = .ok r) : σ.MemOk w s n r := by
  unfold Raft.recover at h
  dsimp only at h
  split at h
  · cases h
  split at h
  · cases h
  split at h
  · cases h
  split at h
  · cases h
  split at h
  · cases h
  split at h
  · cases h
  · cases h
    exact MemOk.of_follower rfl rfl rfl rfl rfl

/-- One transition of the cluster. -/
theorem ClusterOk.next [Sha256] (hchecks : σ.Checks) {c' : Cluster} (h : σ.ClusterOk c)
    (hnext : c.next σ.configuration label = some c') (hallow : σ.Allows c label) :
    σ.ClusterOk c' := by
  rcases Cluster.next_cases hnext with ⟨n, input, count, hrun, hhands⟩ | ⟨n, rfl⟩ | ⟨n, r, hrecover,
    rfl⟩
  · exact h.run hchecks hrun hhands hallow
  · obtain ⟨s, hsim, hmem⟩ := h
    exact ⟨s, hsim, fun m r hr => hmem m r (Maps.of_erase hr).2⟩
  · obtain ⟨s, hsim, hmem⟩ := h
    refine ⟨s, hsim, fun m r' hr' => ?_⟩
    rcases Maps.of_insert hr' with ⟨rfl, rfl⟩ | ⟨-, hr'⟩
    · exact memOk_recover hrecover
    · exact hmem m r' hr'

/-- Runs whose transitions are all allowed stay in the invariant. -/
theorem clusterOk_of_reachableIf [Sha256] (hchecks : σ.Checks) {ok : Cluster → Cluster.Label → Prop}
    (hok : ∀ c label, ok c label → σ.Allows c label)
    (h : Cluster.ReachableIf σ.configuration ok c) : σ.ClusterOk c := by
  induction h with
  | init => exact clusterOk_init
  | next label _ hlabel hnext ih => exact ih.next hchecks hnext (hok _ label hlabel)

end Setting

end AsterRaft
