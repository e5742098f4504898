import AsterDB.Models.Raft.Interpretation.Relation

/-!
# Performing actions one at a time

A step performs its actions in order and may be cut after any of them. `Performs`
is the obligation of one action; `Track` follows a turn through its actions
and keeps every cut realisable.
-/

namespace AsterRaft

open Std Consensus
open Consensus.State (Evolve)

namespace Event

theorem commit?_node {n : NodeId} {role : Role} {d : StableState} {a : Action} {c : Commit}
    (h : commit? (.performed n role d a) = some c) : c.node = n := by
  unfold commit? at h
  split at h
  · rename_i heq
    split at h
    · cases heq
      cases h
      rfl
    · cases h
  · cases h

end Event

namespace Setting

variable (σ : Setting) (n : NodeId) (role : Role)

/-- One action of node `n` is justified by a protocol move from `s` to `s'`. -/
structure Performs (w : World) (s : Protocol) (a : Action) (s' : Protocol) : Prop where
  evolve : Evolve n s s'
  inv : σ.Inv s'
  numbered : ∀ T, Numbered (s'.leaderLog T)
  disk : σ.DiskOk s' n ((w.stable n).perform a)
  packet : ∀ receiver message, a = .send receiver message →
    σ.PacketOk w s' { sender := n, receiver, message }
  response : ∀ receiver T success matchIndex conflictIndex conflictTerm readContext,
    a = .send receiver (.appendEntriesResponse T success matchIndex conflictIndex conflictTerm
      readContext) → T = s'.term n
  event : σ.EventOk s' w.history (.performed n role (w.stable n) a)

/-- A world reached from `w₀` by actions of `n`, with the other nodes' knowledge intact. -/
structure Reached (w₀ : World) (s₀ : Protocol) (w : World) (s : Protocol) : Prop where
  sim : σ.Sim w s
  others : ∀ m r, m ≠ n → σ.MemOk w₀ s₀ m r → σ.MemOk w s m r

/-- A turn of `n` whose actions are justified so far, up to every cut. -/
structure Track (w₀ : World) (s₀ : Protocol) (t : Turn) (s : Protocol) : Prop where
  reached : σ.Reached n w₀ s₀ (w₀.performAll n role t.actions) s
  mem : σ.MemOk (w₀.performAll n role t.actions) s n t.raft
  cut : ∀ k, ∃ s', σ.Reached n w₀ s₀ (w₀.performAll n role (t.actions.take k)) s'

/-- Some protocol state justifies the turn. -/
def Good (w₀ : World) (s₀ : Protocol) (t : Turn) : Prop := ∃ s, σ.Track n role w₀ s₀ t s

variable {σ n role} {m : NodeId} {w w₀ : World} {s s' s₀ : Protocol} {a : Action} {t : Turn}

/-- A justified action leads to a world that realises the new protocol state. -/
theorem Sim.perform (h : σ.Sim w s) (hp : σ.Performs n role w s a s') :
    σ.Sim (w.perform n role a) s' where
  inv := hp.inv
  numbered := hp.numbered
  disk m := by
    by_cases hm : m = n
    · subst hm
      rw [World.stable_perform_self]
      exact hp.disk
    · rw [World.stable_perform_of_ne _ _ _ _ hm]
      exact (h.disk m).other hp.evolve hm
  packets p hmem := by
    have hnet : ∀ q ∈ w.network, q ∈ (w.perform n role a).network := fun q hq =>
      (World.mem_network_perform _ _ _ _).mpr (Or.inl hq)
    have hhist : ∀ e ∈ w.history, e ∈ (w.perform n role a).history := fun e he =>
      List.mem_cons_of_mem _ he
    rcases (World.mem_network_perform _ _ _ _).mp hmem with hold | ⟨hsender, ha⟩
    · exact (h.packets p hold).mono hp.evolve hnet hhist
    · have hpacket := hp.packet _ _ ha
      rw [← hsender] at hpacket
      exact hpacket.mono (Evolve.refl n s') hnet hhist
  history e older he := by
    rw [World.history_perform, List.suffix_cons_iff] at he
    rcases he with he | he
    · cases he
      exact hp.event
    · exact (h.history e older he).evolve h.inv hp.evolve

variable {r : Raft}

/-- Actions of one node leave the memory of the others in place. -/
theorem MemOk.other (h : σ.MemOk w s m r) (hp : σ.Performs n role w s a s')
    (hm : m ≠ n) : σ.MemOk (w.perform n role a) s' m r where
  id := h.id
  configuration := h.configuration
  stable := by
    rw [World.stable_perform_of_ne _ _ _ _ hm]
    exact h.stable
  log := h.log
  campaign := h.campaign
  candidate hr := (h.candidate hr).other hp.evolve hm
  leader hr := by
    have hlead := (h.leader hr).evolve hp.evolve
    refine hlead.perform (fun hmn => absurd hmn hm) ?_ hp.response
    intro c hc hT
    have hcl := (hp.event.commit c hc).1
    rw [hT, hlead.leader, Event.commit?_node hc, Option.some.injEq] at hcl
    exact absurd hcl hm
  covered hr i e hlt hle he := by
    rw [hp.evolve.log_other m hm] at he
    exact (h.covered hr i e hlt hle he).cons _

theorem Reached.perform (h : σ.Reached n w₀ s₀ w s) (hp : σ.Performs n role w s a s') :
    σ.Reached n w₀ s₀ (w.perform n role a) s' where
  sim := h.sim.perform hp
  others m r hm hmem := (h.others m r hm hmem).other hp hm

/-- Extend a turn by one justified action; the memory may change along with it. -/
theorem Track.push (h : σ.Track n role w₀ s₀ t s)
    (hp : σ.Performs n role (w₀.performAll n role t.actions) s a s')
    (hmem : σ.MemOk ((w₀.performAll n role t.actions).perform n role a) s' n r) :
    σ.Track n role w₀ s₀ { raft := r, actions := t.actions ++ [a] } s' := by
  have hreached := h.reached.perform hp
  rw [← World.performAll_concat] at hreached hmem
  refine ⟨hreached, hmem, fun k => ?_⟩
  by_cases hk : k ≤ t.actions.length
  · rw [List.take_append_of_le_length hk]
    exact h.cut k
  · rw [List.take_of_length_le (by simp only [List.length_append, List.length_singleton]; omega)]
    exact ⟨s', hreached⟩

/-- Memory alone may change between actions. -/
theorem Track.withRaft (h : σ.Track n role w₀ s₀ t s)
    (hmem : σ.MemOk (w₀.performAll n role t.actions) s n r) :
    σ.Track n role w₀ s₀ { raft := r, actions := t.actions } s :=
  ⟨h.reached, hmem, h.cut⟩

section Facts

variable (h : σ.Track n role w₀ s₀ t s)
include h

theorem Track.inv : σ.Inv s := h.reached.sim.inv

theorem Track.disk : σ.DiskOk s n t.raft.stableState := by
  rw [h.mem.stable]
  exact h.reached.sim.disk n

theorem Track.term : s.term n = t.raft.hardState.currentTerm := h.disk.term

theorem Track.vote : s.vote n (s.term n) = t.raft.hardState.votedFor := h.disk.vote

theorem Track.log : t.raft.log.Represents (s.log n) := by
  have hlog := h.disk.log
  rwa [show RaftLog.new t.raft.stableState.snapshot t.raft.stableState.entries = t.raft.log from
    h.mem.log] at hlog

theorem Track.base_le : t.raft.log.baseIndex ≤ t.raft.appliedIndex := by
  have hbase := h.disk.base_le
  rwa [show RaftLog.new t.raft.stableState.snapshot t.raft.stableState.entries = t.raft.log from
    h.mem.log] at hbase

theorem Track.applied_le : t.raft.appliedIndex ≤ t.raft.hardState.commitIndex := h.disk.applied_le

theorem Track.commit_le : t.raft.hardState.commitIndex ≤ (s.log n).length := h.disk.commit_le

theorem Track.settled (hs : σ.strict) : σ.Settled s n t.raft.hardState.commitIndex :=
  h.disk.settled hs

/-- A leader's log is the log of its term. -/
theorem Track.leader_log (hr : t.raft.role = .leader) :
    s.log n = s.leaderLog t.raft.hardState.currentTerm :=
  h.inv.leader_holds _ n (h.mem.leader hr).leader h.term

end Facts

end Setting

/-- Actions without durable effect whose packets and events carry no protocol fact. -/
def Action.quiet : Action → Bool
  | .persist _ | .apply _ | .proposalCommitted _ _ | .readReady _ _ => false
  | .roleChanged role _ => role ≠ .leader
  | .send _ (.preVoteRequest ..) | .send _ (.preVoteResponse ..) => true
  | .send _ _ => false
  | _ => true

namespace Setting

variable {σ : Setting} {n : NodeId} {role : Role} {w w₀ : World} {s s' s₀ : Protocol} {a : Action}
  {t : Turn} {older : List Event}

/-- An event that shows a vote at most. -/
theorem EventOk.of_vote {e : Event} (hc : e.commit? = none)
    (hl : e.election? = none) (ha : e.applied? = none)
    (hr : ∀ n role d context index, e ≠ .performed n role d (.readReady context index))
    (hp : ∀ n role d id index, e ≠ .performed n role d (.proposalCommitted id index))
    (hv : ∀ v, e.vote? = some v → s.vote v.node v.term = some v.candidate) :
    σ.EventOk s older e where
  commit c h := by simp [hc] at h
  election c h := by simp [hl] at h
  vote := hv
  applied _ entry h := by simp [ha] at h
  order n role d entry h := by simp [h, Event.applied?] at ha
  report n role d id index h := absurd h (hp n role d id index)
  read n role d context index h := absurd h (hr n role d context index)

theorem EventOk.of_quiet {d : StableState} (ha : a.quiet = true) :
    σ.EventOk s older (.performed n role d a) := by
  apply EventOk.of_vote
  case hc => cases role <;> cases a <;> simp_all [Event.commit?, Action.quiet]
  case hl =>
    cases a with
    | roleChanged role' T => cases role' <;> simp_all [Event.election?, Action.quiet]
    | _ => rfl
  case hv =>
    intro v hv
    cases a with
    | persist => simp [Action.quiet] at ha
    | send receiver message => cases message <;> simp_all [Event.vote?, Action.quiet]
    | _ => cases hv
  case ha => cases a <;> simp_all [Event.applied?, Action.quiet]
  case hr =>
    intro n role d context index h
    cases h
    simp [Action.quiet] at ha
  case hp =>
    intro n role d id index h
    cases h
    simp [Action.quiet] at ha

theorem perform_of_quiet (d : StableState) (ha : a.quiet = true) : d.perform a = d := by
  cases a <;> simp_all [StableState.perform, Action.quiet]

theorem Performs.of_quiet (h : σ.Sim w s) (ha : a.quiet = true) : σ.Performs n role w s a s where
  evolve := Evolve.refl n s
  inv := h.inv
  numbered := h.numbered
  disk := by
    rw [perform_of_quiet _ ha]
    exact h.disk n
  packet receiver message hsend := by
    subst hsend
    cases message <;> simp_all [Action.quiet, PacketOk]
  response _ _ _ _ _ _ _ hsend := by
    subst hsend
    simp [Action.quiet] at ha
  event := EventOk.of_quiet ha

variable {r : Raft}

/-- An action without durable effect keeps the node's memory in step with its disk. -/
theorem MemOk.perform_self (h : σ.MemOk w s n r) (hstable : (w.stable n).perform a = w.stable n)
    (hsnapshot : r.role = .leader → ∀ receiver leaderId metadata offset data done,
      a = .send receiver (.installSnapshot r.term leaderId metadata offset data done) →
      metadata.lastIncludedIndex ≤ r.commitIndex)
    (hcommit : Event.commit? (.performed n role (w.stable n) a) = none)
    (hresponse : ∀ receiver T success matchIndex conflictIndex conflictTerm readContext,
      a = .send receiver (.appendEntriesResponse T success matchIndex conflictIndex conflictTerm
        readContext) → T = s.term n) : σ.MemOk (w.perform n role a) s n r where
  id := h.id
  configuration := h.configuration
  stable := by
    rw [World.stable_perform_self, hstable]
    exact h.stable
  log := h.log
  campaign := h.campaign
  candidate := h.candidate
  leader hr := (h.leader hr).perform (fun _ => hsnapshot hr)
    (fun c hc => by simp [hcommit] at hc) hresponse
  covered hr := (h.covered hr).cons _

theorem MemOk.perform_quiet (h : σ.MemOk w s n r) (ha : a.quiet = true) :
    σ.MemOk (w.perform n role a) s n r := by
  apply h.perform_self (perform_of_quiet _ ha)
  · intro _ _ _ _ _ _ _ hsend
    subst hsend
    simp [Action.quiet] at ha
  · cases role <;> cases a <;> simp_all [Event.commit?, Action.quiet]
  · intro _ _ _ _ _ _ _ hsend
    subst hsend
    simp [Action.quiet] at ha

theorem Track.quiet (h : σ.Track n role w₀ s₀ t s) (ha : a.quiet = true) :
    σ.Track n role w₀ s₀ (t.push a) s :=
  h.push (Performs.of_quiet h.reached.sim ha) (h.mem.perform_quiet ha)

theorem Track.quiets {actions : List Action} (quiets : List Action)
    (h : σ.Track n role w₀ s₀ { raft := r, actions } s) (ha : ∀ a ∈ quiets, a.quiet = true) :
    σ.Track n role w₀ s₀ { raft := r, actions := actions ++ quiets } s := by
  induction quiets generalizing actions with
  | nil => simpa using h
  | cons a rest ih =>
    have hpush := h.quiet (ha a (by simp))
    have := ih hpush fun b hb => ha b (List.mem_cons_of_mem _ hb)
    simpa using this

/-- Send a packet whose facts hold. -/
theorem Track.send (h : σ.Track n role w₀ s₀ t s) {receiver : NodeId} {message : Message}
    (hp : σ.PacketOk (w₀.performAll n role t.actions) s { sender := n, receiver, message })
    (hsnapshot : t.raft.role = .leader → ∀ leaderId metadata offset data done,
      message = .installSnapshot t.raft.term leaderId metadata offset data done →
      metadata.lastIncludedIndex ≤ t.raft.commitIndex)
    (hresponse : ∀ T success matchIndex conflictIndex conflictTerm readContext,
      message = .appendEntriesResponse T success matchIndex conflictIndex conflictTerm
        readContext → T = t.raft.hardState.currentTerm) :
    σ.Track n role w₀ s₀ (t.push (.send receiver message)) s := by
  have hresponse' : ∀ receiver' T success matchIndex conflictIndex conflictTerm readContext,
      Action.send receiver message = .send receiver' (.appendEntriesResponse T success matchIndex
        conflictIndex conflictTerm readContext) → T = s.term n := by
    intro receiver' T success matchIndex conflictIndex conflictTerm readContext hsend
    cases hsend
    rw [h.term]
    exact hresponse _ _ _ _ _ _ rfl
  refine h.push ⟨Evolve.refl n s, h.inv, h.reached.sim.numbered, h.reached.sim.disk n, ?_,
    hresponse', ?_⟩ ?_
  · rintro _ _ ⟨⟩
    exact hp
  · refine EventOk.of_vote (by cases role <;> rfl) rfl rfl (by simp) (by simp) fun v hv => ?_
    cases message with
    | requestVoteResponse T granted =>
      cases granted with
      | false => cases hv
      | true =>
        cases hv
        exact hp rfl
    | _ => cases hv
  · apply h.mem.perform_self rfl
    · intro hr receiver' leaderId metadata offset data done hsend
      cases hsend
      exact hsnapshot hr _ _ _ _ _ rfl
    · cases role <;> rfl
    · exact hresponse'

end Setting

end AsterRaft
