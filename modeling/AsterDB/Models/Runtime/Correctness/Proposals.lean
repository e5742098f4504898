import AsterDB.Models.Runtime.Interpretation.Pending

/-!
# Proposals are answered with the outcome of their own command

A restarted node numbers its proposals after those it finds in its log. An
entry it proposed in an earlier life may be missing there and come back from
another leader; a proposal that takes its number over is answered with the
outcome of the old command. As long as no leader proposes under a number that
an entry it has still to apply already carries, every acknowledgement belongs
to the proposal's own, committed entry.
-/

namespace AsterRuntime

open AsterRaft Std

variable {ρ : Type}

/-- An entry the node has still to apply carries the next number. -/
def Runtime.numberTaken (rt : Runtime ρ) : Bool :=
  rt.raft.log.entries.any fun e => decide (rt.raft.appliedIndex < e.index) &&
    decide (commandId? e = some (commandId rt.nodeId rt.nextCommand))

namespace System

/-- The transition lets a leader propose under a number that is taken. -/
def reusesNumber (c : System ρ) : Label ρ → Bool
  | .event n (.propose (.ok (.propose _))) _ _ =>
    match c.memory[n]? with
    | none => false
    | some rt =>
      decide (rt.raft.role = .leader) && rt.pendingProposal.isNone && rt.numberTaken
  | _ => false

/-- A node at rest whose proposal may wait. -/
structure NodeOk (w : World) (n : NodeId) (rt : Runtime ρ) : Prop where
  id : rt.nodeId = n
  leader : ∀ p, rt.pendingProposal = some p → rt.raft.role = .leader
  owns : ∀ p, rt.pendingProposal = some p → Owns (w.stable n) p.id p.command
  applied : ∀ p, rt.pendingProposal = some p → ∀ e result, p.applied = some (e, result) →
    e.payload = .command p.id p.command

variable {w : World}

theorem NodeOk.congr {n : NodeId} {rt rt' : Runtime ρ} (h : NodeOk w n rt)
    (hid : rt'.nodeId = rt.nodeId) (hraft : rt'.raft = rt.raft)
    (hpending : rt'.pendingProposal = rt.pendingProposal) : NodeOk w n rt' := by
  refine ⟨hid.trans h.id, ?_, ?_, ?_⟩ <;> rw [hpending]
  · rw [hraft]
    exact h.leader
  · exact h.owns
  · exact h.applied

/-- Nodes at rest and everything acknowledged so far. -/
structure Ok (c : System ρ) : Prop where
  nodes : ∀ n rt, c.memory[n]? = some rt → NodeOk c.world n rt
  answers : ∀ answer, .acknowledged answer ∈ c.replies → AnswerOk c.world.history answer

theorem ok_init : Ok (init : System ρ) where
  nodes n rt h := by simp [init] at h
  answers answer h := by simp [init] at h

variable {c : System ρ}

theorem mem_acknowledgements {answer : Acknowledgement ρ} :
    answer ∈ c.acknowledgements ↔ .acknowledged answer ∈ c.replies := by
  unfold acknowledgements
  rw [List.mem_filterMap]
  constructor
  · rintro ⟨reply, hmem, heq⟩
    split at heq
    · cases heq
      exact hmem
    · cases heq
  · intro h
    exact ⟨_, h, rfl⟩

variable {replies : List (Reply ρ)}

/-- Dropping a node and sending replies without acknowledgements. -/
theorem Ok.erase (h : Ok c) (n : NodeId) (hreplies : ∀ answer, .acknowledged answer ∉ replies) :
    Ok { c with memory := c.memory.erase n, replies := c.replies ++ replies } where
  nodes m rt hm := h.nodes m rt (Maps.of_erase hm).2
  answers answer hans := by
    rcases List.mem_append.mp hans with hans | hans
    · exact h.answers answer hans
    · exact absurd hans (hreplies answer)

variable {n : NodeId}

/-- Executing actions of `n` leaves the disks of others alone. -/
theorem stable_executeActions {m : NodeId} (hm : m ≠ n) (role : Role) (database : Database ρ)
    (actions : List Action) (w : World) (rt : Runtime ρ) :
    (executeActions n role database actions w rt).1.stable m = w.stable m := by
  induction actions generalizing w rt with
  | nil => rfl
  | cons a rest ih =>
    unfold executeActions
    split
    · rfl
    · exact (ih _ _).trans (World.stable_perform_of_ne _ _ _ _ hm)

/-- What a node knows of its disk, as far as the waiting proposal needs it. -/
structure Synced (w : World) (n : NodeId) (r : Raft) : Prop where
  log : RaftLog.new (w.stable n).snapshot (w.stable n).entries = r.log
  applied : (w.stable n).appliedIndex = r.appliedIndex
  represents : ∃ full, r.log.Represents full

theorem synced_of_memOk {σ : Setting} {s : Protocol} {r : Raft}
    (hsim : σ.Sim w s) (hmem : σ.MemOk w s n r) : Synced w n r := by
  have hdisk := (hsim.disk n).log
  rw [← hmem.stable] at hdisk
  refine ⟨?_, ?_, s.log n, ?_⟩
  · rw [← hmem.stable]
    exact hmem.log
  · rw [← hmem.stable]
    rfl
  · exact hmem.log ▸ hdisk

variable {rt : Runtime ρ}

/-- A number that is not taken belongs to no entry still to be applied. -/
theorem owns_of_numberTaken {command : Bytes}
    (hsynced : Synced w n rt.raft) (hfree : rt.numberTaken = false) :
    Owns (w.stable n) (commandId rt.nodeId rt.nextCommand) command := by
  obtain ⟨hlog, happlied, full, hrep⟩ := hsynced
  intro i e hi he bytes hpayload
  rw [hlog] at he
  obtain ⟨_, hget⟩ := hrep.entry_some he
  have hindex : e.index = i - 1 + 1 := hrep.numbered _ e hget
  have hmem : e ∈ rt.raft.log.entries := by
    unfold RaftLog.entry at he
    split at he
    · cases he
    · exact List.mem_of_getElem? he
  unfold Runtime.numberTaken at hfree
  rw [List.any_eq_false] at hfree
  refine absurd ?_ (hfree e hmem)
  simp only [Bool.and_eq_true, decide_eq_true_eq]
  exact ⟨by omega, by simp [commandId?, hpayload]⟩

variable [Sha256] {configuration : Configuration} {capacity : Nat}

variable {input : Input}

/-- A node with a waiting proposal that is given an input. -/
theorem NodeOk.waiting (hnode : NodeOk c.world n rt) {p : PendingProposal ρ}
    (hp : rt.pendingProposal = some p) (hsynced : Synced c.world n rt.raft)
    (hinput : ∀ id command, input = .propose id command → id = p.id ∧ command = p.command) :
    Waiting rt.raft.log rt.raft.appliedIndex ((rt.raft.step input).1.role = .leader)
      (c.world.given n rt.raft.term input) n (rt.raft.step input).2 p := by
  obtain ⟨hlog, happlied, full, hrep⟩ := hsynced
  have howns := hnode.owns p hp
  refine ⟨howns, happlied.ge, fun i e hi he => ?_, guarded_step (hnode.leader p hp) hrep input ?_,
    hnode.applied p hp, ?_⟩
  · refine howns i e (happlied.trans_lt hi) ?_
    rw [hlog]
    exact he
  · rintro id command rfl e hpayload bytes hbytes
    obtain ⟨rfl, rfl⟩ := hinput id command rfl
    rw [hpayload, EntryPayload.command.injEq] at hbytes
    exact hbytes.2.symm
  · intro role d e bytes older hhead
    cases hhead

variable {database : Database ρ} {count : Option Nat}

/-- A step keeps a waiting proposal in order and gives its acknowledgement its due. -/
theorem NodeOk.outcome {σ : Setting} {s : Protocol} (hnode : NodeOk c.world n rt)
    (hsynced : rt.pendingProposal ≠ none → Synced c.world n rt.raft)
    (hinput : ∀ p id command, rt.pendingProposal = some p → input = .propose id command →
      id = p.id ∧ command = p.command)
    (hevents : ∀ e older, e :: older <:+ (c.outcome n rt input database count).1.history →
      σ.EventOk s older e) :
    (∀ rt', count = none → (c.outcome n rt input database count).2.1 = .ok rt' →
      NodeOk (c.outcome n rt input database count).1 n rt') ∧
    ∀ answer, .acknowledged answer ∈ (c.outcome n rt input database count).2.2 →
      AnswerOk (c.outcome n rt input database count).1.history answer := by
  have hwait : ∀ p, rt.pendingProposal = some p →
      Waiting rt.raft.log rt.raft.appliedIndex
        (count = none → (rt.raft.step input).1.role = .leader)
        (c.world.given n rt.raft.term input) n (executed rt.raft input count) p := by
    intro p hp
    have hstart := hnode.waiting hp (hsynced (by simp [hp])) fun id command =>
      hinput p id command hp
    refine { hstart with guarded := ?_ }
    cases count with
    | none => exact hstart.guarded.mono (fun hr _ => hr) _
    | some k => exact (hstart.guarded.take _ k).mono (fun _ hcount => by cases hcount) _
  obtain ⟨hok, hanswers⟩ := Waiting.executeActions (rt.raft.step input).1.role database
    (executed rt.raft input count) (c.world.given n rt.raft.term input)
    { rt with raft := (rt.raft.step input).1 } hnode.id hwait hevents
  refine ⟨fun rt' hcount hrt => ?_, hanswers⟩
  obtain ⟨hid, hpending⟩ := hok rt' hrt
  obtain ⟨_, _, hraft⟩ := c.outcome_world n rt input database count
  refine ⟨hid, fun p hp => ?_, fun p hp => (hpending p hp).owns, fun p hp =>
    (hpending p hp).applied⟩
  rw [(hraft rt' hrt).2]
  exact (hpending p hp).guarded hcount

/-- One step of a core with the execution of its actions. -/
theorem Ok.step (h : Ok c)
    (hreach : Cluster.Reachable configuration (c.step n rt replies input database count).cores)
    (hnode : NodeOk c.world n rt) (hsynced : rt.pendingProposal ≠ none → Synced c.world n rt.raft)
    (hinput : ∀ p id command, rt.pendingProposal = some p → input = .propose id command →
      id = p.id ∧ command = p.command) (hreplies : ∀ answer, .acknowledged answer ∉ replies) :
    Ok (c.step n rt replies input database count) := by
  obtain ⟨s, hsim, _⟩ := clusterOk_of_reachable hreach
  rw [step_eq] at hsim ⊢
  obtain ⟨hnode', hanswers⟩ := hnode.outcome hsynced hinput hsim.history
  have hothers : ∀ m ≠ n, ∀ rt', c.memory[m]? = some rt' →
      NodeOk (c.outcome n rt input database count).1 m rt' := by
    intro m hm rt' hrt
    have hold := h.nodes m rt' hrt
    refine { hold with owns := fun p hp => ?_ }
    rw [outcome, stable_executeActions hm]
    exact hold.owns p hp
  have herase : ∀ m rt', (c.memory.erase n)[m]? = some rt' →
      NodeOk (c.outcome n rt input database count).1 m rt' := by
    intro m rt' hrt
    obtain ⟨hne, hrt⟩ := Maps.of_erase hrt
    exact hothers m hne rt' hrt
  constructor
  · intro m rt' hrt
    split at hrt
    · rename_i rt₁ hout
      rcases Maps.of_insert hrt with ⟨rfl, rfl⟩ | ⟨hne, hrt⟩
      · exact hnode' _ rfl hout
      · exact hothers m hne rt' hrt
    · exact herase m rt' hrt
  · intro answer hans
    rw [List.mem_append, List.mem_append] at hans
    rcases hans with (hans | hans) | hans
    · refine (h.answers answer hans).mono fun e he => ?_
      obtain ⟨k, hworld, _⟩ := c.outcome_world n rt input database count
      rw [hworld]
      exact World.mem_history_performAll _ (List.mem_cons_of_mem _ he)
    · exact absurd hans (hreplies answer)
    · exact hanswers answer hans

/-- One transition that reuses no number. -/
theorem Ok.next {c c' : System ρ} {label : Label ρ} (h : Ok c)
    (hreach : Cluster.Reachable configuration c.cores)
    (hnext : c.next configuration capacity label = some c')
    (hfree : c.reusesNumber label = false) : Ok c' := by
  have hreach' := reachable_next hreach hnext
  obtain ⟨s, hsim, hmem⟩ := clusterOk_of_reachable hreach
  have hsynced : ∀ n rt, c.memory[n]? = some rt → Synced c.world n rt.raft := fun n rt hup =>
    synced_of_memOk hsim (hmem n rt.raft (by rw [getElem?_cores, hup]; rfl))
  cases label with
  | event n event database count =>
    simp only [System.next] at hnext
    split at hnext
    · cases hnext
    rename_i rt hup
    have hnode := h.nodes n rt hup
    split at hnext
    · cases hnext
      simpa using h.erase n fun _ => List.not_mem_nil
    · rename_i rt' replies hevent
      cases hnext
      rcases Runtime.onEvent_cases hevent with ⟨hraft, hid, hpending, hno, _⟩ |
        ⟨_, _, _, _, _, hinput, _⟩
      · constructor
        · intro m rt₁ hm
          rcases Maps.of_insert hm with ⟨rfl, rfl⟩ | ⟨-, hm⟩
          · exact hnode.congr hid hraft hpending
          · exact h.nodes m rt₁ hm
        · intro answer hans
          rcases List.mem_append.mp hans with hans | hans
          · exact h.answers answer hans
          · exact absurd hans (hno answer)
      · cases hinput
    · rename_i rt' replies input hevent
      cases hnext
      rcases Runtime.onEvent_cases hevent with ⟨hraft, hid, hpending, hno, hinput⟩ |
        ⟨command, rfl, hrole, hidle, rfl, hinput, rfl⟩
      · refine h.step hreach' (hnode.congr hid hraft hpending) (fun _ => ?_)
          (fun p id command _ hpropose => ?_) hno
        · rw [hraft]
          exact hsynced n rt hup
        · exact absurd hpropose ((hinput input rfl).2 id command)
      · cases hinput
        have hnumber : rt.numberTaken = false := by
          simpa [reusesNumber, hup, hrole, hidle] using hfree
        refine h.step hreach' ⟨hnode.id, fun _ _ => hrole, ?_, ?_⟩ (fun _ => hsynced n rt hup) ?_
          (by simp)
        · rintro p ⟨⟩
          exact owns_of_numberTaken (hsynced n rt hup) hnumber
        · rintro p ⟨⟩ e result happlied
          cases happlied
        · rintro p id command' ⟨⟩ ⟨⟩
          exact ⟨rfl, rfl⟩
  | deliver k database count =>
    simp only [System.next] at hnext
    split at hnext
    · cases hnext
    split at hnext
    · cases hnext
    rename_i p _ rt hup
    cases hnext
    exact h.step hreach' (h.nodes _ rt hup) (fun _ => hsynced _ rt hup) (by simp) (by simp)
  | start n database count =>
    simp only [System.next] at hnext
    split at hnext
    · cases hnext
    split at hnext
    · cases hnext
      refine h.step hreach' ⟨rfl, ?_, ?_, ?_⟩ ?_ (by simp) (by simp) <;> simp [Runtime.new]
    · cases hnext
  | shutdown n =>
    simp only [System.next] at hnext
    split at hnext
    · cases hnext
    · cases hnext
      exact h.erase n (by simp [Runtime.rejectPending])
  | crash n =>
    cases hnext
    simpa using h.erase n fun _ => List.not_mem_nil

/-- Runs that never reuse a number. -/
theorem ok_of_reachableIf
    (h : ReachableIf configuration capacity (fun c label => c.reusesNumber label = false) c) :
    Ok c := by
  induction h with
  | init => exact ok_init
  | next label hreach hfree hnext ih => exact ih.next (reachable_cores hreach) hnext hfree

end System

/-- In runs that never reuse a number, a proposal is acknowledged with the result
of an applied, committed entry that carries the proposal's own command. -/
theorem proposal_acknowledged [Sha256] (configuration : Configuration) (capacity : Nat)
    (c : System ρ) (h : System.ReachableIf configuration capacity
      (fun c label => c.reusesNumber label = false) c) (answer : Acknowledgement ρ)
    (ha : answer ∈ c.acknowledgements) :
    (∃ role before,
      .performed answer.node role before (.apply answer.entry) ∈ c.world.history) ∧
    answer.entry.index = answer.index ∧
    answer.entry.payload = .command answer.id answer.command ∧
    ∃ commit ∈ c.cores.commits, commit.node = answer.node ∧ answer.index ≤ commit.index ∧
      commit.log.entry answer.index = some answer.entry := by
  have hok := (System.ok_of_reachableIf h).answers answer (System.mem_acknowledgements.mp ha)
  refine ⟨hok.applied, hok.index, hok.payload, ?_⟩
  obtain ⟨e, he, commit, hcommit, hnode, hle, hentry⟩ := hok.committed
  exact ⟨commit, List.mem_filterMap.mpr ⟨e, he, hcommit⟩, hnode, hle, hentry⟩

/-- A database that answers every command with the command. -/
def echo : Database Bytes where
  applyReplicated index bytes := (.ok bytes, index)
  applyRaftNoop _ _ := .ok ()
  executeReadOnly _ := (0, .error "no reads")
  appliedIndex := 0
  createSnapshot := .error "no snapshots"

/-- Deliver packets one after another. -/
def deliveries (packets : List Nat) : List (System.Label Bytes) :=
  packets.map fun k => .deliver k echo none

/-- Start nodes one after another. -/
def starts (nodes : List NodeId) : List (System.Label Bytes) :=
  nodes.map fun n => .start n echo none

def campaign (n : NodeId) : System.Label Bytes := .event n (.timer .election) echo none

def request (n : NodeId) (command : Bytes) : System.Label Bytes :=
  .event n (.propose (.ok (.propose command))) echo none

/-- Node 1 leads and commits a proposal with node 2. -/
def proposing : List (System.Label Bytes) :=
  starts [1, 2, 3] ++ [campaign 1] ++ deliveries [0, 2, 3, 5, 6, 8, 9] ++ [request 1 [88]] ++
    deliveries [11, 13]

/-- The proposal is acknowledged with its own entry. -/
theorem proposal_acknowledged_proposing : ∃ c answer,
    @System.ReachableIf Bytes zeroHash threeVoters 4
      (fun c label => c.reusesNumber label = false) c ∧
    answer ∈ c.acknowledgements ∧ answer.index = 2 ∧ answer.command = [88] ∧
    answer.entry.payload = .command answer.id [88] := by
  have hsome : ((Runs.executeIf (@System.next Bytes zeroHash threeVoters 4)
      (fun c label => !c.reusesNumber label) .init proposing).map fun c =>
        c.acknowledgements.map fun answer => (answer.index, answer.command)) =
      some [(2, [88])] := by
    decide
  obtain ⟨c, hrun, hacks⟩ := Option.map_eq_some_iff.mp hsome
  have hreach : @System.ReachableIf Bytes zeroHash threeVoters 4
      (fun c label => c.reusesNumber label = false) c :=
    Runs.ReachableIf.init.executeIf (fun c label h => by simpa using h) hrun
  obtain ⟨answer, hans, heq⟩ := List.map_eq_singleton_iff.mp hacks
  have hmem : answer ∈ c.acknowledgements := by
    rw [hans]
    exact List.mem_singleton_self _
  rw [Prod.mk.injEq] at heq
  refine ⟨c, answer, hreach, hmem, heq.1, heq.2, ?_⟩
  rw [← heq.2]
  exact (@proposal_acknowledged Bytes zeroHash threeVoters 4 c hreach answer hmem).2.2.1

def fiveVoters : Configuration where
  participants := ExtTreeSet.ofList [1, 2, 3, 4, 5]
  incoming := ExtTreeSet.ofList [1, 2, 3, 4, 5]
  outgoing := none

/-- Node 1 leads term 1 and proposes `[88]`, which reaches node 2 alone. Node 3,
leading term 2, replaces that entry on node 1, which then restarts and counts
from the beginning. Node 2, leading term 3, hands the entry back. Node 1 leads
term 4 and proposes `[89]` under the old number; nodes 4 and 5 commit both. -/
def renumbered : List (System.Label Bytes) :=
  starts [1, 2, 3, 4, 5] ++ [campaign 1] ++
    deliveries [0, 4, 1, 5, 6, 10, 7, 11, 12, 16, 17, 18, 13, 19, 20, 21] ++ [request 1 [88]] ++
    deliveries [22] ++ [campaign 3] ++ deliveries [29, 31, 30, 32, 35, 37, 36, 38, 39, 43, 44] ++
    [.crash 1] ++ starts [1] ++ [campaign 2] ++ deliveries [48, 50] ++ [campaign 2] ++
    deliveries [53, 55, 54, 56, 59, 61, 60, 62, 63, 67, 68, 69, 70] ++ [campaign 1] ++
    deliveries [74, 76, 75, 77, 80, 82, 81, 83] ++ [request 1 [89]] ++
    deliveries [90, 92, 93, 94, 91, 95, 96, 97]

/-- The second proposal is answered with the entry and the result of the first. -/
theorem acknowledged_with_other_command : ∃ c answer,
    @System.Reachable Bytes zeroHash fiveVoters 4 c ∧ answer ∈ c.acknowledgements ∧
    answer.command = [89] ∧ answer.entry.payload = .command answer.id [88] ∧
    answer.result = .ok [88] := by
  have hsome : ((Runs.executeIf (@System.next Bytes zeroHash fiveVoters 4) (fun _ _ => true) .init
      renumbered).map fun c => c.acknowledgements.map fun answer =>
        (answer.command, answer.entry.payload == .command answer.id [88], answer.result)) =
      some [([89], true, .ok [88])] := by
    decide +kernel
  obtain ⟨c, hrun, hacks⟩ := Option.map_eq_some_iff.mp hsome
  have hreach : @System.Reachable Bytes zeroHash fiveVoters 4 c :=
    Runs.ReachableIf.init.executeIf (fun _ _ _ => trivial) hrun
  obtain ⟨answer, hans, heq⟩ := List.map_eq_singleton_iff.mp hacks
  simp only [Prod.mk.injEq, beq_iff_eq] at heq
  refine ⟨c, answer, hreach, ?_, heq.1, heq.2.1, heq.2.2⟩
  rw [hans]
  exact List.mem_singleton_self _

end AsterRuntime
