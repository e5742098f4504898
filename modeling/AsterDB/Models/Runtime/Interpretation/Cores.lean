import AsterDB.Core.Maps
import AsterDB.Models.Runtime.Native.System

/-!
# Runtimes run their consensus cores

Forgetting what runtimes add to their cores turns every run of a system into a
run of the cluster of its cores. A node that stops at a failed action looks
like one that crashed there.
-/

namespace AsterRuntime

open AsterRaft Std

variable {ρ : Type}

namespace Runtime

variable {rt rt' : Runtime ρ} {database : Database ρ} {replies : List (Reply ρ)}

/-- Applying an entry notes its result with the proposal that waits for it. -/
theorem applyEntry_cases {entry : LogEntry} (h : rt.applyEntry database entry = .ok rt') :
    (entry.payload = .noop ∧ rt' = rt) ∨
      ∃ id bytes result, entry.payload = .command id bytes ∧ rt' = { rt with
        pendingProposal := rt.pendingProposal.map fun pending =>
          if pending.id = id then { pending with applied := some (entry, result) }
          else pending } := by
  unfold applyEntry at h
  split at h
  · rename_i hpayload
    split at h
    · cases h
    · cases h
      exact Or.inl ⟨hpayload, rfl⟩
  · rename_i id bytes hpayload
    split at h
    · cases h
      exact Or.inr ⟨id, bytes, _, hpayload, rfl⟩
    · split at h
      · cases h
        exact Or.inr ⟨id, bytes, _, hpayload, rfl⟩
      · cases h

/-- What an action does to the waiting proposal: it ends it without an acknowledgement, leaves it,
notes its applied entry, or acknowledges it. -/
inductive Handles (rt : Runtime ρ) (a : Action) (rt' : Runtime ρ) (replies : List (Reply ρ)) : Prop
  | ends (none : rt'.pendingProposal = none) (no : ∀ answer, .acknowledged answer ∉ replies)
  | leaves (p) (before : rt.pendingProposal = some p)
      (after : rt'.pendingProposal = some p) (no : ∀ answer, .acknowledged answer ∉ replies)
      (role : ∀ role term, a = .roleChanged role term → role = .leader)
      (other : ∀ e bytes, a = .apply e → e.payload ≠ .command p.id bytes)
  | notes (p e bytes result) (apply : a = .apply e) (before : rt.pendingProposal = some p)
      (payload : e.payload = .command p.id bytes)
      (after : rt'.pendingProposal = some { p with applied := some (e, result) })
      (silent : replies = [])
  | answers (p e result) (committed : a = .proposalCommitted p.id e.index)
      (before : rt.pendingProposal = some p)
      (applied : p.applied = some (e, result)) (after : rt'.pendingProposal = none)
      (answer : replies = [.acknowledged {
        node := rt.nodeId
        id := p.id
        index := e.index
        command := p.command
        entry := e
        result }])

/-- Executing an action touches nothing but those who wait. -/
theorem executeAction_cases {a : Action} (h : rt.executeAction database a = .ok (rt', replies)) :
    (∃ pending reads, rt' = { rt with pendingProposal := pending, pendingReads := reads }) ∧
      Handles rt a rt' replies := by
  -- Actions that do not look at the proposal leave it as it is.
  have hkeep : (∃ reads, rt' = { rt with pendingReads := reads }) →
      (∀ answer, .acknowledged answer ∉ replies) →
      (∀ role term, a = .roleChanged role term → role = .leader) →
      (∀ p e bytes, rt.pendingProposal = some p → a = .apply e →
        e.payload ≠ .command p.id bytes) →
      (∃ pending reads, rt' = { rt with pendingProposal := pending, pendingReads := reads }) ∧
        Handles rt a rt' replies := by
    rintro ⟨reads, rfl⟩ hno hrole happly
    refine ⟨⟨_, _, rfl⟩, ?_⟩
    cases hp : rt.pendingProposal with
    | none => exact .ends rfl hno
    | some p => exact .leaves p hp rfl hno hrole fun e bytes => happly p e bytes hp
  cases a with
  | apply entry =>
    simp only [executeAction, Except.map] at h
    split at h
    · cases h
    rename_i rt₁ heq
    cases h
    rcases applyEntry_cases heq with ⟨hpayload, rfl⟩ | ⟨id, bytes, result, hpayload, rfl⟩
    · refine hkeep ⟨_, rfl⟩ (by simp) (by simp) ?_
      rintro p _ bytes _ ⟨⟩
      simp [hpayload]
    · refine ⟨⟨_, _, rfl⟩, ?_⟩
      cases hp : rt.pendingProposal with
      | none => exact .ends rfl (by simp)
      | some p =>
        by_cases hid : p.id = id
        · subst hid
          exact .notes p entry bytes result rfl hp hpayload (by simp) rfl
        · refine .leaves p hp (by simp [hid]) (by simp) (by simp) ?_
          rintro _ bytes' ⟨⟩ hsame
          rw [hpayload, EntryPayload.command.injEq] at hsame
          exact hid hsame.1.symm
  | proposalCommitted id index =>
    simp only [executeAction] at h
    split at h
    · cases h
      exact hkeep ⟨_, rfl⟩ (by simp) (by simp) (by simp)
    rename_i p hp
    split at h
    · cases h
      exact hkeep ⟨_, rfl⟩ (by simp) (by simp) (by simp)
    rename_i hid
    obtain rfl := not_not.mp hid
    split at h
    · cases h
    rename_i e result happlied
    split at h
    · cases h
    rename_i hindex
    obtain rfl := not_not.mp hindex
    cases h
    exact ⟨⟨_, _, rfl⟩, .answers p e result rfl hp happlied rfl rfl⟩
  | proposalRejected id leaderHint =>
    simp only [executeAction] at h
    split at h
    · cases h
      exact hkeep ⟨_, rfl⟩ (by simp) (by simp) (by simp)
    split at h
    · cases h
      exact ⟨⟨_, _, rfl⟩, .ends rfl (by simp)⟩
    · cases h
      exact hkeep ⟨_, rfl⟩ (by simp) (by simp) (by simp)
  | readReady context index =>
    simp only [executeAction] at h
    split at h
    · split at h
      · cases h
      · cases h
        exact hkeep ⟨_, rfl⟩ (by simp) (by simp) (by simp)
    · cases h
      exact hkeep ⟨_, rfl⟩ (by simp) (by simp) (by simp)
  | readRejected context error =>
    simp only [executeAction] at h
    split at h <;> cases h <;> exact hkeep ⟨_, rfl⟩ (by simp) (by simp) (by simp)
  | roleChanged role term =>
    simp only [executeAction] at h
    split at h
    · rename_i hrole
      cases h
      refine hkeep ⟨_, rfl⟩ (by simp) ?_ (by simp)
      rintro _ _ ⟨⟩
      exact hrole
    · cases h
      exact ⟨⟨_, _, rfl⟩, .ends rfl (by simp)⟩
  | persist | send | resetElectionTimer | resetHeartbeatTimer =>
    cases h
    exact hkeep ⟨_, rfl⟩ (by simp) (by simp) (by simp)
  | snapshotRejected | fatal => cases h

theorem executeAction_raft {a : Action} (h : rt.executeAction database a = .ok (rt', replies)) :
    rt'.raft = rt.raft := by
  obtain ⟨_, _, rfl⟩ := (executeAction_cases h).1
  rfl

variable {event : RuntimeEvent ρ} {stable : StableState} {input : Option Input}

/-- An event leaves the waiting proposal alone and proposes nothing, or it
registers a new proposal of a leader that had none. -/
theorem onEvent_cases [Sha256] (h : rt.onEvent stable database event = .ok (rt', replies, input)) :
    (rt'.raft = rt.raft ∧ rt'.nodeId = rt.nodeId ∧ rt'.pendingProposal = rt.pendingProposal ∧
      (∀ answer, .acknowledged answer ∉ replies) ∧
      ∀ i, input = some i → Cluster.localInput i = true ∧ ∀ id command, i ≠ .propose id command) ∨
    ∃ command, event = .propose (.ok (.propose command)) ∧ rt.raft.role = .leader ∧
      rt.pendingProposal = none ∧ replies = [] ∧
      input = some (.propose (commandId rt.nodeId rt.nextCommand) command) ∧
      rt' = { rt with
        nextCommand := rt.nextCommand + 1
        pendingProposal := some {
          id := commandId rt.nodeId rt.nextCommand
          command
          applied := none } } := by
  cases event with
  | timer tick =>
    cases h
    refine Or.inl ⟨rfl, rfl, rfl, by simp, fun i hi => ?_⟩
    split at hi
    · cases hi
      exact ⟨rfl, by simp⟩
    · cases hi
  | propose preparation =>
    simp only [onEvent, propose] at h
    split at h
    · cases h
      exact Or.inl ⟨rfl, rfl, rfl, by simp, by simp⟩
    split at h
    · cases h
      exact Or.inl ⟨rfl, rfl, rfl, by simp, by simp⟩
    rename_i hrole hpending
    split at h
    · cases h
      exact Or.inl ⟨rfl, rfl, rfl, by simp, by simp⟩
    · cases h
      exact Or.inl ⟨rfl, rfl, rfl, by simp, by simp⟩
    · rename_i command
      split at h
      · cases h
      · cases h
        exact Or.inr ⟨command, rfl, not_not.mp hrole, by simpa using hpending, rfl, rfl, rfl⟩
  | query =>
    simp only [onEvent, read] at h
    split at h
    · cases h
      exact Or.inl ⟨rfl, rfl, rfl, by simp, by simp⟩
    split at h
    · cases h
      exact Or.inl ⟨rfl, rfl, rfl, by simp, by simp⟩
    split at h
    · cases h
    · cases h
      refine Or.inl ⟨rfl, rfl, rfl, by simp, fun i hi => ?_⟩
      cases hi
      exact ⟨rfl, by simp⟩
  | snapshot =>
    simp only [onEvent, maybeSnapshot] at h
    split at h
    · cases h
      exact Or.inl ⟨rfl, rfl, rfl, by simp, by simp⟩
    split at h
    · cases h
    split at h
    · cases h
    split at h
    · cases h
    split at h
    · cases h
    · cases h
      refine Or.inl ⟨rfl, rfl, rfl, by simp, fun i hi => ?_⟩
      cases hi
      exact ⟨rfl, by simp⟩

theorem onEvent_raft [Sha256] (h : rt.onEvent stable database event = .ok (rt', replies, input)) :
    rt'.raft = rt.raft ∧ ∀ i, input = some i → Cluster.localInput i = true := by
  rcases onEvent_cases h with ⟨hraft, _, _, _, hinput⟩ | ⟨command, _, _, _, _, rfl, rfl⟩
  · exact ⟨hraft, fun i hi => (hinput i hi).1⟩
  · refine ⟨rfl, fun i hi => ?_⟩
    cases hi
    rfl

end Runtime

/-- Whatever the outcome, a prefix of the actions was performed; all of them if none failed. -/
theorem executeActions_world (n : NodeId) (role : Role) (database : Database ρ)
    (actions : List Action) (w : World) (rt : Runtime ρ) :
    ∃ k, (executeActions n role database actions w rt).1 =
        w.performAll n role (actions.take k) ∧
      ∀ rt', (executeActions n role database actions w rt).2.1 = .ok rt' →
        k = actions.length ∧ rt'.raft = rt.raft := by
  induction actions generalizing w rt with
  | nil => exact ⟨0, rfl, fun rt' h => by cases h; exact ⟨rfl, rfl⟩⟩
  | cons a rest ih =>
    unfold executeActions
    cases hexec : rt.executeAction database a with
    | error error => exact ⟨0, rfl, fun rt' h => by cases h⟩
    | ok result =>
      obtain ⟨rt₁, replies⟩ := result
      obtain ⟨k, hworld, hok⟩ := ih (w.perform n role a) rt₁
      refine ⟨k + 1, hworld, fun rt' h => ?_⟩
      obtain ⟨hk, hraft⟩ := hok rt' h
      exact ⟨congrArg Nat.succ hk, hraft.trans (Runtime.executeAction_raft hexec)⟩

namespace System

/-- The consensus cores of a system. -/
def cores (c : System ρ) : Cluster where
  world := c.world
  memory := c.memory.map fun _ rt => rt.raft

variable (c : System ρ)

theorem getElem?_cores (n : NodeId) :
    c.cores.memory[n]? = (c.memory[n]?).map (·.raft) := ExtTreeMap.getElem?_map

variable (m : ExtTreeMap NodeId (Runtime ρ))

/-- Storing a node stores its core. -/
theorem cores_insert (n : NodeId) (rt : Runtime ρ) :
    (m.insert n rt).map (fun _ rt => rt.raft) = (m.map fun _ rt => rt.raft).insert n rt.raft := by
  ext k : 1
  simp only [ExtTreeMap.getElem?_map, ExtTreeMap.getElem?_insert]
  split <;> rfl

/-- Dropping a node drops its core. -/
theorem cores_erase (n : NodeId) :
    (m.erase n).map (fun _ rt => rt.raft) = (m.map fun _ rt => rt.raft).erase n := by
  ext k : 1
  simp only [ExtTreeMap.getElem?_map, ExtTreeMap.getElem?_erase]
  split <;> rfl

variable [Sha256] {configuration : Configuration} {capacity : Nat}

/-- The actions a step executes, up to the crash if there is one. -/
def executed (r : Raft) (input : Input) : Option Nat → List Action
  | none => (r.step input).2
  | some k => (r.step input).2.take k

/-- The world, the outcome and the replies of a step. -/
def outcome (c : System ρ) (n : NodeId) (rt : Runtime ρ) (input : Input) (database : Database ρ)
    (count : Option Nat) : World × Result (Runtime ρ) × List (Reply ρ) :=
  executeActions n (rt.raft.step input).1.role database (executed rt.raft input count)
    (c.world.given n rt.raft.term input) { rt with raft := (rt.raft.step input).1 }

theorem step_eq (n : NodeId) (rt : Runtime ρ) (replies : List (Reply ρ))
    (input : Input) (database : Database ρ) (count : Option Nat) :
    c.step n rt replies input database count = {
      world := (c.outcome n rt input database count).1
      memory :=
        match count, (c.outcome n rt input database count).2.1 with
        | none, .ok rt => c.memory.insert n rt
        | _, _ => c.memory.erase n
      replies := c.replies ++ replies ++ (c.outcome n rt input database count).2.2 } := by
  cases count <;> rfl

theorem outcome_world (n : NodeId) (rt : Runtime ρ) (input : Input)
    (database : Database ρ) (count : Option Nat) :
    ∃ k, (c.outcome n rt input database count).1 =
        (c.world.given n rt.raft.term input).performAll n (rt.raft.step input).1.role
          ((executed rt.raft input count).take k) ∧
      ∀ rt', (c.outcome n rt input database count).2.1 = .ok rt' →
        k = (executed rt.raft input count).length ∧ rt'.raft = (rt.raft.step input).1 :=
  executeActions_world ..

/-- A step of a runtime is a step of its core, whole or cut by a crash. -/
theorem step_cores {m : Cluster} {n : NodeId} (rt : Runtime ρ) (hworld : m.world = c.world)
    (hup : m.memory[n]? = some rt.raft) (hothers : ∀ k ≠ n, m.memory[k]? = c.cores.memory[k]?)
    (replies : List (Reply ρ)) (input : Input) (database : Database ρ) (count : Option Nat) :
    ∃ count', m.run n input count' = some (c.step n rt replies input database count).cores := by
  have hinsert : ∀ r, m.memory.insert n r = c.cores.memory.insert n r := by
    intro r
    ext k : 1
    by_cases hk : k = n
    · rw [hk, ExtTreeMap.getElem?_insert_self, ExtTreeMap.getElem?_insert_self]
    · rw [Maps.insert_of_ne hk, Maps.insert_of_ne hk, hothers k hk]
  have herase : m.memory.erase n = c.cores.memory.erase n := by
    ext k : 1
    by_cases hk : k = n
    · rw [hk, ExtTreeMap.getElem?_erase_self, ExtTreeMap.getElem?_erase_self]
    · rw [Maps.erase_of_ne hk, Maps.erase_of_ne hk, hothers k hk]
  obtain ⟨k, hk, hok⟩ := c.outcome_world n rt input database count
  unfold Cluster.run
  rw [hup, step_eq]
  generalize c.outcome n rt input database count = result at hk hok ⊢
  obtain ⟨world, outcome, more⟩ := result
  cases count with
  | none =>
    cases outcome with
    | ok rt' =>
      obtain ⟨rfl, hraft⟩ := hok rt' rfl
      refine ⟨none, ?_⟩
      simp only [executed] at hk hraft
      simp only [cores, cores_insert, hk, hraft, List.take_length, hworld, hinsert]
    | error error =>
      refine ⟨some k, ?_⟩
      simp only [executed] at hk
      simp only [cores, cores_erase, hk, hworld, herase]
  | some j =>
    refine ⟨some (min k j), ?_⟩
    simp only [executed] at hk
    simp only [cores, cores_erase, hk, List.take_take, hworld, herase]

/-- One input to a core that is up. -/
theorem reachable_run {c : Cluster} {c' : Cluster} {n : NodeId} {input : Input}
    {count : Option Nat} (h : Cluster.Reachable configuration c)
    (hlocal : Cluster.localInput input = true) (hrun : c.run n input count = some c') :
    Cluster.Reachable configuration c' := by
  cases count with
  | none => exact h.next (.input n input) trivial (by simp only [Cluster.next, if_pos hlocal, hrun])
  | some k =>
    exact h.next (.inputCrash n input k) trivial (by simp only [Cluster.next, if_pos hlocal, hrun])

/-- One transition of a system is a run of its cores. -/
theorem reachable_next {c c' : System ρ} {label : Label ρ}
    (h : Cluster.Reachable configuration c.cores)
    (hnext : c.next configuration capacity label = some c') :
    Cluster.Reachable configuration c'.cores := by
  have hcrash : ∀ (n : NodeId) replies, Cluster.Reachable configuration
      ({ c with memory := c.memory.erase n, replies } : System ρ).cores := by
    intro n replies
    refine h.next (.crash n) trivial ?_
    simp only [Cluster.next, cores, cores_erase]
  cases label with
  | event n event database count =>
    simp only [next] at hnext
    split at hnext
    · cases hnext
    rename_i rt hup
    split at hnext
    · cases hnext
      exact hcrash n _
    · rename_i rt' replies hevent
      cases hnext
      have hraft := (Runtime.onEvent_raft hevent).1
      have hsame : (c.memory.insert n rt').map (fun _ rt => rt.raft) = c.cores.memory := by
        ext k : 1
        rw [cores_insert]
        by_cases hk : k = n
        · rw [hk, ExtTreeMap.getElem?_insert_self, getElem?_cores, hup, hraft]
          rfl
        · exact Maps.insert_of_ne hk
      have hcores : ({ c with
          memory := c.memory.insert n rt'
          replies := c.replies ++ replies } : System ρ).cores = c.cores := by
        unfold cores at hsame ⊢
        rw [hsame]
      rw [hcores]
      exact h
    · rename_i rt' replies input hevent
      cases hnext
      obtain ⟨hraft, hlocal⟩ := Runtime.onEvent_raft hevent
      obtain ⟨count', hrun⟩ := c.step_cores (m := c.cores) rt' rfl
        (by rw [getElem?_cores, hup, hraft]; rfl) (fun _ _ => rfl) replies input database count
      exact reachable_run h (hlocal input rfl) hrun
  | deliver k database count =>
    simp only [next] at hnext
    split at hnext
    · cases hnext
    rename_i p hp
    split at hnext
    · cases hnext
    rename_i rt hup
    cases hnext
    obtain ⟨count', hrun⟩ := c.step_cores (m := c.cores) rt rfl
      (by rw [getElem?_cores, hup]; rfl) (fun _ _ => rfl) [] (.message p.sender p.message) database
      count
    have hp' : c.cores.world.network[k]? = some p := hp
    cases count' with
    | none => exact h.next (.deliver k) trivial (by simp only [Cluster.next, hp', hrun])
    | some j => exact h.next (.deliverCrash k j) trivial (by simp only [Cluster.next, hp', hrun])
  | start n database count =>
    simp only [next] at hnext
    split at hnext
    · cases hnext
    rename_i hdown
    split at hnext
    · rename_i nextCommand raft _ hrecover
      cases hnext
      have hrestart : Cluster.Reachable configuration
          { c.cores with memory := c.cores.memory.insert n raft } := by
        refine h.next (.restart n) trivial ?_
        have hdown' : c.cores.memory[n]? = none := by
          rw [getElem?_cores, hdown]
          rfl
        have hrecover' : Raft.recover n configuration (c.cores.world.stable n) = .ok raft :=
          hrecover
        simp only [Cluster.next, hdown', hrecover']
      obtain ⟨count', hrun⟩ := c.step_cores
        (m := { c.cores with memory := c.cores.memory.insert n raft })
        (.new n capacity raft nextCommand) rfl ExtTreeMap.getElem?_insert_self
        (fun k => Maps.insert_of_ne)
        [] (.tick .heartbeat) database count
      exact reachable_run hrestart rfl hrun
    · cases hnext
  | shutdown n =>
    simp only [next] at hnext
    split at hnext
    · cases hnext
    · cases hnext
      exact hcrash n _
  | crash n =>
    cases hnext
    exact hcrash n _

/-- The cores of a run of runtimes run as a cluster. -/
theorem reachable_cores {ok : System ρ → Label ρ → Prop} {c : System ρ}
    (h : ReachableIf configuration capacity ok c) : Cluster.Reachable configuration c.cores := by
  induction h with
  | init =>
    exact .init
  | next label _ _ hnext ih => exact reachable_next ih hnext

end System

end AsterRuntime
