import AsterDB.Models.Raft.Correctness.StateMachine

/-!
# Linearizable reads

A read answered at an index covers every commit raised before the read was
given. A follower of a newer term echoes the context of a delayed append with
its own term, so this needs contexts that are never used again by a node, not
even in another term.
-/

namespace AsterRaft

open Std Consensus

/-- Every answered read lies at or above the commits that preceded its request,
and the answering node has applied up to its index. -/
def Cluster.ReadsCovered (c : Cluster) : Prop :=
  ∀ e older, e :: older <:+ c.world.history → ∀ ready, Event.ready? e = some ready →
    ready.index ≤ ready.appliedIndex ∧
    ∀ e' past, e' :: past <:+ older → ∀ read, Event.read? e' = some read →
      read.node = ready.node → read.context = ready.context →
      ∀ commit ∈ past.filterMap Event.commit?, commit.index ≤ ready.index

/-- The setting in which no read context is given to a node again. -/
def freshReads (configuration : Configuration) : Setting where
  configuration
  strict := False
  fresh := True

theorem Event.eq_given_of_read? {e : Event} {read : Event.Read} (h : e.read? = some read) :
    e = .given read.node read.term (.readIndex read.context) := by
  unfold Event.read? at h
  split at h
  · cases h
    rfl
  · cases h

theorem Event.eq_performed_of_ready? {e : Event} {ready : Event.Ready}
    (h : e.ready? = some ready) : ∃ role d, d.appliedIndex = ready.appliedIndex ∧
      e = .performed ready.node role d (.readReady ready.context ready.index) := by
  unfold Event.ready? at h
  split at h
  · cases h
    exact ⟨_, _, rfl, rfl⟩
  · cases h

/-- Reads are linearizable in every run that never repeats a read context at a node. -/
theorem linearizable_reads [Sha256] (configuration : Configuration) (c : Cluster)
    (h : Cluster.ReachableIf configuration (fun c label => c.rereads label = false) c) :
    c.ReadsCovered := by
  obtain ⟨s, hsim, _⟩ := Setting.clusterOk_of_reachableIf (σ := freshReads configuration)
    (fun _ _ _ => trivial) (fun _ _ hok => ⟨fun hs => hs.elim, fun _ => hok⟩) h
  intro e older hsuffix ready hready
  obtain ⟨role, d, happlied, rfl⟩ := Event.eq_performed_of_ready? hready
  obtain ⟨hle, hcover⟩ := (hsim.history _ _ hsuffix).read _ _ _ _ _ rfl
  refine ⟨by rwa [← happlied], fun e' past hpast read hread hnode hcontext commit hcommit => ?_⟩
  obtain rfl := Event.eq_given_of_read? hread
  rw [hnode, hcontext] at hpast
  obtain ⟨x, hx, hxc⟩ := List.mem_filterMap.mp hcommit
  exact hcover trivial read.term past hpast x hx commit hxc

/-- An element of a list starts a suffix. -/
theorem suffix_of_getElem? {α : Type} {l : List α} {i : Nat} {a : α} (h : l[i]? = some a) :
    a :: l.drop (i + 1) <:+ l := by
  obtain ⟨hlt, rfl⟩ := List.getElem?_eq_some_iff.mp h
  rw [← List.drop_eq_getElem_cons hlt]
  exact List.drop_suffix _ _

/-- Node 1 commits its marker, is given a read and answers it with node 2. -/
def readBarrier : List Cluster.Label :=
  firstTerm ++ [.input 1 (.readIndex [7]), .deliver 11, .deliver 13]

/-- The read of the barrier run covers the commit before it. -/
theorem linearizable_reads_readBarrier : ∃ c,
    @Cluster.ReachableIf zeroHash threeVoters (fun c label => c.rereads label = false) c ∧
      c.commits.map (·.index) = [1] ∧ c.world.history.filterMap Event.ready? = [⟨1, [7], 1, 1⟩] ∧
      c.ReadsCovered := by
  have hreach := Cluster.reachableIf_afterRun Cluster.rereads readBarrier
  exact ⟨_, hreach, by decide, by decide,
    @linearizable_reads zeroHash threeVoters _ hreach⟩

/-- Node 1 is given a read in term 1 and crashes. Leading term 2, it has node 2
reject the old append of that read, in term 2. Node 3 leads term 3 and commits
index 3 with node 2. Node 1, still in term 2, is given a read with the same
context, and the delayed rejection completes it. -/
def staleBarrier : List Cluster.Label :=
  firstTerm ++ [.input 1 (.readIndex [7]), .crash 1, .restart 1, .input 1 (.tick .election)] ++
  [13, 15, 16, 18, 19, 21, 22, 23, 20, 24, 25, 26, 11].map .deliver ++
  [.input 3 (.tick .election)] ++ [29, 30, 32, 33, 35, 36, 37, 38].map .deliver ++
  [.input 1 (.readIndex [7]), .deliver 27]

/-- The second read of node 1 is answered at index 2, after index 3 was committed. -/
theorem stale_read : ¬ ∀ (_ : Sha256) (configuration : Configuration) (c : Cluster),
    Cluster.Reachable configuration c → c.reads.Nodup → c.ReadsCovered := by
  intro hcovered
  set c := Cluster.afterRun (fun _ _ => false) staleBarrier
  obtain ⟨hreads, hready, hread, hthree⟩ : c.reads.Nodup ∧
      (c.world.history[1]?).bind Event.ready? = some ⟨1, [7], 2, 2⟩ ∧
      ((c.world.history.drop 2)[3]?).bind Event.read? = some ⟨1, 2, [7]⟩ ∧
      3 ∈ (((c.world.history.drop 2).drop 4).filterMap Event.commit?).map (·.index) := by
    decide +kernel
  obtain ⟨e, he, hready⟩ := Option.bind_eq_some_iff.mp hready
  obtain ⟨e', he', hread⟩ := Option.bind_eq_some_iff.mp hread
  have hall := (hcovered zeroHash threeVoters c (Cluster.reachable_afterRun staleBarrier) hreads e _
    (suffix_of_getElem? he) _ hready).2 e' _ (suffix_of_getElem? he') _ hread rfl rfl
  obtain ⟨commit, hmem, hindex⟩ := List.mem_map.mp hthree
  have := hall commit hmem
  simp only at this
  omega

end AsterRaft
