import AsterDB.Models.Raft.Correctness.Safety

/-!
# State-machine safety

A follower takes over the leader's commit index up to the end of its own log.
If all entries of the append are held already, the log may run on behind them
with entries the leader never compared, and a stale leader's entries get
committed and applied. Without such appends, nodes never apply different
entries at one index.
-/

namespace AsterRaft

open Std Consensus

/-- The setting in which no delivered append overreaches. -/
def covered (configuration : Configuration) : Setting where
  configuration
  strict := True
  fresh := False

namespace Setting

variable {σ : Setting} {s : Protocol}

/-- Committed entries of any two terms agree where both reach. -/
theorem committed_entry_unique (hi : σ.Inv s) {U V i j k : Nat} {x y : LogEntry}
    (hU : σ.Committed s U i) (hV : σ.Committed s V j) (hki : k < i) (hUV : U ≤ V)
    (hx : (s.leaderLog U)[k]? = some x) (hy : (s.leaderLog V)[k]? = some y) : x = y := by
  rcases hUV.eq_or_lt with rfl | hlt
  · rw [hx, Option.some.injEq] at hy
    exact hy
  · cases hl : s.leader V with
    | none =>
      obtain ⟨e, _, he, _⟩ := hV.1
      rw [hi.leaderLog_nil V hl] at he
      simp at he
    | some c =>
      have hsame := hi.leaderLog_of_committed hU hlt hl
      have hget := congrArg (fun l : List LogEntry => l[k]?) hsame
      simp only [List.getElem?_take, if_pos hki, hx, hy, Option.some.injEq] at hget
      exact hget.symm

end Setting

/-- Without overreaching appends, one index is applied with one entry. -/
theorem state_machine_safety [Sha256] (configuration : Configuration) (c : Cluster)
    (h : Cluster.ReachableIf configuration (fun c label => c.overreaches label = false) c) :
    ∀ x ∈ c.applied, ∀ y ∈ c.applied, x.index = y.index → x = y := by
  obtain ⟨s, hsim, _⟩ := Setting.clusterOk_of_reachableIf (σ := covered configuration)
    (fun _ _ _ => trivial) (fun _ _ hok => ⟨fun _ => hok, fun hf => hf.elim⟩) h
  intro x hx y hy hindex
  obtain ⟨e, _, he, hevent⟩ := hsim.observed hx
  obtain ⟨e', _, he', hevent'⟩ := hsim.observed hy
  obtain ⟨U, i, hU, hpos, hi, hgetx⟩ := hevent.applied trivial x he
  obtain ⟨V, j, hV, _, hj, hgety⟩ := hevent'.applied trivial y he'
  rw [← hindex] at hj hgety
  rcases le_total U V with hUV | hVU
  · exact Setting.committed_entry_unique hsim.inv hU hV (by omega) hUV hgetx hgety
  · exact (Setting.committed_entry_unique hsim.inv hV hU (by omega) hVU hgety hgetx).symm

/-- Node 1 commits and applies its marker with node 2, which applies it after a heartbeat. -/
def replicated : List Cluster.Label :=
  firstTerm ++ [.input 1 (.tick .heartbeat), .deliver 11]

/-- Two nodes applied the first entry, and it is the same. -/
theorem state_machine_safety_replicated : ∃ c,
    @Cluster.ReachableIf zeroHash threeVoters (fun c label => c.overreaches label = false) c ∧
      ∃ x y, c.applied = [x, y] ∧ x.index = 1 ∧ y.index = 1 ∧ x = y := by
  set c := Cluster.afterRun Cluster.overreaches replicated
  have happlied : c.applied = [⟨1, 1, .noop⟩, ⟨1, 1, .noop⟩] := by decide +kernel
  have hreach := Cluster.reachableIf_afterRun Cluster.overreaches replicated
  refine ⟨c, hreach, _, _, happlied, rfl, rfl, ?_⟩
  exact @state_machine_safety zeroHash threeVoters c hreach _ (by rw [happlied]; simp) _
    (by rw [happlied]; simp) rfl

/-- Node 1 leads term 1 with 65 entries, 64 of which reach node 2. Node 2 leads
term 2 and commits its marker at 65 with node 3. The one rejection of node 1,
delivered 65 times, takes the next index of node 1 back to the first entry. -/
def overreach : List Cluster.Label :=
  [.restart 1, .restart 2, .restart 3, .input 1 (.tick .election), .deliver 0, .deliver 2,
    .deliver 3, .deliver 5] ++
  List.replicate 64 (.input 1 (.propose 7 [])) ++
  [.deliver 6, .deliver 136, .deliver 137, .input 2 (.tick .election)] ++
  [140, 141, 143, 144, 146, 147, 148, 149, 150, 151, 145].map .deliver ++
  List.replicate 65 (.deliver 152) ++ [.deliver 217]

/-- In the last step node 1 applies its own entry 65, which node 2 overruled. -/
theorem applied_diverge : ¬ ∀ (_ : Sha256) (configuration : Configuration) (c : Cluster),
    Cluster.Reachable configuration c →
      ∀ x ∈ c.applied, ∀ y ∈ c.applied, x.index = y.index → x = y := by
  intro hsafe
  set c := Cluster.afterRun (fun _ _ => false) overreach
  have happlied : (c.applied.filter fun e => e.index = 65) =
      [⟨65, 1, .command 7 []⟩, ⟨65, 2, .noop⟩] := by
    decide +kernel
  have hmem : ∀ x ∈ [(⟨65, 1, .command 7 []⟩ : LogEntry), ⟨65, 2, .noop⟩], x ∈ c.applied := by
    intro x hx
    rw [← happlied] at hx
    exact List.mem_of_mem_filter hx
  have heq := hsafe zeroHash threeVoters c (Cluster.reachable_afterRun overreach)
    ⟨65, 1, .command 7 []⟩ (hmem _ (by simp)) ⟨65, 2, .noop⟩ (hmem _ (by simp)) rfl
  exact absurd heq (by decide)

end AsterRaft
