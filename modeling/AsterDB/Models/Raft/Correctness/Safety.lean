import AsterDB.Models.Raft.Correctness.Reachable

/-!
# Elections, logs and leaders

Election safety, log matching and leader completeness hold in every run of the
cluster, without any assumption. A reported proposal keeps its place, and
recovery accepts the log that a crash leaves on disk.
-/

namespace AsterRaft

open Std Consensus

namespace Cluster

/-- Node `n` is leader of `T` in memory, or announced itself as such. -/
def Leads (c : Cluster) (n : NodeId) (T : Nat) : Prop :=
  (∃ r, c.memory[n]? = some r ∧ r.role = .leader ∧ r.term = T) ∨
    ∃ a ∈ c.elections, a.node = n ∧ a.term = T

/-- The log of node `n`, in memory or on disk. -/
def Holds (c : Cluster) (n : NodeId) (l : RaftLog) : Prop :=
  (∃ r, c.memory[n]? = some r ∧ r.log = l) ∨
    RaftLog.new (c.world.stable n).snapshot (c.world.stable n).entries = l

end Cluster

/-- The setting without any assumption on runs. -/
def plain [Sha256] (configuration : Configuration) : Setting where
  configuration
  strict := False
  fresh := False
  intact snapshot := snapshot.validate = true ∧ snapshot.metadata.configuration = configuration

theorem clusterOk_of_reachable [Sha256] {configuration : Configuration} {c : Cluster}
    (h : Cluster.Reachable configuration c) : (plain configuration).ClusterOk c :=
  Setting.clusterOk_of_reachableIf (σ := plain configuration)
    (fun _ hvalid hsame => ⟨hvalid, hsame⟩) (fun _ _ _ => ⟨fun hs => hs.elim, fun hf => hf.elim⟩) h

namespace Setting

variable {σ : Setting} {c : Cluster} {s : Protocol}

/-- What an observation of the history stands for. -/
theorem Sim.observed {α : Type} {w : World} (h : σ.Sim w s) {observe : Event → Option α} {a : α}
    (ha : a ∈ w.history.filterMap observe) :
    ∃ e older, observe e = some a ∧ σ.EventOk s older e := by
  obtain ⟨e, he, heq⟩ := List.mem_filterMap.mp ha
  obtain ⟨older, hevent⟩ := h.event he
  exact ⟨e, older, heq, hevent⟩

/-- The logs of two commits agree where both reach. -/
theorem Sim.commits (hsim : σ.Sim c.world s) {a b : Event.Commit} (ha : a ∈ c.commits)
    (hb : b ∈ c.commits) {i : Nat} (hia : i ≤ a.index) (hib : i ≤ b.index) :
    ∃ l l', a.log.Represents l ∧ b.log.Represents l' ∧ l.take i = l'.take i := by
  obtain ⟨_, _, he, hevent⟩ := hsim.observed ha
  obtain ⟨_, _, he', hevent'⟩ := hsim.observed hb
  obtain ⟨hleader, hcom, l, hrep, ⟨_, hpre⟩, hle⟩ := hevent.commit a he
  obtain ⟨hleader', hcom', l', hrep', ⟨_, hpre'⟩, hle'⟩ := hevent'.commit b he'
  have htake : (s.leaderLog a.term).take i = (s.leaderLog b.term).take i := by
    rcases Nat.lt_trichotomy a.term b.term with hlt | heq | hlt
    · exact (take_eq_of_le (hsim.inv.leaderLog_of_committed hcom hlt hleader') hia).symm
    · rw [heq]
    · exact take_eq_of_le (hsim.inv.leaderLog_of_committed hcom' hlt hleader) hib
  rw [← hpre, ← hpre', List.take_append_of_le_length (hia.trans hle),
    List.take_append_of_le_length (hib.trans hle')] at htake
  exact ⟨l, l', hrep, hrep', htake⟩

variable {n : NodeId} (hsim : σ.Sim c.world s)
  (hmem : ∀ n r, c.memory[n]? = some r → σ.MemOk c.world s n r)
include hsim hmem

/-- Whoever leads a term is the protocol's leader of it. -/
theorem leader_of_leads {T : Nat} (h : c.Leads n T) : s.leader T = some n := by
  rcases h with ⟨r, hr, hrole, rfl⟩ | ⟨a, ha, rfl, rfl⟩
  · exact ((hmem n r hr).leader hrole).leader
  · obtain ⟨e, older, he, hevent⟩ := hsim.observed ha
    exact (hevent.election a he).1

/-- A log that a node holds is a suffix of its complete log. -/
theorem represents_of_holds {l : RaftLog} (h : c.Holds n l) : l.Represents (s.log n) := by
  rcases h with ⟨r, hr, rfl⟩ | rfl
  · exact (Track.start .follower hsim (hmem n r hr)).log
  · exact (hsim.disk n).log

end Setting

/-- Two retained logs over complete logs with a common prefix agree inside it. -/
theorem RaftLog.Represents.agree {l l' : RaftLog} {full full' : List LogEntry} {i : Nat}
    (h : l.Represents full) (h' : l'.Represents full') (htake : full.take i = full'.take i)
    {j : Nat} (hj : j ≤ i) :
    (l.baseIndex ≤ j → l'.baseIndex ≤ j → l.term j = l'.term j) ∧
      (l.baseIndex < j → l'.baseIndex < j → l.entry j = l'.entry j) := by
  refine ⟨fun hb hb' => ?_, fun hb hb' => ?_⟩
  · rw [h.term hb, h'.term hb', termAt_congr htake hj]
  · rw [h.entry hb, h'.entry hb']
    have hget := congrArg (fun x : List LogEntry => x[j - 1]?) htake
    simpa only [List.getElem?_take, if_pos (show j - 1 < i by omega)] using hget

section Run

def threeVoters : Configuration where
  participants := ExtTreeSet.ofList [1, 2, 3]
  incoming := ExtTreeSet.ofList [1, 2, 3]
  outgoing := none

/-- Node 1 leads term 1 and commits its marker with node 2. -/
def firstTerm : List Cluster.Label :=
  [.restart 1, .restart 2, .restart 3, .input 1 (.tick .election)] ++
  [0, 2, 3, 5, 6, 8, 9, 10].map .deliver

/-- After the first term, node 2 leads term 2 with the vote of node 3. -/
def handover : List Cluster.Label :=
  firstTerm ++ [.input 2 (.tick .election), .deliver 12, .deliver 13, .deliver 15, .deliver 16]

/-- The cluster of three voters after transitions that are evaluated. -/
def Cluster.afterRun (bad : Cluster → Cluster.Label → Bool) (labels : List Cluster.Label) :
    Cluster :=
  (Runs.executeIf (@Cluster.next zeroHash threeVoters) (fun c label => !bad c label) .init
    labels).getD .init

theorem Cluster.reachableIf_afterRun (bad : Cluster → Cluster.Label → Bool)
    (labels : List Cluster.Label) : @Cluster.ReachableIf zeroHash threeVoters
      (fun c label => bad c label = false) (afterRun bad labels) := by
  unfold afterRun
  cases hrun : Runs.executeIf (@Cluster.next zeroHash threeVoters) (fun c label => !bad c label)
    .init labels with
  | none => exact .init
  | some c => exact Runs.ReachableIf.init.executeIf (fun _ _ hok => by simpa using hok) hrun

theorem Cluster.reachable_afterRun (labels : List Cluster.Label) :
    @Cluster.Reachable zeroHash threeVoters (afterRun (fun _ _ => false) labels) :=
  (reachableIf_afterRun _ labels).mono fun _ _ _ => trivial

end Run

/-- A term has one leader, and a node votes for one candidate in it. -/
theorem election_safety [Sha256] (configuration : Configuration) (c : Cluster)
    (h : Cluster.Reachable configuration c) :
    (∀ n m T, c.Leads n T → c.Leads m T → n = m) ∧
      ∀ v ∈ c.votes, ∀ v' ∈ c.votes, v.node = v'.node → v.term = v'.term →
        v.candidate = v'.candidate := by
  obtain ⟨s, hsim, hmem⟩ := clusterOk_of_reachable h
  constructor
  · intro n m T hn hm
    have hleader := Setting.leader_of_leads hsim hmem hn
    rw [Setting.leader_of_leads hsim hmem hm, Option.some.injEq] at hleader
    exact hleader.symm
  · intro v hv v' hv' hnode hterm
    obtain ⟨e, _, he, hevent⟩ := hsim.observed hv
    obtain ⟨e', _, he', hevent'⟩ := hsim.observed hv'
    have hvote := hevent.vote v he
    rw [hnode, hterm, hevent'.vote v' he', Option.some.injEq] at hvote
    exact hvote.symm

/-- In the handover, node 1 is the only leader of term 1 and node 2 of term 2. -/
theorem election_safety_handover : ∃ c, @Cluster.Reachable zeroHash threeVoters c ∧
    c.Leads 1 1 ∧ c.Leads 2 2 ∧ (∀ m, c.Leads m 1 → m = 1) ∧ ∀ m, c.Leads m 2 → m = 2 := by
  set c := Cluster.afterRun (fun _ _ => false) handover
  have helections : (c.elections.map fun a => (a.node, a.term)) = [(2, 2), (1, 1)] := by
    decide
  have hleads : ∀ n T, (n, T) ∈ [(2, 2), (1, 1)] → c.Leads n T := by
    intro n T hmem
    rw [← helections, List.mem_map] at hmem
    obtain ⟨a, ha, heq⟩ := hmem
    exact Or.inr ⟨a, ha, congrArg Prod.fst heq, congrArg Prod.snd heq⟩
  have hreach := Cluster.reachable_afterRun handover
  have hsafe := (@election_safety zeroHash threeVoters c hreach).1
  have h1 := hleads 1 1 (by decide)
  have h2 := hleads 2 2 (by decide)
  exact ⟨c, hreach, h1, h2, fun m hm => hsafe m 1 1 hm h1, fun m hm => hsafe m 2 2 hm h2⟩

/-- Logs with the same term at an index agree on everything both retain up to there. -/
theorem log_matching [Sha256] (configuration : Configuration) (c : Cluster)
    (h : Cluster.Reachable configuration c) {n m : NodeId} {l l' : RaftLog}
    (hl : c.Holds n l) (hl' : c.Holds m l') {i T : Nat} (hi : l.term i = some T)
    (hi' : l'.term i = some T) (j : Nat) (hj : j ≤ i) :
    (l.baseIndex ≤ j → l'.baseIndex ≤ j → l.term j = l'.term j) ∧
      (l.baseIndex < j → l'.baseIndex < j → l.entry j = l'.entry j) := by
  obtain ⟨s, hsim, hmem⟩ := clusterOk_of_reachable h
  have hrep := Setting.represents_of_holds hsim hmem hl
  have hrep' := Setting.represents_of_holds hsim hmem hl'
  refine hrep.agree hrep' ?_ hj
  exact take_eq_of_termAt (hsim.inv.log_rooted n) (hsim.inv.log_rooted m)
    (hrep.term_some hi).2 (hrep'.term_some hi').2

/-- After the handover the disks of nodes 1 and 2 share the first entry. -/
theorem log_matching_handover : ∃ c, @Cluster.Reachable zeroHash threeVoters c ∧
    ∃ l l', c.Holds 1 l ∧ c.Holds 2 l' ∧ l.term 1 = some 1 ∧ l'.term 1 = some 1 ∧
      l.lastIndex = 1 ∧ l'.lastIndex = 2 ∧ l.entry 1 = l'.entry 1 := by
  set c := Cluster.afterRun (fun _ _ => false) handover
  obtain ⟨h1, h2⟩ : RaftLog.new (c.world.stable 1).snapshot (c.world.stable 1).entries =
        ⟨0, 0, [⟨1, 1, .noop⟩]⟩ ∧
      RaftLog.new (c.world.stable 2).snapshot (c.world.stable 2).entries =
        ⟨0, 0, [⟨1, 1, .noop⟩, ⟨2, 2, .noop⟩]⟩ := by
    decide
  have hreach := Cluster.reachable_afterRun handover
  have hmatch := @log_matching zeroHash threeVoters c hreach 1 2 _ _ (Or.inr h1) (Or.inr h2) 1 1
    (by decide) (by decide) 1 le_rfl
  exact ⟨c, hreach, _, _, Or.inr h1, Or.inr h2, by decide, by decide, by decide, by decide,
    hmatch.2 (by decide) (by decide)⟩

/-- A later leader starts with everything an earlier leader committed. -/
theorem leader_completeness [Sha256] (configuration : Configuration) (c : Cluster)
    (h : Cluster.Reachable configuration c) {a : Event.Commit} {b : Event.Election}
    (ha : a ∈ c.commits) (hb : b ∈ c.elections) (hlt : a.term < b.term) :
    a.index ≤ b.log.lastIndex ∧ ∀ j ≤ a.index,
      (b.log.baseIndex ≤ j → a.log.baseIndex ≤ j → b.log.term j = a.log.term j) ∧
      (b.log.baseIndex < j → a.log.baseIndex < j → b.log.entry j = a.log.entry j) := by
  obtain ⟨s, hsim, _⟩ := clusterOk_of_reachable h
  obtain ⟨e, _, he, hcommit⟩ := hsim.observed ha
  obtain ⟨e', _, he', helection⟩ := hsim.observed hb
  obtain ⟨_, hcom, full, hrep, hpre, hle⟩ := hcommit.commit a he
  obtain ⟨hleader, full', hrep', _, hstood⟩ := helection.election b he'
  have hvotes := hsim.inv.elected _ _ hleader
  have hkeep := hsim.inv.stood_of_votes hlt hvotes hcom.1 hcom.not_blocked
  have hfull : full.take a.index = (s.leaderLog a.term).take a.index := by
    obtain ⟨rest, hrest⟩ := hpre
    rw [← hrest, List.take_append_of_le_length hle]
  have hlen : a.index ≤ (s.stood b.term b.node).length := by
    have hcut := congrArg List.length hkeep
    have := hcom.1.le_length
    simp only [List.length_take] at hcut
    omega
  have hfull' : full'.take a.index = full.take a.index := by
    obtain ⟨rest, hrest⟩ := hstood
    rw [← hrest, List.take_append_of_le_length hlen, hkeep, hfull]
  refine ⟨?_, fun j hj => hrep'.agree hrep hfull' hj⟩
  rw [hrep'.lastIndex]
  exact hlen.trans hstood.length_le

/-- Node 2 starts term 2 with the entry node 1 committed in term 1. -/
theorem leader_completeness_handover : ∃ c, @Cluster.Reachable zeroHash threeVoters c ∧
    ∃ a ∈ c.commits, ∃ b ∈ c.elections, a.term = 1 ∧ a.index = 1 ∧ b.term = 2 ∧
      b.log.entry 1 = a.log.entry 1 := by
  set c := Cluster.afterRun (fun _ _ => false) handover
  obtain ⟨ha, helection⟩ : ⟨1, 1, 1, ⟨0, 0, [⟨1, 1, .noop⟩]⟩⟩ ∈ c.commits ∧
      c.elections.head? = some ⟨2, 2, ⟨0, 0, [⟨1, 1, .noop⟩, ⟨2, 2, .noop⟩]⟩⟩ := by
    decide
  have hreach := Cluster.reachable_afterRun handover
  have hb := List.mem_of_mem_head? helection
  have hkept :=
    (@leader_completeness zeroHash threeVoters c hreach _ _ ha hb (by decide)).2 1 le_rfl
  exact ⟨c, hreach, _, ha, _, hb, rfl, rfl, rfl, hkept.2 (by decide) (by decide)⟩

/-- A node reports a proposal right after it applied the command, with a commit of its own, and no
leader commits another entry at its index. -/
theorem report_kept [Sha256] (configuration : Configuration) (c : Cluster)
    (h : Cluster.Reachable configuration c) {n : NodeId} {role : Role} {d : StableState}
    {id index : Nat} {older : List Event}
    (hreport : .performed n role d (.proposalCommitted id index) :: older <:+ c.world.history) :
    ∃ d' term bytes rest,
      older = .performed n role d' (.apply ⟨index, term, .command id bytes⟩) :: rest ∧
      (∃ b ∈ c.commits, b.node = n ∧ index ≤ b.index) ∧
      ∀ a ∈ c.commits, index ≤ a.index → a.log.baseIndex < index →
        a.log.entry index = some ⟨index, term, .command id bytes⟩ := by
  obtain ⟨s, hsim, -⟩ := clusterOk_of_reachable h
  obtain ⟨d', ⟨_, term, _⟩, rest, rfl, rfl, ⟨bytes, rfl⟩, e, he, b, hb, hnode, hib, hentry⟩ :=
    (hsim.history _ _ hreport).report _ _ _ _ _ rfl
  have hmem : b ∈ c.commits := List.mem_filterMap.mpr ⟨e, hreport.subset (by simp [he]), hb⟩
  refine ⟨d', term, bytes, rest, rfl, ⟨b, hmem, hnode, hib⟩, fun a ha hia hbase => ?_⟩
  obtain ⟨l, l', hrep, hrep', htake⟩ := hsim.commits ha hmem hia hib
  rw [← hentry]
  exact (hrep.agree hrep' htake le_rfl).2 hbase (hrep'.entry_some hentry).1

/-- After the handover node 2 commits a command with node 3 and reports it. -/
theorem report_kept_handover : ∃ c d older, @Cluster.Reachable zeroHash threeVoters c ∧
    c.world.history = .performed 2 .leader d (.proposalCommitted 7 3) :: older ∧
      ∃ term bytes, ∀ a ∈ c.commits, 3 ≤ a.index → a.log.baseIndex < 3 →
        a.log.entry 3 = some ⟨3, term, .command 7 bytes⟩ := by
  have hreach := Cluster.reachable_afterRun
    (handover ++ [.input 2 (.propose 7 []), .deliver 20, .deliver 21, .deliver 22, .deliver 23])
  set c := Cluster.afterRun _ _
  have hhead : c.world.history.head? =
      some (.performed 2 .leader (c.world.stable 2) (.proposalCommitted 7 3)) := by
    decide +kernel
  obtain ⟨older, hhistory⟩ := List.head?_eq_some_iff.mp hhead
  obtain ⟨_, term, bytes, _, -, -, hkept⟩ :=
    @report_kept zeroHash threeVoters c hreach _ _ _ _ _ older ⟨[], hhistory.symm⟩
  exact ⟨c, _, older, hreach, hhistory, term, bytes, hkept⟩

/-- Recovery accepts entries that are numbered and ascend up to the term. -/
theorem checkEntries_eq_none {entries : List LogEntry} {term base baseTerm : Nat}
    (hnumbered : ∀ i e, entries[i]? = some e → e.index = base + i + 1)
    (hascending : Ascending LogEntry.term entries) (hbase : ∀ e ∈ entries, baseTerm ≤ e.term)
    (hbound : ∀ e ∈ entries, e.term ≤ term) :
    Raft.checkEntries term (base + 1) baseTerm entries = none := by
  induction entries generalizing base baseTerm with
  | nil => rfl
  | cons first rest ih =>
    have hindex := hnumbered 0 first rfl
    have hlow := hbase first List.mem_cons_self
    have hhigh := hbound first List.mem_cons_self
    unfold Raft.checkEntries
    rw [if_neg (by omega), if_neg (by omega), if_neg (by omega)]
    refine ih (fun i e he => ?_) (fun i j x y hij => hascending (i + 1) (j + 1) x y (by omega))
      (fun e he => ?_) fun e he => hbound e (List.mem_cons_of_mem _ he)
    · have := hnumbered (i + 1) e he
      omega
    · obtain ⟨i, hi⟩ := List.mem_iff_getElem?.mp he
      exact hascending 0 (i + 1) first e (by omega) rfl hi

/-- No entry behind an index has a lower term. -/
theorem le_of_termAt {L : List LogEntry} {i k t : Nat} {e : LogEntry}
    (hascending : Ascending LogEntry.term L) (hterm : termAt L k = some t)
    (he : L[k + i]? = some e) : t ≤ e.term := by
  cases k with
  | zero =>
    cases hterm
    exact Nat.zero_le _
  | succ k =>
    obtain ⟨e', he', rfl⟩ := Option.map_eq_some_iff.mp hterm
    exact hascending k _ e' e (by omega) he' he

/-- What recovery asks of a disk, with `log` for the log on it. -/
structure StableState.Sound [Sha256] (configuration : Configuration) (disk : StableState)
    (log : RaftLog) : Prop where
  snapshot : ∀ s, disk.snapshot = some s →
    s.validate = true ∧ s.metadata.configuration = configuration
  numbered : ∀ i e, log.entries[i]? = some e → e.index = log.baseIndex + i + 1
  ascending : Ascending LogEntry.term log.entries
  baseTerm_le : ∀ e ∈ log.entries, log.baseTerm ≤ e.term
  term_le : ∀ e ∈ log.entries, e.term ≤ disk.hardState.currentTerm
  base_le : log.baseIndex ≤ disk.appliedIndex
  applied_le : disk.appliedIndex ≤ disk.hardState.commitIndex
  commit_le : disk.hardState.commitIndex ≤ log.lastIndex

theorem StableState.Sound.recover_iff [Sha256] {configuration : Configuration} {disk : StableState}
    (h : disk.Sound configuration (.new disk.snapshot disk.entries)) (n : NodeId) :
    (∃ r, Raft.recover n configuration disk = .ok r) ↔ configuration.contains n = true := by
  obtain ⟨hsnapshot, hnumbered, hascending, hbaseTerm, hterm, hbase, happlied, hcommit⟩ := h
  have hnone : Raft.checkEntries _ _ _ disk.entries = none :=
    checkEntries_eq_none hnumbered hascending hbaseTerm hterm
  simp only [Raft.recover, hnone]
  -- the checks of the indices never fail
  split_ifs with hvoter hvalid hsame <;> try omega
  all_goals cases hs : disk.snapshot <;> simp_all

/-- Whatever a crash leaves on the disk of a node, the snapshot is whole, the entries behind it are
in order, and the node recovers from it if it is a voter. -/
theorem recover_of_reachable [Sha256] (configuration : Configuration) (c : Cluster)
    (h : Cluster.Reachable configuration c) (n : NodeId) :
    (c.world.stable n).Sound configuration
        (.new (c.world.stable n).snapshot (c.world.stable n).entries) ∧
      ((∃ r, Raft.recover n configuration (c.world.stable n) = .ok r) ↔
        configuration.contains n = true) := by
  obtain ⟨s, hsim, -⟩ := clusterOk_of_reachable h
  have hd := hsim.disk n
  have hentry := hd.log.getElem?
  have hascending := (hsim.inv.log_rooted n).ascending hsim.inv.leaderLog_ascending
  have hsound : (c.world.stable n).Sound configuration
      (.new (c.world.stable n).snapshot (c.world.stable n).entries) := by
    refine ⟨hd.intact, fun i e he => ?_, fun i j x y hij hx hy => ?_, fun e he => ?_,
      fun e he => ?_, hd.base_le, hd.applied_le, hd.log.lastIndex ▸ hd.commit_le⟩
    · exact hd.log.numbered _ e (hentry i ▸ he)
    · exact hascending _ _ x y (Nat.add_le_add_left hij _) (hentry i ▸ hx) (hentry j ▸ hy)
    · obtain ⟨i, hi⟩ := List.mem_iff_getElem?.mp he
      exact le_of_termAt hascending hd.log.base_term (hentry i ▸ hi)
    · rw [hd.log.entries_eq] at he
      exact (hsim.inv.log_term_le n e (List.mem_of_mem_drop he)).trans hd.term.le
  exact ⟨hsound, hsound.recover_iff n⟩

/-- Node 1 crashes with a snapshot and a proposal on its disk and comes back. -/
theorem recover_of_reachable_crash : ∃ c, @Cluster.Reachable zeroHash threeVoters c ∧
    (c.world.stable 1).snapshot.isSome = true ∧ (c.world.stable 1).entries.length = 1 ∧
      ∃ r, @Raft.recover zeroHash 1 threeVoters (c.world.stable 1) = .ok r := by
  let _ := zeroHash
  let snapshot : PersistentSnapshot := ⟨⟨1, 1, 0, Vector.replicate 32 0, threeVoters⟩, []⟩
  have hreach := Cluster.reachable_afterRun
    (firstTerm ++ [.input 1 (.snapshotBuilt snapshot), .inputCrash 1 (.propose 7 []) 1])
  exact ⟨_, hreach, by decide, by decide, (recover_of_reachable _ _ hreach 1).2.mpr (by decide)⟩

end AsterRaft
