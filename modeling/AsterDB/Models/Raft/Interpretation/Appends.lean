import AsterDB.Models.Raft.Interpretation.Exchange
import AsterDB.Models.Raft.Interpretation.Follower

/-!
# Appends of an exchange

The follower refuses an append whose previous entry it does not hold, with a hint where the
logs may agree. Any other append of the leader's log it takes over, unless it has committed
something else.
-/

namespace AsterRaft

open Std

/-- Terms never decrease along a log. -/
def Ascending (l : List LogEntry) : Prop :=
  ∀ i j t u, i ≤ j → termAt l i = some t → termAt l j = some u → t ≤ u

variable {l L : List LogEntry}

theorem Ascending.take (h : Ascending l) (k : Nat) : Ascending (l.take k) := by
  intro i j t u hle ht hu
  have hcut := List.take_prefix k l
  exact h i j t u hle ( termAt_of_prefix hcut ht) ( termAt_of_prefix hcut hu)

/-- Logs that agree nowhere from an index on. -/
def Apart (l l' : List LogEntry) (index : Nat) : Prop :=
  ∀ i t, index ≤ i → termAt l i = some t → termAt l' i ≠ some t

section Hints

variable {log : RaftLog} {l l' : List LogEntry} {prev t : Nat}

theorem Matching.apart (h : Matching l l') (ht : termAt l' prev = some t)
    (hne : termAt l prev ≠ some t) : Apart l l' prev := by
  intro i u hle hu hu'
  rw [termAt_congr (h i u hu hu') hle] at hne
  exact hne ht

/-- The follower's hint is the start of the term at an index, as far as it is retained. -/
theorem RaftLog.Represents.firstIndexOfTerm (h : log.Represents l) (hbase : log.baseIndex ≤ prev)
    (ht : termAt l prev = some t) :
    log.baseIndex ≤ log.firstIndexOfTerm prev t ∧
      ∀ i, log.firstIndexOfTerm prev t ≤ i → i ≤ prev → termAt l i = some t := by
  induction prev with
  | zero =>
    refine ⟨hbase, fun i _ hi => ?_⟩
    rwa [Nat.le_zero.mp hi]
  | succ cursor ih =>
    unfold RaftLog.firstIndexOfTerm
    split
    · rename_i hbefore
      have hle : log.baseIndex ≤ cursor := by omega
      obtain ⟨hfirst, hall⟩ := ih hle ((h.term hle).symm.trans hbefore.2)
      refine ⟨hfirst, fun i hi hprev => ?_⟩
      rcases Nat.lt_or_ge cursor i with hlt | hle
      · rwa [show i = cursor + 1 by omega]
      · exact hall i hi hle
    · refine ⟨hbase, fun i hi hprev => ?_⟩
      rwa [show i = cursor + 1 by omega]

theorem RaftLog.Represents.find?_term (h : log.Represents l) :
    (∀ e, log.entries.reverse.find? (fun e => e.term = t) = some e →
      log.baseIndex < e.index ∧ termAt l e.index = some t ∧ ∀ i, e.index < i →
        termAt l i ≠ some t) ∧
    (log.entries.reverse.find? (fun e => e.term = t) = none →
      ∀ i, log.baseIndex < i → termAt l i ≠ some t) := by
  have hat : ∀ i, log.baseIndex < i → ∀ t, termAt l i = some t →
      ∃ e, log.entries[i - log.baseIndex - 1]? = some e ∧ e.term = t := by
    intro i hi t ht
    rw [termAt_pos (by omega), Option.map_eq_some_iff] at ht
    obtain ⟨e, he, hterm⟩ := ht
    refine ⟨e, ?_, hterm⟩
    rw [h.getElem?, show log.baseIndex + (i - log.baseIndex - 1) = i - 1 by omega]
    exact he
  refine ⟨fun e he => ?_, fun hnone i hi hterm => ?_⟩
  · obtain ⟨hterm, before, after, heq, hnone⟩ := List.find?_eq_some_iff_append.mp he
    have hentries : log.entries = after.reverse ++ e :: before.reverse := by
      rw [← List.reverse_reverse log.entries, heq]
      simp
    have hget : l[log.baseIndex + after.length]? = some e := by
      rw [← h.getElem?, hentries]
      simp
    have hindex := h.numbered _ e hget
    have hterm : e.term = t := by simpa using hterm
    refine ⟨by omega, ?_, fun i hi ht => ?_⟩
    · rw [hindex, termAt_succ, hget, Option.map_some, hterm]
    · obtain ⟨e', he', hterm'⟩ := hat i (by omega) t ht
      rw [hentries, List.getElem?_append_right (by simp; omega),
        List.getElem?_cons, if_neg (by simp; omega)] at he'
      have hmem := List.mem_of_getElem? he'
      rw [List.mem_reverse] at hmem
      have hne := hnone e' hmem
      simp [hterm'] at hne
  · obtain ⟨e, he, heterm⟩ := hat i hi t hterm
    rw [List.find?_eq_none] at hnone
    exact hnone e (List.mem_reverse.mpr (List.mem_of_getElem? he)) (by simpa using heterm)

/-- The last index of a term, as far as the log is retained. -/
theorem RaftLog.Represents.lastIndexOfTerm (h : log.Represents l) :
    (∀ i, log.lastIndexOfTerm t = some i → log.baseIndex ≤ i ∧ termAt l i = some t ∧
      ∀ j, i < j → termAt l j ≠ some t) ∧
    (log.lastIndexOfTerm t = none → ∀ i, log.baseIndex ≤ i → termAt l i ≠ some t) := by
  obtain ⟨hsome, hnone⟩ := h.find?_term (t := t)
  unfold RaftLog.lastIndexOfTerm
  cases hfind : log.entries.reverse.find? fun e => e.term = t with
  | some e =>
    obtain ⟨hbase, hterm, hlast⟩ := hsome e hfind
    refine ⟨fun i hi => ?_, nofun⟩
    cases hi
    exact ⟨hbase.le, hterm, hlast⟩
  | none =>
    have habove := hnone hfind
    by_cases hbase : log.baseTerm = t
    · rw [if_pos hbase]
      refine ⟨fun i hi => ?_, nofun⟩
      cases hi
      exact ⟨Nat.le_refl _, hbase ▸ h.base_term, habove⟩
    · rw [if_neg hbase]
      refine ⟨nofun, fun _ i hi hterm => ?_⟩
      rcases Nat.lt_or_eq_of_le hi with hlt | heq
      · exact habove i hlt hterm
      · rw [← heq, h.base_term, Option.some.injEq] at hterm
        exact hbase hterm

end Hints

/-- Why an append is refused, and the hint that says so. -/
inductive Refusal (log : RaftLog) (l : List LogEntry) (prev : Nat) : Nat → Option Nat → Prop
  | compacted : prev < log.baseIndex → Refusal log l prev (log.baseIndex + 1) (some log.baseTerm)
  | missing : log.baseIndex ≤ prev → termAt l prev = none → Refusal log l prev (l.length + 1) none
  | other {t : Nat} : log.baseIndex ≤ prev → termAt l prev = some t →
    Refusal log l prev (log.firstIndexOfTerm prev t) (some t)

/-- The leader goes back, but never past an index where the logs agree; unless it has compacted it.
-/
theorem Refusal.apart {log leaderLog : RaftLog} {prev prevTerm conflictIndex : Nat}
    {conflictTerm : Option Nat} (h : Refusal log l prev conflictIndex conflictTerm)
    (hl : log.Represents l) (hL : leaderLog.Represents L) (hmatching : Matching l L)
    (hascl : Ascending l)
    (hascL : Ascending L) (hbase : log.baseIndex ≤ prev) (ht : termAt L prev = some prevTerm)
    (hne : termAt l prev ≠ some prevTerm) :
    Apart l L (max (min (Turn.retryIndex leaderLog conflictIndex conflictTerm) prev)
      leaderLog.baseIndex) := by
  intro i u hi hu hu'
  by_cases hprev : prev ≤ i
  · exact hmatching.apart ht hne i u hprev hu hu'
  have hretry : Turn.retryIndex leaderLog conflictIndex conflictTerm ≤ i := by omega
  unfold Turn.retryIndex at hretry
  cases h with
  | compacted hlt => omega
  | missing _ hnone =>
    have hle := le_length_of_termAt hu
    simp only [Option.bind_none] at hretry
    omega
  | @other t _ hterm =>
    obtain ⟨hsome, hnone⟩ := hL.lastIndexOfTerm (t := t)
    rw [Option.bind_some] at hretry
    cases hlast : leaderLog.lastIndexOfTerm t with
    | some j =>
      rw [hlast] at hretry
      dsimp only at hretry
      -- between the two ends of the term no other term fits
      obtain ⟨-, hj, hafter⟩ := hsome j hlast
      have hge := hascL j i t u (by omega) hj hu'
      have hle := hascl i prev u t (by omega) hu hterm
      obtain rfl : u = t := by omega
      exact hafter i (by omega) hu'
    | none =>
      rw [hlast] at hretry
      dsimp only at hretry
      have hsame := (hl.firstIndexOfTerm hbase hterm).2 i (by omega) (by omega)
      rw [hu] at hsame
      cases hsame
      exact hnone hlast i (by omega) hu'

/-- A part of a log follows its predecessor. -/
theorem validEntrySequence_drop {term : Nat} (hnumbered : Numbered L) (hasc : Ascending L)
    (hbound : ∀ i t, termAt L i = some t → t ≤ term) (entries : List LogEntry) {prev prevTerm : Nat}
    (hentries : entries <+: L.drop prev) (hprev : termAt L prev = some prevTerm) :
    Raft.validEntrySequence term (prev + 1) prevTerm entries = true := by
  induction entries generalizing prev prevTerm with
  | nil => rfl
  | cons e rest ih =>
    obtain ⟨hget, hterm, hrest⟩ := of_cons_prefix_drop hentries
    have hindex := hnumbered _ e hget
    have hle := hasc prev (prev + 1) _ _ (Nat.le_succ _) hprev hterm
    have hmax := hbound _ _ hterm
    unfold Raft.validEntrySequence
    rw [if_neg (by omega)]
    exact ih hrest hterm

namespace Turn

variable {t : Turn} {sender : NodeId} {term prev prevTerm leaderCommit : Nat}
  {entries l L : List LogEntry}

section Handle

variable (hterm : t.raft.hardState.currentTerm ≤ term) (hrep : t.raft.log.Represents l)

include hterm hrep

/-- An append whose previous entry is not held is refused with a hint. -/
theorem onAppendEntries_refused (sender : NodeId) (entries : List LogEntry) (leaderCommit : Nat)
    (h : prev < t.raft.log.baseIndex ∨ termAt l prev ≠ some prevTerm) :
    ∃ conflictIndex conflictTerm, Refusal t.raft.log l prev conflictIndex conflictTerm ∧
      t.onAppendEntries sender term sender prev prevTerm entries leaderCommit none =
        (t.heard sender term).rejectAppend sender none conflictIndex conflictTerm := by
  have hfollows := t.follows_heard sender term
  unfold onAppendEntries
  rw [if_neg (not_not.mpr rfl), if_neg (by omega)]
  dsimp only
  rw [← heard, hfollows.log]
  by_cases hbase : prev < t.raft.log.baseIndex
  · rw [if_pos hbase]
    exact ⟨_, _, .compacted hbase, rfl⟩
  · have hne := h.resolve_left hbase
    rw [if_neg hbase, hrep.term (by omega)]
    cases hlocal : termAt l prev with
    | none =>
      refine ⟨_, _, .missing (by omega) hlocal, ?_⟩
      rw [hrep.lastIndex]
    | some localTerm =>
      refine ⟨_, _, .other (by omega) hlocal, ?_⟩
      dsimp only
      rw [if_pos]
      rintro rfl
      exact hne hlocal

/-- What an append of the leader's log makes of a log that holds the previous entry. -/
def extended (l L : List LogEntry) (index : Nat) : List LogEntry :=
  if l.take index = L.take index then l else L.take index

/-- An append whose previous entry is held is taken over, unless something else is committed. -/
theorem onAppendEntries_held (sender : NodeId) (leaderCommit : Nat)
    (hbase : t.raft.log.baseIndex ≤ prev) (hprev : termAt l prev = some prevTerm)
    (hleader : termAt L prev = some prevTerm) (hentries : entries <+: L.drop prev)
    (hmatching : Matching l L) (hnumbered : Numbered L) (hasc : Ascending L)
    (hbound : ∀ i t, termAt L i = some t → t ≤ term)
    (hcommit : t.raft.hardState.commitIndex ≤ l.length) :
    (∃ k reason, k < entries.length ∧ prev + k + 1 ≤ t.raft.hardState.commitIndex ∧
      termAt l (prev + k + 1) ≠ termAt L (prev + k + 1) ∧
      t.onAppendEntries sender term sender prev prevTerm entries leaderCommit none =
        (t.heard sender term).push (.fatal reason)) ∨
    ∃ log v, log.Represents (extended l L (prev + entries.length)) ∧
      l.take (min t.raft.hardState.commitIndex (prev + entries.length)) =
        L.take (min t.raft.hardState.commitIndex (prev + entries.length)) ∧
      log.baseIndex = t.raft.log.baseIndex ∧
      t.raft.hardState.commitIndex ≤ (extended l L (prev + entries.length)).length ∧
      v.raft = { (t.heard sender term).raft with log := log } ∧ (t.heard sender term).Continues v ∧
      t.onAppendEntries sender term sender prev prevTerm entries leaderCommit none =
        v.finishAppend sender (prev + entries.length) leaderCommit none := by
  have hfollows := t.follows_heard sender term
  have hvalid := validEntrySequence_drop hnumbered hasc hbound entries hentries hleader
  have hscan := scanEntries_eq hrep hnumbered hmatching hbase hcommit entries 0 hentries
    (hmatching _ _ hprev hleader)
  unfold onAppendEntries
  rw [if_neg (not_not.mpr rfl), if_neg (by omega)]
  dsimp only
  rw [← heard, hfollows.log, hfollows.commitIndex, if_neg (by omega), hrep.term hbase, hprev]
  dsimp only
  rw [if_neg (not_not.mpr rfl), hvalid, if_neg (by simp)]
  simp only [Nat.zero_add] at hscan
  rcases hscan with ⟨hheld, htake⟩ | ⟨k, hk, hend, htake, hdiff, hstop⟩
  · refine .inr ⟨t.raft.log, _, ?_, take_eq_of_le htake (Nat.min_le_right _ _), rfl, ?_, ?_,
      .refl _, ?_⟩
    · rwa [extended, if_pos htake]
    · rwa [extended, if_pos htake]
    · rw [← hfollows.log]
    · rw [hheld]
  · by_cases hcommitted : prev + k + 1 ≤ t.raft.hardState.commitIndex
    · rw [hstop, if_pos hcommitted]
      exact .inl ⟨k, _, hk, hcommitted, hdiff, rfl⟩
    · have hne : l.take (prev + entries.length) ≠ L.take (prev + entries.length) :=
        fun heq => hdiff (termAt_congr heq (by omega))
      have hlen := hentries.length_le
      rw [List.length_drop] at hlen
      refine .inr ⟨t.raft.log.truncateAndAppend (prev + k + 1) (entries.drop k),
        (t.heard sender term).writeSuffix (prev + k + 1) (entries.drop k), ?_,
        take_eq_of_le htake (by omega), rfl, ?_, ?_, ?_, ?_⟩
      · rw [extended, if_neg hne]
        exact hrep.writeSuffix hnumbered hentries hk.le hbase hend htake
      · rw [extended, if_neg hne, List.length_take]
        omega
      · unfold writeSuffix push modify
        rw [← hfollows.log]
      · refine ((Continues.refl _).modify _).push ?_
        split <;> rfl
      · rw [hstop, if_neg hcommitted]

end Handle

end Turn

/-- A node that keeps a log, from its compaction boundary on. -/
structure Keeps (r : Raft) (l : List LogEntry) : Prop where
  log : r.log.Represents l
  base_le : r.log.baseIndex ≤ r.appliedIndex
  applied_le : r.appliedIndex ≤ r.hardState.commitIndex
  commit_le : r.hardState.commitIndex ≤ l.length

/-- What replies leave alone in a follower. -/
structure Stays (r r' : Raft) : Prop where
  id : r'.id = r.id
  configuration : r'.configuration = r.configuration
  incomingSnapshot : r'.incomingSnapshot = r.incomingSnapshot

/-- A leader with log `L` repairs the log `l` of a follower. -/
structure Appending (L l : List LogEntry) (p : Progress) (x : Exchange) : Prop where
  linked : Linked x.leader x.follower
  leaderLog : x.leader.log.Represents L
  follower : Keeps x.follower l
  matching : Matching l L
  leaderAscending : Ascending L
  followerAscending : Ascending l
  bound : ∀ i t, termAt L i = some t → t ≤ x.leader.hardState.currentTerm
  progress : x.leader.progress[x.follower.id]? = some p
  next_pos : 0 < p.nextIndex
  next_le : p.nextIndex ≤ L.length + 1
  message : x.message = x.leader.messageFor x.follower.id

section Round

variable {L l : List LogEntry} {p : Progress} {x : Exchange} {r : Raft}

/-- The append that a leader sends. -/
theorem messageFor_append {peer : NodeId} (hp : r.progress[peer]? = some p)
    (hrep : r.log.Represents L) (hnext : r.log.baseIndex < p.nextIndex)
    (hle : p.nextIndex ≤ L.length + 1) :
    ∃ prevTerm, termAt L (p.nextIndex - 1) = some prevTerm ∧
      r.messageFor peer = some (.appendEntries r.hardState.currentTerm r.id (p.nextIndex - 1)
        prevTerm ((L.drop (p.nextIndex - 1)).take maxAppendEntries) r.hardState.commitIndex
        none) := by
  obtain ⟨prevTerm, hterm⟩ := termAt_isSome (show p.nextIndex - 1 ≤ L.length by omega)
  refine ⟨prevTerm, hterm, ?_⟩
  unfold Raft.messageFor Turn.sendAppend
  rw [hp]
  dsimp only
  rw [if_neg (by omega), hrep.lastIndex, Nat.min_eq_left hle, hrep.term (by omega), hterm,
    hrep.entriesFrom hnext]
  simp [Turn.push, sentTo]

/-- The replay of committed entries changes nothing that a log depends on. -/
theorem Keeps.replayed (h : Keeps r l) :
    Keeps r.replayed l ∧ r.replayed.log = r.log ∧ r.replayed.hardState = r.hardState ∧
      Stays r r.replayed := by
  obtain ⟨applied, happlied, hge, hle, -⟩ := Turn.applyCommitted_spec ⟨r, []⟩
  have hbase := h.base_le
  have hmax := h.applied_le
  dsimp only at hge hle
  unfold Raft.replayed
  rw [happlied]
  exact ⟨⟨h.log, by dsimp only; omega, by dsimp only; omega, h.commit_le⟩, rfl, rfl, rfl, rfl, rfl⟩

/-- The replay reaches the commit index. -/
theorem Keeps.applied_replayed (h : Keeps r l) :
    r.replayed.appliedIndex = r.hardState.commitIndex := by
  obtain ⟨hkeeps, hlog, hhard, -⟩ := h.replayed
  have hle := hkeeps.applied_le
  have hbase := hkeeps.base_le
  have hcommit := hkeeps.commit_le
  rw [hhard] at hle hcommit
  rcases Turn.settled_applyCommitted ⟨r, []⟩ with hdone | hmissing
  · change r.replayed.hardState.commitIndex ≤ r.replayed.appliedIndex at hdone
    rw [hhard] at hdone
    omega
  · change r.replayed.log.entry (r.replayed.appliedIndex + 1) = none at hmissing
    rw [hkeeps.log.entry (by omega), List.getElem?_eq_none_iff] at hmissing
    omega

/-- The repair goes on after a reply. -/
theorem Appending.next {l' : List LogEntry} {p' : Progress} {y : Exchange} (h : Appending L l p x)
    (hheeds : Heeds x.leader y.leader x.follower.id p') (hid : y.follower.id = x.follower.id)
    (hconfiguration : y.follower.configuration = x.follower.configuration)
    (hterm : y.follower.hardState.currentTerm ≤ x.leader.hardState.currentTerm)
    (hkeeps : Keeps y.follower l') (hmatching : Matching l' L) (hascending : Ascending l')
    (hpos : 0 < p'.nextIndex) (hle : p'.nextIndex ≤ L.length + 1)
    (hmessage : y.message = y.leader.messageFor x.follower.id) : Appending L l' p' y where
  linked := h.linked.next hheeds.reigns hid hconfiguration hterm
  leaderLog := hheeds.reigns.log ▸ h.leaderLog
  follower := hkeeps
  matching := hmatching
  leaderAscending := h.leaderAscending
  followerAscending := hascending
  bound := hheeds.reigns.currentTerm ▸ h.bound
  progress := hid ▸ hheeds.progress
  next_pos := hpos
  next_le := hle
  message := hid ▸ hmessage

theorem incomingSnapshot_applyCommitted (r : Raft) :
    (Turn.applyCommitted ⟨r, []⟩).raft.incomingSnapshot = r.incomingSnapshot := by
  obtain ⟨applied, happlied, -⟩ := Turn.applyCommitted_spec ⟨r, []⟩
  rw [happlied]

/-- A follower after the replay of committed entries and a message of its leader. -/
structure Hears (x : Exchange) (r : Raft) : Prop where
  currentTerm : r.hardState.currentTerm = x.leader.hardState.currentTerm
  id : r.id = x.follower.id
  configuration : r.configuration = x.follower.configuration
  log : r.log = x.follower.log
  commitIndex : r.hardState.commitIndex = x.follower.hardState.commitIndex
  appliedIndex : r.appliedIndex = x.follower.replayed.appliedIndex

/-- The turn of that follower. -/
def Exchange.heard (x : Exchange) : Turn :=
  (Turn.applyCommitted ⟨x.follower, []⟩).heard x.leader.id x.leader.hardState.currentTerm

/-- The same with another buffer. -/
def heardWith (x : Exchange) (incoming : Option IncomingSnapshot) : Turn :=
  x.heard.modify fun r => { r with incomingSnapshot := incoming }

theorem heardWith_same : heardWith x x.follower.incomingSnapshot = x.heard := by
  have hincoming : x.heard.raft.incomingSnapshot = _ :=
    (Turn.follows_heard _ _ _).incomingSnapshot.trans (incomingSnapshot_applyCommitted _)
  unfold heardWith Turn.modify
  rw [← hincoming]

theorem heardWith_spec (hlinked : Linked x.leader x.follower) (incoming : Option IncomingSnapshot) :
    (∀ a ∈ (heardWith x incoming).actions, a.internal = true) ∧
      Hears x (heardWith x incoming).raft := by
  obtain ⟨applied, happlied, -, -, hcontinues⟩ := Turn.applyCommitted_spec ⟨x.follower, []⟩
  have hheard := (Turn.applyCommitted ⟨x.follower, []⟩).continues_heard x.leader.id
    x.leader.hardState.currentTerm
  have hfollows := (Turn.applyCommitted ⟨x.follower, []⟩).follows_heard x.leader.id
    x.leader.hardState.currentTerm
  refine ⟨(hcontinues.trans hheard).internal nofun, hfollows.currentTerm.trans ?_,
    hfollows.id.trans ?_, hfollows.configuration.trans ?_, hfollows.log.trans ?_,
    hfollows.commitIndex.trans ?_, hfollows.appliedIndex⟩
  · rw [happlied]
    exact Nat.max_eq_right hlinked.term
  all_goals rw [happlied]

theorem Keeps.hears (h : Keeps x.follower l) (hr : Hears x r) : Keeps r l := by
  obtain ⟨hkeeps, hlog, hhard, -⟩ := h.replayed
  refine ⟨hr.log ▸ h.log, ?_, ?_, hr.commitIndex ▸ h.commit_le⟩
  · rw [hr.log, hr.appliedIndex]
    exact hlog ▸ hkeeps.base_le
  · rw [hr.appliedIndex, hr.commitIndex]
    exact hhard ▸ hkeeps.applied_le

/-- A follower that heard from its leader after the replay. -/
theorem Keeps.heard (h : Keeps x.follower l) (hlinked : Linked x.leader x.follower) :
    Keeps x.heard.raft l ∧ Hears x x.heard.raft ∧ Stays x.follower x.heard.raft ∧
      ∀ a ∈ x.heard.actions, a.internal = true := by
  obtain ⟨hinternal, hhears⟩ := heardWith_spec hlinked x.follower.incomingSnapshot
  rw [← heardWith_same]
  exact ⟨h.hears hhears, hhears, ⟨hhears.id, hhears.configuration, rfl⟩, hinternal⟩

/-- A follower takes over a commit index of its log. -/
theorem Keeps.setCommit {t : Turn} (h : Keeps t.raft l) {newCommit : Nat}
    (hle : newCommit ≤ l.length) :
    Keeps (t.setCommit newCommit).raft l ∧ (t.setCommit newCommit).raft.log = t.raft.log ∧
      (t.setCommit newCommit).raft.hardState =
        { t.raft.hardState with commitIndex := max t.raft.hardState.commitIndex newCommit } ∧
      Stays t.raft (t.setCommit newCommit).raft ∧ t.Continues (t.setCommit newCommit) := by
  unfold Turn.setCommit
  split
  · rename_i hsmall
    rw [Nat.max_eq_left hsmall]
    exact ⟨h, rfl, rfl, ⟨rfl, rfl, rfl⟩, .refl t⟩
  rw [if_neg (by rw [h.log.lastIndex]; omega)]
  rename_i hlarge
  obtain ⟨applied, happlied, hge, hmax, hcontinues⟩ := Turn.applyCommitted_spec
    (t.modify fun r =>
      { r with hardState := { r.hardState with commitIndex := newCommit } }).persistHardState
  simp only [Turn.persistHardState, Turn.push, Turn.modify] at hge hmax happlied
  have hbase := h.base_le
  have hbelow := h.applied_le
  refine ⟨?_, ?_, ?_, ?_, (((Turn.Continues.refl t).modify _).push rfl).trans hcontinues⟩
  all_goals
    simp only [Turn.persistHardState, Turn.push, Turn.modify]
    rw [happlied]
  · exact ⟨h.log, by dsimp only; omega, by dsimp only; omega, hle⟩
  · rw [Nat.max_eq_right (Nat.le_of_not_le hlarge)]
  · exact ⟨rfl, rfl, rfl⟩

/-- The last index of the batch that a leader sends. -/
def Progress.batchEnd (p : Progress) (L : List LogEntry) : Nat :=
  min (p.nextIndex - 1 + maxAppendEntries) L.length

/-- What the follower makes of the batch behind an entry of some term. -/
def appended (L : List LogEntry) (p : Progress) (x : Exchange) (prevTerm : Nat) : Turn :=
  (Turn.applyCommitted ⟨x.follower, []⟩).onAppendEntries x.leader.id
    x.leader.hardState.currentTerm x.leader.id (p.nextIndex - 1) prevTerm
    ((L.drop (p.nextIndex - 1)).take maxAppendEntries) x.leader.hardState.commitIndex none

variable [Sha256]

theorem Appending.delivered (h : Appending L l p x) (hnext : x.leader.log.baseIndex < p.nextIndex) :
    ∃ prevTerm, termAt L (p.nextIndex - 1) = some prevTerm ∧
      x.delivered = ((appended L p x prevTerm).raft, (appended L p x prevTerm).actions) := by
  obtain ⟨prevTerm, hterm, hmessage⟩ := messageFor_append h.progress h.leaderLog hnext h.next_le
  obtain ⟨applied, happlied, -⟩ := Turn.applyCommitted_spec ⟨x.follower, []⟩
  refine ⟨prevTerm, hterm, ?_⟩
  unfold Exchange.delivered appended
  rw [h.message, hmessage]
  unfold Raft.step Turn.onMessage
  dsimp only
  rw [happlied]
  rw [if_neg]
  simpa [h.linked.followerKnows] using h.linked.ne.symm

/-- The leader has heard that its append was refused. -/
structure Refused (L l : List LogEntry) (p : Progress) (x : Exchange) : Prop
    extends Appending L l p x.round where
  heeds : Heeds x.leader x.round.leader x.follower.id p
  leaderCommit : x.round.leader.hardState.commitIndex = x.leader.hardState.commitIndex
  log : x.round.follower.log = x.follower.log
  commit : x.round.follower.hardState.commitIndex = x.follower.hardState.commitIndex
  stays : Stays x.follower x.round.follower

/-- A refused append: the leader goes back. -/
theorem Appending.refused (h : Appending L l p x) (hnext : x.leader.log.baseIndex < p.nextIndex)
    (hne : p.nextIndex - 1 < x.follower.log.baseIndex ∨
      termAt l (p.nextIndex - 1) ≠ termAt L (p.nextIndex - 1)) :
    ∃ conflictIndex conflictTerm,
      Refusal x.follower.log l (p.nextIndex - 1) conflictIndex conflictTerm ∧
      Refused L l (p.afterAppend x.leader.log false 0 conflictIndex conflictTerm) x := by
  obtain ⟨prevTerm, hprev, hdelivered⟩ := h.delivered hnext
  obtain ⟨hreplayed, hsame, hhard, -⟩ := h.follower.replayed
  obtain ⟨hkeeps, hhears, hstays, hinternal⟩ := h.follower.heard h.linked
  rw [hprev, ← hsame] at hne
  obtain ⟨conflictIndex, conflictTerm, hrefusal, hu⟩ := Turn.onAppendEntries_refused
    (hhard ▸ h.linked.term) hreplayed.log x.leader.id
    ((L.drop (p.nextIndex - 1)).take maxAppendEntries) x.leader.hardState.commitIndex hne
  rw [appended, hu, ← Exchange.heard] at hdelivered
  generalize x.heard = v at hkeeps hhears hstays hinternal hdelivered
  have hsent : sentTo x.leader.id x.delivered.2 = some (.appendEntriesResponse
      x.leader.hardState.currentTerm false 0 conflictIndex conflictTerm none) := by
    rw [hdelivered, ← hhears.currentTerm]
    exact sentTo_last hinternal
  obtain ⟨hheeds, hleader, hfollower, hmessage⟩ :=
    Exchange.round_appendResponse h.linked h.progress hsent
  rw [hdelivered] at hfollower
  replace hfollower : x.round.follower = v.raft := hfollower
  rw [← hfollower] at hkeeps hhears hstays
  have hle := h.next_le
  refine ⟨conflictIndex, conflictTerm, hsame ▸ hrefusal, ?_, hheeds, hleader, hhears.log,
    hhears.commitIndex, hstays⟩
  refine h.next hheeds hstays.id hstays.configuration hhears.currentTerm.le hkeeps h.matching
    h.followerAscending ?_ ?_ hmessage
  all_goals
    unfold Progress.afterAppend Turn.retryIndex
    simp only [Bool.false_eq_true, if_false]
    omega

/-- The follower has committed something else in the batch up to an index, and does not answer. -/
structure Balks (L l : List LogEntry) (index : Nat) (x : Exchange) : Prop where
  message : x.round.message = none
  leader : x.round.leader = x.leader
  id : x.round.follower.id = x.follower.id
  differs : ∃ i ≤ index, i ≤ x.follower.hardState.commitIndex ∧ termAt l i ≠ termAt L i

/-- The follower takes over the batch up to an index, and the leader hears of it. -/
structure TakesOver (L l : List LogEntry) (p : Progress) (index : Nat) (x : Exchange) : Prop where
  heeds : Heeds x.leader x.round.leader x.follower.id (p.past index)
  leaderCommit : x.round.leader.hardState.commitIndex = x.leader.commitOnce x.follower.id index
  compared : l.take (min x.follower.hardState.commitIndex index) =
    L.take (min x.follower.hardState.commitIndex index)
  keeps : Keeps x.round.follower (Turn.extended l L index)
  base : x.round.follower.log.baseIndex = x.follower.log.baseIndex
  commit : x.round.follower.hardState.commitIndex = max x.follower.hardState.commitIndex
    (min x.leader.hardState.commitIndex (Turn.extended l L index).length)
  currentTerm : x.round.follower.hardState.currentTerm = x.leader.hardState.currentTerm
  stays : Stays x.follower x.round.follower
  message : x.round.message =
    if L.length ≤ index then none else x.round.leader.messageFor x.follower.id

/-- An append whose previous entry the follower holds: it takes over the batch, or finds that it has
committed something else and falls silent. -/
theorem Appending.held (h : Appending L l p x) (hnext : x.leader.log.baseIndex < p.nextIndex)
    (hbase : x.follower.log.baseIndex ≤ p.nextIndex - 1)
    (heq : termAt l (p.nextIndex - 1) = termAt L (p.nextIndex - 1)) :
    Balks L l (p.batchEnd L) x ∨ TakesOver L l p (p.batchEnd L) x := by
  obtain ⟨prevTerm, hprev, hdelivered⟩ := h.delivered hnext
  obtain ⟨hreplayed, hsame, hhard, -⟩ := h.follower.replayed
  obtain ⟨hkeeps, hhears, hstays, hinternal⟩ := h.follower.heard h.linked
  have hle := h.next_le
  have hmatched : p.nextIndex - 1 + ((L.drop (p.nextIndex - 1)).take maxAppendEntries).length =
      p.batchEnd L := by
    rw [List.length_take, List.length_drop, Progress.batchEnd]
    omega
  have hu := Turn.onAppendEntries_held (hhard ▸ h.linked.term) hreplayed.log x.leader.id
    x.leader.hardState.commitIndex (hsame ▸ hbase) (heq.trans hprev) hprev
    (List.take_prefix maxAppendEntries (L.drop (p.nextIndex - 1))) h.matching h.leaderLog.numbered
    h.leaderAscending h.bound hreplayed.commit_le
  rw [hmatched, ← Exchange.heard, ← appended, ← Raft.replayed, hhard, hsame] at hu
  generalize p.batchEnd L = m at hmatched hu ⊢
  generalize x.heard = v at hkeeps hhears hstays hinternal hu
  rcases hu with ⟨k, reason, hk, hcommitted, hdiff, hu⟩ | ⟨log, w, hrep, htake, hlogbase, hlong, hw,
    hcontinues, hu⟩
  · rw [hu] at hdelivered
    have hsilent : sentTo x.leader.id x.delivered.2 = none := by
      rw [hdelivered]
      exact sentTo_internal (((Turn.Continues.refl v).push rfl).internal hinternal)
    obtain ⟨hleader, hfollower, hmessage⟩ := Exchange.round_silent hsilent
    rw [hdelivered] at hfollower
    exact .inl ⟨hmessage, hleader, hfollower ▸ hstays.id, _, by omega, hcommitted, hdiff⟩
  · have hextended : Keeps w.raft (Turn.extended l L m) := by
      rw [hw]
      exact ⟨hrep, hlogbase ▸ hhears.log ▸ hkeeps.base_le, hkeeps.applied_le,
        hhears.commitIndex ▸ hlong⟩
    have hlast : w.raft.log.lastIndex = (Turn.extended l L m).length := hextended.log.lastIndex
    obtain ⟨hkept, hkeptlog, hkepthard, hkeptstays, hkeptcontinues⟩ := hextended.setCommit
      (show min x.leader.hardState.commitIndex w.raft.log.lastIndex ≤ _ by omega)
    rw [hu, Turn.finishAppend] at hdelivered
    generalize w.setCommit (min x.leader.hardState.commitIndex w.raft.log.lastIndex) = u
      at hkept hkeptlog hkepthard hkeptstays hkeptcontinues hdelivered
    rw [hlast, hw] at hkepthard
    rw [hw] at hkeptlog hkeptstays
    have huterm : u.raft.hardState.currentTerm = x.leader.hardState.currentTerm := by
      rw [hkepthard]
      exact hhears.currentTerm
    have hsent : sentTo x.leader.id x.delivered.2 = some (.appendEntriesResponse
        x.leader.hardState.currentTerm true m 0 none none) := by
      rw [hdelivered, ← huterm]
      exact sentTo_last ((hcontinues.trans hkeptcontinues).internal hinternal)
    obtain ⟨hheeds, hleader, hfollower, hmessage⟩ :=
      Exchange.round_appendResponse h.linked h.progress hsent
    rw [hdelivered] at hfollower
    replace hfollower : x.round.follower = u.raft := hfollower
    rw [← hfollower] at hkept hkeptlog hkepthard hkeptstays huterm
    refine .inr ⟨hheeds, hleader, htake, hkept, ?_, ?_, huterm, ?_, ?_⟩
    · rw [hkeptlog]
      exact hlogbase
    · rw [hkepthard]
      exact congrArg (max · _) hhears.commitIndex
    · exact ⟨hkeptstays.id.trans hstays.id, hkeptstays.configuration.trans hstays.configuration,
        hkeptstays.incomingSnapshot.trans hstays.incomingSnapshot⟩
    · rw [hmessage, h.leaderLog.lastIndex]
      simp only [true_and]

end Round

end AsterRaft
