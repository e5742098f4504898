import AsterDB.Core.Consensus.State
import AsterDB.Models.Raft.Native.Log

/-!
# Retained logs as suffixes of complete logs

Compaction forgets a prefix. Every operation of the retained log is the same
operation on the complete log it came from, as long as it stays at or above
the boundary.
-/

namespace AsterRaft

open Consensus

/-- Entries carry their position, counted from one. -/
def Numbered (full : List LogEntry) : Prop :=
  ∀ (i : Nat) (e : LogEntry), full[i]? = some e → e.index = i + 1

/-- The term at an index of a complete log; index zero has term zero. -/
def termAt (full : List LogEntry) (index : Nat) : Option Nat :=
  if index = 0 then some 0 else (full[index - 1]?).map (·.term)

theorem Numbered.nil : Numbered [] := by
  intro i e h
  simp at h

variable {full l : List LogEntry}

theorem Numbered.take (h : Numbered full) (k : Nat) : Numbered (full.take k) := by
  intro i e he
  rw [List.getElem?_take] at he
  split at he
  · exact h i e he
  · cases he

theorem Numbered.append {entries : List LogEntry} (h : Numbered full)
    (he : ∀ (i : Nat) (e : LogEntry), entries[i]? = some e → e.index = full.length + i + 1) :
    Numbered (full ++ entries) := by
  intro i e hi
  by_cases hlt : i < full.length
  · rw [List.getElem?_append_left hlt] at hi
    exact h i e hi
  · rw [List.getElem?_append_right (by omega)] at hi
    rw [he _ e hi]
    omega

theorem termAt_zero (full : List LogEntry) : termAt full 0 = some 0 := rfl

theorem termAt_succ (full : List LogEntry) (i : Nat) :
    termAt full (i + 1) = (full[i]?).map (·.term) := rfl

variable {i t : Nat}

theorem termAt_pos (hi : 0 < i) : termAt full i = (full[i - 1]?).map (·.term) := by
  rw [termAt, if_neg (by omega)]

/-- A known term marks an index inside the log. -/
theorem le_length_of_termAt (h : termAt full i = some t) : i ≤ full.length := by
  cases i with
  | zero => omega
  | succ i =>
    rw [termAt_succ, Option.map_eq_some_iff] at h
    obtain ⟨e, he, _⟩ := h
    have := (List.getElem?_eq_some_iff.mp he).1
    omega

theorem termAt_isSome (h : i ≤ full.length) : ∃ t, termAt full i = some t := by
  cases i with
  | zero => exact ⟨0, rfl⟩
  | succ i => exact ⟨_, by rw [termAt_succ, List.getElem?_eq_getElem (by omega)]; rfl⟩

theorem termAt_eq_none (h : termAt full i = none) : full.length < i := by
  by_contra hle
  obtain ⟨t, ht⟩ := termAt_isSome (show i ≤ full.length by omega)
  rw [ht] at h
  cases h

theorem termAt_take {k : Nat} (h : i ≤ k) : termAt (full.take k) i = termAt full i := by
  cases i with
  | zero => rfl
  | succ i => rw [termAt_succ, termAt_succ, List.getElem?_take, if_pos (by omega)]

theorem termAt_of_prefix (h : l <+: full) (ht : termAt l i = some t) : termAt full i = some t := by
  have hle := le_length_of_termAt ht
  obtain ⟨rest, rfl⟩ := h
  cases i with
  | zero => exact ht
  | succ i =>
    rw [termAt_succ] at ht ⊢
    rw [List.getElem?_append_left (by omega)]
    exact ht

theorem lastTerm_take (h : termAt full i = some t) : lastTerm LogEntry.term (full.take i) = t := by
  have hle := le_length_of_termAt h
  cases i with
  | zero => simpa [termAt] using h
  | succ i =>
    rw [termAt_succ, Option.map_eq_some_iff] at h
    obtain ⟨e, he, rfl⟩ := h
    have hlen : (full.take (i + 1)).length = i + 1 := by
      rw [List.length_take]
      omega
    apply lastTerm_of_getElem?
    rw [hlen, List.getElem?_take, if_pos (by omega)]
    exact he

variable {l' : List LogEntry}

/-- Equal terms at one index force equal prefixes. -/
theorem take_eq_of_termAt {L : Nat → List LogEntry}
    (h : Rooted LogEntry.term L l) (h' : Rooted LogEntry.term L l') (ht : termAt l i = some t)
    (ht' : termAt l' i = some t) : l.take i = l'.take i := by
  cases i with
  | zero => rfl
  | succ i =>
    rw [termAt_succ, Option.map_eq_some_iff] at ht ht'
    obtain ⟨a, ha, hat⟩ := ht
    obtain ⟨b, hb, hbt⟩ := ht'
    exact h.matching h' ha hb (hat.trans hbt.symm)

/-- Logs with the same term at an index are the same up to it. -/
def Matching (l l' : List LogEntry) : Prop :=
  ∀ i t, termAt l i = some t → termAt l' i = some t → l.take i = l'.take i

theorem take_eq_of_le {a b : Nat} (h : l.take b = l'.take b) (hle : a ≤ b) :
    l.take a = l'.take a := by
  have hcut := congrArg (List.take a) h
  rwa [List.take_take, List.take_take, Nat.min_eq_left hle] at hcut

theorem termAt_congr {k : Nat} (h : l.take k = l'.take k) (hi : i ≤ k) :
    termAt l i = termAt l' i := by
  rw [← termAt_take hi, h, termAt_take hi]

namespace RaftLog

/-- The retained log is the complete log `full` without its compacted prefix. -/
structure Represents (l : RaftLog) (full : List LogEntry) : Prop where
  base_le : l.baseIndex ≤ full.length
  entries_eq : l.entries = full.drop l.baseIndex
  base_term : termAt full l.baseIndex = some l.baseTerm
  numbered : Numbered full

variable {l : RaftLog} {full : List LogEntry}

section

variable (h : l.Represents full)
include h

theorem Represents.getElem? (i : Nat) : l.entries[i]? = full[l.baseIndex + i]? := by
  rw [h.entries_eq, List.getElem?_drop]

theorem Represents.length : l.baseIndex + l.entries.length = full.length := by
  have := h.base_le
  rw [h.entries_eq, List.length_drop]
  omega

theorem Represents.lastIndex : l.lastIndex = full.length := by
  have hlen := h.length
  rw [RaftLog.lastIndex, List.getLast?_eq_getElem?]
  cases he : l.entries[l.entries.length - 1]? with
  | none =>
    have := List.getElem?_eq_none_iff.mp he
    simp only [Option.map_none, Option.getD_none]
    omega
  | some e =>
    have hlt := (List.getElem?_eq_some_iff.mp he).1
    rw [h.getElem?] at he
    have := h.numbered _ e he
    simp only [Option.map_some, Option.getD_some]
    omega

theorem Represents.lastTerm : l.lastTerm = Consensus.lastTerm LogEntry.term full := by
  have hlen := h.length
  rw [RaftLog.lastTerm, List.getLast?_eq_getElem?]
  cases he : l.entries[l.entries.length - 1]? with
  | none =>
    have hz := List.getElem?_eq_none_iff.mp he
    have hbase : l.baseIndex = full.length := by omega
    have hlast := lastTerm_take h.base_term
    rw [hbase, List.take_length] at hlast
    exact hlast.symm
  | some e =>
    have hlt := (List.getElem?_eq_some_iff.mp he).1
    rw [h.getElem?] at he
    rw [lastTerm_of_getElem? (e := e) (by
      rw [show full.length - 1 = l.baseIndex + (l.entries.length - 1) by omega]
      exact he)]
    rfl

variable {i t : Nat}

/-- At or above the boundary the retained log knows exactly the terms of the complete log. -/
theorem Represents.term (hi : l.baseIndex ≤ i) : l.term i = termAt full i := by
  rw [RaftLog.term]
  split
  · rename_i heq
    rw [heq, h.base_term]
  · rename_i hne
    rw [if_neg (by omega), h.getElem?, termAt_pos (by omega)]
    congr 2
    omega

theorem Represents.term_some (ht : l.term i = some t) :
    l.baseIndex ≤ i ∧ termAt full i = some t := by
  have hi : l.baseIndex ≤ i := by
    by_contra hlt
    rw [RaftLog.term, if_neg (by omega), if_pos (by omega)] at ht
    cases ht
  exact ⟨hi, (h.term hi).symm.trans ht⟩

theorem Represents.entry (hi : l.baseIndex < i) : l.entry i = full[i - 1]? := by
  rw [RaftLog.entry, if_neg (by omega), h.getElem?]
  congr 1
  omega

theorem Represents.entry_some {e : LogEntry}
    (he : l.entry i = some e) : l.baseIndex < i ∧ full[i - 1]? = some e := by
  have hi : l.baseIndex < i := by
    by_contra hle
    rw [RaftLog.entry, if_pos (by omega)] at he
    cases he
  exact ⟨hi, (h.entry hi).symm.trans he⟩

theorem Represents.entriesFrom {k : Nat} (hi : l.baseIndex < i) :
    l.entriesFrom i k = (full.drop (i - 1)).take k := by
  rw [RaftLog.entriesFrom, if_neg (by omega), h.entries_eq, List.drop_drop]
  congr 2
  omega

variable {entries : List LogEntry}

theorem Represents.append
    (hn : Numbered (full ++ entries)) : (l.append entries).Represents (full ++ entries) where
  base_le := by
    have := h.base_le
    simp only [RaftLog.append, List.length_append]
    omega
  entries_eq := by
    simp only [RaftLog.append]
    rw [h.entries_eq, List.drop_append_of_le_length h.base_le]
  base_term := termAt_of_prefix (List.prefix_append _ _) h.base_term
  numbered := hn

theorem Represents.truncateAndAppend {start : Nat} (hs : l.baseIndex < start)
    (hle : start ≤ full.length + 1) (hn : Numbered (full.take (start - 1) ++ entries)) :
    (l.truncateAndAppend start entries).Represents (full.take (start - 1) ++ entries) where
  base_le := by
    simp only [RaftLog.truncateAndAppend, List.length_append, List.length_take]
    omega
  entries_eq := by
    simp only [RaftLog.truncateAndAppend]
    rw [h.entries_eq, List.drop_append_of_le_length (by rw [List.length_take]; omega),
      List.drop_take]
    congr 2
    omega
  base_term := by
    have ht := h.base_term
    rw [← termAt_take (k := start - 1) (by omega)] at ht
    exact termAt_of_prefix (List.prefix_append _ _) ht
  numbered := hn

/-- Compaction at a known boundary forgets nothing of the complete log. -/
theorem Represents.compact (hi : l.baseIndex ≤ i)
    (ht : termAt full i = some t) : (l.compact i t true).Represents full where
  base_le := le_length_of_termAt ht
  entries_eq := by
    simp only [RaftLog.compact, if_true, if_neg (show ¬ i + 1 ≤ l.baseIndex by omega)]
    rw [h.entries_eq, List.drop_drop]
    congr 1
    omega
  base_term := ht
  numbered := h.numbered

end

/-- Dropping the suffix leaves any complete log that ends at the boundary. -/
theorem represents_compact_drop (l : RaftLog) (hlen : full.length = i)
    (ht : termAt full i = some t) (hn : Numbered full) : (l.compact i t false).Represents full where
  base_le := hlen.ge
  entries_eq := by
    simp only [RaftLog.compact, Bool.false_eq_true, if_false]
    rw [List.drop_eq_nil_of_le hlen.le]
  base_term := ht
  numbered := hn

theorem represents_empty : (RaftLog.new none []).Represents [] where
  base_le := by simp [RaftLog.new]
  entries_eq := by simp [RaftLog.new]
  base_term := rfl
  numbered := Numbered.nil

end RaftLog

end AsterRaft
