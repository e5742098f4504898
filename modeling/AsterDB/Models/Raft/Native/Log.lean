import AsterDB.Models.Raft.Native.Types

/-!
# The retained log

A log keeps the entries after a compaction boundary. Offsets into the retained
entries fit the platform's word size, so the conversions of the source are the
identity here.
-/

namespace AsterRaft

/-- Entries after the boundary `(baseIndex, baseTerm)`. -/
structure RaftLog where
  baseIndex : Nat
  baseTerm : Nat
  entries : List LogEntry
  deriving DecidableEq, Repr

namespace RaftLog

def new (snapshot : Option PersistentSnapshot) (entries : List LogEntry) : RaftLog where
  baseIndex := (snapshot.map (·.metadata.lastIncludedIndex)).getD 0
  baseTerm := (snapshot.map (·.metadata.lastIncludedTerm)).getD 0
  entries := entries

def lastIndex (l : RaftLog) : Nat := (l.entries.getLast?.map (·.index)).getD l.baseIndex

def lastTerm (l : RaftLog) : Nat := (l.entries.getLast?.map (·.term)).getD l.baseTerm

/-- The term at an index at or above the boundary. -/
def term (l : RaftLog) (index : Nat) : Option Nat :=
  if index = l.baseIndex then some l.baseTerm
  else if index < l.baseIndex then none
  else (l.entries[index - l.baseIndex - 1]?).map (·.term)

def entry (l : RaftLog) (index : Nat) : Option LogEntry :=
  if index ≤ l.baseIndex then none else l.entries[index - l.baseIndex - 1]?

/-- Up to `limit` entries from an index on. -/
def entriesFrom (l : RaftLog) (index limit : Nat) : List LogEntry :=
  if index ≤ l.baseIndex then [] else (l.entries.drop (index - l.baseIndex - 1)).take limit

def append (l : RaftLog) (entries : List LogEntry) : RaftLog :=
  { l with entries := l.entries ++ entries }

def truncateAndAppend (l : RaftLog) (start : Nat) (entries : List LogEntry) : RaftLog :=
  { l with entries := l.entries.take (start - (l.baseIndex + 1)) ++ entries }

/-- Walk back from an index while the entry before it has the given term. -/
def firstIndexOfTerm (l : RaftLog) : Nat → Nat → Nat
  | 0, _ => 0
  | cursor + 1, t =>
    if l.baseIndex < cursor + 1 ∧ l.term cursor = some t then l.firstIndexOfTerm cursor t
    else cursor + 1

def lastIndexOfTerm (l : RaftLog) (t : Nat) : Option Nat :=
  ((l.entries.reverse.find? fun e => e.term = t).map (·.index)).or
    (if l.baseTerm = t then some l.baseIndex else none)

/-- Move the boundary, keeping the entries after it or none. -/
def compact (l : RaftLog) (index term : Nat) (retainSuffix : Bool) : RaftLog where
  baseIndex := index
  baseTerm := term
  entries :=
    if retainSuffix then
      if index + 1 ≤ l.baseIndex then [] else l.entries.drop (index + 1 - l.baseIndex - 1)
    else []

end RaftLog

end AsterRaft
