import AsterDB.Models.Engine.Interpretation.Change
import AsterDB.Models.Engine.Interpretation.Keys

/-!
# Contents of a table in a history

What a table holds at a timestamp, said without versions: the writes of the attempts
that committed up to then, one over the other. The version chains show exactly this
to every reader at or above the floor.
-/

namespace AsterEngine

open AsterRaft (Sha256)
open Std
open Fallible

/-- Rows by primary key. -/
abbrev Contents := Value → Option Row

/-- One write over the contents of a table. -/
def Contents.write (tableId : Nat) (contents : Contents) (write : TxnWrite) : Contents :=
  fun key => if write.tableId = tableId ∧ write.primaryKey = key then write.mutation.row
    else contents key

/-- Writes one after the other. -/
def Contents.writes (tableId : Nat) (contents : Contents) (writes : List TxnWrite) : Contents :=
  writes.foldl (Contents.write tableId) contents

/-- The writes of an entry that a reader sees: those of an attempt committed up to then. -/
def Entry.writesAt (readTs : Nat) (entry : Entry) : List TxnWrite :=
  match entry.outcome with
  | .applied (.committed commitIndex _ _) =>
    if commitIndex ≤ readTs then entry.attempt.writes else []
  | _ => []

/-- What a table holds at a timestamp, by the history. -/
def contentsAt (entries : List Entry) (readTs tableId : Nat) : Contents :=
  Contents.writes tableId (fun _ => none) (entries.flatMap (Entry.writesAt readTs))

/-- What a transaction finds in a table: its own writes over its snapshot. -/
def Transaction.contents (transaction : Transaction) (entries : List Entry) (tableId : Nat) :
    Contents :=
  Contents.writes tableId (contentsAt entries transaction.readTs tableId)
    (transaction.writes.toList.map Prod.snd)

section Writes

variable {tableId : Nat} {contents : Contents} {writes : List TxnWrite} {value : Value}
  {key : LogicalKey}

theorem logicalKey_eq_iff (hkey : LogicalKey.new tableId value = .ok key) {write : TxnWrite} :
    write.logicalKey = .ok key ↔ write.tableId = tableId ∧ write.primaryKey = value := by
  constructor
  · intro h
    have htable : write.tableId = tableId := by
      rw [← tableId_of_logicalKey h]
      exact congrArg LogicalKey.tableId (LogicalKey.new_eq_ok.mp hkey).2
    rw [TxnWrite.logicalKey, htable] at h
    exact ⟨htable, LogicalKey.new_injective h hkey⟩
  · rintro ⟨rfl, rfl⟩
    exact hkey

/-- Writes with distinct keys: the one under a key is what counts. -/
theorem Contents.writes_eq
    (hdistinct : writes.Pairwise fun a b => ∀ key, a.logicalKey = .ok key → b.logicalKey ≠ .ok key)
    (hkey : LogicalKey.new tableId value = .ok key) :
    contents.writes tableId writes value =
      match writeAt writes key with
      | some write => write.mutation.row
      | none => contents value := by
  induction writes generalizing contents with
  | nil => rfl
  | cons first rest ih =>
    obtain ⟨hfirst, hrest⟩ := List.pairwise_cons.mp hdistinct
    refine (ih hrest).trans ?_
    rw [Contents.write]
    by_cases h : first.logicalKey = .ok key
    · have hnone : writeAt rest key = none :=
        writeAt_eq_none_iff.mpr fun write hwrite => hfirst write hwrite key h
      rw [hnone, writeAt, List.find?_cons_of_pos (by simpa using h)]
      exact if_pos ((logicalKey_eq_iff hkey).mp h)
    · rw [if_neg (mt (logicalKey_eq_iff hkey).mpr h),
        show writeAt (first :: rest) key = writeAt rest key from
          List.find?_cons_of_neg (by simpa using h)]

/-- A row in the contents was there or was written. -/
theorem Contents.mem_of_writes {row : Row} (h : contents.writes tableId writes value = some row) :
    contents value = some row ∨
      ∃ write ∈ writes, write.tableId = tableId ∧ write.primaryKey = value := by
  induction writes generalizing contents with
  | nil => exact .inl h
  | cons first rest ih =>
    rcases ih h with h | ⟨write, hwrite, hkey⟩
    · rw [Contents.write] at h
      split at h
      next hkey => exact .inr ⟨first, List.mem_cons_self, hkey⟩
      next => exact .inl h
    · exact .inr ⟨write, List.mem_cons_of_mem _ hwrite, hkey⟩

end Writes

section Entries

variable {entries : List Entry} {entry : Entry} {readTs tableId : Nat}

theorem contentsAt_append (added : List Entry) :
    contentsAt (entries ++ added) readTs tableId =
      (contentsAt entries readTs tableId).writes tableId
        (added.flatMap (Entry.writesAt readTs)) := by
  rw [contentsAt, List.flatMap_append, Contents.writes, List.foldl_append]
  rfl

theorem contentsAt_concat :
    contentsAt (entries ++ [entry]) readTs tableId =
      (contentsAt entries readTs tableId).writes tableId (entry.writesAt readTs) := by
  rw [contentsAt_append, List.flatMap_cons, List.flatMap_nil, List.append_nil]

/-- Entries that committed nothing up to then do not count. -/
theorem contentsAt_append_of_nil {added : List Entry}
    (h : ∀ entry ∈ added, entry.writesAt readTs = []) :
    contentsAt (entries ++ added) readTs tableId = contentsAt entries readTs tableId := by
  rw [contentsAt_append, List.flatMap_eq_nil_iff.mpr h]
  rfl

theorem writesAt_of_committed {commit rows epoch : Nat}
    (h : entry.outcome = .applied (.committed commit rows epoch)) :
    entry.writesAt readTs = if commit ≤ readTs then entry.attempt.writes else [] := by
  rw [Entry.writesAt, h]

/-- Beyond the last commit the contents stay. -/
theorem contentsAt_of_bounded {t : Nat} (hbound : ∀ entry ∈ entries, ∀ commit rows epoch,
      entry.outcome = .applied (.committed commit rows epoch) → commit ≤ t) (h : t ≤ readTs) :
    contentsAt entries readTs tableId = contentsAt entries t tableId := by
  have hsame : entries.flatMap (Entry.writesAt readTs) = entries.flatMap (Entry.writesAt t) := by
    refine List.flatMap_congr fun entry hentry => ?_
    unfold Entry.writesAt
    split
    next commit rows epoch hout =>
      have hle := hbound entry hentry commit rows epoch hout
      rw [if_pos (hle.trans h), if_pos hle]
    · rfl
  rw [contentsAt, hsame]
  rfl

end Entries

/-- The chains show the history. -/
structure HistoryOk (e : Engine) (entries : List Entry) : Prop where
  floor_le : e.retainedFloor ≤ e.lastApplied
  bounded : ∀ key, ∀ version ∈ e.chain key, version.commitIndex ≤ e.lastApplied
  keyed : ∀ key, e.chain key ≠ [] → ∃ value, LogicalKey.new key.tableId value = .ok key
  commit_le : ∀ entry ∈ entries, ∀ commit rows epoch,
    entry.outcome = .applied (.committed commit rows epoch) →
      commit ≤ e.lastApplied ∧ entry.attempt.validateCanonical = .ok ()
  visible : ∀ readTs, e.retainedFloor ≤ readTs → readTs ≤ e.lastApplied → ∀ tableId value key,
    LogicalKey.new tableId value = .ok key →
      visibleRow (e.chain key) readTs = contentsAt entries readTs tableId value

namespace HistoryOk

variable {e e' : Engine} {entries added : List Entry} {entry : Entry}

theorem new : HistoryOk .new [] where
  floor_le := Nat.le_refl _
  bounded := by simp [Engine.chain, Engine.new]
  keyed := by simp [Engine.chain, Engine.new]
  commit_le := by simp
  visible := by
    intro readTs _ _ tableId value key _
    simp [Engine.chain, Engine.new, contentsAt, Contents.writes]

section

variable (h : HistoryOk e entries)
include h

/-- The visible rows at timestamps that the engine has not reached yet. -/
theorem visible_later {readTs : Nat} (hfloor : e.retainedFloor ≤ readTs)
    {tableId : Nat} {value : Value} {key : LogicalKey}
    (hkey : LogicalKey.new tableId value = .ok key) :
    visibleRow (e.chain key) readTs = contentsAt entries readTs tableId value := by
  by_cases hle : readTs ≤ e.lastApplied
  · exact h.visible readTs hfloor hle tableId value key hkey
  · rw [visibleRow_of_bounded (h.bounded key) (by omega),
      contentsAt_of_bounded (fun entry hentry commit rows epoch hc =>
        (h.commit_le entry hentry commit rows epoch hc).1) (by omega : e.lastApplied ≤ readTs)]
    exact h.visible _ h.floor_le (Nat.le_refl _) tableId value key hkey

/-- A step that leaves the chains and commits nothing. -/
theorem keep (hlast : e.lastApplied ≤ e'.lastApplied)
    (hfloor : e'.retainedFloor = e.retainedFloor) (hchain : ∀ key, e'.chain key = e.chain key)
    (hadded : ∀ entry ∈ added, ∀ commit rows epoch,
      entry.outcome ≠ .applied (.committed commit rows epoch)) :
      HistoryOk e' (entries ++ added) where
  floor_le := by
    rw [hfloor]
    exact h.floor_le.trans hlast
  bounded := by
    intro key version hversion
    rw [hchain] at hversion
    exact (h.bounded key version hversion).trans hlast
  keyed := fun key hne => h.keyed key (hchain key ▸ hne)
  commit_le := by
    intro entry hentry commit rows epoch hc
    rcases List.mem_append.mp hentry with hentry | hentry
    · have hold := h.commit_le entry hentry commit rows epoch hc
      exact ⟨hold.1.trans hlast, hold.2⟩
    · exact absurd hc (hadded entry hentry commit rows epoch)
  visible := by
    intro readTs hge _ tableId value key hkey
    rw [hchain, h.visible_later (hfloor ▸ hge) hkey, contentsAt_append_of_nil]
    intro entry hentry
    unfold Entry.writesAt
    split
    next hout => exact absurd hout (hadded entry hentry _ _ _)
    next => rfl

theorem vacuum {floor : Nat} (hv : Vacuums e floor e') : HistoryOk e' entries where
  floor_le := by
    rw [hv.retainedFloor, hv.lastApplied]
    have hle := hv.floor_le
    have hold := h.floor_le
    omega
  bounded := by
    intro key version hversion
    rw [hv.chain, vacuumRows_eq] at hversion
    rw [hv.lastApplied]
    exact h.bounded key version (Versions.mem_vacuum hversion)
  keyed := by
    intro key hne
    refine h.keyed key fun hnil => hne ?_
    rw [hv.chain, hnil]
    rfl
  commit_le := by
    rw [hv.lastApplied]
    exact h.commit_le
  visible := by
    intro readTs hge hle tableId value key hkey
    rw [hv.retainedFloor] at hge
    rw [hv.chain, visibleRow_vacuumRows _ hge]
    exact h.visible readTs (hv.floor_ge.trans hge) (hv.lastApplied ▸ hle) tableId value key hkey

/-- A commit: the entry's writes lie over the contents from its index on. -/
theorem commit {middle : Engine} (hc : Commits e entry.index entry.attempt middle)
    {rows epoch : Nat} (houtcome : entry.outcome = .applied (.committed entry.index rows epoch))
    (hindex : entry.index = e.lastApplied + 1) (hlast : e'.lastApplied = entry.index)
    (hfloor : e'.retainedFloor = middle.retainedFloor)
    (hchain : ∀ key, e'.chain key = middle.chain key) : HistoryOk e' (entries ++ [entry]) where
  floor_le := by
    rw [hfloor, hc.retainedFloor]
    have := h.floor_le
    omega
  bounded := by
    intro key version hversion
    rw [hchain, hc.chain] at hversion
    rcases List.mem_append.mp hversion with hversion | hversion
    · rw [Option.mem_toList] at hversion
      obtain ⟨_, -, rfl⟩ := Option.map_eq_some_iff.mp hversion
      exact hlast.ge
    · have := h.bounded key version hversion
      omega
  keyed := by
    intro key hne
    rw [hchain, hc.chain] at hne
    cases hwrite : writeAt entry.attempt.writes key with
    | none =>
      rw [hwrite] at hne
      exact h.keyed key hne
    | some write =>
      obtain ⟨-, hkey⟩ := (writeAt_eq_some_iff (distinct_of_canonical hc.canonical)).mp hwrite
      refine ⟨write.primaryKey, ?_⟩
      rw [tableId_of_logicalKey hkey]
      exact hkey
  commit_le := by
    intro x hx commit rows epoch hcommit
    rcases List.mem_append.mp hx with hx | hx
    · have hold := h.commit_le x hx commit rows epoch hcommit
      exact ⟨by omega, hold.2⟩
    · cases List.mem_singleton.mp hx
      cases houtcome.symm.trans hcommit
      exact ⟨hlast.ge, hc.canonical⟩
  visible := by
    intro readTs hge hle tableId value key hkey
    rw [hfloor, hc.retainedFloor] at hge
    have hold := h.visible_later hge hkey
    rw [hchain, hc.chain, contentsAt_concat, writesAt_of_committed houtcome]
    by_cases hsees : entry.index ≤ readTs
    · rw [if_pos hsees, Contents.writes_eq (distinct_of_canonical hc.canonical) hkey, ← hold]
      cases writeAt entry.attempt.writes key with
      | none => rfl
      | some write =>
        rw [Option.map_some, Option.toList_some, List.singleton_append, visibleRow_cons,
          if_pos hsees]
    · rw [if_neg hsees]
      refine Eq.trans ?_ hold
      cases writeAt entry.attempt.writes key with
      | none => rfl
      | some write =>
        rw [Option.map_some, Option.toList_some, List.singleton_append, visibleRow_cons,
          if_neg hsees]

theorem change (hchange : Change e added e') : HistoryOk e' (entries ++ added) := by
  cases hchange with
  | quiet same le => exact h.keep le same.retainedFloor same.chain (by simp)
  | duplicate _ outcome index last same | rejected _ outcome index last same
  | aborted _ outcome index last same =>
    exact h.keep (by omega) same.retainedFloor same.chain (by simp [outcome])
  | committed _ outcome result_eq index last commits same =>
    exact h.commit commits (outcome.trans (congrArg _ result_eq)) index last same.retainedFloor
      same.chain
  | vacuumed floor vacuums =>
    rw [List.append_nil]
    exact h.vacuum vacuums

end

end HistoryOk

theorem historyOk_of_reached [Sha256] {e : Engine} {entries : List Entry} (h : e.Reached entries) :
    HistoryOk e entries :=
  reached_induct HistoryOk.new HistoryOk.change h

end AsterEngine
