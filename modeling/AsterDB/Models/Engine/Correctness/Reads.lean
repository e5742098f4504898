import AsterDB.Core.Ordered
import AsterDB.Models.Engine.Interpretation.History

/-!
# Snapshot reads

A transaction reads the contents of its tables at its snapshot with its own writes
over them, whatever was applied or vacuumed since.
-/

namespace AsterEngine

open AsterRaft (Sha256 zeroHash)
open Std
open Fallible Ordered

section Staged

variable (transaction : Transaction)

theorem mem_staged {write : TxnWrite} :
    write ∈ transaction.writes.toList.map Prod.snd ↔
      ∃ key : LogicalKey, transaction.writes[key]? = some write := by
  simp [ExtTreeMap.mem_toList_iff_getElem?_eq_some]

/-- Staged writes have distinct keys. -/
theorem distinct_staged : (transaction.writes.toList.map Prod.snd).Pairwise fun a b =>
    ∀ key, a.logicalKey = .ok key → b.logicalKey ≠ .ok key := by
  rw [List.pairwise_map]
  refine (ExtTreeMap.ordered_keys_toList (t := transaction.writes)).imp_of_mem ?_
  rintro ⟨keyA, a⟩ ⟨keyB, b⟩ ha hb hlt key hkeyA hkeyB
  have hA := transaction.keyed _ _ (ExtTreeMap.mem_toList_iff_getElem?_eq_some.mp ha)
  have hB := transaction.keyed _ _ (ExtTreeMap.mem_toList_iff_getElem?_eq_some.mp hb)
  cases hA.symm.trans hkeyA
  cases hB.symm.trans hkeyB
  rw [ReflOrd.compare_self] at hlt
  cases hlt

theorem writeAt_staged (key : LogicalKey) :
    writeAt (transaction.writes.toList.map Prod.snd) key = transaction.writes[key]? := by
  apply Option.ext
  intro write
  rw [writeAt_eq_some_iff (distinct_staged transaction), mem_staged]
  constructor
  · rintro ⟨⟨key', hwrite⟩, hkey⟩
    cases (transaction.keyed key' write hwrite).symm.trans hkey
    exact hwrite
  · intro hwrite
    exact ⟨⟨key, hwrite⟩, transaction.keyed key write hwrite⟩

end Staged

section Contents

variable {e : Engine} {entries : List Entry} {transaction : Transaction} {tableId : Nat}
  {value : Value} {key : LogicalKey} {row : Row}

/-- Reading a key finds the contents. -/
theorem readKey_eq_contents (h : HistoryOk e entries)
    (hfloor : e.retainedFloor ≤ transaction.readTs)
    (hkey : LogicalKey.new tableId value = .ok key) :
    e.readKey transaction key = transaction.contents entries tableId value := by
  rw [Engine.readKey_eq, Transaction.contents, Contents.writes_eq (distinct_staged transaction)
    hkey, writeAt_staged, Transaction.overlay]
  cases transaction.writes[key]? with
  | none => exact h.visible_later hfloor hkey
  | some write => rfl

/-- Only keys of values are read. -/
theorem value_of_readKey (h : HistoryOk e entries) (hrow : e.readKey transaction key = some row) :
    ∃ value, LogicalKey.new key.tableId value = .ok key := by
  rw [Engine.readKey_eq, Transaction.overlay] at hrow
  cases hwrite : transaction.writes[key]? with
  | none =>
    rw [hwrite] at hrow
    refine h.keyed key fun hnil => ?_
    rw [hnil] at hrow
    cases hrow
  | some write =>
    have hlogical := transaction.keyed key write hwrite
    refine ⟨write.primaryKey, ?_⟩
    rw [tableId_of_logicalKey hlogical]
    exact hlogical

/-- Every row in the contents has a key. -/
theorem key_of_contents (h : HistoryOk e entries)
    (hrow : transaction.contents entries tableId value = some row) :
    ∃ key, LogicalKey.new tableId value = .ok key := by
  rcases Contents.mem_of_writes hrow with hrow | ⟨write, hwrite, rfl, rfl⟩
  · rcases Contents.mem_of_writes hrow with hrow | ⟨write, hwrite, rfl, rfl⟩
    · cases hrow
    · obtain ⟨entry, hentry, hmem⟩ := List.mem_flatMap.mp hwrite
      unfold Entry.writesAt at hmem
      split at hmem
      next commit rows epoch hout =>
        have hcanonical := (h.commit_le entry hentry commit rows epoch hout).2
        split at hmem
        · exact logicalKey_of_canonical hcanonical hmem
        · cases hmem
      · cases hmem
  · obtain ⟨key, hkey⟩ := (mem_staged transaction).mp hwrite
    exact ⟨key, transaction.keyed key write hkey⟩

end Contents

section Scan

variable {e : Engine} {entries : List Entry} {transaction : Transaction} {tableId : Nat}

/-- The keys a scan goes over. -/
def scanKeys (e : Engine) (transaction : Transaction) (tableId : Nat) : List LogicalKey :=
  e.primary.keys.filter (fun key => key.tableId == tableId) ++
    Engine.stagedKeys transaction tableId

theorem tableId_of_mem_scanKeys {key : LogicalKey} (h : key ∈ scanKeys e transaction tableId) :
    key.tableId = tableId := by
  rcases List.mem_append.mp h with h | h
  · exact beq_iff_eq.mp (List.mem_filter.mp h).2
  · exact beq_iff_eq.mp (List.mem_filter.mp h).2

/-- A scan misses no key that has a row. -/
theorem mem_scanKeys_of_readKey {key : LogicalKey} {row : Row}
    (h : e.readKey transaction key = some row) : key ∈ scanKeys e transaction key.tableId := by
  rw [Engine.readKey_eq, Transaction.overlay] at h
  cases hwrite : transaction.writes[key]? with
  | none =>
    rw [hwrite] at h
    refine List.mem_append_left _ (List.mem_filter.mpr ⟨ExtTreeMap.mem_keys.mpr ?_, by simp⟩)
    refine e.mem_primary_of_chain_ne_nil fun hnil => ?_
    rw [hnil] at h
    cases h
  | some write =>
    refine List.mem_append_right _ (List.mem_filter.mpr ⟨ExtTreeMap.mem_keys.mpr ?_, by simp⟩)
    rw [← ExtTreeMap.isSome_getElem?_iff_mem, hwrite]
    rfl

theorem ensureTransactionSnapshot_eq_ok {u : Unit} :
    e.ensureTransactionSnapshot transaction = .ok u ↔
      e.retainedFloor ≤ transaction.readTs ∧ transaction.readTs ≤ e.lastApplied := by
  simp only [Engine.ensureTransactionSnapshot, bind_eq_ok, failIf_eq_ok, exists_const, Nat.not_lt]

theorem scanTable_eq_ok {rows : List Row} :
    e.scanTable transaction tableId = .ok rows ↔
      (e.retainedFloor ≤ transaction.readTs ∧ transaction.readTs ≤ e.lastApplied) ∧
      (∃ table, e.tableForTransaction transaction tableId = .ok table) ∧
      (along (scanKeys e transaction tableId) (e.readKey transaction)).map Prod.snd = rows := by
  simp only [Engine.scanTable, bind_eq_ok, ensureTransactionSnapshot_eq_ok, pure_eq_ok,
    exists_const, along_map_snd]
  constructor
  · rintro ⟨hsnapshot, table, htable, hrows⟩
    exact ⟨hsnapshot, ⟨table, htable⟩, hrows⟩
  · rintro ⟨hsnapshot, ⟨table, htable⟩, hrows⟩
    exact ⟨hsnapshot, table, htable, hrows⟩

theorem get_eq_ok {value : Value} {row : Option Row} :
    e.get transaction tableId value = .ok row ↔
      (e.retainedFloor ≤ transaction.readTs ∧ transaction.readTs ≤ e.lastApplied) ∧
      e.validatePrimaryKey transaction tableId value = .ok () ∧
      ∃ key, LogicalKey.new tableId value = .ok key ∧ e.readKey transaction key = row := by
  simp only [Engine.get, bind_eq_ok, ensureTransactionSnapshot_eq_ok, pure_eq_ok, exists_const,
    liftCore_eq_ok]
  exact and_congr_right fun _ => ⟨fun ⟨⟨⟩, h⟩ => h, fun h => ⟨(), h⟩⟩

/-- The rows of a table, under the values of their keys. -/
theorem scanTable_contents (h : HistoryOk e entries) (hfloor : e.retainedFloor ≤ transaction.readTs)
    (hlast : transaction.readTs ≤ e.lastApplied) {table : TableMeta}
    (htable : e.tableForTransaction transaction tableId = .ok table) :
    ∃ rows : List (Value × Row), e.scanTable transaction tableId = .ok (rows.map Prod.snd) ∧
      rows.Pairwise (fun a b => a.1.order b.1 = .lt) ∧
      ∀ value row, (value, row) ∈ rows ↔ transaction.contents entries tableId value = some row := by
  classical
  have hvalue : ∀ pair : LogicalKey × Row,
      ∃ value, pair ∈ along (scanKeys e transaction tableId) (e.readKey transaction) →
        LogicalKey.new tableId value = .ok pair.1 := by
    rintro ⟨key, row⟩
    by_cases hmem : (key, row) ∈ along (scanKeys e transaction tableId) (e.readKey transaction)
    · obtain ⟨hkey, hrow⟩ := mem_along.mp hmem
      obtain ⟨value, hvalue⟩ := value_of_readKey h hrow
      exact ⟨value, fun _ => tableId_of_mem_scanKeys hkey ▸ hvalue⟩
    · exact ⟨.null, fun hmem' => absurd hmem' hmem⟩
  choose valueOf hvalueOf using hvalue
  refine ⟨(along (scanKeys e transaction tableId) (e.readKey transaction)).map
    fun pair => (valueOf pair, pair.2), ?_, ?_, ?_⟩
  · rw [List.map_map]
    exact scanTable_eq_ok.mpr ⟨⟨hfloor, hlast⟩, ⟨table, htable⟩, rfl⟩
  · rw [List.pairwise_map]
    refine (pairwise_along _ _).imp_of_mem fun {a b} ha hb hlt => ?_
    rw [← LogicalKey.compare_new (hvalueOf a ha) (hvalueOf b hb)]
    exact hlt
  · intro value row
    rw [List.mem_map]
    constructor
    · rintro ⟨pair, hpair, heq⟩
      obtain ⟨rfl, rfl⟩ := Prod.mk.inj heq
      rw [← readKey_eq_contents h hfloor (hvalueOf pair hpair)]
      exact (mem_along.mp hpair).2
    · intro hrow
      obtain ⟨key, hkey⟩ := key_of_contents h hrow
      rw [← readKey_eq_contents h hfloor hkey] at hrow
      have htableId : key.tableId = tableId :=
        congrArg LogicalKey.tableId (LogicalKey.new_eq_ok.mp hkey).2
      have hmem : (key, row) ∈ along (scanKeys e transaction tableId) (e.readKey transaction) :=
        mem_along.mpr ⟨htableId ▸ mem_scanKeys_of_readKey hrow, hrow⟩
      refine ⟨(key, row), hmem, ?_⟩
      rw [LogicalKey.new_injective (hvalueOf _ hmem) hkey]

end Scan

section Stability

variable {e e' : Engine} {entries added : List Entry} {transaction : Transaction} {tableId : Nat}

/-- Later commits are beyond the snapshot. -/
theorem contents_later (hlater : Later e added e') (hlast : transaction.readTs ≤ e.lastApplied) :
    transaction.contents (entries ++ added) tableId = transaction.contents entries tableId := by
  have hnil : ∀ entry ∈ added, entry.writesAt transaction.readTs = [] := by
    intro entry hentry
    unfold Entry.writesAt
    split
    next commit rows epoch hout =>
      have hbeyond := hlater.beyond entry hentry commit rows epoch hout
      exact if_neg (by omega)
    · rfl
  rw [Transaction.contents, contentsAt_append_of_nil hnil]
  rfl

variable (h : HistoryOk e entries) (h' : HistoryOk e' (entries ++ added))
  (hlater : Later e added e') (hfloor : e.retainedFloor ≤ transaction.readTs)
  (hfloor' : e'.retainedFloor ≤ transaction.readTs) (hlast : transaction.readTs ≤ e.lastApplied)
include h h' hlater hfloor hfloor' hlast

theorem readKey_later (key : LogicalKey) :
    e'.readKey transaction key = e.readKey transaction key := by
  have hsame : ∀ {value}, LogicalKey.new key.tableId value = .ok key →
      e'.readKey transaction key = e.readKey transaction key := by
    intro value hkey
    rw [readKey_eq_contents h' hfloor' hkey, contents_later hlater hlast,
      readKey_eq_contents h hfloor hkey]
  cases hrow : e.readKey transaction key with
  | some row =>
    obtain ⟨value, hkey⟩ := value_of_readKey h hrow
    rw [hsame hkey, hrow]
  | none =>
    cases hrow' : e'.readKey transaction key with
    | none => rfl
    | some row =>
      obtain ⟨value, hkey⟩ := value_of_readKey h' hrow'
      rw [hsame hkey, hrow] at hrow'
      cases hrow'

end Stability

variable {e : Engine} {transaction : Transaction} {tableId : Nat}

theorem tableForTransaction_later {e' : Engine} (hgrows : e.catalog.Grows e'.catalog)
    {table : TableMeta} (h : e.tableForTransaction transaction tableId = .ok table) :
    e'.tableForTransaction transaction tableId = .ok table := by
  rw [Engine.tableForTransaction, orFail_eq_ok] at h ⊢
  cases hstaged : transaction.stagedTable tableId with
  | some staged =>
    rw [hstaged] at h
    exact h
  | none =>
    rw [hstaged] at h
    exact hgrows.table h

theorem validatePrimaryKey_later {e' : Engine} (hgrows : e.catalog.Grows e'.catalog)
    {value : Value} {u : Unit} (h : e.validatePrimaryKey transaction tableId value = .ok u) :
    e'.validatePrimaryKey transaction tableId value = .ok u := by
  rw [Engine.validatePrimaryKey, bind_eq_ok] at h ⊢
  obtain ⟨table, htable, hrest⟩ := h
  exact ⟨table, tableForTransaction_later hgrows htable, hrest⟩

theorem encodeValue_of_validatePrimaryKey
    {value : Value} {u : Unit} (h : e.validatePrimaryKey transaction tableId value = .ok u) :
    ∃ bytes, Codec.encodeValue value = .ok bytes := by
  simp only [Engine.validatePrimaryKey, bind_eq_ok] at h
  obtain ⟨table, -, _, -, bytes, hbytes, -⟩ := h
  exact ⟨bytes, liftCore_eq_ok.mp hbytes⟩

/-- A transaction reads, in the order of primary keys, what the attempts committed up to its
snapshot and then its own writes left in a table, and goes on reading the same as long as its
snapshot is retained. -/
theorem snapshot_reads [Sha256] {e : Engine} {entries : List Entry} (h : e.Reached entries)
    (transaction : Transaction) (hfloor : e.retainedFloor ≤ transaction.readTs)
    (hlast : transaction.readTs ≤ e.lastApplied) (tableId : Nat) :
    (∀ table, e.tableForTransaction transaction tableId = .ok table →
      ∃ rows : List (Value × Row), e.scanTable transaction tableId = .ok (rows.map Prod.snd) ∧
        rows.Pairwise (fun a b => a.1.order b.1 = .lt) ∧
        ∀ value row, (value, row) ∈ rows ↔
          transaction.contents entries tableId value = some row) ∧
    (∀ value, e.validatePrimaryKey transaction tableId value = .ok () →
      e.get transaction tableId value = .ok (transaction.contents entries tableId value)) ∧
    ∀ e' added, e.Run added e' → e'.retainedFloor ≤ transaction.readTs →
      (∀ rows, e.scanTable transaction tableId = .ok rows →
        e'.scanTable transaction tableId = .ok rows) ∧
      ∀ value row, e.get transaction tableId value = .ok row →
        e'.get transaction tableId value = .ok row := by
  have hok := historyOk_of_reached h
  refine ⟨fun table htable => scanTable_contents hok hfloor hlast htable, ?_, ?_⟩
  · intro value hvalid
    have hkey : LogicalKey.new tableId value = .ok _ :=
      LogicalKey.new_eq_ok.mpr ⟨encodeValue_of_validatePrimaryKey hvalid, rfl⟩
    exact get_eq_ok.mpr ⟨⟨hfloor, hlast⟩, hvalid, _, hkey, readKey_eq_contents hok hfloor hkey⟩
  · intro e' added hrun hfloor'
    have hok' := historyOk_of_reached (h.trans hrun)
    have hlater := later_of_run hrun
    have hread := readKey_later hok hok' hlater hfloor hfloor' hlast
    refine ⟨fun rows hrows => ?_, fun value row hrow => ?_⟩
    · obtain ⟨-, ⟨table, htable⟩, rfl⟩ := scanTable_eq_ok.mp hrows
      refine scanTable_eq_ok.mpr ⟨⟨hfloor', hlast.trans hlater.lastApplied⟩,
        ⟨table, tableForTransaction_later hlater.grows htable⟩, ?_⟩
      congr 1
      refine along_eq_of_iff fun key row => ?_
      rw [hread key]
      constructor
      · rintro ⟨hmem, hrow⟩
        exact ⟨tableId_of_mem_scanKeys hmem ▸ mem_scanKeys_of_readKey hrow, hrow⟩
      · rintro ⟨hmem, hrow⟩
        exact ⟨tableId_of_mem_scanKeys hmem ▸ mem_scanKeys_of_readKey ((hread key).trans hrow),
          hrow⟩
    · obtain ⟨-, hvalid, key, hkey, rfl⟩ := get_eq_ok.mp hrow
      exact get_eq_ok.mpr ⟨⟨hfloor', hlast.trans hlater.lastApplied⟩,
        validatePrimaryKey_later hlater.grows hvalid, key, hkey, hread key⟩

/-- At the first index of the sample run there is one row. -/
theorem snapshot_reads_sample : ∃ e, @Engine.Reached zeroHash e sampleEntries ∧
    e.retainedFloor ≤ 1 ∧ 1 ≤ e.lastApplied ∧
    (∃ rows : List (Value × Row), e.scanTable (.new 3 1 1) 1 = .ok (rows.map Prod.snd) ∧
      rows.Pairwise (fun a b => a.1.order b.1 = .lt) ∧
      ∀ value row, (value, row) ∈ rows ↔
        (Transaction.new 3 1 1).contents sampleEntries 1 value = some row) ∧
    e.get (.new 3 1 1) 1 (.int64 1) = .ok (some (itemRow 1 "red")) := by
  let _ := zeroHash
  obtain ⟨hfloor, hlast, htable, hkey⟩ : (afterRun sampleRun).retainedFloor ≤ 1 ∧
      1 ≤ (afterRun sampleRun).lastApplied ∧
      ((afterRun sampleRun).tableForTransaction (.new 3 1 1) 1).toOption = some itemsTable ∧
      ((afterRun sampleRun).validatePrimaryKey (.new 3 1 1) 1 (.int64 1)).isOk = true := by
    decide +kernel
  obtain ⟨hscan, hget, -⟩ := snapshot_reads reached_sampleRun (.new 3 1 1) hfloor hlast 1
  refine ⟨_, reached_sampleRun, hfloor, hlast, hscan itemsTable ?_, ?_⟩
  · cases htab : (afterRun sampleRun).tableForTransaction (.new 3 1 1) 1 <;>
      simp_all [Except.toOption]
  · refine (hget (.int64 1) ?_).trans (congrArg _ (by decide))
    cases hval : (afterRun sampleRun).validatePrimaryKey (.new 3 1 1) 1 (.int64 1) <;>
      simp_all [Except.isOk, Except.toBool]

end AsterEngine
