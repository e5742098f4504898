import AsterDB.Models.Engine.Correctness.Reads

/-!
# Secondary indexes

From its creation on, an index shows every row that is visible, under the value of
its column. An index scan goes back to the rows it is led to and keeps those that
have the value, so it returns what a scan of the table would.
-/

namespace AsterEngine

open AsterRaft (Sha256 zeroHash)
open Std
open Fallible Ordered

/-- An entry that committed the creation of an index. -/
def Entry.Creates (entry : Entry) (index : IndexMeta) (commit : Nat) : Prop :=
  (∃ rows epoch, entry.outcome = .applied (.committed commit rows epoch)) ∧
    .createIndex index ∈ entry.attempt.catalogMutations

/-- Every index shows every row visible since it was made. -/
structure IndexesOk (e : Engine) (entries : List Entry) : Prop where
  catalog : e.catalog.Ok
  bounded : ∀ key, ∀ version ∈ e.entries key, version.commitIndex ≤ e.lastApplied
  creator : ∀ {id index}, e.catalog.index id = some index →
    ∃ entry ∈ entries, ∃ commit, entry.Creates index commit
  created : ∀ entry ∈ entries, ∀ index commit, entry.Creates index commit →
    e.catalog.index index.id = some index
  shown : ∀ entry ∈ entries, ∀ index commit, entry.Creates index commit → ∀ readTs,
    commit ≤ readTs → e.retainedFloor ≤ readTs → readTs ≤ e.lastApplied →
    ∀ {key row value}, key.tableId = index.tableId → visibleRow (e.chain key) readTs = some row →
      row.values[index.column]? = some value → value.isNull = false →
      visibleSecondary (e.entries (entryKey index.id value key)) readTs = true

namespace IndexesOk

variable {e e' : Engine} {entries added : List Entry} {entry : Entry}

theorem new : IndexesOk .new [] where
  catalog := Catalog.ok_empty
  bounded := by simp [Engine.entries, Engine.new]
  creator := by simp [Engine.new, Catalog.index, Catalog.empty]
  created := by simp
  shown := by simp

theorem not_creates_of_outcome (h : ∀ commit rows epoch,
    entry.outcome ≠ .applied (.committed commit rows epoch)) {index : IndexMeta} {commit : Nat} :
    ¬entry.Creates index commit := fun ⟨⟨rows, epoch, hout⟩, _⟩ => h commit rows epoch hout

variable {readTs : Nat}

/-- What indexes show at timestamps that the engine has not reached yet. -/
theorem shown_later (h : IndexesOk e entries) (hhistory : HistoryOk e entries)
    (hentry : entry ∈ entries) {index : IndexMeta} {commit : Nat} (hc : entry.Creates index commit)
    (hcommit : commit ≤ readTs) (hfloor : e.retainedFloor ≤ readTs)
    {key : LogicalKey} {row : Row} {value : Value} (htable : key.tableId = index.tableId)
    (hrow : visibleRow (e.chain key) readTs = some row)
    (hvalue : row.values[index.column]? = some value) (hnull : value.isNull = false) :
    visibleSecondary (e.entries (entryKey index.id value key)) readTs = true := by
  by_cases hle : readTs ≤ e.lastApplied
  · exact h.shown entry hentry index commit hc readTs hcommit hfloor hle htable hrow hvalue hnull
  · have hlast : e.lastApplied ≤ readTs := by omega
    have ⟨⟨rows, epoch, hout⟩, _⟩ := hc
    rw [visibleRow_of_bounded (hhistory.bounded key) hlast] at hrow
    rw [visibleSecondary_of_bounded (h.bounded _) hlast]
    exact h.shown entry hentry index commit hc e.lastApplied
      (hhistory.commit_le entry hentry commit rows epoch hout).1 hhistory.floor_le (Nat.le_refl _)
      htable hrow hvalue hnull

/-- A step that leaves catalog and versions and commits nothing. -/
theorem keep (h : IndexesOk e entries) (hhistory : HistoryOk e entries)
    (hlast : e.lastApplied ≤ e'.lastApplied) (hfloor : e'.retainedFloor = e.retainedFloor)
    (hcatalog : e'.catalog = e.catalog) (hchain : ∀ key, e'.chain key = e.chain key)
    (hentries : ∀ key, e'.entries key = e.entries key)
    (hadded : ∀ entry ∈ added, ∀ commit rows epoch,
      entry.outcome ≠ .applied (.committed commit rows epoch)) :
    IndexesOk e' (entries ++ added) := by
  have hold : ∀ entry ∈ entries ++ added, ∀ {index commit}, entry.Creates index commit →
      entry ∈ entries := by
    intro entry hentry index commit hc
    rcases List.mem_append.mp hentry with hentry | hentry
    · exact hentry
    · exact absurd hc (not_creates_of_outcome (hadded entry hentry))
  constructor
  · exact hcatalog ▸ h.catalog
  · intro key version hversion
    exact (h.bounded key version (hentries key ▸ hversion)).trans hlast
  · intro id index hindex
    obtain ⟨entry, hentry, hc⟩ := h.creator (hcatalog ▸ hindex)
    exact ⟨entry, List.mem_append_left _ hentry, hc⟩
  · intro entry hentry index commit hc
    rw [hcatalog]
    exact h.created entry (hold entry hentry hc) index commit hc
  · intro entry hentry index commit hc readTs hcommit hge _ key row value htable hrow hvalue hnull
    rw [hchain] at hrow
    rw [hentries]
    exact h.shown_later hhistory (hold entry hentry hc) hc hcommit (hfloor ▸ hge) htable hrow hvalue
      hnull

theorem vacuum (h : IndexesOk e entries) {floor : Nat} (hv : Vacuums e floor e') :
    IndexesOk e' entries where
  catalog := hv.catalog ▸ h.catalog
  bounded := by
    intro key version hversion
    rw [hv.entries, vacuumSecondary_eq] at hversion
    rw [hv.lastApplied]
    exact h.bounded key version (Versions.mem_vacuum hversion)
  creator := by
    rw [hv.catalog]
    exact h.creator
  created := by
    rw [hv.catalog]
    exact h.created
  shown := by
    intro entry hentry index commit hc readTs hcommit hge hle key row value htable hrow hvalue hnull
    rw [hv.retainedFloor] at hge
    rw [hv.chain, visibleRow_vacuumRows _ hge] at hrow
    rw [hv.entries, visibleSecondary_vacuumSecondary _ hge]
    exact h.shown entry hentry index commit hc readTs hcommit (hv.floor_ge.trans hge)
      (hv.lastApplied ▸ hle) htable hrow hvalue hnull

/-- Versions at one index in front of a chain are not seen before it. -/
theorem visibleSecondary_append_of_lt {pushed versions : List SecondaryVersion} {index : Nat}
    (hpushed : ∀ version ∈ pushed, version.commitIndex = index) (hlt : readTs < index) :
    visibleSecondary (pushed ++ versions) readTs = visibleSecondary versions readTs := by
  induction pushed with
  | nil => rfl
  | cons version pushed ih =>
    rw [List.cons_append, visibleSecondary_cons,
      if_neg (by rw [hpushed version List.mem_cons_self]; omega)]
    exact ih fun version hversion => hpushed version (List.mem_cons_of_mem _ hversion)

theorem visibleRow_commits_of_lt {middle : Engine} {index : Nat} {attempt : TxnAttempt}
    (hc : Commits e index attempt middle) (hlt : readTs < index) (key : LogicalKey) :
    visibleRow (middle.chain key) readTs = visibleRow (e.chain key) readTs := by
  rw [hc.chain]
  cases writeAt attempt.writes key with
  | none => rfl
  | some write =>
    rw [Option.map_some, Option.toList_some, List.singleton_append, visibleRow_cons,
      if_neg (by dsimp only; omega)]

/-- A commit shows its rows in the indexes there were and in those it makes. -/
theorem commit (h : IndexesOk e entries) (hhistory : HistoryOk e entries) {middle : Engine}
    (hc : Commits e entry.index entry.attempt middle) {rows epoch : Nat}
    (houtcome : entry.outcome = .applied (.committed entry.index rows epoch))
    (hindex : entry.index = e.lastApplied + 1) (hlast : e'.lastApplied = entry.index)
    (hfloor : e'.retainedFloor = middle.retainedFloor) (hcatalog : e'.catalog = middle.catalog)
    (hchain : ∀ key, e'.chain key = middle.chain key)
    (hentries : ∀ key, e'.entries key = middle.entries key) :
    IndexesOk e' (entries ++ [entry]) := by
  have hself : ∀ {index commit}, entry.Creates index commit → commit = entry.index := by
    rintro index commit ⟨⟨rows', epoch', hout⟩, -⟩
    cases houtcome.symm.trans hout
    rfl
  have hcreated : ∀ x ∈ entries ++ [entry], ∀ index commit, x.Creates index commit →
      middle.catalog.index index.id = some index := by
    intro x hx index commit hcreates
    rcases List.mem_append.mp hx with hx | hx
    · exact hc.mutates.grows.index (h.created x hx index commit hcreates)
    · cases List.mem_singleton.mp hx
      exact hc.mutates.index_iff.mpr (.inr ⟨hcreates.2, rfl⟩)
  constructor
  · exact hcatalog ▸ hc.mutates.ok h.catalog
  · intro key version hversion
    rw [hentries] at hversion
    obtain ⟨pushed, heq, hpushed⟩ := hc.pushes key
    rw [heq] at hversion
    rcases List.mem_append.mp hversion with hversion | hversion
    · exact (hpushed version hversion).le.trans hlast.ge
    · have := h.bounded key version hversion
      omega
  · intro id index hid
    rw [hcatalog] at hid
    rcases hc.mutates.index_iff.mp hid with hold | ⟨hmem, -⟩
    · obtain ⟨x, hx, hcreates⟩ := h.creator hold
      exact ⟨x, List.mem_append_left _ hx, hcreates⟩
    · exact ⟨entry, by simp, entry.index, ⟨rows, epoch, houtcome⟩, hmem⟩
  · rw [hcatalog]
    exact hcreated
  · intro x hx index commit hcreates readTs hcommit hge hle key row value htable hrow hvalue hnull
    rw [hchain] at hrow
    rw [hentries]
    rw [hfloor, hc.retainedFloor] at hge
    by_cases hlt : readTs < entry.index
    · -- before the commit nothing is seen of it
      rcases List.mem_append.mp hx with hx | hx
      · rw [visibleRow_commits_of_lt hc hlt] at hrow
        obtain ⟨pushed, heq, hpushed⟩ := hc.pushes (entryKey index.id value key)
        rw [heq, visibleSecondary_append_of_lt hpushed hlt]
        exact h.shown_later hhistory hx hcreates hcommit hge htable hrow hvalue hnull
      · cases List.mem_singleton.mp hx
        have := hself hcreates
        omega
    · have hat : readTs = entry.index := by omega
      subst hat
      refine hc.shown h.catalog (hcreated x hx index commit hcreates) htable hrow hvalue hnull
        (visibleRow_of_bounded (hhistory.bounded key) (by omega)) ?_
      intro hbefore hold
      -- the row had the value before, so the index showed it before
      obtain ⟨creator, hmem, commit', hcreates'⟩ := h.creator hbefore
      have ⟨⟨rows', epoch', hout⟩, _⟩ := hcreates'
      have hle' := (hhistory.commit_le creator hmem commit' rows' epoch' hout).1
      obtain ⟨old, hold, holdValue⟩ := Option.bind_eq_some_iff.mp hold
      rw [visibleSecondary_of_bounded (h.bounded _) (by omega : e.lastApplied ≤ entry.index)]
      exact h.shown creator hmem index commit' hcreates' e.lastApplied hle' hhistory.floor_le
        (Nat.le_refl _) htable hold holdValue hnull

theorem change (h : IndexesOk e entries) (hhistory : HistoryOk e entries)
    (hchange : Change e added e') : IndexesOk e' (entries ++ added) := by
  cases hchange with
  | quiet same le =>
    exact h.keep hhistory le same.retainedFloor same.catalog same.chain same.entries (by simp)
  | duplicate _ outcome index last same | rejected _ outcome index last same
  | aborted _ outcome index last same =>
    exact h.keep hhistory (by omega) same.retainedFloor same.catalog same.chain same.entries
      (by simp [outcome])
  | committed _ outcome result_eq index last commits same =>
    exact h.commit hhistory commits (outcome.trans (congrArg _ result_eq)) index last
      same.retainedFloor same.catalog same.chain same.entries
  | vacuumed floor vacuums =>
    rw [List.append_nil]
    exact h.vacuum vacuums

end IndexesOk

variable {e : Engine} {entries : List Entry}

theorem indexesOk_of_reached [Sha256] (h : e.Reached entries) : IndexesOk e entries :=
  (reached_induct (P := fun e entries => HistoryOk e entries ∧ IndexesOk e entries)
    ⟨.new, .new⟩ (fun hok hchange => ⟨hok.1.change hchange, hok.2.change hok.1 hchange⟩) h).2

/-- There are entries for the indexes of the catalog only, and none older than their index. -/
structure EntriesOk (e : Engine) (entries : List Entry) : Prop where
  known : ∀ key, e.entries key ≠ [] → ∃ index, e.catalog.index key.indexId = some index
  since : ∀ entry ∈ entries, ∀ index commit, entry.Creates index commit → ∀ key,
    key.indexId = index.id → ∀ version ∈ e.entries key, commit ≤ version.commitIndex

namespace EntriesOk

variable {e e' : Engine} {entries added : List Entry} {entry : Entry}

theorem new : EntriesOk .new [] where
  known := by simp [Engine.entries, Engine.new]
  since := by simp

variable (h : EntriesOk e entries)
include h

theorem keep (hcatalog : e'.catalog = e.catalog) (hentries : ∀ key, e'.entries key = e.entries key)
    (hadded : ∀ entry ∈ added, ∀ commit rows epoch,
      entry.outcome ≠ .applied (.committed commit rows epoch)) :
    EntriesOk e' (entries ++ added) where
  known := by
    intro key hkey
    rw [hcatalog]
    exact h.known key (hentries key ▸ hkey)
  since := by
    intro entry hentry index commit hc key hid version hversion
    rw [hentries] at hversion
    rcases List.mem_append.mp hentry with hentry | hentry
    · exact h.since entry hentry index commit hc key hid version hversion
    · exact absurd hc (IndexesOk.not_creates_of_outcome (hadded entry hentry))

theorem vacuum {floor : Nat} (hv : Vacuums e floor e') : EntriesOk e' entries where
  known := by
    intro key hkey
    rw [hv.catalog]
    refine h.known key fun hnil => hkey ?_
    rw [hv.entries, hnil]
    rfl
  since := by
    intro entry hentry index commit hc key hid version hversion
    rw [hv.entries, vacuumSecondary_eq] at hversion
    exact h.since entry hentry index commit hc key hid version (Versions.mem_vacuum hversion)

/-- A commit adds entries at its own index; a new index had none before. -/
theorem commit (hhistory : HistoryOk e entries) (hindexes : IndexesOk e entries)
    {middle : Engine} (hc : Commits e entry.index entry.attempt middle) {rows epoch : Nat}
    (houtcome : entry.outcome = .applied (.committed entry.index rows epoch))
    (hindex : entry.index = e.lastApplied + 1) (hcatalog : e'.catalog = middle.catalog)
    (hentries : ∀ key, e'.entries key = middle.entries key) :
    EntriesOk e' (entries ++ [entry]) where
  known := by
    intro key hkey
    rw [hcatalog]
    rw [hentries] at hkey
    by_cases hsame : middle.entries key = e.entries key
    · obtain ⟨index, hget⟩ := h.known key (hsame ▸ hkey)
      exact ⟨index, hc.mutates.grows.index hget⟩
    · exact hc.known hindexes.catalog key hsame
  since := by
    intro creator hcreator index commit hcreates key hid version hversion
    rw [hentries] at hversion
    obtain ⟨pushed, heq, hpushed⟩ := hc.pushes key
    rw [heq] at hversion
    have ⟨⟨rows', epoch', hout⟩, hmutation⟩ := hcreates
    rcases List.mem_append.mp hcreator with hcreator | hcreator
    · have hle := (hhistory.commit_le creator hcreator commit rows' epoch' hout).1
      rcases List.mem_append.mp hversion with hversion | hversion
      · have := hpushed version hversion
        omega
      · exact h.since creator hcreator index commit hcreates key hid version hversion
    · cases List.mem_singleton.mp hcreator
      cases houtcome.symm.trans hout
      rcases List.mem_append.mp hversion with hversion | hversion
      · exact (hpushed version hversion).ge
      · obtain ⟨old, hold⟩ := h.known key (List.ne_nil_of_mem hversion)
        rw [hid, hc.mutates.fresh hmutation] at hold
        cases hold

theorem change (hhistory : HistoryOk e entries) (hindexes : IndexesOk e entries)
    (hchange : Change e added e') : EntriesOk e' (entries ++ added) := by
  cases hchange with
  | quiet same => exact h.keep same.catalog same.entries (by simp)
  | duplicate _ outcome _ _ same | rejected _ outcome _ _ same | aborted _ outcome _ _ same =>
    exact h.keep same.catalog same.entries (by simp [outcome])
  | committed _ outcome result_eq index _ commits same =>
    exact h.commit hhistory hindexes commits (outcome.trans (congrArg _ result_eq)) index
      same.catalog same.entries
  | vacuumed floor vacuums =>
    rw [List.append_nil]
    exact h.vacuum vacuums

end EntriesOk

theorem entriesOk_of_reached [Sha256] (h : e.Reached entries) : EntriesOk e entries :=
  (reached_induct (P := fun e entries => (HistoryOk e entries ∧ IndexesOk e entries) ∧
      EntriesOk e entries)
    ⟨⟨.new, .new⟩, .new⟩ (fun hok hchange => ⟨⟨hok.1.1.change hchange,
      hok.1.2.change hok.1.1 hchange⟩, hok.2.change hok.1.1 hok.1.2 hchange⟩) h).2

/-- Before its creation an index shows nothing. -/
theorem visibleSecondary_eq_false (h : EntriesOk e entries)
    {entry : Entry} (hentry : entry ∈ entries) {index : IndexMeta} {commit readTs : Nat}
    (hc : entry.Creates index commit) (hlt : readTs < commit) {key : SecondaryKey}
    (hid : key.indexId = index.id) : visibleSecondary (e.entries key) readTs = false := by
  have hnone : (e.entries key).find? (fun version => version.commitIndex ≤ readTs) = none := by
    refine List.find?_eq_none.mpr fun version hversion => ?_
    have := h.since entry hentry index commit hc key hid version hversion
    simp only [decide_eq_true_eq]
    omega
  rw [visibleSecondary, hnone]
  rfl

section Scan

variable {e : Engine} {transaction : Transaction} {indexId : Nat} {index : IndexMeta}
  {value : Value}

/-- The keys an index scan goes over. -/
def indexKeys (e : Engine) (transaction : Transaction) (indexId : Nat) (index : IndexMeta)
    (value : Value) : List LogicalKey :=
  e.indexedKeys index indexId (Codec.encodeOrdered value) transaction.readTs ++
    Engine.stagedKeys transaction index.tableId

variable {key : LogicalKey}

theorem tableId_of_mem_indexKeys
    (h : key ∈ indexKeys e transaction indexId index value) : key.tableId = index.tableId := by
  rcases List.mem_append.mp h with h | h
  · obtain ⟨entry, -, hentry⟩ := List.mem_filterMap.mp h
    split at hentry
    · cases hentry
      rfl
    · cases hentry
  · exact beq_iff_eq.mp (List.mem_filter.mp h).2

/-- A visible entry leads to its key. -/
theorem mem_indexedKeys {readTs : Nat} (htable : key.tableId = index.tableId)
    (h : visibleSecondary (e.entries (entryKey indexId value key)) readTs = true) :
    key ∈ e.indexedKeys index indexId (Codec.encodeOrdered value) readTs := by
  cases hget : e.secondary[entryKey indexId value key]? with
  | none =>
    rw [Engine.entries, hget] at h
    cases h
  | some versions =>
    rw [Engine.entries] at h
    refine List.mem_filterMap.mpr ⟨(entryKey indexId value key, versions),
      ExtTreeMap.mem_toList_iff_getElem?_eq_some.mpr hget, ?_⟩
    cases key
    simp_all [entryKey]

/-- A key that has a row is gone over if it is staged or the index shows it. -/
theorem mem_indexKeys_of_readKey {row : Row} (hrow : e.readKey transaction key = some row)
    (htable : key.tableId = index.tableId) (hshown : transaction.overlay key = none →
      visibleRow (e.chain key) transaction.readTs = some row →
      visibleSecondary (e.entries (entryKey indexId value key)) transaction.readTs = true) :
    key ∈ indexKeys e transaction indexId index value := by
  rw [Engine.readKey_eq, Transaction.overlay] at hrow
  cases hwrite : transaction.writes[key]? with
  | some write =>
    refine List.mem_append_right _ (List.mem_filter.mpr ⟨?_, by simp [htable]⟩)
    rw [ExtTreeMap.mem_keys, ← ExtTreeMap.isSome_getElem?_iff_mem, hwrite]
    rfl
  | none =>
    rw [hwrite] at hrow
    have hnone : transaction.overlay key = none := by rw [Transaction.overlay, hwrite]; rfl
    exact List.mem_append_left _ (mem_indexedKeys htable (hshown hnone hrow))

/-- A key that is not staged is gone over because the index shows it. -/
theorem visible_of_mem_indexKeys
    (h : key ∈ indexKeys e transaction indexId index value)
    (hnone : transaction.overlay key = none) : ∃ entry : SecondaryKey, entry.indexId = indexId ∧
      visibleSecondary (e.entries entry) transaction.readTs = true := by
  rcases List.mem_append.mp h with h | h
  · obtain ⟨⟨entry, versions⟩, hmem, hentry⟩ := List.mem_filterMap.mp h
    rw [ExtTreeMap.mem_toList_iff_getElem?_eq_some] at hmem
    split at hentry
    next hmatch =>
      refine ⟨entry, hmatch.1, ?_⟩
      rw [Engine.entries, hmem]
      exact hmatch.2.2
    · cases hentry
  · have hkey := ExtTreeMap.mem_keys.mp (List.mem_filter.mp h).1
    rw [← ExtTreeMap.isSome_getElem?_iff_mem, Option.isSome_iff_exists] at hkey
    obtain ⟨write, hwrite⟩ := hkey
    rw [Transaction.overlay, hwrite] at hnone
    cases hnone

theorem scanSecondary_eq (hfloor : e.retainedFloor ≤ transaction.readTs)
    (hlast : transaction.readTs ≤ e.lastApplied) (hindex : e.catalog.index indexId = some index)
    (hnull : value.isNull = false) {bytes : List UInt8}
    (hbytes : Codec.encodeValue value = .ok bytes) :
    e.scanSecondary transaction indexId value =
      .ok (((along (indexKeys e transaction indexId index value)
        (e.readKey transaction)).map Prod.snd).filter
          fun row => row.values[index.column]? == some value) := by
  have hsnapshot : e.ensureTransactionSnapshot transaction = .ok () :=
    ensureTransactionSnapshot_eq_ok.mpr ⟨hfloor, hlast⟩
  rw [Engine.scanSecondary, hsnapshot, hindex, hnull, hbytes, along_map_snd]
  rfl

/-- A scan returns only for a value that can be encoded. -/
theorem encodeValue_of_scanSecondary (hnull : value.isNull = false) {rows : List Row}
    (h : e.scanSecondary transaction indexId value = .ok rows) :
    ∃ bytes, Codec.encodeValue value = .ok bytes := by
  simp only [Engine.scanSecondary, hnull, Bool.false_eq_true, if_false, bind_eq_ok] at h
  obtain ⟨-, -, -, -, bytes, hbytes, -⟩ := h
  exact ⟨bytes, liftCore_eq_ok.mp hbytes⟩

end Scan

/-- Every committed index was made by a commit. For a snapshot from that commit on, a scan of the
index for a value returns the rows of the table whose column has the value, in the same order. -/
theorem secondary_agrees [Sha256] {e : Engine} {entries : List Entry} (h : e.Reached entries)
    {indexId : Nat} {index : IndexMeta} (hindex : e.catalog.index indexId = some index) :
    (∃ entry ∈ entries, ∃ commit, entry.Creates index commit) ∧
    ∀ entry ∈ entries, ∀ commit, entry.Creates index commit → ∀ (transaction : Transaction)
      (value : Value), commit ≤ transaction.readTs → e.retainedFloor ≤ transaction.readTs →
      transaction.readTs ≤ e.lastApplied → value.isNull = false →
      (∃ bytes, Codec.encodeValue value = .ok bytes) →
      ∃ rows, e.scanTable transaction index.tableId = .ok rows ∧
        e.scanSecondary transaction indexId value =
          .ok (rows.filter fun row => row.values[index.column]? == some value) := by
  have hok := indexesOk_of_reached h
  refine ⟨hok.creator hindex, ?_⟩
  rintro entry hentry commit hcreates transaction value hcommit hfloor hlast hnull ⟨bytes, hbytes⟩
  have hid : index.id = indexId := hok.catalog.indexId hindex
  obtain ⟨table, htable⟩ := hok.catalog.table hindex
  have htable' : ∃ table, e.tableForTransaction transaction index.tableId = .ok table := by
    rw [Engine.tableForTransaction, htable]
    cases transaction.stagedTable index.tableId with
    | none => exact ⟨table, rfl⟩
    | some staged => exact ⟨staged, rfl⟩
  refine ⟨_, scanTable_eq_ok.mpr ⟨⟨hfloor, hlast⟩, htable', rfl⟩, ?_⟩
  rw [scanSecondary_eq hfloor hlast hindex hnull hbytes]
  congr 1
  refine filter_along fun key row hrow hvalue => ⟨fun hmem => ?_, fun hmem => ?_⟩
  · exact tableId_of_mem_indexKeys hmem ▸ mem_scanKeys_of_readKey hrow
  · have htableId := tableId_of_mem_scanKeys hmem
    refine mem_indexKeys_of_readKey hrow htableId fun _ hvisible => ?_
    rw [← hid]
    exact hok.shown entry hentry index commit hcreates transaction.readTs hcommit hfloor hlast
      htableId hvisible (beq_iff_eq.mp hvalue) hnull

/-- The index of the sample run, at the first index. -/
theorem secondary_agrees_sample : ∃ e, @Engine.Reached zeroHash e sampleEntries ∧
    e.catalog.index 1 = some itemsTag ∧
    ∃ rows, e.scanTable (.new 3 1 1) 1 = .ok rows ∧ e.scanSecondary (.new 3 1 1) 1 (.text "red") =
      .ok (rows.filter fun row => row.values[1]? == some (.text "red")) := by
  let _ := zeroHash
  obtain ⟨hfloor, hlast, hindex⟩ : (afterRun sampleRun).retainedFloor ≤ 1 ∧
      1 ≤ (afterRun sampleRun).lastApplied ∧
      (afterRun sampleRun).catalog.index 1 = some itemsTag := by
    decide +kernel
  refine ⟨_, reached_sampleRun, hindex, ?_⟩
  exact (secondary_agrees reached_sampleRun hindex).2 _ List.mem_cons_self 1
    ⟨⟨1, 1, rfl⟩, by simp [attemptOf]⟩ (.new 3 1 1) (.text "red") (Nat.le_refl _) hfloor hlast rfl
    ⟨_, rfl⟩

end AsterEngine
