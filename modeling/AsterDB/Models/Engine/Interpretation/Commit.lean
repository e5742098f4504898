import AsterDB.Models.Engine.Interpretation.Catalog
import AsterDB.Models.Engine.Interpretation.Chains

/-!
# What a commit does

A committed attempt puts one version in front of the chain of each key it writes and
of the index entries that change, all at its own index, and nothing else. After it,
every index of the catalog, old or new, shows the rows it wrote.
-/

namespace AsterEngine

open Std
open Fallible

/-- The key of an index entry for a value and the key of a row. -/
def entryKey (indexId : Nat) (value : Value) (key : LogicalKey) : SecondaryKey :=
  { indexId, secondaryValue := Codec.encodeOrdered value, primaryKey := key.primaryKey }

/-- The write of an attempt under a key. -/
def writeAt (writes : List TxnWrite) (key : LogicalKey) : Option TxnWrite :=
  writes.find? fun write => write.logicalKey = .ok key

section Canonical

variable {writes : List TxnWrite} {write : TxnWrite} {key : LogicalKey}

theorem validateWrites_spec {previous : Option LogicalKey}
    (h : TxnAttempt.validateWrites previous writes = .ok ()) :
    (∀ write ∈ writes, ∃ key, write.logicalKey = .ok key ∧
      ∀ prior ∈ previous, compare prior key = .lt) ∧
    writes.Pairwise fun a b => ∀ key, a.logicalKey = .ok key → b.logicalKey ≠ .ok key := by
  induction writes generalizing previous with
  | nil => simp
  | cons first rest ih =>
    rw [TxnAttempt.validateWrites, bind_eq_ok] at h
    obtain ⟨key, hkey, h⟩ := h
    have hfirst : first.logicalKey = .ok key := liftCore_eq_ok.mp hkey
    simp only [bind_eq_ok, failIf_eq_ok, exists_const] at h
    obtain ⟨hprior, hrest⟩ := h
    obtain ⟨hkeys, hpairwise⟩ := ih hrest
    have hlt : ∀ prior ∈ previous, compare prior key = .lt := by
      intro prior hmem
      cases hmem
      simpa using hprior
    constructor
    · intro write hwrite
      rcases List.mem_cons.mp hwrite with rfl | hwrite
      · exact ⟨key, hfirst, hlt⟩
      · obtain ⟨other, hother, hgt⟩ := hkeys write hwrite
        exact ⟨other, hother, fun prior hmem => TransCmp.lt_trans (hlt prior hmem) (hgt key rfl)⟩
    · refine List.pairwise_cons.mpr ⟨?_, hpairwise⟩
      intro write hwrite other hother hsame
      obtain ⟨actual, hactual, hgt⟩ := hkeys write hwrite
      cases hfirst.symm.trans hother
      cases hactual.symm.trans hsame
      exact absurd (hgt _ rfl) (by simp)

variable {attempt : TxnAttempt} (hcanonical : attempt.validateCanonical = .ok ())
include hcanonical

/-- Each write of a canonical attempt has a key. -/
theorem logicalKey_of_canonical (hwrite : write ∈ attempt.writes) :
    ∃ key, write.logicalKey = .ok key := by
  rw [TxnAttempt.validateCanonical, bind_eq_ok] at hcanonical
  obtain ⟨⟨⟩, h, -⟩ := hcanonical
  obtain ⟨key, hkey, -⟩ := (validateWrites_spec h).1 write hwrite
  exact ⟨key, hkey⟩

/-- The writes of a canonical attempt have distinct keys. -/
theorem distinct_of_canonical : attempt.writes.Pairwise fun a b =>
    ∀ key, a.logicalKey = .ok key → b.logicalKey ≠ .ok key := by
  rw [TxnAttempt.validateCanonical, bind_eq_ok] at hcanonical
  obtain ⟨⟨⟩, h, -⟩ := hcanonical
  exact (validateWrites_spec h).2

end Canonical

variable {write : TxnWrite} {key : LogicalKey}

theorem writeAt_eq_some_iff {writes : List TxnWrite}
    (hdistinct : writes.Pairwise fun a b => ∀ key, a.logicalKey = .ok key →
      b.logicalKey ≠ .ok key) :
    writeAt writes key = some write ↔ write ∈ writes ∧ write.logicalKey = .ok key := by
  induction writes with
  | nil => simp [writeAt]
  | cons first rest ih =>
    obtain ⟨hfirst, hrest⟩ := List.pairwise_cons.mp hdistinct
    by_cases hkey : first.logicalKey = .ok key
    · rw [writeAt, List.find?_cons_of_pos (by simpa using hkey), Option.some.injEq]
      constructor
      · rintro rfl
        exact ⟨List.mem_cons_self, hkey⟩
      · rintro ⟨hmem, hwrite⟩
        rcases List.mem_cons.mp hmem with rfl | hmem
        · rfl
        · exact absurd hwrite (hfirst write hmem key hkey)
    · rw [writeAt, List.find?_cons_of_neg (by simpa using hkey)]
      refine (ih hrest).trans ⟨fun ⟨hmem, h⟩ => ⟨List.mem_cons_of_mem _ hmem, h⟩, ?_⟩
      rintro ⟨hmem, h⟩
      rcases List.mem_cons.mp hmem with rfl | hmem
      · exact absurd h hkey
      · exact ⟨hmem, h⟩

theorem writeAt_eq_none_iff {writes : List TxnWrite} :
    writeAt writes key = none ↔ ∀ write ∈ writes, write.logicalKey ≠ .ok key := by
  simp [writeAt]

/-- An engine without its versions and counters. -/
def Engine.frame (e : Engine) : Engine := { e with primary := ∅, secondary := ∅, stats := {} }

/-- Index entries get new versions at `index`, under keys in `P`, and the frame stays. -/
structure Pushes (index : Nat) (P : SecondaryKey → Prop) (e e' : Engine) : Prop where
  frame : e'.frame = e.frame
  entries : ∀ key, ∃ pushed, e'.entries key = pushed ++ e.entries key ∧
    (∀ version ∈ pushed, version.commitIndex = index) ∧ (pushed ≠ [] → P key)

namespace Pushes

variable {index : Nat} {P Q : SecondaryKey → Prop} {e e' e'' : Engine} {key : SecondaryKey}

theorem refl (index : Nat) (P : SecondaryKey → Prop) (e : Engine) : Pushes index P e e :=
  ⟨rfl, fun _ => ⟨[], rfl, by simp, by simp⟩⟩

theorem trans (h : Pushes index P e e') (h' : Pushes index P e' e'') : Pushes index P e e'' where
  frame := h'.frame.trans h.frame
  entries := by
    intro key
    obtain ⟨first, hfirst, hindex, hP⟩ := h.entries key
    obtain ⟨second, hsecond, hindex', hP'⟩ := h'.entries key
    refine ⟨second ++ first, by rw [hsecond, hfirst, List.append_assoc], ?_, ?_⟩
    · intro version hversion
      exact (List.mem_append.mp hversion).elim (hindex' version) (hindex version)
    · intro hne
      by_cases hnil : second = []
      · exact hP fun hnil' => hne (by rw [hnil, hnil', List.append_nil])
      · exact hP' hnil

theorem mono (h : Pushes index P e e') (hPQ : ∀ key, P key → Q key) : Pushes index Q e e' :=
  ⟨h.frame, fun key =>
    let ⟨pushed, heq, hindex, hP⟩ := h.entries key
    ⟨pushed, heq, hindex, fun hne => hPQ key (hP hne)⟩⟩

theorem foldl {α : Type} {f : Engine → α → Engine} {list : List α}
    (h : ∀ a ∈ list, ∀ e, Pushes index P e (f e a)) (e : Engine) :
    Pushes index P e (list.foldl f e) := by
  induction list generalizing e with
  | nil => exact refl index P e
  | cons a list ih =>
    exact (h a List.mem_cons_self e).trans (ih (fun b hb => h b (List.mem_cons_of_mem _ hb)) _)

/-- Entries outside `P` stay as they were. -/
theorem entries_eq (h : Pushes index P e e') (hP : ¬P key) : e'.entries key = e.entries key := by
  obtain ⟨pushed, heq, -, hpushed⟩ := h.entries key
  by_cases hnil : pushed = []
  · rw [heq, hnil, List.nil_append]
  · exact absurd (hpushed hnil) hP

end Pushes

section Secondary

variable (e : Engine) (index : Nat)

theorem pushSecondary_pushes (indexId : Nat) (value : Value) (key : LogicalKey) (present : Bool) :
    Pushes index (· = entryKey indexId value key) e
      (e.pushSecondary indexId value key index present) where
  frame := rfl
  entries := by
    intro other
    rw [Engine.entries_pushSecondary]
    by_cases h : entryKey indexId value key = other
    · exact ⟨[⟨index, present⟩], if_pos h, by simp, fun _ => h.symm⟩
    · exact ⟨[], if_neg h, by simp, by simp⟩

/-- The entries of one index for one row. -/
def OfRow (indexId : Nat) (key : LogicalKey) (entry : SecondaryKey) : Prop :=
  entry.indexId = indexId ∧ entry.primaryKey = key.primaryKey

theorem ofRow_entryKey (indexId : Nat) (value : Value) (key : LogicalKey) :
    OfRow indexId key (entryKey indexId value key) := ⟨rfl, rfl⟩

theorem updateSecondary_pushes (meta' : IndexMeta) (key : LogicalKey) (oldRow newRow : Option Row) :
    Pushes index (OfRow meta'.id key) e (e.updateSecondary meta' key oldRow newRow index) := by
  have hpush : ∀ (e : Engine) (value : Value) (present : Bool), Pushes index (OfRow meta'.id key) e
      (e.pushSecondary meta'.id value key index present) := fun e value present =>
    (pushSecondary_pushes e index meta'.id value key present).mono
      fun _ h => h ▸ ofRow_entryKey meta'.id value key
  unfold Engine.updateSecondary
  dsimp only
  split
  · exact .refl index _ e
  · split <;> split
    · exact (hpush _ _ _).trans (hpush _ _ _)
    · exact hpush _ _ _
    · exact hpush _ _ _
    · exact .refl index _ e

variable {e index}

variable {key : LogicalKey} {value : Value}

/-- After an update, the entry for the new value is seen if it is new or was seen before. -/
theorem visible_updateSecondary {meta' : IndexMeta} {oldRow newRow : Option Row}
    (hnull : value.isNull = false) (hnew : Engine.indexedValue newRow meta'.column = some value)
    (hold : Engine.indexedValue oldRow meta'.column = some value →
      visibleSecondary (e.entries (entryKey meta'.id value key)) index = true) :
    visibleSecondary ((e.updateSecondary meta' key oldRow newRow index).entries
      (entryKey meta'.id value key)) index = true := by
  unfold Engine.updateSecondary
  by_cases hsame : Engine.indexedValue oldRow meta'.column = Engine.indexedValue newRow meta'.column
  · rw [if_pos hsame]
    exact hold (hsame.trans hnew)
  · have hfilter : (some value).filter (fun value => !value.isNull) = some value := by simp [hnull]
    rw [if_neg hsame, hnew, hfilter]
    rw [Engine.entries_pushSecondary, entryKey, if_pos rfl, visibleSecondary_cons,
      if_pos (Nat.le_refl _)]

theorem visible_pushSecondary {indexId : Nat} {entry : SecondaryKey}
    (h : entry = entryKey indexId value key ∨ visibleSecondary (e.entries entry) index = true) :
    visibleSecondary ((e.pushSecondary indexId value key index true).entries entry) index =
      true := by
  rw [Engine.entries_pushSecondary]
  split
  · rw [visibleSecondary_cons, if_pos (Nat.le_refl _)]
  next hne => exact h.resolve_left fun heq => hne heq.symm

end Secondary

/-- A property that every step keeps and one step brings about holds in the end. -/
theorem foldl_of_mem {α σ : Type} {f : σ → α → σ} {P : σ → Prop} {list : List α} {a : α}
    (hmem : a ∈ list) (hstep : ∀ b ∈ list, ∀ s, P s → P (f s b)) (ha : ∀ s, P (f s a)) (s : σ) :
    P (list.foldl f s) := by
  induction list generalizing s with
  | nil => cases hmem
  | cons first rest ih =>
    have hrest : ∀ s, P s → P (rest.foldl f s) := by
      intro s hs
      exact List.foldlRecOn rest f hs
        fun t ht b hb => hstep b (List.mem_cons_of_mem _ hb) t ht
    rcases List.mem_cons.mp hmem with rfl | hmem
    · exact hrest _ (ha s)
    · exact ih hmem (fun b hb => hstep b (List.mem_cons_of_mem _ hb)) _

section Writes

variable (previous : Catalog) (index : Nat) (e : Engine)

theorem updateSecondary_primary (meta' : IndexMeta) (key : LogicalKey)
    (oldRow newRow : Option Row) :
    (e.updateSecondary meta' key oldRow newRow index).primary = e.primary := by
  unfold Engine.updateSecondary
  dsimp only
  split
  · rfl
  · split <;> split <;> rfl

/-- Index entries that a write may change. -/
def TouchedBy (item : KeyedWrite) (entry : SecondaryKey) : Prop :=
  ∃ meta' ∈ previous.indexesForTable item.1.tableId, OfRow meta'.id item.2.1 entry

theorem applyWrite_pushes (item : KeyedWrite) :
    Pushes index (TouchedBy previous item) e (e.applyWrite previous index item) := by
  have h : Pushes index (TouchedBy previous item) e
      ((previous.indexesForTable item.1.tableId).foldl (fun e meta' =>
        e.updateSecondary meta' item.2.1 item.2.2 item.1.mutation.row index) e) :=
    .foldl (fun meta' hmem e => (updateSecondary_pushes e index meta' _ _ _).mono
      fun _ h => ⟨meta', hmem, h⟩) e
  exact ⟨h.frame, h.entries⟩

theorem chain_applyWrite (item : KeyedWrite) (key : LogicalKey) :
    (e.applyWrite previous index item).chain key =
      if item.2.1 = key then { commitIndex := index, row := item.1.mutation.row } :: e.chain key
      else e.chain key := by
  have hprimary : ∀ (list : List IndexMeta) (e : Engine), (list.foldl (fun e meta' =>
      e.updateSecondary meta' item.2.1 item.2.2 item.1.mutation.row index) e).primary =
        e.primary := by
    intro list
    induction list with
    | nil => exact fun _ => rfl
    | cons meta' rest ih =>
      exact fun e => (ih _).trans (updateSecondary_primary index e meta' _ _ _)
  unfold Engine.applyWrite
  rw [Engine.chain_pushRow, Engine.chain, hprimary]
  rfl

variable {previous index}

section Items

variable {items : List KeyedWrite}

theorem chain_foldl_applyWrite_of_notMem {key : LogicalKey} (h : ∀ item ∈ items, item.2.1 ≠ key) :
    (items.foldl (fun e item => e.applyWrite previous index item) e).chain key = e.chain key := by
  induction items generalizing e with
  | nil => rfl
  | cons first rest ih =>
    rw [List.foldl_cons, ih _ fun item hitem => h item (List.mem_cons_of_mem _ hitem),
      chain_applyWrite, if_neg (h first List.mem_cons_self)]

variable {item : KeyedWrite}

/-- Each key is written once. -/
theorem chain_foldl_applyWrite (hdistinct : items.Pairwise fun a b => a.2.1 ≠ b.2.1)
    (hitem : item ∈ items) :
    (items.foldl (fun e item => e.applyWrite previous index item) e).chain item.2.1 =
    { commitIndex := index, row := item.1.mutation.row } :: e.chain item.2.1 := by
  obtain ⟨front, back, rfl⟩ := List.append_of_mem hitem
  obtain ⟨-, hback, hfront⟩ := List.pairwise_append.mp hdistinct
  rw [List.foldl_append, List.foldl_cons,
    chain_foldl_applyWrite_of_notMem _ fun other hother =>
      ((List.pairwise_cons.mp hback).1 other hother).symm,
    chain_applyWrite, if_pos rfl,
    chain_foldl_applyWrite_of_notMem _ fun other hother =>
      hfront other hother item List.mem_cons_self]

theorem foldl_applyWrite_pushes :
    Pushes index (fun entry => ∃ item ∈ items, TouchedBy previous item entry) e
      (items.foldl (fun e item => e.applyWrite previous index item) e) :=
  .foldl (fun item hitem e => (applyWrite_pushes previous index e item).mono
    fun _ h => ⟨item, hitem, h⟩) e

variable {meta' : IndexMeta}

/-- Writes to other rows do not touch the entries of a row. -/
theorem not_touchedBy (hok : previous.Ok) (htable : item.2.1.tableId = item.1.tableId)
    (hmeta : previous.index meta'.id = some meta') {key : LogicalKey}
    (hkey : key.tableId = meta'.tableId) (hne : item.2.1 ≠ key) (value : Value) :
    ¬TouchedBy previous item (entryKey meta'.id value key) := by
  rintro ⟨other, hother, hid, hprimary⟩
  obtain ⟨hother, hsame⟩ := (Catalog.mem_indexesForTable hok).mp hother
  -- the two indexes have one id, so they are one index and the rows are of one table
  refine hne ?_
  cases hitem : item.2.1
  cases key
  simp_all [entryKey]

/-- One write brings about the entry of its row in an index there was before. -/
theorem visible_applyWrite (hok : previous.Ok) (hmeta : previous.index meta'.id = some meta')
    (htable : meta'.tableId = item.1.tableId) {value : Value} (hnull : value.isNull = false)
    (hnew : Engine.indexedValue item.1.mutation.row meta'.column = some value)
    (hold : Engine.indexedValue item.2.2 meta'.column = some value →
      visibleSecondary (e.entries (entryKey meta'.id value item.2.1)) index = true) :
    visibleSecondary ((e.applyWrite previous index item).entries
      (entryKey meta'.id value item.2.1)) index = true := by
  have hmem : meta' ∈ previous.indexesForTable item.1.tableId :=
    (Catalog.mem_indexesForTable hok).mpr ⟨hmeta, htable⟩
  -- no other index has entries under this id
  have hstep : ∀ other ∈ previous.indexesForTable item.1.tableId, ∀ e : Engine,
      visibleSecondary (e.entries (entryKey meta'.id value item.2.1)) index = true →
      visibleSecondary
        ((e.updateSecondary other item.2.1 item.2.2 item.1.mutation.row index).entries
          (entryKey meta'.id value item.2.1)) index = true := by
    intro other hother e he
    by_cases hid : meta'.id = other.id
    · have hget := ((Catalog.mem_indexesForTable hok).mp hother).1
      rw [← hid, hmeta] at hget
      cases hget
      exact visible_updateSecondary hnull hnew fun _ => he
    · rw [(updateSecondary_pushes e index other _ _ _).entries_eq fun h => hid h.1]
      exact he
  by_cases hsame : Engine.indexedValue item.2.2 meta'.column = some value
  · exact List.foldlRecOn (motive := fun e : Engine =>
      visibleSecondary (e.entries (entryKey meta'.id value item.2.1)) index = true) _ _ (hold hsame)
      fun e he other hother => hstep other hother e he
  · exact foldl_of_mem hmem hstep (fun e => visible_updateSecondary hnull hnew (absurd · hsame)) e

/-- The row that a write leaves is shown by every index there was before. -/
theorem visible_foldl_applyWrite (hok : previous.Ok)
    (hdistinct : items.Pairwise fun a b => a.2.1 ≠ b.2.1)
    (htable : ∀ item ∈ items, item.2.1.tableId = item.1.tableId) (hitem : item ∈ items)
    (hmeta : previous.index meta'.id = some meta') (hkey : item.2.1.tableId = meta'.tableId)
    {value : Value} (hnull : value.isNull = false)
    (hnew : Engine.indexedValue item.1.mutation.row meta'.column = some value)
    (hold : Engine.indexedValue item.2.2 meta'.column = some value →
      visibleSecondary (e.entries (entryKey meta'.id value item.2.1)) index = true) :
    visibleSecondary ((items.foldl (fun e item => e.applyWrite previous index item) e).entries
      (entryKey meta'.id value item.2.1)) index = true := by
  obtain ⟨front, back, rfl⟩ := List.append_of_mem hitem
  obtain ⟨-, hback, hfront⟩ := List.pairwise_append.mp hdistinct
  have huntouched : ∀ other ∈ front ++ back,
      ¬TouchedBy previous other (entryKey meta'.id value item.2.1) := by
    intro other hother
    refine not_touchedBy hok (htable other (by simp_all; tauto)) hmeta hkey ?_ value
    rcases List.mem_append.mp hother with hother | hother
    · exact hfront other hother item List.mem_cons_self
    · exact ((List.pairwise_cons.mp hback).1 other hother).symm
  rw [List.foldl_append, List.foldl_cons,
    (foldl_applyWrite_pushes _).entries_eq fun ⟨other, hother, h⟩ =>
      huntouched other (List.mem_append_right _ hother) h]
  refine visible_applyWrite _ hok hmeta (hkey.symm.trans (htable item hitem)) hnull hnew fun h => ?_
  rw [(foldl_applyWrite_pushes e).entries_eq fun ⟨other, hother, h⟩ =>
    huntouched other (List.mem_append_left _ hother) h]
  exact hold h

end Items

end Writes

section Backfill

variable (e : Engine) (index : Nat)

theorem backfillIndex_pushes (meta' : IndexMeta) :
    Pushes index (fun entry => entry.indexId = meta'.id) e (e.backfillIndex index meta') :=
  .foldl (fun item _ e => (pushSecondary_pushes e index meta'.id item.2 item.1 true).mono
    fun _ h => by rw [h]; rfl) e

theorem backfillIndex_primary (meta' : IndexMeta) :
    (e.backfillIndex index meta').primary = e.primary := by
  exact List.foldlRecOn (motive := fun e' : Engine => e'.primary = e.primary) _ _ rfl
    fun _ he _ _ => he

variable {e index}

theorem visible_backfillIndex_of_visible (meta' : IndexMeta) {entry : SecondaryKey}
    (h : visibleSecondary (e.entries entry) index = true) :
    visibleSecondary ((e.backfillIndex index meta').entries entry) index = true := by
  exact List.foldlRecOn (motive := fun e : Engine =>
    visibleSecondary (e.entries entry) index = true) _ _ h
    fun _ he _ _ => visible_pushSecondary (.inr he)

/-- A new index shows the rows there are. -/
theorem visible_backfillIndex {meta' : IndexMeta} {key : LogicalKey} {row : Row} {value : Value}
    (htable : key.tableId = meta'.tableId) (hrow : visibleRow (e.chain key) index = some row)
    (hvalue : row.values[meta'.column]? = some value) (hnull : value.isNull = false) :
    visibleSecondary ((e.backfillIndex index meta').entries (entryKey meta'.id value key)) index =
      true := by
  have hchain : e.primary[key]? = some (e.chain key) := by
    cases hget : e.primary[key]? with
    | none =>
      rw [Engine.chain, hget] at hrow
      cases hrow
    | some versions => rw [Engine.chain, hget, Option.getD_some]
  have hmem : (key, value) ∈ e.backfillEntries index meta' := by
    refine List.mem_filterMap.mpr
      ⟨(key, e.chain key), ExtTreeMap.mem_toList_iff_getElem?_eq_some.mpr hchain, ?_⟩
    simp [htable, hrow, List.getD, hvalue, hnull]
  exact foldl_of_mem
    (f := fun (e : Engine) (entry : LogicalKey × Value) =>
      e.pushSecondary meta'.id entry.2 entry.1 index true)
    (P := fun e => visibleSecondary (e.entries (entryKey meta'.id value key)) index = true) hmem
    (fun _ _ _ he => visible_pushSecondary (.inr he)) (fun _ => visible_pushSecondary (.inl rfl)) e

end Backfill

/-- What a committed attempt did. -/
structure Commits (e : Engine) (index : Nat) (attempt : TxnAttempt) (e' : Engine) : Prop where
  floor_le : e.retainedFloor ≤ attempt.readTs
  readTs_le : attempt.readTs ≤ e.lastApplied
  canonical : attempt.validateCanonical = .ok ()
  epoch : attempt.schemaEpoch = e.catalog.schemaEpoch
  mutates : e.catalog.Mutates attempt.catalogMutations e'.catalog
  nextEpoch : e'.catalog.schemaEpoch =
    if attempt.catalogMutations = [] then e.catalog.schemaEpoch else e.catalog.schemaEpoch + 1
  newest : ∀ write ∈ attempt.writes, ∀ key, write.logicalKey = .ok key →
    ∀ commit ∈ e.newestCommit key, commit ≤ attempt.readTs
  chain : ∀ key, e'.chain key = ((writeAt attempt.writes key).map fun write =>
    { commitIndex := index, row := write.mutation.row : RowVersion }).toList ++ e.chain key
  pushes : ∀ entry, ∃ pushed, e'.entries entry = pushed ++ e.entries entry ∧
    ∀ version ∈ pushed, version.commitIndex = index
  known : e.catalog.Ok → ∀ entry, e'.entries entry ≠ e.entries entry →
    ∃ meta', e'.catalog.index entry.indexId = some meta'
  fits : ∀ write ∈ attempt.writes, ∃ table, e'.catalog.table write.tableId = some table ∧
    Engine.validatePut table write = .ok ()
  shown : e.catalog.Ok → ∀ {meta' : IndexMeta} {key : LogicalKey} {row : Row} {value : Value},
    e'.catalog.index meta'.id = some meta' → key.tableId = meta'.tableId →
    visibleRow (e'.chain key) index = some row → row.values[meta'.column]? = some value →
    value.isNull = false → visibleRow (e.chain key) index = visibleRow (e.chain key) e.lastApplied →
    (e.catalog.index meta'.id = some meta' →
      Engine.indexedValue (visibleRow (e.chain key) e.lastApplied) meta'.column = some value →
      visibleSecondary (e.entries (entryKey meta'.id value key)) index = true) →
    visibleSecondary (e'.entries (entryKey meta'.id value key)) index = true
  frame : e'.frame = { e.frame with catalog := e'.catalog }

namespace Commits

variable {e e' : Engine} {index : Nat} {attempt : TxnAttempt} (h : Commits e index attempt e')
include h

theorem clients : e'.clients = e.clients := by
  have hframe := congrArg Engine.clients h.frame
  exact hframe

theorem retainedFloor : e'.retainedFloor = e.retainedFloor := by
  have hframe := congrArg Engine.retainedFloor h.frame
  exact hframe

theorem nextTxnId : e'.nextTxnId = e.nextTxnId := by
  have hframe := congrArg Engine.nextTxnId h.frame
  exact hframe

end Commits

theorem tableId_of_logicalKey (h : write.logicalKey = .ok key) : key.tableId = write.tableId := by
  simp only [TxnWrite.logicalKey, LogicalKey.new, bind_eq_ok, pure_eq_ok] at h
  obtain ⟨-, -, rfl⟩ := h
  rfl

variable {e : Engine} {attempt : TxnAttempt}

/-- The rows before an attempt, with their keys, one for each write. -/
theorem beforeRows_spec {before : List (LogicalKey × Option Row)}
    (h : e.beforeRows attempt = .ok before) :
    (attempt.writes.zip before).map Prod.fst = attempt.writes ∧
      ∀ item ∈ attempt.writes.zip before, item.1.logicalKey = .ok item.2.1 ∧
        item.2.2 = visibleRow (e.chain item.2.1) e.lastApplied := by
  rw [Engine.beforeRows, mapM_eq_ok, List.forall₂_iff_zip] at h
  refine ⟨List.map_fst_zip (Nat.le_of_eq h.1), ?_⟩
  rintro ⟨write, key, old⟩ hitem
  have hwrite := h.2 hitem
  simp only [bind_eq_ok, pure_eq_ok, Prod.mk.injEq] at hwrite
  obtain ⟨key, hkey, rfl, rfl⟩ := hwrite
  exact ⟨hkey, e.visibleRow_chain key e.lastApplied⟩

variable {next : Catalog}

theorem validateAttemptForApply_spec {newIndexes : List IndexMeta}
    (h : e.validateAttemptForApply attempt = .ok (next, newIndexes)) :
    e.retainedFloor ≤ attempt.readTs ∧ attempt.readTs ≤ e.lastApplied ∧
      attempt.validateCanonical = .ok () ∧ attempt.schemaEpoch = e.catalog.schemaEpoch ∧
      e.catalog.Mutates attempt.catalogMutations next ∧
    (next.schemaEpoch = if attempt.catalogMutations = [] then e.catalog.schemaEpoch
        else e.catalog.schemaEpoch + 1) ∧
    (∀ meta', .createIndex meta' ∈ attempt.catalogMutations ↔ meta' ∈ newIndexes) ∧
      ∀ write ∈ attempt.writes, e.validateWrite attempt next write = .ok () := by
  simp only [Engine.validateAttemptForApply, bind_eq_ok, failIf_eq_ok, mapError_eq_ok, pure_eq_ok,
    forM_eq_ok, exists_const, Prod.exists, Prod.mk.injEq] at h
  obtain ⟨hfloor, hreadTs, hepoch, ⟨⟩, hcanonical, next, ids, hmutations, newIndexes, hnew, hwrites,
    rfl, rfl⟩ := h
  obtain ⟨hmutates, rfl, hnextEpoch⟩ := Catalog.applyMutations_spec hmutations
  refine ⟨by omega, by omega, hcanonical, by simpa using hepoch, hmutates, hnextEpoch, ?_, hwrites⟩
  -- the new indexes are found in the new catalog under the ids of the mutations
  have hids : ∀ id, id ∈ attempt.catalogMutations.filterMap CatalogMutation.newIndexId ↔
      ∃ meta', .createIndex meta' ∈ attempt.catalogMutations ∧ meta'.id = id := by
    intro id
    rw [List.mem_filterMap]
    constructor
    · rintro ⟨mutation | meta', hmem, hid⟩
      · cases hid
      · exact ⟨meta', hmem, Option.some.inj hid⟩
    · rintro ⟨meta', hmem, rfl⟩
      exact ⟨_, hmem, rfl⟩
  have hfound : ∀ meta', .createIndex meta' ∈ attempt.catalogMutations →
      next.index meta'.id = some meta' := fun meta' h => hmutates.index_iff.mpr (.inr ⟨h, rfl⟩)
  intro meta'
  constructor
  · intro h
    obtain ⟨found, hmem, hok⟩ := (mem_of_mapM_eq_ok hnew).1 _ ((hids _).mpr ⟨meta', h, rfl⟩)
    rw [hfound meta' h] at hok
    cases hok
    exact hmem
  · intro h
    obtain ⟨id, hmem, hok⟩ := (mem_of_mapM_eq_ok hnew).2 meta' h
    obtain ⟨found, hfoundMem, rfl⟩ := (hids id).mp hmem
    rw [hfound found hfoundMem] at hok
    cases hok
    exact hfoundMem

/-- A write that passes has no newer version under its key. -/
theorem newest_of_validateWrite (h : e.validateWrite attempt next write = .ok ())
    (hkey : write.logicalKey = .ok key) :
    ∀ commit ∈ e.newestCommit key, commit ≤ attempt.readTs := by
  simp only [Engine.validateWrite, bind_eq_ok, mapError_eq_ok] at h
  obtain ⟨table, -, ⟨⟩, -, ⟨⟩, -, actual, hactual, h⟩ := h
  cases hactual.symm.trans hkey
  intro commit hcommit
  by_contra hlt
  rw [Option.mem_def.mp hcommit, Option.filter_some, if_pos (by simpa using hlt)] at h
  cases h

/-- A write that passes fits its table. -/
theorem fits_of_validateWrite (h : e.validateWrite attempt next write = .ok ()) :
    ∃ table, next.table write.tableId = some table ∧ Engine.validatePut table write = .ok () := by
  simp only [Engine.validateWrite, bind_eq_ok, orFail_eq_ok] at h
  obtain ⟨table, htable, ⟨⟩, -, ⟨⟩, hput, -⟩ := h
  exact ⟨table, htable, hput⟩

section Fold

variable {e : Engine} {index : Nat} {attempt : TxnAttempt} {next : Catalog}
  {newIndexes : List IndexMeta} {items : List KeyedWrite}

theorem applyWrites_pushes :
    Pushes index (fun entry => ∃ item ∈ items, TouchedBy e.catalog item entry)
      { e with catalog := next } (e.applyWrites index next items) := foldl_applyWrite_pushes _

theorem backfillIndexes_pushes :
    Pushes index (fun entry => ∃ meta' ∈ newIndexes, entry.indexId = meta'.id)
      e (e.backfillIndexes index newIndexes) :=
  .foldl (fun meta' hmem e => (backfillIndex_pushes e index meta').mono
    fun _ h => ⟨meta', hmem, h⟩) e

theorem chain_backfillIndexes (key : LogicalKey) :
    (e.backfillIndexes index newIndexes).chain key = e.chain key := by
  refine List.foldlRecOn (motive := fun e' : Engine => e'.chain key = e.chain key) _ _ rfl ?_
  intro e' he' meta' _
  rw [← he', Engine.chain, backfillIndex_primary]
  rfl

/-- Index entries that an attempt may change. -/
def MayChange (e : Engine) (items : List KeyedWrite)
    (newIndexes : List IndexMeta) (entry : SecondaryKey) : Prop :=
  (∃ item ∈ items, TouchedBy e.catalog item entry) ∨ ∃ meta' ∈ newIndexes, entry.indexId = meta'.id

theorem pushes_of_attempt : Pushes index (MayChange e items newIndexes) { e with catalog := next }
    ((e.applyWrites index next items).backfillIndexes index newIndexes) :=
  (applyWrites_pushes.mono fun _ => .inl).trans (backfillIndexes_pushes.mono fun _ => .inr)

/-- Only entries of indexes in the new catalog change. -/
theorem known_of_mayChange (hmutates : e.catalog.Mutates attempt.catalogMutations next)
    (hnew : ∀ meta', .createIndex meta' ∈ attempt.catalogMutations ↔ meta' ∈ newIndexes)
    (hok : e.catalog.Ok) {entry : SecondaryKey} (h : MayChange e items newIndexes entry) :
    ∃ meta', next.index entry.indexId = some meta' := by
  rcases h with ⟨item, -, meta', hmem, hid, -⟩ | ⟨meta', hmem, hid⟩
  · exact ⟨meta', hid ▸ hmutates.grows.index ((Catalog.mem_indexesForTable hok).mp hmem).1⟩
  · exact ⟨meta', hid ▸ hmutates.index_iff.mpr (.inr ⟨(hnew meta').mpr hmem, rfl⟩)⟩

variable (hfst : items.map Prod.fst = attempt.writes)
  (hitems : ∀ item ∈ items, item.1.logicalKey = .ok item.2.1 ∧
    item.2.2 = visibleRow (e.chain item.2.1) e.lastApplied)
include hfst hitems

theorem items_distinct (hcanonical : attempt.validateCanonical = .ok ()) :
    items.Pairwise fun a b => a.2.1 ≠ b.2.1 := by
  have h := distinct_of_canonical hcanonical
  rw [← hfst, List.pairwise_map] at h
  refine h.imp_of_mem fun {a b} ha hb hab heq => ?_
  exact hab a.2.1 (hitems a ha).1 (heq ▸ (hitems b hb).1)

theorem chain_applyWrites (hcanonical : attempt.validateCanonical = .ok ()) (key : LogicalKey) :
    (e.applyWrites index next items).chain key = ((writeAt attempt.writes key).map fun write =>
      { commitIndex := index, row := write.mutation.row : RowVersion }).toList ++ e.chain key := by
  cases hwrite : writeAt attempt.writes key with
  | none =>
    rw [writeAt_eq_none_iff, ← hfst] at hwrite
    refine chain_foldl_applyWrite_of_notMem _ fun item hitem heq => ?_
    exact hwrite item.1 (List.mem_map_of_mem hitem) (heq ▸ (hitems item hitem).1)
  | some write =>
    rw [writeAt_eq_some_iff (distinct_of_canonical hcanonical), ← hfst, List.mem_map] at hwrite
    obtain ⟨⟨item, hitem, rfl⟩, hkey⟩ := hwrite
    cases (hitems item hitem).1.symm.trans hkey
    exact chain_foldl_applyWrite _ (items_distinct hfst hitems hcanonical) hitem

/-- After the writes and the new entries, each index shows each row. -/
theorem shown_backfillIndexes (hcanonical : attempt.validateCanonical = .ok ())
    (hmutates : e.catalog.Mutates attempt.catalogMutations next)
    (hnew : ∀ meta', .createIndex meta' ∈ attempt.catalogMutations ↔ meta' ∈ newIndexes)
    (hok : e.catalog.Ok) {meta' : IndexMeta} {key : LogicalKey} {row : Row} {value : Value}
    (hmeta : next.index meta'.id = some meta') (htable : key.tableId = meta'.tableId)
    (hrow : visibleRow ((e.applyWrites index next items).chain key) index = some row)
    (hvalue : row.values[meta'.column]? = some value) (hnull : value.isNull = false)
    (hbounded : visibleRow (e.chain key) index = visibleRow (e.chain key) e.lastApplied)
    (hold : e.catalog.index meta'.id = some meta' →
      Engine.indexedValue (visibleRow (e.chain key) e.lastApplied) meta'.column = some value →
      visibleSecondary (e.entries (entryKey meta'.id value key)) index = true) :
    visibleSecondary (((e.applyWrites index next items).backfillIndexes index newIndexes).entries
      (entryKey meta'.id value key)) index = true := by
  rcases hmutates.index_iff.mp hmeta with hbefore | ⟨hcreated, -⟩
  · -- an index there was before: no new index fills its entries
    have hfresh : ¬∃ new ∈ newIndexes, (entryKey meta'.id value key).indexId = new.id := by
      rintro ⟨new, hmem, hid⟩
      have hnone := hmutates.fresh ((hnew new).mpr hmem)
      rw [← hid] at hnone
      cases hbefore.symm.trans hnone
    rw [backfillIndexes_pushes.entries_eq hfresh]
    have htables : ∀ item ∈ items, item.2.1.tableId = item.1.tableId :=
      fun item hitem => tableId_of_logicalKey (hitems item hitem).1
    by_cases hwritten : ∃ item ∈ items, item.2.1 = key
    · obtain ⟨item, hitem, rfl⟩ := hwritten
      have hdistinct := items_distinct hfst hitems hcanonical
      rw [Engine.applyWrites, chain_foldl_applyWrite _ hdistinct hitem, visibleRow_cons,
        if_pos (Nat.le_refl _)] at hrow
      refine visible_foldl_applyWrite _ hok hdistinct htables hitem hbefore htable hnull ?_ ?_
      · rw [show item.1.mutation.row = some row from hrow]
        exact hvalue
      · rw [(hitems item hitem).2]
        exact hold hbefore
    · have huntouched : ∀ item ∈ items, item.2.1 ≠ key := fun item hitem heq =>
        hwritten ⟨item, hitem, heq⟩
      rw [Engine.applyWrites, chain_foldl_applyWrite_of_notMem _ huntouched] at hrow
      rw [applyWrites_pushes.entries_eq]
      · refine hold hbefore ?_
        rw [← hbounded, show visibleRow (e.chain key) index = some row from hrow]
        exact hvalue
      · rintro ⟨item, hitem, htouched⟩
        exact not_touchedBy hok (htables item hitem) hbefore htable (huntouched item hitem) value
          htouched
  · -- a new index: once filled, its entries stay
    obtain ⟨front, back, rfl⟩ := List.append_of_mem ((hnew meta').mp hcreated)
    rw [Engine.backfillIndexes, List.foldl_append, List.foldl_cons]
    refine List.foldlRecOn (motive := fun e' : Engine =>
      visibleSecondary (e'.entries (entryKey meta'.id value key)) index = true) _ _ ?_
      fun _ he' other _ => visible_backfillIndex_of_visible other he'
    exact visible_backfillIndex htable
      ((congrArg (visibleRow · index) (chain_backfillIndexes key)).trans hrow) hvalue hnull

end Fold

/-- An attempt is aborted, and leaves the engine but for a counter, or commits. -/
theorem evaluateAndApply_cases (e : Engine) (index : Nat) (attempt : TxnAttempt) :
    (∃ reason, e.evaluateAndApply index attempt = e.abort index reason) ∨
      ∃ e', Commits e index attempt e' ∧ e.evaluateAndApply index attempt =
        (e', .committed index attempt.writes.length e'.catalog.schemaEpoch) := by
  unfold Engine.evaluateAndApply
  cases hvalid : e.validateAttemptForApply attempt with
  | error reason => exact .inl ⟨reason, rfl⟩
  | ok validated =>
    obtain ⟨next, newIndexes⟩ := validated
    cases hbefore : e.beforeRows attempt with
    | error error => exact .inl ⟨_, rfl⟩
    | ok before =>
      refine .inr ⟨_, ?_, rfl⟩
      obtain ⟨hfloor, hreadTs, hcanonical, hepoch, hmutates, hnextEpoch, hnew, hwrites⟩ :=
        validateAttemptForApply_spec hvalid
      obtain ⟨hfst, hitems⟩ := beforeRows_spec hbefore
      generalize attempt.writes.zip before = items at hfst hitems ⊢
      generalize hwritten : e.applyWrites index next items = written
      generalize hfilled : written.backfillIndexes index newIndexes = filled
      have hpushes :
          Pushes index (MayChange e items newIndexes) { e with catalog := next } filled := by
        subst hfilled hwritten
        exact pushes_of_attempt
      have hcatalog : filled.catalog = next := congrArg Engine.catalog hpushes.frame
      have hchain : ∀ key, filled.chain key = written.chain key := fun key =>
        hfilled ▸ chain_backfillIndexes key
      exact {
        floor_le := hfloor
        readTs_le := hreadTs
        canonical := hcanonical
        epoch := hepoch
        mutates := (show filled.countCommit.catalog = next from hcatalog) ▸ hmutates
        nextEpoch := (congrArg Catalog.schemaEpoch hcatalog).trans hnextEpoch
        newest := fun write hwrite key hkey => newest_of_validateWrite (hwrites write hwrite) hkey
        chain := fun key => (hchain key).trans
          (hwritten ▸ chain_applyWrites hfst hitems hcanonical key)
        pushes := fun entry =>
          let ⟨pushed, heq, hindex, _⟩ := hpushes.entries entry
          ⟨pushed, heq, hindex⟩
        known := by
          intro hok entry hne
          obtain ⟨meta', hmeta⟩ := known_of_mayChange hmutates hnew hok
            (not_not.mp fun hmay => hne (hpushes.entries_eq hmay))
          exact ⟨meta', (congrArg (Catalog.index · entry.indexId) hcatalog).trans hmeta⟩
        fits := fun write hwrite =>
          let ⟨table, htable, hput⟩ := fits_of_validateWrite (hwrites write hwrite)
          ⟨table, (congrArg (Catalog.table · write.tableId) hcatalog).trans htable, hput⟩
        shown := by
          intro hok meta' key row value hmeta htable hrow hvalue hnull hbounded hold
          subst hfilled hwritten
          exact shown_backfillIndexes hfst hitems hcanonical hmutates hnew hok
            ((congrArg (Catalog.index · meta'.id) hcatalog).symm.trans hmeta) htable
            ((congrArg (visibleRow · index) (hchain key)).symm.trans hrow) hvalue hnull hbounded
              hold
        frame := by
          rw [show filled.countCommit.catalog = next from hcatalog]
          exact hpushes.frame }

end AsterEngine
