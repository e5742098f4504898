import AsterDB.Models.Engine.Interpretation.Change
import AsterDB.Models.Engine.Interpretation.Keys

/-!
# Restoring an engine

An engine that is reached passes every check that its restored image is put through,
and restoring gives it back. The checks are stated as one invariant of an engine, which
the start, every restored engine and every step have.
-/

namespace AsterEngine

open AsterRaft (Digest u64Max)
open Std
open Fallible

namespace Catalog

/-- The lookup of names gives the ids of the entries that have them. -/
def Names {μ : Type} (name : μ → String) (names : ExtTreeMap String Nat)
    (entries : ExtTreeMap Nat μ) : Prop :=
  ∀ {n : String} {i : Nat}, names[n]? = some i ↔ ∃ entry, entries[i]? = some entry ∧ name entry = n

/-- A catalog that passes its validation: entries stand under their ids, and the names are
those of the entries. -/
structure Valid (catalog : Catalog) : Prop where
  table : ∀ {id : Nat} {table : TableMeta}, catalog.tables[id]? = some table →
    table.id = id ∧ table.validate = .ok ()
  tableName : Names (fun table => normalize table.name) catalog.tableNames catalog.tables
  index : ∀ {id : Nat} {index : IndexMeta}, catalog.indexes[id]? = some index →
    index.id = id ∧ index.id ≠ 0 ∧ validateIdentifier index.name "index" = .ok () ∧
      ∃ table, catalog.table index.tableId = some table ∧
        index.column < table.schema.columns.length
  indexName : Names (fun index => normalize index.name) catalog.indexNames catalog.indexes

variable {μ : Type} {names : ExtTreeMap String Nat} {entries : ExtTreeMap Nat μ} (name : μ → String)

/-- The lookup of names in a map of named entries. -/
theorem names_eq_iff {id : μ → Nat} (hid : ∀ entry ∈ entries.toList, id entry.2 = entry.1)
    (hdistinct : entries.toList.Pairwise fun a b => name a.2 ≠ name b.2) :
    ExtTreeMap.ofList (entries.toList.map fun entry => (name entry.2, id entry.2)) = names ↔
      Names name names entries := by
  have hlookup : Names name
      (.ofList (entries.toList.map fun entry => (name entry.2, id entry.2))) entries := by
    intro n i
    rw [getElem?_ofList (List.pairwise_map.mpr hdistinct), List.mem_map]
    constructor
    · rintro ⟨⟨k, entry⟩, hmem, heq⟩
      obtain ⟨rfl, rfl⟩ := Prod.mk.inj heq
      rw [hid _ hmem]
      exact ⟨entry, ExtTreeMap.mem_toList_iff_getElem?_eq_some.mp hmem, rfl⟩
    · rintro ⟨entry, hentry, rfl⟩
      have hmem := ExtTreeMap.mem_toList_iff_getElem?_eq_some.mpr hentry
      exact ⟨(i, entry), hmem, Prod.ext rfl (hid _ hmem)⟩
  constructor
  · rintro rfl
    exact hlookup
  · intro h
    apply ExtTreeMap.ext_getElem?
    intro n
    apply Option.ext
    intro i
    rw [hlookup, h]

/-- Names that are looked up are distinct. -/
theorem names_pairwise_ne (hlookup : Names name names entries) :
    entries.toList.Pairwise fun a b => name a.2 ≠ name b.2 := by
  refine (toList_pairwise_ne entries).imp_of_mem fun {a b} ha hb hne heq => hne ?_
  have hget {entry : Nat × μ} (hmem : entry ∈ entries.toList) :
      names[name entry.2]? = some entry.1 :=
    hlookup.mpr ⟨entry.2, ExtTreeMap.mem_toList_iff_getElem?_eq_some.mp hmem, rfl⟩
  exact Option.some.inj ((hget ha).symm.trans (heq ▸ hget hb))

/-- What the check of one table asks. -/
def TableChecks (entry : Nat × TableMeta) : Prop :=
  entry.2.id = entry.1 ∧ entry.2.validate = .ok ()

theorem validateTable_eq_ok {names names' : ExtTreeSet String} {entry : Nat × TableMeta} :
    validateTable names entry = .ok names' ↔
      (TableChecks entry ∧ normalize entry.2.name ∉ names) ∧
        names' = names.insert (normalize entry.2.name) := by
  simp only [validateTable, bind_eq_ok, failIf_eq_ok, pure_eq_ok, exists_const, TableChecks,
    not_not]
  constructor
  · rintro ⟨hid, ⟨⟩, hvalid, hnew, rfl⟩
    exact ⟨⟨⟨hid.symm, hvalid⟩, hnew⟩, rfl⟩
  · rintro ⟨⟨⟨hid, hvalid⟩, hnew⟩, rfl⟩
    exact ⟨hid.symm, (), hvalid, hnew, rfl⟩

/-- What the check of one index asks. -/
def IndexChecks (catalog : Catalog) (entry : Nat × IndexMeta) : Prop :=
  entry.2.id = entry.1 ∧ entry.2.id ≠ 0 ∧ validateIdentifier entry.2.name "index" = .ok () ∧
    ∃ table, catalog.table entry.2.tableId = some table ∧
      entry.2.column < table.schema.columns.length

theorem validateIndex_eq_ok {catalog : Catalog} {names names' : ExtTreeSet String}
    {entry : Nat × IndexMeta} :
    catalog.validateIndex names entry = .ok names' ↔
      (catalog.IndexChecks entry ∧ normalize entry.2.name ∉ names) ∧
        names' = names.insert (normalize entry.2.name) := by
  simp only [validateIndex, bind_eq_ok, failIf_eq_ok, orFail_eq_ok, pure_eq_ok, exists_const,
    IndexChecks, not_or, not_not, Nat.not_le]
  constructor
  · rintro ⟨⟨hid, hzero⟩, ⟨⟩, hname, table, htable, hcolumn, hnew, rfl⟩
    exact ⟨⟨⟨hid.symm, hzero, hname, table, htable, hcolumn⟩, hnew⟩, rfl⟩
  · rintro ⟨⟨⟨hid, hzero, hname, table, htable, hcolumn⟩, hnew⟩, rfl⟩
    exact ⟨⟨hid.symm, hzero⟩, (), hname, table, htable, hcolumn, hnew, rfl⟩

/-- A fold that collects new names succeeds if all checks do and the names differ. -/
theorem exists_names_iff {ι : Type}
    (step : ExtTreeSet String → ι → Result (ExtTreeSet String)) (check : ι → Prop)
    (name : ι → String) (hstep : ∀ names item names', step names item = .ok names' ↔
      (check item ∧ name item ∉ names) ∧ names' = names.insert (name item)) (items : List ι) :
    (∃ names, items.foldlM step ∅ = Except.ok names) ↔
      (∀ item ∈ items, check item) ∧ items.Pairwise fun a b => name a ≠ name b := by
  have hinsert (names : ExtTreeSet String) (item : ι) (k : String) :
      k ∈ names.insert (name item) ↔ k ∈ names ∨ name item = k := by
    rw [ExtTreeSet.mem_insert, LawfulEqCmp.compare_eq_iff_eq, or_comm]
  constructor
  · rintro ⟨names, h⟩
    have hspec (names : ExtTreeSet String) (item : ι) (names' : ExtTreeSet String)
        (h : step names item = .ok names') :
        check item ∧ name item ∉ names ∧ ∀ k, k ∈ names' ↔ k ∈ names ∨ name item = k := by
      obtain ⟨⟨hcheck, hnew⟩, rfl⟩ := (hstep names item names').mp h
      exact ⟨hcheck, hnew, hinsert names item⟩
    obtain ⟨hcheck, hdistinct, -⟩ := of_foldlM_fresh (fun names k => k ∈ names) name hspec h
    exact ⟨hcheck, hdistinct⟩
  · rintro ⟨hcheck, hdistinct⟩
    refine exists_foldlM_fresh (fun names k => k ∈ names) name ?_ hcheck hdistinct
      fun _ _ => ExtTreeSet.not_mem_empty
    intro names item hitem hnew
    exact ⟨_, (hstep names item _).mpr ⟨⟨hitem, hnew⟩, rfl⟩, hinsert names item⟩

theorem validate_eq_ok {catalog : Catalog} {u : Unit} :
    catalog.validate = .ok u ↔ catalog.Valid := by
  have htables := exists_names_iff validateTable TableChecks (fun entry => normalize entry.2.name)
    (fun _ _ _ => validateTable_eq_ok) catalog.tables.toList
  have hindexes := exists_names_iff catalog.validateIndex catalog.IndexChecks
    (fun entry => normalize entry.2.name) (fun _ _ _ => validateIndex_eq_ok) catalog.indexes.toList
  simp only [validate, bind_eq_ok, failIf_eq_ok, not_not, exists_const]
  constructor
  · rintro ⟨tableNames, hfold, htableNames, indexNames, hfold', hindexNames⟩
    obtain ⟨htable, hdistinct⟩ := htables.mp ⟨_, hfold⟩
    obtain ⟨hindex, hdistinct'⟩ := hindexes.mp ⟨_, hfold'⟩
    exact {
      table := fun h => htable (_, _) (ExtTreeMap.mem_toList_iff_getElem?_eq_some.mpr h)
      tableName := (names_eq_iff (fun table : TableMeta => normalize table.name)
        (fun entry hmem => (htable entry hmem).1) hdistinct).mp htableNames
      index := fun h => hindex (_, _) (ExtTreeMap.mem_toList_iff_getElem?_eq_some.mpr h)
      indexName := (names_eq_iff (fun index : IndexMeta => normalize index.name)
        (fun entry hmem => (hindex entry hmem).1) hdistinct').mp hindexNames }
  · intro h
    have htable (entry : Nat × TableMeta) (hmem : entry ∈ catalog.tables.toList) :
        TableChecks entry :=
      h.table (ExtTreeMap.mem_toList_iff_getElem?_eq_some.mp hmem)
    have hindex (entry : Nat × IndexMeta) (hmem : entry ∈ catalog.indexes.toList) :
        catalog.IndexChecks entry := h.index (ExtTreeMap.mem_toList_iff_getElem?_eq_some.mp hmem)
    have hdistinct := names_pairwise_ne (fun table : TableMeta => normalize table.name)
      h.tableName
    have hdistinct' := names_pairwise_ne (fun index : IndexMeta => normalize index.name)
      h.indexName
    obtain ⟨tableNames, hfold⟩ := htables.mpr ⟨htable, hdistinct⟩
    obtain ⟨indexNames, hfold'⟩ := hindexes.mpr ⟨hindex, hdistinct'⟩
    exact ⟨tableNames, hfold,
      (names_eq_iff _ (fun entry hmem => (htable entry hmem).1) hdistinct).mpr
        h.tableName, indexNames, hfold',
      (names_eq_iff _ (fun entry hmem => (hindex entry hmem).1) hdistinct').mpr h.indexName⟩

/-- A new entry under a new name keeps the lookup of names. -/
theorem names_insert (hlookup : Names name names entries) {id : Nat} {new : μ}
    (hid : id ∉ entries) (hname : name new ∉ names) :
    Names name (names.insert (name new) id) (entries.insert id new) := by
  intro n i
  simp only [ExtTreeMap.getElem?_insert, LawfulEqCmp.compare_eq_iff_eq]
  by_cases hn : name new = n
  · subst hn
    rw [if_pos rfl, Option.some.injEq]
    constructor
    · rintro rfl
      exact ⟨new, if_pos rfl, rfl⟩
    · rintro ⟨entry, hentry, hsame⟩
      by_contra hne
      rw [if_neg hne] at hentry
      have hheld := hlookup.mpr ⟨entry, hentry, hsame⟩
      exact hname (ExtTreeMap.mem_iff_isSome_getElem?.mpr (hheld ▸ rfl))
  · rw [if_neg hn, hlookup]
    constructor
    · rintro ⟨entry, hentry, hsame⟩
      refine ⟨entry, ?_, hsame⟩
      rw [if_neg, hentry]
      rintro rfl
      exact hid (ExtTreeMap.mem_iff_isSome_getElem?.mpr (hentry ▸ rfl))
    · rintro ⟨entry, hentry, hsame⟩
      split at hentry
      next => exact absurd (Option.some.inj hentry ▸ hsame) hn
      next => exact ⟨entry, hentry, hsame⟩

namespace Valid

variable {catalog next : Catalog} (h : catalog.Valid)
include h

theorem ok : catalog.Ok where
  indexId hindex := (h.index hindex).1
  table hindex :=
    let ⟨table, htable, _⟩ := (h.index hindex).2.2.2
    ⟨table, htable⟩

theorem createTable {table : TableMeta} (hcreate : catalog.createTable table = .ok next) :
    next.Valid := by
  simp only [Catalog.createTable, bind_eq_ok, failIf_eq_ok, pure_eq_ok, exists_const] at hcreate
  obtain ⟨⟨⟩, hvalid, hid, hname, rfl⟩ := hcreate
  have hget {id : Nat} {other : TableMeta} :
      (catalog.tables.insert table.id table)[id]? = some other →
        other = table ∧ table.id = id ∨ catalog.tables[id]? = some other :=
    fun hother => (Maps.of_insert hother).imp (fun hsame => ⟨hsame.2, hsame.1.symm⟩) (·.2)
  have hgrows {id : Nat} {other : TableMeta} (hother : catalog.tables[id]? = some other) :
      (catalog.tables.insert table.id table)[id]? = some other := by
    rw [Maps.insert_of_ne, hother]
    rintro rfl
    exact hid (ExtTreeMap.mem_iff_isSome_getElem?.mpr (hother ▸ rfl))
  exact {
    table := by
      intro id other hother
      rcases hget hother with ⟨rfl, rfl⟩ | hother
      · exact ⟨rfl, hvalid⟩
      · exact h.table hother
    tableName := names_insert (fun table : TableMeta => normalize table.name) h.tableName hid hname
    index := by
      intro id index hindex
      obtain ⟨hid, hzero, hident, other, hother, hcolumn⟩ := h.index hindex
      exact ⟨hid, hzero, hident, other, hgrows hother, hcolumn⟩
    indexName := h.indexName }

theorem createIndex {index : IndexMeta} (hcreate : catalog.createIndex index = .ok next) :
    next.Valid := by
  simp only [Catalog.createIndex, bind_eq_ok, failIf_eq_ok, orFail_eq_ok, pure_eq_ok, exists_const,
    Nat.not_le] at hcreate
  obtain ⟨⟨⟩, hident, hzero, hid, hname, table, htable, hcolumn, rfl⟩ := hcreate
  exact {
    table := h.table
    tableName := h.tableName
    index := by
      intro id other hother
      rcases Maps.of_insert hother with ⟨rfl, rfl⟩ | ⟨-, hother⟩
      · exact ⟨rfl, hzero, hident, table, htable, hcolumn⟩
      · exact h.index hother
    indexName :=
      names_insert (fun index : IndexMeta => normalize index.name) h.indexName hid hname }

theorem applyMutations {mutations : List CatalogMutation} {ids : List Nat}
    (hmutations : catalog.applyMutations mutations = .ok (next, ids)) : next.Valid := by
  have hfold {mutations : List CatalogMutation} {start last : Catalog × List Nat}
      (hvalid : start.1.Valid) (hlast : mutations.foldlM applyMutation start = .ok last) :
      last.1.Valid := by
    induction mutations generalizing start with
    | nil =>
      cases hlast
      exact hvalid
    | cons mutation rest ih =>
      rw [List.foldlM_cons, bind_eq_ok] at hlast
      obtain ⟨middle, hmiddle, hlast⟩ := hlast
      refine ih ?_ hlast
      cases mutation <;> simp only [applyMutation, bind_eq_ok, pure_eq_ok] at hmiddle <;>
        obtain ⟨created, hcreated, rfl⟩ := hmiddle
      · exact hvalid.createTable hcreated
      · exact hvalid.createIndex hcreated
  simp only [Catalog.applyMutations, bind_eq_ok] at hmutations
  obtain ⟨last, hlast, hmutations⟩ := hmutations
  have hvalid := hfold h hlast
  split at hmutations
  · cases hmutations
    exact hvalid
  · rw [bind_eq_ok] at hmutations
    obtain ⟨epoch, -, hepoch⟩ := hmutations
    cases hepoch
    exact ⟨hvalid.table, hvalid.tableName, hvalid.index, hvalid.indexName⟩

end Valid

end Catalog

/-- Index entries get at most one new version at `index`, under keys in `P`. -/
def Adds (index : Nat) (P : SecondaryKey → Prop) (e e' : Engine) : Prop :=
  ∀ key, e'.entries key = e.entries key ∨
    P key ∧ ∃ present, e'.entries key = { commitIndex := index, present } :: e.entries key

namespace Adds

variable {index : Nat} {P Q : SecondaryKey → Prop} {e e' e'' : Engine}

theorem refl (index : Nat) (P : SecondaryKey → Prop) (e : Engine) : Adds index P e e :=
  fun _ => .inl rfl

theorem mono (h : Adds index P e e') (hPQ : ∀ key, P key → Q key) : Adds index Q e e' :=
  fun key => (h key).imp id fun ⟨hP, hadded⟩ => ⟨hPQ key hP, hadded⟩

/-- Two additions to different entries. -/
theorem trans (h : Adds index P e e') (h' : Adds index Q e' e'')
    (hdisjoint : ∀ key, P key → ¬Q key) : Adds index (fun key => P key ∨ Q key) e e'' := by
  intro key
  rcases h key with hsame | ⟨hP, present, hadded⟩
  · rcases h' key with hsame' | ⟨hQ, present, hadded⟩
    · exact .inl (hsame'.trans hsame)
    · exact .inr ⟨.inr hQ, present, hadded.trans (by rw [hsame])⟩
  · rcases h' key with hsame' | ⟨hQ, -⟩
    · exact .inr ⟨.inl hP, present, hsame'.trans hadded⟩
    · exact absurd hQ (hdisjoint key hP)

theorem foldl {α : Type} {f : Engine → α → Engine} {R : α → SecondaryKey → Prop} {list : List α}
    (h : ∀ a ∈ list, ∀ e, Adds index (R a) e (f e a))
    (hdisjoint : list.Pairwise fun a b => ∀ key, R a key → ¬R b key) (e : Engine) :
    Adds index (fun key => ∃ a ∈ list, R a key) e (list.foldl f e) := by
  induction list generalizing e with
  | nil => exact refl index _ e
  | cons a list ih =>
    rw [List.forall_mem_cons] at h
    rw [List.pairwise_cons] at hdisjoint
    refine ((h.1 e).trans (ih h.2 hdisjoint.2 (f e a)) ?_).mono ?_
    · rintro key ha ⟨b, hb, hkey⟩
      exact hdisjoint.1 b hb key ha hkey
    · rintro key (ha | ⟨b, hb, hkey⟩)
      · exact ⟨a, List.mem_cons_self, ha⟩
      · exact ⟨b, List.mem_cons_of_mem _ hb, hkey⟩

theorem pushSecondary (e : Engine) (index indexId : Nat) (value : Value) (key : LogicalKey)
    (present : Bool) : Adds index (· = entryKey indexId value key) e
      (e.pushSecondary indexId value key index present) := by
  intro other
  rw [Engine.entries_pushSecondary]
  by_cases h : entryKey indexId value key = other
  · exact .inr ⟨h.symm, present, if_pos h⟩
  · exact .inl (if_neg h)

theorem updateSecondary (e : Engine) (index : Nat) (meta' : IndexMeta) (key : LogicalKey)
    (oldRow newRow : Option Row) :
    Adds index (OfRow meta'.id key) e (e.updateSecondary meta' key oldRow newRow index) := by
  have hrow {value : Value} (entry : SecondaryKey) (h : entry = entryKey meta'.id value key) :
      OfRow meta'.id key entry := h ▸ ofRow_entryKey meta'.id value key
  unfold Engine.updateSecondary
  dsimp only
  split
  · exact refl index _ e
  next hne =>
    cases hold : (Engine.indexedValue oldRow meta'.column).filter fun value => !value.isNull with
    | none =>
      cases (Engine.indexedValue newRow meta'.column).filter fun value => !value.isNull with
      | none => exact refl index _ e
      | some new => exact (pushSecondary e index meta'.id new key true).mono fun entry => hrow entry
    | some old =>
      cases hnew : (Engine.indexedValue newRow meta'.column).filter fun value => !value.isNull with
      | none => exact (pushSecondary e index meta'.id old key false).mono fun entry => hrow entry
      | some new =>
        -- the values differ, so the two entries do
        refine ((pushSecondary e index meta'.id old key false).trans
          (pushSecondary _ index meta'.id new key true) ?_).mono
          fun entry h => h.elim (hrow entry) (hrow entry)
        rintro _ rfl hsame
        have hencoded : Codec.encodeOrdered old = Codec.encodeOrdered new :=
          congrArg SecondaryKey.secondaryValue hsame
        rw [Option.filter_eq_some_iff] at hold hnew
        exact hne (by rw [hold.1, hnew.1, encodeOrdered_injective hencoded])

/-- Indexes of one table have different ids. -/
theorem indexesForTable_pairwise {catalog : Catalog} (hok : catalog.Ok) (tableId : Nat) :
    (catalog.indexesForTable tableId).Pairwise fun a b => a.id ≠ b.id := by
  refine List.Pairwise.filter _ (List.pairwise_map.mpr ?_)
  refine (toList_pairwise_ne catalog.indexes).imp_of_mem fun {a b} ha hb hne => ?_
  rw [hok.indexId (ExtTreeMap.mem_toList_iff_getElem?_eq_some.mp ha),
    hok.indexId (ExtTreeMap.mem_toList_iff_getElem?_eq_some.mp hb)]
  exact hne

variable {previous : Catalog}

theorem applyWrite (hok : previous.Ok) (index : Nat) (e : Engine)
    (item : KeyedWrite) :
    Adds index (TouchedBy previous item) e (e.applyWrite previous index item) := by
  have h : Adds index (TouchedBy previous item) e
      ((previous.indexesForTable item.1.tableId).foldl (fun e meta' =>
        e.updateSecondary meta' item.2.1 item.2.2 item.1.mutation.row index) e) :=
    foldl (fun meta' _ e => updateSecondary e index meta' _ _ _)
      ((indexesForTable_pairwise hok item.1.tableId).imp fun hne _ ha hb =>
        hne (ha.1.symm.trans hb.1)) e
  exact h

/-- Writes to different rows touch different entries. -/
theorem touchedBy_disjoint (hok : previous.Ok)
    {a b : KeyedWrite} (ha : a.2.1.tableId = a.1.tableId)
    (hb : b.2.1.tableId = b.1.tableId) (hne : a.2.1 ≠ b.2.1) {entry : SecondaryKey}
    (htouched : TouchedBy previous a entry) : ¬TouchedBy previous b entry := by
  rintro ⟨meta', hmeta', hid', hprimary'⟩
  obtain ⟨other, hother, hid, hprimary⟩ := htouched
  obtain ⟨hother, hsame⟩ := (Catalog.mem_indexesForTable hok).mp hother
  obtain ⟨hmeta', hsame'⟩ := (Catalog.mem_indexesForTable hok).mp hmeta'
  rw [← hid, hid', hmeta'] at hother
  cases hother
  refine hne ?_
  cases hfirst : a.2.1
  cases hsecond : b.2.1
  simp_all

theorem backfillIndex (e : Engine) (index : Nat) (meta' : IndexMeta) :
    Adds index (fun entry => entry.indexId = meta'.id) e (e.backfillIndex index meta') := by
  refine (foldl (fun item _ e => pushSecondary e index meta'.id item.2 item.1 true) ?_ e).mono ?_
  · refine List.Pairwise.filterMap _ ?_ (toList_pairwise_ne e.primary)
    rintro ⟨key, versions⟩ ⟨key', versions'⟩ hne ⟨first, value⟩ hfirst ⟨second, value'⟩ hsecond
    rintro _ rfl hsame
    -- both rows are of the table of the index, so their primary keys differ
    split at hfirst <;> split at hsecond <;> try contradiction
    next htable htable' =>
      obtain ⟨row, -, hfirst⟩ := Option.bind_eq_some_iff.mp hfirst
      obtain ⟨row', -, hsecond⟩ := Option.bind_eq_some_iff.mp hsecond
      dsimp only at hfirst hsecond htable htable' hne
      split at hfirst <;> cases hfirst
      split at hsecond <;> cases hsecond
      have hprimary : key.primaryKey = key'.primaryKey := congrArg SecondaryKey.primaryKey hsame
      refine hne ?_
      cases key
      cases key'
      simp_all
  · rintro entry ⟨item, -, rfl⟩
    rfl

end Adds

section ValidChain

variable {ν : Type} {commitIndex : ν → Nat} {last last' : Nat} {versions : List ν}

theorem validChain_mono (hle : last ≤ last') (h : validChain commitIndex last versions = true) :
    validChain commitIndex last' versions = true := by
  simp only [validChain, Bool.and_eq_true, List.all_eq_true, decide_eq_true_eq] at h ⊢
  exact ⟨h.1, fun version hversion => ⟨(h.2 version hversion).1,
    Nat.le_trans (h.2 version hversion).2 hle⟩⟩

theorem ne_nil_of_validChain (h : validChain commitIndex last versions = true) : versions ≠ [] := by
  rintro rfl
  cases h

/-- A newer version in front of a chain. -/
theorem validChain_cons {version : ν}
    (h : versions ≠ [] → validChain commitIndex last versions = true)
    (hversion : commitIndex version = last + 1) :
    validChain commitIndex (last + 1) (version :: versions) = true := by
  cases versions with
  | nil => simp [validChain, hversion]
  | cons next rest =>
    have hrest := h (by simp)
    simp only [validChain, List.isEmpty_cons, Bool.not_false, Bool.true_and, Bool.and_eq_true,
      List.all_eq_true, decide_eq_true_eq, List.tail_cons, List.zip_cons_cons, List.mem_cons,
      forall_eq_or_imp, bne_iff_ne] at hrest ⊢
    refine ⟨⟨by omega, hrest.1⟩, ⟨by omega, by omega⟩, ⟨hrest.2.1.1, by omega⟩, ?_⟩
    exact fun other hother => ⟨(hrest.2.2 other hother).1, by
      have := (hrest.2.2 other hother).2
      omega⟩

end ValidChain

section NoEmpty

/-- No chain of a map is empty. -/
def NoEmptyChain {κ ν : Type} [Ord κ] [TransOrd κ] (map : ExtTreeMap κ (List ν)) : Prop :=
  ∀ key : κ, map[key]? ≠ some []

theorem noEmptyChain_push {κ ν : Type} [Ord κ] [TransOrd κ] {map : ExtTreeMap κ (List ν)}
    (h : NoEmptyChain map) (key : κ) (version : ν) :
    NoEmptyChain (map.alter key fun versions => some (version :: versions.getD [])) := by
  intro other
  rw [ExtTreeMap.getElem?_alter]
  split
  · simp
  · exact h other

structure Engine.NoEmpty (e : Engine) : Prop where
  primary : NoEmptyChain e.primary
  secondary : NoEmptyChain e.secondary

namespace Engine.NoEmpty

variable {e : Engine} (h : e.NoEmpty)
include h

theorem pushRow (key : LogicalKey) (version : RowVersion) : (e.pushRow key version).NoEmpty :=
  ⟨noEmptyChain_push h.primary key version, h.secondary⟩

theorem pushSecondary (indexId : Nat) (value : Value) (key : LogicalKey) (index : Nat)
    (present : Bool) : (e.pushSecondary indexId value key index present).NoEmpty :=
  ⟨h.primary, noEmptyChain_push h.secondary _ _⟩

theorem updateSecondary (meta' : IndexMeta) (key : LogicalKey) (oldRow newRow : Option Row)
    (index : Nat) : (e.updateSecondary meta' key oldRow newRow index).NoEmpty := by
  unfold Engine.updateSecondary
  dsimp only
  split
  · exact h
  · split <;> split
    · exact (h.pushSecondary _ _ _ _ _).pushSecondary _ _ _ _ _
    · exact h.pushSecondary _ _ _ _ _
    · exact h.pushSecondary _ _ _ _ _
    · exact h

theorem applyWrite (previous : Catalog) (index : Nat) (item : KeyedWrite) :
    (e.applyWrite previous index item).NoEmpty :=
  pushRow (List.foldlRecOn (motive := Engine.NoEmpty) _ _ h
    fun _ he _ _ => he.updateSecondary _ _ _ _ _) _ _

theorem applyWrites (index : Nat) (next : Catalog)
    (items : List KeyedWrite) :
    (e.applyWrites index next items).NoEmpty :=
  List.foldlRecOn (motive := Engine.NoEmpty) _ _ ⟨h.primary, h.secondary⟩
    fun _ he _ _ => he.applyWrite _ _ _

theorem backfillIndexes (index : Nat) (newIndexes : List IndexMeta) :
    (e.backfillIndexes index newIndexes).NoEmpty :=
  List.foldlRecOn (motive := Engine.NoEmpty) _ _ h fun _ he _ _ =>
    List.foldlRecOn (motive := Engine.NoEmpty) _ _ he fun _ he' _ _ => he'.pushSecondary _ _ _ _ _

end Engine.NoEmpty

end NoEmpty

/-- Mutations in order make indexes with different ids. -/
theorem newIndexIds_pairwise {mutations : List CatalogMutation}
    (h : TxnAttempt.mutationsOrdered mutations = true) :
    (mutations.filterMap CatalogMutation.newIndexId).Pairwise (· ≠ ·) := by
  have htrans {a b c : CatalogMutation} (hab : a.before b = true) (hbc : b.before c = true) :
      a.before c = true := by
    simp only [CatalogMutation.before, Bool.or_eq_true, Bool.and_eq_true, decide_eq_true_eq,
      beq_iff_eq] at *
    omega
  have hpairwise : mutations.Pairwise fun a b => a.before b = true := by
    induction mutations with
    | nil => exact .nil
    | cons first rest ih =>
      cases rest with
      | nil => exact List.pairwise_singleton _ _
      | cons second rest =>
        simp only [TxnAttempt.mutationsOrdered, Bool.and_eq_true] at h
        have hrest := ih h.2
        refine List.pairwise_cons.mpr ⟨?_, hrest⟩
        rintro other (_ | ⟨_, hother⟩)
        · exact h.1
        · exact htrans h.1 ((List.pairwise_cons.mp hrest).1 other hother)
  refine List.Pairwise.filterMap _ ?_ hpairwise
  rintro (table | index) (table' | index') hbefore id hid id' hid' <;>
    simp only [CatalogMutation.newIndexId, reduceCtorEq, Option.some.injEq] at hid hid'
  subst hid hid'
  exact Nat.ne_of_lt (of_decide_eq_true hbefore)

/-- The catalog that an attempt leaves is valid, and its new indexes have different ids. -/
theorem validateAttemptForApply_valid {e : Engine} {attempt : TxnAttempt} {next : Catalog}
    {newIndexes : List IndexMeta} (hcatalog : e.catalog.Valid)
    (h : e.validateAttemptForApply attempt = .ok (next, newIndexes)) :
    next.Valid ∧ newIndexes.Pairwise fun a b => a.id ≠ b.id := by
  simp only [Engine.validateAttemptForApply, bind_eq_ok, failIf_eq_ok, mapError_eq_ok, pure_eq_ok,
    forM_eq_ok, exists_const, Prod.exists, Prod.mk.injEq] at h
  obtain ⟨-, -, -, ⟨⟩, hcanonical, next, ids, hmutations, newIndexes, hnew, -, rfl, rfl⟩ := h
  have hvalid := hcatalog.applyMutations hmutations
  refine ⟨hvalid, ?_⟩
  obtain ⟨-, rfl, -⟩ := Catalog.applyMutations_spec hmutations
  have hordered : TxnAttempt.mutationsOrdered attempt.catalogMutations = true := by
    simp only [TxnAttempt.validateCanonical, bind_eq_ok, failIf_eq_ok] at hcanonical
    obtain ⟨-, -, hordered⟩ := hcanonical
    simpa using hordered
  have hids : ∀ {ids : List Nat} {found : List IndexMeta},
      List.Forall₂ (fun id meta' => next.index id = some meta') ids found →
        found.map IndexMeta.id = ids := by
    intro ids found hfound
    induction hfound with
    | nil => rfl
    | cons hfirst _ ih => rw [List.map_cons, ih, (hvalid.index hfirst).1]
  rw [mapM_eq_ok] at hnew
  rw [← List.pairwise_map (f := IndexMeta.id) (R := (· ≠ ·)),
    hids (hnew.imp fun _ _ h => orFail_eq_ok.mp h)]
  exact newIndexIds_pairwise hordered

/-- A catalog, chains up to a bound and counters that a restore accepts. -/
structure Consistent (bound : Nat) (e : Engine) : Prop where
  catalog : e.catalog.Valid
  primary : ∀ {key : LogicalKey} {versions : List RowVersion}, e.primary[key]? = some versions →
    validChain RowVersion.commitIndex bound versions = true
  secondary : ∀ {key : SecondaryKey} {versions : List SecondaryVersion},
    e.secondary[key]? = some versions →
      validChain SecondaryVersion.commitIndex bound versions = true ∧
        (e.catalog.index key.indexId).isSome = true
  counted : e.refreshVersionStats = e

theorem getD_of_ne_nil {ν : Type} {P : List ν → Prop} {o : Option (List ν)}
    (h : ∀ versions, o = some versions → P versions) (hne : o.getD [] ≠ []) : P (o.getD []) := by
  cases o with
  | none => exact absurd rfl hne
  | some versions => exact h versions rfl

/-- An engine with no empty chains is consistent if its chains are. -/
theorem consistent_of_chains {e : Engine} {bound : Nat} (hcatalog : e.catalog.Valid)
    (hnoEmpty : e.NoEmpty) (hchain : ∀ key, e.chain key ≠ [] →
      validChain RowVersion.commitIndex bound (e.chain key) = true)
    (hentries : ∀ key, e.entries key ≠ [] →
      validChain SecondaryVersion.commitIndex bound (e.entries key) = true ∧
        (e.catalog.index key.indexId).isSome = true) : Consistent bound e.countCommit where
  catalog := hcatalog
  primary := by
    intro key versions hversions
    have hsame : e.chain key = versions := congrArg (Option.getD · []) hversions
    exact hsame ▸ hchain key fun hnil =>
      hnoEmpty.primary key (hversions.trans (by rw [← hsame, hnil]))
  secondary := by
    intro key versions hversions
    have hsame : e.entries key = versions := congrArg (Option.getD · []) hversions
    exact hsame ▸ hentries key fun hnil =>
      hnoEmpty.secondary key (hversions.trans (by rw [← hsame, hnil]))
  counted := rfl

namespace Consistent

variable {bound bound' : Nat} {e : Engine} (h : Consistent bound e)
include h

theorem mono (hle : bound ≤ bound') : Consistent bound' e where
  catalog := h.catalog
  primary hversions := validChain_mono hle (h.primary hversions)
  secondary hversions := ⟨validChain_mono hle (h.secondary hversions).1, (h.secondary hversions).2⟩
  counted := h.counted

theorem withClients (clients : ExtTreeMap ClientId ClientRecord) :
    Consistent bound { e with clients } :=
  ⟨h.catalog, h.primary, h.secondary, congrArg (fun e' : Engine => { e' with clients }) h.counted⟩

theorem noEmpty : e.NoEmpty where
  primary _ hversions := ne_nil_of_validChain (h.primary hversions) rfl
  secondary _ hversions := ne_nil_of_validChain (h.secondary hversions).1 rfl

/-- A chain that is not empty is in the map. -/
theorem chain {key : LogicalKey} (hne : e.chain key ≠ []) :
    validChain RowVersion.commitIndex bound (e.chain key) = true :=
  getD_of_ne_nil (fun _ => h.primary) hne

theorem entries {key : SecondaryKey} (hne : e.entries key ≠ []) :
    validChain SecondaryVersion.commitIndex bound (e.entries key) = true ∧
      (e.catalog.index key.indexId).isSome = true :=
  getD_of_ne_nil (fun _ => h.secondary) hne

end Consistent

namespace Consistent

section Evaluate

variable {e : Engine} {newIndexes : List IndexMeta}
  {items : List KeyedWrite}

/-- An attempt adds at most one version to each index entry. -/
theorem adds_of_attempt (next : Catalog) (index : Nat) (hok : e.catalog.Ok)
    (hitems : ∀ item ∈ items, item.2.1.tableId = item.1.tableId)
    (hdistinct : items.Pairwise fun a b => a.2.1 ≠ b.2.1)
    (hnew : newIndexes.Pairwise fun a b => a.id ≠ b.id)
    (hfresh : ∀ meta' ∈ newIndexes, e.catalog.index meta'.id = none) :
    Adds index (MayChange e items newIndexes) { e with catalog := next }
      ((e.applyWrites index next items).backfillIndexes index newIndexes) := by
  have hwrites : Adds index (fun entry => ∃ item ∈ items, TouchedBy e.catalog item entry)
      { e with catalog := next } (e.applyWrites index next items) :=
    .foldl (fun item _ e' => .applyWrite hok index e' item)
      (hdistinct.imp_of_mem fun {a b} ha hb hne entry =>
        Adds.touchedBy_disjoint hok (hitems a ha) (hitems b hb) hne) _
  have hbackfill := Adds.foldl (fun meta' _ e' => Adds.backfillIndex e' index meta')
    (hnew.imp fun hne _ ha hb => hne (ha.symm.trans hb)) (e.applyWrites index next items)
  refine (hwrites.trans hbackfill ?_).mono fun entry h => h
  -- an index there was before is not a new one
  rintro entry ⟨item, hitem, meta', hmeta', hid, -⟩ ⟨new, hmem, hnewId⟩
  have hold := ((Catalog.mem_indexesForTable hok).mp hmeta').1
  rw [← hid, hnewId, hfresh new hmem] at hold
  cases hold

/-- A committed or aborted attempt keeps the engine consistent, up to its index. -/
theorem evaluateAndApply (h : Consistent e.lastApplied e) (attempt : TxnAttempt) :
    Consistent (e.lastApplied + 1) (e.evaluateAndApply (e.lastApplied + 1) attempt).1 := by
  have habort (reason : AbortReason) :
      Consistent (e.lastApplied + 1) (e.abort (e.lastApplied + 1) reason).1 := by
    have hmono := h.mono (Nat.le_succ e.lastApplied)
    exact ⟨hmono.catalog, hmono.primary, hmono.secondary,
      congrArg (fun e : Engine => (e.abort (e.lastApplied + 1) reason).1) h.counted⟩
  unfold Engine.evaluateAndApply
  cases hvalid : e.validateAttemptForApply attempt with
  | error reason => exact habort reason
  | ok validated =>
    obtain ⟨next, newIndexes⟩ := validated
    cases hbefore : e.beforeRows attempt with
    | error error => exact habort _
    | ok before =>
      obtain ⟨hnext, hnewIds⟩ := validateAttemptForApply_valid h.catalog hvalid
      obtain ⟨-, -, hcanonical, -, hmutates, -, hnew, -⟩ := validateAttemptForApply_spec hvalid
      obtain ⟨hfst, hitems⟩ := beforeRows_spec hbefore
      change Consistent (e.lastApplied + 1) ((e.applyWrites (e.lastApplied + 1) next
        (attempt.writes.zip before)).backfillIndexes (e.lastApplied + 1) newIndexes).countCommit
      generalize attempt.writes.zip before = items at hfst hitems ⊢
      have hadds := adds_of_attempt next (e.lastApplied + 1) h.catalog.ok
        (fun item hitem => tableId_of_logicalKey (hitems item hitem).1)
        (items_distinct hfst hitems hcanonical) hnewIds
        fun meta' hmem => hmutates.fresh ((hnew meta').mpr hmem)
      have hpushes :
          Pushes (e.lastApplied + 1) (MayChange e items newIndexes) { e with catalog := next }
          ((e.applyWrites (e.lastApplied + 1) next items).backfillIndexes (e.lastApplied + 1)
            newIndexes) := pushes_of_attempt
      have hcatalog : ((e.applyWrites (e.lastApplied + 1) next items).backfillIndexes
          (e.lastApplied + 1) newIndexes).catalog = next := congrArg Engine.catalog hpushes.frame
      refine consistent_of_chains (by rw [hcatalog]; exact hnext)
        ((h.noEmpty.applyWrites _ _ _).backfillIndexes _ _) ?_ ?_
      · intro key hne
        rw [chain_backfillIndexes, chain_applyWrites hfst hitems hcanonical] at hne ⊢
        cases hwrite : writeAt attempt.writes key with
        | none =>
          rw [hwrite] at hne
          exact validChain_mono (Nat.le_succ _) (h.chain hne)
        | some write => exact validChain_cons h.chain rfl
      · intro key hne
        rw [hcatalog]
        rcases hadds key with hsame | ⟨hmay, present, hadded⟩
        · rw [hsame] at hne ⊢
          obtain ⟨hchain, hindex⟩ := h.entries hne
          obtain ⟨meta', hmeta'⟩ := Option.isSome_iff_exists.mp hindex
          exact ⟨validChain_mono (Nat.le_succ _) hchain,
            Option.isSome_iff_exists.mpr ⟨meta', hmutates.grows.index hmeta'⟩⟩
        · rw [hadded]
          exact ⟨validChain_cons (fun hold => (h.entries hold).1) rfl,
            Option.isSome_iff_exists.mpr (known_of_mayChange hmutates hnew h.catalog.ok hmay)⟩

end Evaluate

end Consistent

/-- An engine that a restore gives back. -/
structure Restorable (e : Engine) : Prop where
  consistent : Consistent e.lastApplied e
  floor : e.retainedFloor ≤ e.lastApplied
  genesis : e.lastApplied = 0 → e.lastApplyHash = none ∧ e.lastApplyOutcome = none
  applied : 0 < e.lastApplied → e.lastApplyHash ≠ none ∧ e.lastApplyOutcome ≠ none
  clients : ∀ {client : ClientId} {record : ClientRecord},
    e.clients[client]? = some record → record.sequence ≠ 0
  nextTxnId : 1 ≤ e.nextTxnId

section Checks

variable {catalog : Catalog} {last : Nat}

theorem restorePrimary_eq_ok {map map' : ExtTreeMap LogicalKey (List RowVersion)}
    {entry : PrimarySnapshotEntry} :
    Engine.restorePrimary last map entry = .ok map' ↔
      (validChain RowVersion.commitIndex last entry.versions = true ∧
        { tableId := entry.tableId, primaryKey := entry.primaryKey : LogicalKey } ∉ map) ∧
      map.insert ⟨entry.tableId, entry.primaryKey⟩ entry.versions = map' := by
  simp only [Engine.restorePrimary, validateRowVersions, bind_eq_ok, failIf_eq_ok, pure_eq_ok,
    exists_const, Bool.not_eq_false, and_assoc]

theorem restoreSecondary_eq_ok {map map' : ExtTreeMap SecondaryKey (List SecondaryVersion)}
    {entry : SecondarySnapshotEntry} :
    Engine.restoreSecondary catalog last map entry = .ok map' ↔
      ((validChain SecondaryVersion.commitIndex last entry.versions = true ∧
        (catalog.index entry.key.indexId).isSome = true) ∧ entry.key ∉ map) ∧
      map.insert entry.key entry.versions = map' := by
  simp only [Engine.restoreSecondary, validateSecondaryVersions, bind_eq_ok, failIf_eq_ok,
    pure_eq_ok, exists_const, Bool.not_eq_false, Option.isNone_iff_eq_none,
    Option.isSome_iff_ne_none, and_assoc, ne_eq]

theorem restoreClient_eq_ok {map map' : ExtTreeMap ClientId ClientRecord}
    {entry : ClientSnapshotEntry} :
    Engine.restoreClient map entry = .ok map' ↔
      (entry.record.sequence ≠ 0 ∧ entry.clientId ∉ map) ∧
      map.insert entry.clientId entry.record = map' := by
  simp only [Engine.restoreClient, bind_eq_ok, failIf_eq_ok, pure_eq_ok, exists_const, and_assoc,
    ne_eq]

end Checks

namespace Restorable

variable {e : Engine}

theorem new : Restorable .new where
  consistent := {
    catalog := {
      table := by simp [Engine.new, Catalog.empty]
      tableName := by simp [Engine.new, Catalog.empty, Catalog.Names]
      index := by simp [Engine.new, Catalog.empty]
      indexName := by simp [Engine.new, Catalog.empty, Catalog.Names] }
    primary := by simp [Engine.new]
    secondary := by simp [Engine.new]
    counted := rfl }
  floor := Nat.le_refl 0
  genesis _ := ⟨rfl, rfl⟩
  applied h := absurd h (Nat.lt_irrefl 0)
  clients := by simp [Engine.new]
  nextTxnId := Nat.le_refl 1

/-- A restored image is the engine. -/
theorem fromSnapshot (h : Restorable e) : Engine.fromSnapshot e.snapshot = .ok e := by
  have hprimary :
      e.snapshot.primary.foldlM (Engine.restorePrimary e.lastApplied) ∅ = .ok e.primary :=
    foldlM_restore (fun entry : PrimarySnapshotEntry => ⟨entry.tableId, entry.primaryKey⟩)
      PrimarySnapshotEntry.versions (fun _ _ _ => restorePrimary_eq_ok) (fun _ => rfl)
        (fun _ => rfl)
      fun entry hmem => h.consistent.primary (ExtTreeMap.mem_toList_iff_getElem?_eq_some.mp hmem)
  have hsecondary : e.snapshot.secondary.foldlM
      (Engine.restoreSecondary e.catalog e.lastApplied) ∅ = .ok e.secondary :=
    foldlM_restore SecondarySnapshotEntry.key SecondarySnapshotEntry.versions
      (fun _ _ _ => restoreSecondary_eq_ok) (fun _ => rfl) (fun _ => rfl)
      fun entry hmem => h.consistent.secondary (ExtTreeMap.mem_toList_iff_getElem?_eq_some.mp hmem)
  have hclients : e.snapshot.clients.foldlM Engine.restoreClient ∅ = .ok e.clients :=
    foldlM_restore ClientSnapshotEntry.clientId ClientSnapshotEntry.record
      (fun _ _ _ => restoreClient_eq_ok) (fun _ => rfl) (fun _ => rfl)
      fun entry hmem => h.clients (ExtTreeMap.mem_toList_iff_getElem?_eq_some.mp hmem)
  have hmeta : (e.lastApplied = 0) = (e.lastApplyHash = none ∧ e.lastApplyOutcome = none) := by
    refine propext ⟨h.genesis, fun hnone => ?_⟩
    by_contra hne
    exact (h.applied (Nat.pos_of_ne_zero hne)).1 hnone.1
  simp only [Engine.fromSnapshot, bind_eq_ok, failIf_eq_ok, pure_eq_ok, exists_const]
  refine ⟨not_not.mpr rfl, (), Catalog.validate_eq_ok.mpr h.consistent.catalog,
    Nat.not_lt.mpr h.floor,
    not_not.mpr hmeta, ?_, e.primary, hprimary, e.secondary, hsecondary, e.clients, hclients, ?_⟩
  · rintro ⟨hpos, hnone⟩
    exact hnone.elim (h.applied hpos).1 (h.applied hpos).2
  · change ({ e with nextTxnId := max e.nextTxnId 1 } : Engine).refreshVersionStats = e
    rw [Nat.max_eq_left h.nextTxnId]
    exact h.consistent.counted

/-- What was restored can be restored again. -/
theorem of_fromSnapshot {snapshot : EngineSnapshot} (h : Engine.fromSnapshot snapshot = .ok e) :
    Restorable e := by
  simp only [Engine.fromSnapshot, bind_eq_ok, failIf_eq_ok, pure_eq_ok, exists_const, not_not,
    Nat.not_lt] at h
  obtain ⟨-, ⟨⟩, hcatalog, hfloor, hmeta, hcomplete, primary, hprimary, secondary, hsecondary,
    clients, hclients, rfl⟩ := h
  exact {
    consistent := {
      catalog := Catalog.validate_eq_ok.mp hcatalog
      primary := by
        intro key versions hversions
        obtain ⟨entry, hcheck, -, rfl⟩ := checked_of_foldlM_restore _ PrimarySnapshotEntry.versions
          (fun _ _ _ => restorePrimary_eq_ok) hprimary hversions
        exact hcheck
      secondary := by
        intro key versions hversions
        obtain ⟨entry, hcheck, rfl, rfl⟩ := checked_of_foldlM_restore SecondarySnapshotEntry.key
          SecondarySnapshotEntry.versions (fun _ _ _ => restoreSecondary_eq_ok) hsecondary hversions
        exact hcheck
      counted := rfl }
    floor := hfloor
    genesis := hmeta.mp
    applied := fun hpos => not_or.mp fun hnone => hcomplete ⟨hpos, hnone⟩
    clients := by
      intro client record hrecord
      obtain ⟨entry, hcheck, -, rfl⟩ := checked_of_foldlM_restore ClientSnapshotEntry.clientId
        ClientSnapshotEntry.record (fun _ _ _ => restoreClient_eq_ok) hclients hrecord
      exact hcheck
    nextTxnId := Nat.le_max_right _ _ }

variable {e' : Engine}

/-- Taking the next index keeps an engine restorable. -/
theorem advance (h : Restorable e) (hconsistent : Consistent (e.lastApplied + 1) e')
    (hfloor : e'.retainedFloor = e.retainedFloor) (hnext : e'.nextTxnId = e.nextTxnId)
    (hclients : ∀ {client : ClientId} {record : ClientRecord},
      e'.clients[client]? = some record → record.sequence ≠ 0) (hash : Digest)
    (outcome : ApplyOutcome) : Restorable (e'.advance (e.lastApplied + 1) hash outcome) where
  consistent := ⟨hconsistent.catalog, hconsistent.primary, hconsistent.secondary,
    congrArg (fun e'' : Engine => e''.advance (e.lastApplied + 1) hash outcome) hconsistent.counted⟩
  floor := hfloor ▸ Nat.le_succ_of_le h.floor
  genesis hzero := absurd hzero (Nat.succ_ne_zero _)
  applied _ := ⟨Option.some_ne_none _, Option.some_ne_none _⟩
  clients := hclients
  nextTxnId := hnext ▸ h.nextTxnId

/-- The record of an admitted request has a sequence number. -/
theorem sequence_of_new {request : ClientRequestId} {hash : Digest}
    (hnew : e.admitRequest request hash = .new) : request.sequence ≠ 0 := by
  simp only [Engine.admitRequest] at hnew
  split at hnew
  · split at hnew
    next hone => omega
    next => cases hnew
  · split at hnew
    · cases hnew
    · split at hnew <;> cases hnew
    · split at hnew
      next hnext => simp only [hnext, saturatingAdd, u64Max]; omega
      next => cases hnew

variable {outcome : ApplyOutcome}

theorem applyWithRequestHash {index : Nat} {applyHash requestHash : Digest}
    {attempt : TxnAttempt} (h : Restorable e)
    (happly : e.applyWithRequestHash index applyHash requestHash attempt = .ok (e', outcome)) :
    Restorable e' := by
  by_cases hagain : index = e.lastApplied
  · subst hagain
    rw [(applyWithRequestHash_again happly).1]
    exact h
  obtain ⟨-, rfl, rfl, rfl⟩ := applyWithRequestHash_next hagain happly
  have hcounted (stats : EngineStats) (hprimary : stats.primaryVersions = e.stats.primaryVersions)
      (hsecondary : stats.secondaryVersions = e.stats.secondaryVersions) :
      Consistent (e.lastApplied + 1) { e with stats } := by
    have hmono := h.consistent.mono (Nat.le_succ e.lastApplied)
    refine ⟨hmono.catalog, hmono.primary, hmono.secondary, ?_⟩
    have hstats := congrArg Engine.stats hmono.counted
    have hp : totalVersions e.primary = e.stats.primaryVersions :=
      congrArg EngineStats.primaryVersions hstats
    have hs : totalVersions e.secondary = e.stats.secondaryVersions :=
      congrArg EngineStats.secondaryVersions hstats
    simp only [Engine.refreshVersionStats, hp, hs, ← hprimary, ← hsecondary]
  cases hadmit : e.admitRequest attempt.request requestHash with
  | new =>
    have heval := h.consistent.evaluateAndApply attempt
    have hframe : (e.evaluateAndApply (e.lastApplied + 1) attempt).1.clients = e.clients ∧
        (e.evaluateAndApply (e.lastApplied + 1) attempt).1.retainedFloor = e.retainedFloor ∧
        (e.evaluateAndApply (e.lastApplied + 1) attempt).1.nextTxnId = e.nextTxnId := by
      rcases evaluateAndApply_cases e (e.lastApplied + 1) attempt with ⟨reason, habort⟩ |
        ⟨e', hcommits, hcommit⟩
      · rw [habort]
        exact ⟨rfl, rfl, rfl⟩
      · rw [hcommit]
        exact ⟨hcommits.clients, hcommits.retainedFloor, hcommits.nextTxnId⟩
    simp only [Engine.applyAdmitted, hadmit]
    generalize e.evaluateAndApply (e.lastApplied + 1) attempt = evaluated at heval hframe ⊢
    refine h.advance ?_ ?_ ?_ ?_ _ _
    · exact heval.withClients _
    · exact hframe.2.1
    · exact hframe.2.2
    · intro client record hrecord
      rcases Maps.of_insert hrecord with ⟨-, rfl⟩ | ⟨-, hrecord⟩
      · exact sequence_of_new hadmit
      · exact h.clients (hframe.1 ▸ hrecord)
  | _ =>
    simp only [Engine.applyAdmitted, hadmit]
    refine h.advance ?_ ?_ ?_ ?_ _ _
    · exact hcounted _ rfl rfl
    · rfl
    · rfl
    · exact h.clients

theorem applyNoop {index : Nat} {hash : Digest}
    (h : Restorable e) (happly : e.applyNoop index hash = .ok (e', outcome)) : Restorable e' := by
  unfold Engine.applyNoop at happly
  split at happly
  · rw [bind_eq_ok] at happly
    obtain ⟨-, -, hsame⟩ := happly
    cases hsame
    exact h
  · rw [bind_eq_ok] at happly
    obtain ⟨⟨⟩, hnext, hadvance⟩ := happly
    cases hadvance
    rw [nextIndex_eq_ok hnext]
    exact h.advance (h.consistent.mono (Nat.le_succ _)) rfl rfl h.clients _ _

end Restorable

end AsterEngine
