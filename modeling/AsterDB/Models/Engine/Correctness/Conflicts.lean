import AsterDB.Models.Engine.Interpretation.Change

/-!
# First committer wins

A commit is remembered by the newest version of each key it wrote, until the floor
has passed it. An attempt that reads at or above the floor, and at or above the
newest version of each of its keys, therefore read every earlier commit to them.
-/

namespace AsterEngine

open AsterRaft (Sha256 zeroHash)
open Std

/-- An attempt that committed, with the epoch in force after it. -/
def Entry.Committed (entry : Entry) (epoch : Nat) : Prop :=
  ∃ commit rows, entry.outcome = .applied (.committed commit rows epoch)

/-- `b` took account of all that `a` committed. -/
structure Follows (a b : TxnAttempt) (index epoch : Nat) : Prop where
  writes : ∀ first ∈ a.writes, ∀ second ∈ b.writes, first.tableId = second.tableId →
    first.primaryKey = second.primaryKey → index ≤ b.readTs
  schema : a.catalogMutations ≠ [] → a.schemaEpoch < epoch ∧ epoch ≤ b.schemaEpoch

/-- The newest version of each key written at or beyond an index, or the floor, is not older. -/
def Remembered (e : Engine) (index : Nat) (attempt : TxnAttempt) : Prop :=
  ∀ write ∈ attempt.writes, ∀ key, write.logicalKey = .ok key →
    index ≤ e.retainedFloor ∨ ∃ version ∈ (e.chain key).head?, index ≤ version.commitIndex

theorem newestCommit_eq (e : Engine) (key : LogicalKey) :
    e.newestCommit key = (e.chain key).head?.map RowVersion.commitIndex := by
  unfold Engine.newestCommit Engine.chain
  cases e.primary[key]? <;> rfl

/-- What the engine and its history say of the commits so far. -/
structure CommitsOk (e : Engine) (entries : List Entry) : Prop where
  index_le : ∀ entry ∈ entries, entry.index ≤ e.lastApplied
  commit_eq : ∀ entry ∈ entries, ∀ commit rows epoch,
    entry.outcome = .applied (.committed commit rows epoch) → commit = entry.index
  remembered : ∀ entry ∈ entries, ∀ epoch, entry.Committed epoch →
    Remembered e entry.index entry.attempt
  epoch : ∀ entry ∈ entries, ∀ epoch, entry.Committed epoch → epoch ≤ e.catalog.schemaEpoch ∧
    (entry.attempt.catalogMutations ≠ [] → entry.attempt.schemaEpoch < epoch)
  follows : ∀ a ∈ entries, ∀ b ∈ entries, ∀ epoch epoch', a.Committed epoch → b.Committed epoch' →
    a.index < b.index → Follows a.attempt b.attempt a.index epoch

namespace CommitsOk

variable {e e' : Engine} {entries : List Entry} {entry : Entry}

theorem new : CommitsOk .new [] := ⟨by simp, by simp, by simp, by simp, by simp⟩

/-- A step that forgets no commit and commits nothing. -/
theorem keep (h : CommitsOk e entries) (hlast : e.lastApplied ≤ e'.lastApplied)
    (hcatalog : e'.catalog = e.catalog)
    (hremembered : ∀ index attempt, Remembered e index attempt → Remembered e' index attempt) :
    CommitsOk e' entries where
  index_le := fun entry hmem => (h.index_le entry hmem).trans hlast
  commit_eq := h.commit_eq
  remembered := fun entry hmem epoch hc => hremembered _ _ (h.remembered entry hmem epoch hc)
  epoch := by rw [hcatalog]; exact h.epoch
  follows := h.follows

variable {index : Nat} {attempt : TxnAttempt}

theorem remembered_of_sameData (h : SameData e e')
    (hr : Remembered e index attempt) : Remembered e' index attempt := by
  intro write hwrite key hkey
  rw [h.retainedFloor, h.chain]
  exact hr write hwrite key hkey

/-- An entry that did not commit. -/
theorem append_uncommitted (h : CommitsOk e entries) (hindex : entry.index ≤ e.lastApplied)
    (huncommitted : ∀ epoch, ¬entry.Committed epoch) : CommitsOk e (entries ++ [entry]) := by
  have hcases : ∀ x ∈ entries ++ [entry], ∀ epoch, x.Committed epoch → x ∈ entries := by
    intro x hx epoch hc
    rcases List.mem_append.mp hx with hx | hx
    · exact hx
    · cases List.mem_singleton.mp hx
      exact absurd hc (huncommitted epoch)
  constructor
  · intro x hx
    rcases List.mem_append.mp hx with hx | hx
    · exact h.index_le x hx
    · cases List.mem_singleton.mp hx
      exact hindex
  · intro x hx commit rows epoch hc
    exact h.commit_eq x (hcases x hx epoch ⟨commit, rows, hc⟩) commit rows epoch hc
  · exact fun x hx epoch hc => h.remembered x (hcases x hx epoch hc) epoch hc
  · exact fun x hx epoch hc => h.epoch x (hcases x hx epoch hc) epoch hc
  · exact fun a ha b hb epoch epoch' hca hcb => h.follows a (hcases a ha epoch hca) b
      (hcases b hb epoch' hcb) epoch epoch' hca hcb

/-- Vacuum drops a newest version only below the new floor. -/
theorem remembered_of_vacuums {floor : Nat} (h : Vacuums e floor e')
    (hr : Remembered e index attempt) : Remembered e' index attempt := by
  intro write hwrite key hkey
  rw [h.retainedFloor, h.chain, vacuumRows_eq]
  rcases hr write hwrite key hkey with hle | ⟨version, hhead, hle⟩
  · exact .inl (hle.trans h.floor_ge)
  · by_cases hfloor : floor < version.commitIndex
    · exact .inr ⟨version, Versions.head_vacuum hhead hfloor, hle⟩
    · exact .inl (by omega)

variable {middle : Engine}

/-- A commit covers the versions below it. -/
theorem remembered_of_commits
    (h : Commits e index attempt middle) {earlier : Nat} {other : TxnAttempt}
    (hle : earlier ≤ index)
    (hr : Remembered e earlier other) : Remembered middle earlier other := by
  intro write hwrite key hkey
  rw [h.retainedFloor, h.chain]
  cases writeAt attempt.writes key with
  | none => exact hr write hwrite key hkey
  | some _ => exact .inr ⟨_, rfl, hle⟩

/-- The keys of a commit are remembered by its own versions. -/
theorem remembered_self (h : Commits e index attempt middle) : Remembered middle index attempt := by
  intro write hwrite key hkey
  refine .inr ⟨{ commitIndex := index, row := write.mutation.row }, ?_, Nat.le_refl _⟩
  rw [h.chain, (writeAt_eq_some_iff (distinct_of_canonical h.canonical)).mpr ⟨hwrite, hkey⟩]
  rfl

variable {added : List Entry} (h : CommitsOk e entries)
include h

/-- An attempt that commits follows every earlier commit. -/
theorem follows_of_commits (hc : Commits e index attempt middle) {a : Entry} (ha : a ∈ entries)
    {epoch : Nat} (hca : a.Committed epoch) : Follows a.attempt attempt a.index epoch where
  writes := by
    intro first hfirst second hsecond htable hkey
    obtain ⟨key, hlogical⟩ := logicalKey_of_canonical hc.canonical hsecond
    have hlogical' : first.logicalKey = .ok key := by
      rw [TxnWrite.logicalKey, htable, hkey]
      exact hlogical
    rcases h.remembered a ha epoch hca first hfirst key hlogical' with hle | ⟨version, hhead, hle⟩
    · exact hle.trans hc.floor_le
    · refine hle.trans (hc.newest second hsecond key hlogical version.commitIndex ?_)
      rw [newestCommit_eq, Option.mem_def.mp hhead]
      rfl
  schema := by
    intro hne
    obtain ⟨hle, hlt⟩ := h.epoch a ha epoch hca
    exact ⟨hlt hne, hle.trans_eq hc.epoch.symm⟩

/-- A commit. -/
theorem append_committed {result : CommitResult}
    (hc : Commits e entry.index entry.attempt middle) (houtcome : entry.outcome = .applied result)
    (hresult : result = .committed entry.index entry.attempt.writes.length e'.catalog.schemaEpoch)
    (hindex : entry.index = e.lastApplied + 1) (hlast : e'.lastApplied = entry.index)
    (hcatalog : e'.catalog = middle.catalog)
    (hremembered : ∀ index attempt, Remembered middle index attempt → Remembered e' index attempt) :
    CommitsOk e' (entries ++ [entry]) := by
  have hlt : ∀ x ∈ entries, x.index < entry.index := fun x hx => by
    have := h.index_le x hx
    omega
  have hepoch : ∀ epoch, entry.Committed epoch → epoch = e'.catalog.schemaEpoch := by
    rintro epoch ⟨commit, rows, hrows⟩
    rw [houtcome, hresult] at hrows
    cases hrows
    rfl
  have hgrows : e.catalog.schemaEpoch ≤ e'.catalog.schemaEpoch :=
    hcatalog ▸ hc.mutates.grows.epoch
  constructor
  · intro x hx
    rcases List.mem_append.mp hx with hx | hx
    · exact hlast ▸ (hlt x hx).le
    · cases List.mem_singleton.mp hx
      exact hlast.ge
  · intro x hx commit rows epoch hcx
    rcases List.mem_append.mp hx with hx | hx
    · exact h.commit_eq x hx commit rows epoch hcx
    · cases List.mem_singleton.mp hx
      rw [houtcome, hresult] at hcx
      cases hcx
      rfl
  · intro x hx epoch hcx
    rcases List.mem_append.mp hx with hx | hx
    · exact hremembered _ _ (remembered_of_commits hc (hlt x hx).le (h.remembered x hx epoch hcx))
    · cases List.mem_singleton.mp hx
      exact hremembered _ _ (remembered_self hc)
  · intro x hx epoch hcx
    rcases List.mem_append.mp hx with hx | hx
    · exact ⟨(h.epoch x hx epoch hcx).1.trans hgrows, (h.epoch x hx epoch hcx).2⟩
    · cases List.mem_singleton.mp hx
      refine ⟨(hepoch epoch hcx).le, fun hne => ?_⟩
      rw [hepoch epoch hcx, hcatalog, hc.nextEpoch, if_neg hne, hc.epoch]
      exact Nat.lt_succ_self _
  · intro a ha b hb epoch epoch' hca hcb hab
    rcases List.mem_append.mp hb with hb | hb
    · rcases List.mem_append.mp ha with ha | ha
      · exact h.follows a ha b hb epoch epoch' hca hcb hab
      · cases List.mem_singleton.mp ha
        exact absurd hab (hlt b hb).asymm
    · cases List.mem_singleton.mp hb
      rcases List.mem_append.mp ha with ha | ha
      · exact follows_of_commits h hc ha hca
      · cases List.mem_singleton.mp ha
        exact absurd hab (Nat.lt_irrefl _)

theorem change (hchange : Change e added e') :
    CommitsOk e' (entries ++ added) := by
  cases hchange with
  | quiet same le =>
    rw [List.append_nil]
    exact h.keep le same.catalog fun _ _ => remembered_of_sameData same
  | duplicate _ outcome index last same | rejected _ outcome index last same =>
    refine append_uncommitted
      (h.keep (by omega) same.catalog fun _ _ => remembered_of_sameData same) last.ge ?_
    rintro epoch ⟨commit, rows, hrows⟩
    cases outcome.symm.trans hrows
  | aborted _ outcome index last same =>
    refine append_uncommitted (h.keep (by omega) same.catalog fun _ _ hr => ?_) last.ge ?_
    · exact remembered_of_sameData same hr
    · rintro epoch ⟨commit, rows, hrows⟩
      cases outcome.symm.trans hrows
  | committed _ outcome result_eq index last commits same =>
    exact append_committed h commits outcome result_eq index last same.catalog
      fun _ _ hr => remembered_of_sameData same hr
  | vacuumed floor vacuums =>
    rw [List.append_nil]
    exact h.keep vacuums.lastApplied.ge vacuums.catalog fun _ _ => remembered_of_vacuums vacuums

end CommitsOk

theorem commitsOk_of_reached [Sha256] {e : Engine} {entries : List Entry} (h : e.Reached entries) :
    CommitsOk e entries :=
  reached_induct CommitsOk.new CommitsOk.change h

/-- Of two attempts that committed, the later one read what the earlier one wrote to the keys they
share, and was prepared under the schema the earlier one left. -/
theorem first_committer_wins [Sha256] {e : Engine} {entries : List Entry} (h : e.Reached entries)
    {a b : Entry} (ha : a ∈ entries) (hb : b ∈ entries)
    {commitA rowsA epochA commitB rowsB epochB : Nat}
    (hcommitA : a.outcome = .applied (.committed commitA rowsA epochA))
    (hcommitB : b.outcome = .applied (.committed commitB rowsB epochB)) (hlt : commitA < commitB) :
    (∀ first ∈ a.attempt.writes, ∀ second ∈ b.attempt.writes, first.tableId = second.tableId →
      first.primaryKey = second.primaryKey → commitA ≤ b.attempt.readTs) ∧
    (a.attempt.catalogMutations ≠ [] →
      a.attempt.schemaEpoch < epochA ∧ epochA ≤ b.attempt.schemaEpoch) := by
  have hok := commitsOk_of_reached h
  have hA := hok.commit_eq a ha commitA rowsA epochA hcommitA
  have hB := hok.commit_eq b hb commitB rowsB epochB hcommitB
  have hfollows := hok.follows a ha b hb epochA epochB ⟨_, _, hcommitA⟩ ⟨_, _, hcommitB⟩
    (hA ▸ hB ▸ hlt)
  rw [hA]
  exact ⟨hfollows.writes, hfollows.schema⟩

/-- The second attempt of the sample run writes a key of the first and committed after it. -/
theorem first_committer_wins_sample : ∃ e a b, @Engine.Reached zeroHash e [a, b] ∧
    a.outcome = .applied (.committed 1 1 1) ∧ b.outcome = .applied (.committed 2 2 1) ∧
    (∀ first ∈ a.attempt.writes, ∀ second ∈ b.attempt.writes, first.tableId = second.tableId →
      first.primaryKey = second.primaryKey → 1 ≤ b.attempt.readTs) ∧
    (a.attempt.catalogMutations ≠ [] →
      a.attempt.schemaEpoch < 1 ∧ 1 ≤ b.attempt.schemaEpoch) := by
  let _ := zeroHash
  refine ⟨_, _, _, reached_sampleRun, rfl, rfl, ?_⟩
  exact first_committer_wins reached_sampleRun List.mem_cons_self
    (List.mem_cons_of_mem _ List.mem_cons_self) rfl rfl (by decide)

end AsterEngine
