import AsterDB.Models.Storage.Interpretation.Append

/-!
# Logs cut at any byte

Whatever was appended to a log, and wherever the log is cut, a scan finds the groups and
checkpoints that are complete before the cut and nothing else. The log can be opened again
there and continued, and an index that is taken stays taken.
-/

namespace AsterStorage

open AsterRaft (Digest Sha256 u64Max zeroHash)
open ByteString Crash WriteAheadLog

section

variable [Sha256]

/-- A store after successful appends to an empty log, with cuts and reopens in between, and the
groups and checkpoints that were appended and not cut off. -/
inductive Logged : Store → List Record → Prop
  | empty : Logged .empty []
  | apply {store : Store} {log : List Record} {applyIndex : Nat} {stateHash : Digest}
      {nextPageId : Nat} {rootDirectory : Option Nat} {pages : List Page} {g : CommittedApply}
      (h : Logged store log) (hindex : applyIndex ≤ u64Max) (hnext : nextPageId ≤ u64Max)
      (hresult : (appendApplyWithMetadata applyIndex stateHash nextPageId rootDirectory pages
        store).result = .ok g) :
      Logged ((appendApplyWithMetadata applyIndex stateHash nextPageId rootDirectory pages).final
        store) (if g ∈ logGroups log then log else log ++ [.group g])
  | checkpoint {store : Store} {log : List Record} {throughLsn appliedIndex : Nat}
      {stateHash : Digest} {c : Checkpoint} (h : Logged store log) (hindex : appliedIndex ≤ u64Max)
      (hresult : (appendCheckpoint throughLsn appliedIndex stateHash store).result = .ok c) :
      Logged ((appendCheckpoint throughLsn appliedIndex stateHash).final store)
        (log ++ [.checkpoint c])
  | reopen {store : Store} {log : List Record} (h : Logged store log) (cut : Nat) :
      Logged (openLog.final { store with wal := store.wal.truncate cut }) (logUpTo log cut)

variable {store : Store} {log : List Record}

/-- The log holds its records and nothing else. -/
structure Holds (store : Store) (log : List Record) : Prop where
  logOk : LogOk log
  bytes : store.wal.bytes = logBytes log

theorem Holds.reads (h : Holds store log) : Reads store.wal log :=
  ⟨h.logOk, [], tail_nil _, by simpa using h.bytes⟩

/-- A scan of a log without a tail changes nothing. -/
theorem Holds.scanAndTruncate_bind (h : Holds store log) :
    ∃ scan, IsScan log scan ∧ ∀ {α : Type} (k : WalScan → Io α),
      (scanAndTruncate >>= k) store = k scan store := by
  obtain ⟨scan, hscan, hisScan⟩ := h.reads.isScan
  refine ⟨scan, hisScan, fun k => ?_⟩
  have hlength : ¬store.wal.bytes.length ≠ scan.safeAppendOffset := by
    rw [h.bytes, hisScan.2.2]
    exact not_not.mpr rfl
  have hbytes : Io.walReadAll store = { effects := [], result := .ok store.wal.bytes } := rfl
  have hlen : Io.walLen store = { effects := [], result := .ok store.wal.bytes.length } := rfl
  have hread : WriteAheadLog.scan store = { effects := [], result := .ok scan } :=
    (Program.bind_of_quiet hbytes _).trans (congrArg (Outcome.mk []) hscan)
  have hquiet : scanAndTruncate store = { effects := [], result := .ok scan } := by
    unfold scanAndTruncate
    rw [Program.bind_of_quiet hread, Program.bind_of_quiet hlen, if_neg hlength]
    rfl
  exact Program.bind_of_quiet hquiet k

section Apply

variable {applyIndex : Nat} {stateHash : Digest} {nextPageId : Nat} {rootDirectory : Option Nat}
  {pages : List Page}

variable {g : CommittedApply}

/-- An index is found at its group. -/
theorem LogOk.find?_eq (h : LogOk log) (hg : g ∈ logGroups log) :
    (logGroups log).find? (fun group => group.applyIndex = g.applyIndex) = some g := by
  obtain ⟨before, after, hgroups⟩ := List.append_of_mem hg
  have hascending := h.ascending
  rw [hgroups] at hascending ⊢
  refine List.find?_eq_some_iff_append.mpr ⟨by simp, before, after, rfl, fun other hother => ?_⟩
  have hlt := (List.pairwise_append.mp hascending).2.2 other hother g List.mem_cons_self
  simpa using hlt.ne

/-- An index that is taken is answered from the log. -/
theorem Holds.append_taken (h : Holds store log) (hg : g ∈ logGroups log) :
    appendApplyWithMetadata g.applyIndex stateHash nextPageId rootDirectory pages store = {
        effects := []
        result := if g.stateHash = stateHash then .ok g else .error (.invariant
          s!"Raft apply index {g.applyIndex} already committed with a different state hash") } := by
  unfold appendApplyWithMetadata
  obtain ⟨scan, hscan, hrun⟩ := h.scanAndTruncate_bind
  rw [hrun, hscan.1, h.logOk.find?_eq hg]
  dsimp only
  split <;> rfl

/-- An index below the last one that is not taken is refused. -/
theorem Holds.append_below (h : Holds store log)
    (hfree : ∀ g ∈ logGroups log, g.applyIndex ≠ applyIndex) {last : CommittedApply}
    (hlast : (logGroups log).getLast? = some last) (hlt : applyIndex < last.applyIndex) :
    appendApplyWithMetadata applyIndex stateHash nextPageId rootDirectory pages store =
      { effects := []
        result := .error (.invariant
          s!"apply index {applyIndex} does not advance committed index {last.applyIndex}") } := by
  have hfind : (logGroups log).find? (fun group => group.applyIndex = applyIndex) = none := by
    simpa using hfree
  have hbelow :
      (logGroups log).getLast?.filter (fun last => decide (applyIndex ≤ last.applyIndex)) =
      some last := by
    rw [hlast, Option.filter_some, if_pos (decide_eq_true hlt.le)]
  unfold appendApplyWithMetadata
  obtain ⟨scan, hscan, hrun⟩ := h.scanAndTruncate_bind
  rw [hrun, hscan.1, hfind]
  rw [hbelow]
  rfl

section

variable (h : Holds store log) (hindex : applyIndex ≤ u64Max) (hnext : nextPageId ≤ u64Max)
  (hresult : (appendApplyWithMetadata applyIndex stateHash nextPageId rootDirectory pages
    store).result = .ok g)
include h hindex hnext hresult

/-- An append returns a group of the log or appends a new one. -/
theorem Holds.append_cases : (g ∈ logGroups log ∧ g.applyIndex = applyIndex) ∨
    NewGroup log applyIndex stateHash nextPageId rootDirectory pages g ∧
      (∀ last ∈ logGroups log, last.applyIndex < applyIndex) ∧
      ((appendApplyWithMetadata applyIndex stateHash nextPageId rootDirectory pages).final
        store).wal.bytes = logBytes log ++ framesBytes g.frames := by
  have hspec : Spec (appendApplyWithMetadata applyIndex stateHash nextPageId rootDirectory pages)
      store (fun _ => True) _ fun _ _ => True :=
    appendApplyWithMetadata_spec h.reads hindex hnext (fun _ _ => trivial)
      (fun _ _ _ _ _ _ => trivial) fun _ _ _ _ => trivial
  obtain ⟨wal, hfinal, ⟨hmem, hsame, -⟩ | ⟨hnew, hall, hbytes, -⟩⟩ := hspec.ok g hresult
  · exact .inl ⟨hmem, hsame⟩
  · exact .inr ⟨hnew, hall, hfinal ▸ hbytes⟩

theorem Holds.apply :
    Holds
      ((appendApplyWithMetadata applyIndex stateHash nextPageId rootDirectory pages).final store)
      (if g ∈ logGroups log then log else log ++ [.group g]) := by
  rcases h.append_cases hindex hnext hresult with ⟨hmem, rfl⟩ | ⟨hnew, hall, hbytes⟩
  · rw [if_pos hmem, Program.final, h.append_taken hmem]
    exact h
  · have hfresh : g ∉ logGroups log := fun hmem =>
      absurd (hall g hmem) (by rw [hnew.applyIndex_eq]; exact lt_irrefl _)
    rw [if_neg hfresh]
    refine ⟨h.logOk.append hnew.ok hnew.chain ?_, ?_⟩
    · rintro _ ⟨⟩ last hlast
      rw [hnew.applyIndex_eq]
      exact hall last hlast
    · simpa [logBytes, logFrames, Record.frames] using hbytes

end

omit [Sha256] in
theorem forall₂_stampAll (applyIndex : Nat) (pages : List Page) (offset : Nat) :
    List.Forall₂ (fun page image => ∃ lsn, image = stampPage page lsn applyIndex) pages
      (stampAll applyIndex pages offset) := by
  induction pages generalizing offset with
  | nil => exact .nil
  | cons page pages ih => exact .cons ⟨offset, (Page.stampPage_eq ..).symm⟩ (ih _)

end Apply

theorem Holds.checkpoint {throughLsn appliedIndex : Nat} {stateHash : Digest} {c : Checkpoint}
    (h : Holds store log) (hindex : appliedIndex ≤ u64Max)
    (hresult : (appendCheckpoint throughLsn appliedIndex stateHash store).result = .ok c) :
    Holds ((appendCheckpoint throughLsn appliedIndex stateHash).final store)
      (log ++ [.checkpoint c]) := by
  have hspec : Spec (appendCheckpoint throughLsn appliedIndex stateHash) store (fun _ => True) _
      fun _ _ => True :=
    appendCheckpoint_spec h.reads hindex (fun _ _ => trivial) (fun _ _ _ _ _ _ => trivial)
      fun _ _ _ _ => trivial
  obtain ⟨hnew, -, wal, hfinal, hbytes, -⟩ := hspec.ok c hresult
  rw [hfinal]
  refine ⟨h.logOk.append hnew.throughLsn hnew.chain ?_, ?_⟩
  · rintro _ ⟨⟩
  · simpa [logBytes, logFrames, Record.frames] using hbytes

/-- Opening a cut log keeps the records that are complete. -/
theorem Holds.reopen (h : Holds store log) (cut : Nat) :
    (openLog { store with wal := store.wal.truncate cut }).result = .ok () ∧
      Holds (openLog.final { store with wal := store.wal.truncate cut }) (logUpTo log cut) := by
  have hreads : Reads (store.wal.truncate cut) (logUpTo log cut) := h.reads.take rfl
  have hspec : Spec scanAndTruncate { store with wal := store.wal.truncate cut } (fun _ => True) _
      fun _ _ => False := scanAndTruncate_spec hreads fun _ _ => trivial
  have hopen : Spec openLog { store with wal := store.wal.truncate cut } (fun _ => True)
      (fun _ store' => Holds store' (logUpTo log cut)) fun _ _ => False := by
    refine hspec.bind_pure ?_
    rintro scan _ ⟨wal, rfl, -, hbytes, -⟩
    exact ⟨hreads.logOk, hbytes⟩
  obtain ⟨_, hresult, hholds⟩ := hopen.exists_ok fun _ => not_false
  exact ⟨hresult, hholds⟩

theorem Logged.holds (h : Logged store log) : Holds store log := by
  induction h with
  | empty => exact ⟨⟨trivial, by simp, .nil⟩, rfl⟩
  | apply _ hindex hnext hresult ih => exact ih.apply hindex hnext hresult
  | checkpoint _ hindex hresult ih => exact ih.checkpoint hindex hresult
  | reopen _ cut ih => exact (ih.reopen cut).2

/-- Cut anywhere, a log scans to what is complete before the cut and can be opened. An index that
is taken is answered from the log or refused, an index below the last one is refused, and neither
touches the log; a new group holds what it was appended with. -/
theorem cut_log (h : Logged store log) :
    (∀ cut, (∃ torn, scanBytes (store.wal.bytes.take cut) = .ok {
        groups := logGroups (logUpTo log cut)
        checkpoints := logCheckpoints (logUpTo log cut)
        safeAppendOffset := ((logUpTo log cut).getLast?.map Record.endLsn).getD 0
        tornTailAt := torn }) ∧
      (openLog { store with wal := store.wal.truncate cut }).result = .ok ()) ∧
    ∀ (applyIndex : Nat) (stateHash : Digest) (nextPageId : Nat) (rootDirectory : Option Nat)
        (pages : List Page),
      (∀ g ∈ logGroups log, g.applyIndex = applyIndex →
        appendApplyWithMetadata applyIndex stateHash nextPageId rootDirectory pages store =
          { effects := []
            result := if g.stateHash = stateHash then .ok g else .error (.invariant
              s!"Raft apply index {applyIndex} already committed with a different state hash") }) ∧
      (∀ last ∈ (logGroups log).getLast?, applyIndex < last.applyIndex →
        (∀ g ∈ logGroups log, g.applyIndex ≠ applyIndex) →
        appendApplyWithMetadata applyIndex stateHash nextPageId rootDirectory pages store =
          { effects := []
            result := .error (.invariant
              s!"apply index {applyIndex} does not advance committed index {last.applyIndex}") }) ∧
      (applyIndex ≤ u64Max → nextPageId ≤ u64Max → ∀ g,
        (appendApplyWithMetadata applyIndex stateHash nextPageId rootDirectory pages store).result =
          .ok g → g ∉ logGroups log →
        g.applyIndex = applyIndex ∧ g.stateHash = stateHash ∧ g.nextPageId = nextPageId ∧
          g.rootDirectory = rootDirectory ∧ ∃ sorted, sorted.Perm pages ∧
            List.Forall₂ (fun page image => ∃ lsn, image = stampPage page lsn applyIndex) sorted
              g.pages) := by
  have hholds := h.holds
  refine ⟨fun cut => ⟨?_, (hholds.reopen cut).1⟩,
    fun applyIndex stateHash nextPageId rootDirectory pages => ⟨?_, ?_, ?_⟩⟩
  · have hreads : Reads (store.wal.truncate cut) (logUpTo log cut) := hholds.reads.take rfl
    rw [← length_logBytes hreads.logOk.chain]
    exact hreads.scan
  · rintro g hg rfl
    exact hholds.append_taken hg
  · intro last hlast hlt hfree
    exact hholds.append_below hfree hlast hlt
  · intro hindex hnext g hresult hnew
    obtain ⟨hgroup, -⟩ := (hholds.append_cases hindex hnext hresult).resolve_left (hnew ·.1)
    obtain ⟨sorted, hperm, rfl⟩ := hgroup.eq
    exact ⟨rfl, rfl, rfl, rfl, sorted, hperm, forall₂_stampAll ..⟩

end

theorem exists_of_toOption {ε α : Type} {result : Except ε α} {f : α → Nat} {n : Nat}
    (h : result.toOption.map f = some n) : ∃ a, result = .ok a ∧ f a = n := by
  cases result with
  | error e => cases h
  | ok a => exact ⟨a, rfl, Option.some.inj h⟩

/-- A group and a checkpoint, cut inside the checkpoint. -/
theorem cut_log_checkpoint : ∃ store g c, @Logged zeroHash store [.group g, .checkpoint c] ∧
    ∃ torn, @scanBytes zeroHash (store.wal.bytes.take 180) = .ok {
      groups := [g]
      checkpoints := []
      safeAppendOffset := 164
      tornTailAt := torn } := by
  let _ := zeroHash
  obtain ⟨g, hg, hgEnd⟩ := exists_of_toOption (show ((appendApplyWithMetadata 1
    (Vector.replicate 32 0) 2 none [] .empty).result.toOption.map (·.endLsn)) = some 164 by
      decide)
  obtain ⟨c, hc, hcEnd⟩ := exists_of_toOption (show ((appendCheckpoint 164 1
    (Vector.replicate 32 0) ((appendApplyWithMetadata 1 (Vector.replicate 32 0) 2 none []).final
      .empty)).result.toOption.map (·.endLsn)) = some 252 by decide +kernel)
  have hlogged := (Logged.empty.apply (by decide) (by decide) hg).checkpoint (by decide) hc
  obtain ⟨⟨torn, hscan⟩, -⟩ := (cut_log hlogged).1 180
  have hupTo : logUpTo [.group g, .checkpoint c] 180 = [.group g] := by
    simp [logUpTo, Record.endLsn, hgEnd, hcEnd]
  refine ⟨_, g, c, hlogged, torn, hscan.trans ?_⟩
  have hlog : (if g ∈ logGroups [] then [] else [] ++ [.group g]) ++ [.checkpoint c] =
    [Record.group g, .checkpoint c] := rfl
  rw [hlog, hupTo]
  simp [Record.endLsn, hgEnd]

end AsterStorage
