import AsterDB.Models.Storage.Interpretation.Append
import AsterDB.Models.Storage.Native.Faults

/-!
# Files after I/O errors

Whatever fails, the WAL file reads as a log: every cut of a program leaves one,
and a failed append leaves a cut of the next one. What replay writes are images of
the groups it is given.
-/

namespace AsterStorage

open AsterRaft (Digest Sha256 u64Max)
open ByteString Crash WriteAheadLog

namespace Effect

/-- Effects on the data disk. -/
def OnDisk : Effect → Prop
  | .writePage _ _ | .syncDisk => True
  | .append _ | .syncWal | .truncate _ => False

/-- Effects that write no page but a superblock. -/
def KeepsPages : Effect → Prop
  | .writePage pageId _ => pageId < 2
  | _ => True

/-- Writing one of some images. -/
def WritesImage (images : List Page) (effect : Effect) : Prop :=
  ∃ image ∈ images, effect = .writePage image.id image.array

end Effect

section Effects

variable {α : Type} {m : Io α} {store : Store}

/-- Effects on the disk leave the log alone. -/
theorem wal_cut (h : Emits m store fun _ effect => effect.OnDisk) (count : Nat) :
    (m.cut store count).wal = store.wal := by
  induction count with
  | zero => rfl
  | succ count ih =>
    cases heffect : (m store).effects[count]? with
    | none =>
      have hle : (m store).effects.length ≤ count := List.getElem?_eq_none_iff.mp heffect
      rw [Program.cut, List.take_of_length_le (by omega)]
      rwa [Program.cut, List.take_of_length_le hle] at ih
    | some effect =>
      rw [Program.cut_succ heffect]
      have hdisk := h count effect heffect
      cases effect with
      | writePage pageId bytes => exact ih
      | syncDisk => exact ih
      | append bytes | syncWal | truncate length => cases hdisk

/-- A program that leaves the disk alone writes no page. -/
theorem emits_of_disk_cut (h : ∀ count, (m.cut store count).disk = store.disk) :
    Emits m store fun _ effect => effect.KeepsPages := by
  intro count effect heffect
  cases effect with
  | writePage pageId bytes =>
    -- a write would be pending
    have hnext := congrArg (fun disk => disk.pending.length) (h (count + 1))
    have hnow := congrArg (fun disk => disk.pending.length) (h count)
    rw [Program.cut_succ heffect] at hnext
    change ((m.cut store count).disk.pending ++ [(pageId, bytes)]).length = _ at hnext
    rw [List.length_append, List.length_singleton] at hnext
    omega
  | syncDisk | append bytes | syncWal | truncate length => trivial

theorem replayGroup_yields (images : List Page) (report : RecoveryReport) (store : Store) :
    Yields (replayGroup images report) store (fun _ effect => effect.WritesImage images)
      fun _ => True := by
  induction images generalizing report store with
  | nil => exact .pure trivial
  | cons image images ih =>
    have hrest : ∀ (report : RecoveryReport) (store : Store), Yields (replayGroup images report)
        store (fun _ effect => effect.WritesImage (image :: images)) fun _ => True :=
      fun report store => (ih report store).mono (fun _ _ ⟨other, hother, heq⟩ =>
        ⟨other, List.mem_cons_of_mem _ hother, heq⟩) fun _ h => h
    refine .query_bind fun current _ => ?_
    split
    · exact hrest _ _
    · exact .perform_bind ⟨image, List.mem_cons_self, rfl⟩ (hrest _ _)

theorem Effect.WritesImage.onDisk {images : List Page} {effect : Effect}
    (h : effect.WritesImage images) : effect.OnDisk := by
  obtain ⟨image, -, rfl⟩ := h
  trivial

/-- Publishing writes a slot, with the number of the last apply. -/
theorem publishSuperblock_yields (previous : Superblock) (appliedIndex : Nat) (stateHash : Digest)
    (checkpointLsn nextPageId : Nat) (rootDirectory : Option Nat) (store : Store) :
    Yields (publishSuperblock previous appliedIndex stateHash checkpointLsn nextPageId
      rootDirectory) store (fun _ effect => effect.OnDisk ∧ effect.KeepsPages)
      fun next => next.appliedIndex = appliedIndex := by
  unfold publishSuperblock
  split
  · exact .fail
  · refine .query_bind fun page hpage => ?_
    exact .perform_bind ⟨trivial, Superblock.id_of_encode hpage⟩
      (.perform_bind ⟨trivial, trivial⟩ (.pure rfl))

theorem writeSnapshotPages_yields (applyIndex : Nat) (pages : List Page) (store : Store) :
    Yields (DurablePager.writeSnapshotPages applyIndex pages) store
      (fun _ effect => effect.OnDisk) fun _ => True := by
  induction pages generalizing store with
  | nil => exact .pure trivial
  | cons page pages ih =>
    unfold DurablePager.writeSnapshotPages
    split
    · exact .fail
    · exact .query_bind fun _ _ => .perform_bind trivial (ih _)

theorem recoverGroups_yields (groups : List CommittedApply) (state : Superblock)
    (report : RecoveryReport) (store : Store) :
    Yields (recoverGroups groups state report) store (fun _ effect => effect.OnDisk ∧
        (effect.KeepsPages ∨ ∃ g ∈ groups, state.appliedIndex < g.applyIndex ∧
          effect.WritesImage g.pages)) fun result =>
      (∀ g ∈ groups, g.applyIndex ≤ u64Max) → state.appliedIndex ≤ u64Max →
        result.1.appliedIndex ≤ u64Max := by
  induction groups generalizing state report store with
  | nil => exact .pure fun _ hstate => hstate
  | cons group groups ih =>
    have hrest : ∀ (next : Superblock) (report : RecoveryReport) (store : Store),
        state.appliedIndex ≤ next.appliedIndex →
        (state.appliedIndex ≤ u64Max → group.applyIndex ≤ u64Max →
          next.appliedIndex ≤ u64Max) →
        Yields (recoverGroups groups next report) store (fun _ effect => effect.OnDisk ∧
          (effect.KeepsPages ∨ ∃ g ∈ group :: groups, state.appliedIndex < g.applyIndex ∧
            effect.WritesImage g.pages)) fun result =>
        (∀ g ∈ group :: groups, g.applyIndex ≤ u64Max) → state.appliedIndex ≤ u64Max →
          result.1.appliedIndex ≤ u64Max := by
      intro next report store hle hmax
      refine (ih next report store).mono (fun _ _ ⟨hdisk, h⟩ => ⟨hdisk, h.imp_right ?_⟩)
        fun _ h hgroups hstate => h (fun g hg => hgroups g (List.mem_cons_of_mem _ hg))
          (hmax hstate (hgroups group List.mem_cons_self))
      rintro ⟨g, hg, hlt, hwrites⟩
      exact ⟨g, List.mem_cons_of_mem _ hg, by omega, hwrites⟩
    unfold recoverGroups
    split
    · exact hrest _ _ _ le_rfl fun h _ => h
    rename_i hless
    split
    · split
      · exact .fail
      · exact hrest _ _ _ le_rfl fun h _ => h
    rename_i hne
    split
    · exact .fail
    refine .bind ((replayGroup_yields _ _ _).mono (fun _ _ h =>
      ⟨h.onDisk, .inr ⟨group, List.mem_cons_self, by omega, h⟩⟩) fun _ h => h) fun report _ _ => ?_
    refine .perform_bind ⟨trivial, .inl trivial⟩ ?_
    refine .bind ((publishSuperblock_yields ..).mono (fun _ _ h => ⟨h.1, .inl h.2⟩)
      fun _ h => h) fun next _ hindex => ?_
    exact hrest _ _ _ (by omega) fun _ h => hindex ▸ h

/-- A program that only touches the disk leaves the log as it was. -/
theorem spec_of_onDisk {P : Store → Effect → Prop} {Q : α → Prop} (h : Yields m store P Q)
    (hdisk : ∀ t effect, P t effect → effect.OnDisk) {C : WalFile → Prop} (hC : C store.wal) :
    Spec m store (fun t => C t.wal) (fun a _ => Q a) fun _ _ => True where
  crash count := by rwa [wal_cut (h.emits.mono hdisk) count]
  ok := h.ok
  error _ _ := trivial

end Effects

/-! ## Logs after any call -/

section Readable

variable [Sha256] {store : Store} {log : List Record}

/-- A WAL file that reads as some log. -/
def Readable (wal : WalFile) : Prop := ∃ log, Reads wal log

theorem readable_empty : Readable .empty :=
  ⟨[], LogOk.reads ⟨trivial, fun _ hrecord => (by cases hrecord), List.Pairwise.nil⟩ rfl⟩

variable {wal : WalFile}

theorem Readable.take {wal' : WalFile} (h : Readable wal) (count : Nat)
    (hbytes : wal'.bytes = wal.bytes.take count) : Readable wal' := by
  obtain ⟨log, hreads⟩ := h
  exact ⟨_, hreads.take hbytes⟩

variable {g : CommittedApply}

theorem NewGroup.reads {applyIndex : Nat} {stateHash : Digest} {nextPageId : Nat}
    {rootDirectory : Option Nat} {pages : List Page} (hlog : LogOk log)
    (h : NewGroup log applyIndex stateHash nextPageId rootDirectory pages g)
    (hall : ∀ last ∈ logGroups log, last.applyIndex < applyIndex)
    (hbytes : wal.bytes = logBytes log ++ framesBytes g.frames) :
    Reads wal (log ++ [.group g]) := by
  have hok : Record.Ok (.group g) := h.ok
  refine hlog.reads_append hok h.chain ?_ hbytes
  intro g' hg' last hlast
  cases hg'
  rw [h.applyIndex_eq]
  exact hall last hlast

theorem NewCheckpoint.reads {appliedIndex : Nat} {stateHash : Digest} {c : Checkpoint}
    (hlog : LogOk log) (h : NewCheckpoint log appliedIndex stateHash c)
    (hbytes : wal.bytes = logBytes log ++ framesBytes [c.frame]) :
    Reads wal (log ++ [.checkpoint c]) := by
  have hok : Record.Ok (.checkpoint c) := h.throughLsn
  exact hlog.reads_append hok h.chain (fun _ hg => by cases hg) hbytes

/-- Indices in a log are 64-bit values. -/
theorem LogOk.applyIndex_le (h : LogOk log) (hg : g ∈ logGroups log) : g.applyIndex ≤ u64Max := by
  have hframe : g.commitFrame ∈ logFrames log := List.mem_flatMap.mpr
    ⟨.group g, mem_logGroups.mp hg, List.mem_append_right _ (List.mem_singleton_self _)⟩
  exact h.chain.applyIndex hframe

/-- A group of the log that is durable. -/
def Durable (wal : WalFile) (g : CommittedApply) : Prop :=
  ∃ scan, scanBytes wal.bytes = .ok scan ∧ g ∈ scan.groups ∧ g.endLsn ≤ wal.synced

theorem Reads.durable (h : Reads wal log)
    (hg : g ∈ logGroups log) (hend : g.endLsn ≤ wal.synced) : Durable wal g := by
  obtain ⟨scan, hscan, hgroups, -⟩ := h.isScan
  exact ⟨scan, hscan, hgroups ▸ hg, hend⟩

/-- What was durable of a log stays so. -/
theorem Retains.durable {wal' : WalFile} (h : Retains log wal wal')
    (hg : g ∈ logGroups log) (hend : g.endLsn ≤ wal.synced) : Durable wal' g := by
  have hle : g.endLsn ≤ (logBytes log).length :=
    (Record.endLsn_le h.reads.logOk.chain (mem_logGroups.mp hg)).2
  have hsynced := h.synced
  exact h.reads.durable hg (by omega)

section Append

variable {applyIndex : Nat} {stateHash : Digest} {nextPageId : Nat} {rootDirectory : Option Nat}
  {pages : List Page}

/-- An append touches the log only, and returns a durable group unless the log had one at this
index that is not. -/
theorem appendApplyWithMetadata_durable (h : Reads store.wal log) (hmax : applyIndex ≤ u64Max)
    (hnextMax : nextPageId ≤ u64Max) :
    Spec (appendApplyWithMetadata applyIndex stateHash nextPageId rootDirectory pages) store
      (fun t => t.disk = store.disk ∧ Readable t.wal)
      (fun g t => (∀ other ∈ logGroups log, other.applyIndex = applyIndex →
        other.endLsn ≤ store.wal.synced) → Durable t.wal g)
      fun _ _ => True := by
  refine (appendApplyWithMetadata_spec h hmax hnextMax (fun wal hretains => ?_)
    (fun g wal hnew hall hbytes _ => ?_) fun _ _ _ _ => trivial).imp ?_
  · exact ⟨rfl, log, hretains.reads⟩
  · exact ⟨rfl, _, hnew.reads h.logOk hall hbytes⟩
  · rintro g _ ⟨wal, rfl, ⟨hmem, hindex, hretains⟩ | ⟨hnew, hall, hbytes, hsynced⟩⟩ hdurable
    · exact hretains.durable hmem (hdurable g hmem hindex)
    · have hreads := hnew.reads h.logOk hall hbytes
      have hmem : Record.group g ∈ log ++ [.group g] := by simp
      refine hreads.durable (mem_logGroups.mpr hmem) ?_
      have hle := (Record.endLsn_le hreads.logOk.chain hmem).2
      rw [hsynced, hbytes]
      simpa [Record.endLsn, logBytes, logFrames, Record.frames] using hle

theorem appendCheckpoint_readable {throughLsn appliedIndex : Nat} (h : Reads store.wal log)
    (hmax : appliedIndex ≤ u64Max) :
    Spec (appendCheckpoint throughLsn appliedIndex stateHash) store
      (fun t => Readable t.wal) (fun _ _ => True) fun _ _ => True := by
  refine (appendCheckpoint_spec h hmax (fun wal hretains => ?_)
    (fun c wal hnew _ hbytes _ => ?_) fun _ _ _ _ => trivial).imp fun _ _ _ => trivial
  · exact ⟨log, hretains.reads⟩
  · exact ⟨_, hnew.reads h.logOk hbytes⟩

variable (state : Superblock)

omit [Sha256] in
/-- What an apply does once its group is in the log. -/
theorem redo_yields (group : CommittedApply) (store : Store) :
    Yields (do
      let _ ← replayGroup group.pages {}
      Io.syncDisk
      let state ← publishSuperblock state applyIndex stateHash 0 nextPageId rootDirectory
      return (state, group)) store (fun _ effect =>
        effect.OnDisk ∧ (effect.KeepsPages ∨ effect.WritesImage group.pages))
      fun result => result.1.appliedIndex = applyIndex := by
  refine .bind ((replayGroup_yields _ _ _).mono (fun _ _ h => ⟨h.onDisk, .inr h⟩) fun _ h => h)
    fun _ _ _ => ?_
  refine .perform_bind ⟨trivial, .inl trivial⟩ (.bind ?_ fun _ _ hindex => .pure hindex)
  exact (publishSuperblock_yields ..).mono (fun _ _ h => ⟨h.1, .inl h.2⟩) fun _ h => h

theorem apply_readable {state : Superblock} (h : Readable store.wal)
    (hstate : state.appliedIndex ≤ u64Max) (hmax : applyIndex ≤ u64Max)
    (hnextMax : nextPageId ≤ u64Max) :
    Spec (DurablePager.apply state applyIndex stateHash pages nextPageId rootDirectory) store
      (fun t => Readable t.wal) (fun result _ => result.1.appliedIndex ≤ u64Max)
      fun _ _ => True := by
  obtain ⟨log, hreads⟩ := h
  unfold DurablePager.apply
  split
  · exact .fail ⟨log, hreads⟩ trivial
  split
  · split
    · exact .fail ⟨log, hreads⟩ trivial
    · refine scan_bind hreads fun scan _ => ?_
      split
      · exact .fail ⟨log, hreads⟩ trivial
      · exact .pure ⟨log, hreads⟩ hstate
  split
  · exact .fail ⟨log, hreads⟩ trivial
  split
  · exact .fail ⟨log, hreads⟩ trivial
  refine .bind (((appendApplyWithMetadata_durable hreads hmax hnextMax).keep).mono
    (fun _ hC => hC.2) (fun _ _ hQ => hQ.1.2) fun _ _ he => he) fun group t ht => ?_
  exact (spec_of_onDisk (redo_yields state group t) (fun _ _ h => h.1) ht).imp
    fun _ _ hindex => hindex.trans_le hmax

omit [Sha256] in
theorem installSnapshot_yields (rootDirectory : Nat) (store : Store) :
    Yields (DurablePager.installSnapshot state applyIndex stateHash pages nextPageId rootDirectory)
      store (fun _ effect => effect.OnDisk) fun next =>
        state.appliedIndex ≤ u64Max → applyIndex ≤ u64Max → next.appliedIndex ≤ u64Max := by
  unfold DurablePager.installSnapshot
  split
  · split
    · exact .fail
    · exact .pure fun hstate _ => hstate
  split
  · exact .fail
  split
  · exact .fail
  dsimp only
  split
  · exact .fail
  refine .bind (writeSnapshotPages_yields _ _ _) fun _ _ _ => .perform_bind trivial ?_
  exact (publishSuperblock_yields ..).mono (fun _ _ h => h.1)
    fun _ hindex _ hmax => hindex.trans_le hmax

end Append

theorem checkpoint_readable {state : Superblock} (h : Readable store.wal)
    (hstate : state.appliedIndex ≤ u64Max) :
    Spec (DurablePager.checkpoint state) store (fun t => Readable t.wal)
      (fun result _ => result.1.appliedIndex ≤ u64Max) fun _ _ => True := by
  obtain ⟨log, hreads⟩ := h
  have hsynced : Reads (Device.perform store Effect.syncDisk).wal log := hreads
  refine .perform_bind ⟨log, hreads⟩ (scan_bind hsynced fun scan _ => ?_)
  refine .bind (appendCheckpoint_readable hsynced hstate).keep fun marker t ht => ?_
  exact .bind_pure (spec_of_onDisk (publishSuperblock_yields ..) (fun _ _ h => h.1)
    ht.1) fun next _ hindex => hindex.trans_le hstate

/-- Calls leave a readable log and a 64-bit index. -/
theorem Operation.run_readable {state : Superblock} {operation : Operation}
    (hfits : operation.fits = true) (h : Readable store.wal)
    (hstate : state.appliedIndex ≤ u64Max) :
    Spec (operation.run state) store (fun t => Readable t.wal)
      (fun next _ => next.appliedIndex ≤ u64Max) fun _ _ => True := by
  cases operation with
  | apply applyIndex stateHash pages nextPageId rootDirectory =>
    simp only [Operation.fits, Bool.and_eq_true, decide_eq_true_eq] at hfits
    exact .bind_pure (f := Prod.fst) (apply_readable h hstate hfits.1.1 hfits.1.2)
      fun _ _ hindex => hindex
  | installSnapshot applyIndex stateHash pages nextPageId rootDirectory =>
    simp only [Operation.fits, Bool.and_eq_true, decide_eq_true_eq] at hfits
    exact (spec_of_onDisk (installSnapshot_yields _ _ _) (fun _ _ h => h) h).imp
      fun _ _ hindex => hindex hstate hfits.1.1
  | checkpoint =>
    exact .bind_pure (f := Prod.fst) (checkpoint_readable h hstate) fun _ _ hindex => hindex

/-- Opening the log makes nothing durable. -/
theorem openLog_readable (h : Reads store.wal log) :
    Spec openLog store
      (fun t => t.disk = store.disk ∧ Readable t.wal ∧ t.wal.synced ≤ store.wal.synced)
      (fun _ t => t.disk = store.disk ∧ Retains log store.wal t.wal) fun _ _ => True := by
  exact scanAndTruncate_bind h
    (fun wal hretains => ⟨rfl, ⟨log, hretains.reads⟩, hretains.synced_le⟩)
    fun _ wal _ _ hretains => .pure ⟨rfl, ⟨log, hretains.reads⟩, hretains.synced_le⟩ ⟨rfl, hretains⟩

/-- What an open writes: slots, and images of groups beyond the superblock it found. -/
def OpenWrites (store : Store) (scan : WalScan) (effect : Effect) : Prop :=
  effect.KeepsPages ∨ ∃ found g, readSuperblock store.disk = .ok found ∧ g ∈ scan.groups ∧
    (found.getD .genesis).appliedIndex < g.applyIndex ∧ effect.WritesImage g.pages

/-- An open scans the log and then only touches the disk. -/
theorem openPager_parts : ∃ rest : WalScan → Io (Superblock × RecoveryReport),
    (DurablePager.openPager = do
      openLog
      let scan ← WriteAheadLog.scan
      rest scan) ∧
    ∀ scan store, Yields (rest scan) store (fun _ effect =>
      effect.OnDisk ∧ OpenWrites store scan effect) fun result =>
        (∀ g ∈ scan.groups, g.applyIndex ≤ u64Max) → result.1.appliedIndex ≤ u64Max := by
  refine ⟨_, rfl, fun scan store => ?_⟩
  refine .query_bind fun found hfound => .bind (Q := fun result =>
    (∀ g ∈ scan.groups, g.applyIndex ≤ u64Max) → result.1.appliedIndex ≤ u64Max) ?_
      fun result _ hresult => ?_
  · refine .query_bind fun found' hfound' => .query_bind fun _ _ => ?_
    refine (recoverGroups_yields _ _ _ _).mono (fun _ _ ⟨hdisk, h⟩ => ⟨hdisk, h.imp_right ?_⟩)
      fun _ hmax hgroups => hmax hgroups ?_
    · rintro ⟨g, hg, hlt, hwrites⟩
      exact ⟨found', g, hfound', hg, hlt, hwrites⟩
    · cases found' with
      | none => decide
      | some sb => exact appliedIndex_readSuperblock hfound'
  · dsimp only
    split
    · exact .pure hresult
    · refine .query_bind fun first hfirst => ?_
      refine .perform_bind ⟨trivial, .inl (Superblock.id_of_encode hfirst)⟩ ?_
      refine .perform_bind ⟨trivial, .inl trivial⟩ (.bind ((publishSuperblock_yields ..).mono
        (fun _ _ h => ⟨h.1, .inl h.2⟩) fun _ h => h) fun _ _ hindex => ?_)
      exact .pure fun hgroups => hindex.trans_le (hresult hgroups)

theorem openPager_readable (h : Readable store.wal) :
    Spec DurablePager.openPager store
      (fun t => Readable t.wal ∧ t.wal.synced ≤ store.wal.synced)
      (fun result _ => result.1.appliedIndex ≤ u64Max) fun _ _ => True := by
  obtain ⟨log, hreads⟩ := h
  obtain ⟨rest, hrest, hyields⟩ := openPager_parts
  rw [hrest]
  refine .bind ((openLog_readable hreads).mono (fun _ hC => hC.2) (fun _ _ hQ => hQ)
    fun _ _ he => he) ?_
  rintro _ t ⟨-, hretains⟩
  refine scan_bind hretains.reads fun scan hscan => ?_
  refine (spec_of_onDisk (hyields scan t) (fun _ _ h => h.1)
    (C := fun wal => Readable wal ∧ wal.synced ≤ store.wal.synced)
    ⟨⟨log, hretains.reads⟩, hretains.synced_le⟩).imp fun _ _ hindex => hindex fun g hg => ?_
  exact hretains.reads.logOk.applyIndex_le (hscan.1 ▸ hg)

theorem LogRequest.run_readable {request : LogRequest} (hfits : request.fits = true)
    (h : Readable store.wal) : Spec request.run store (fun t => Readable t.wal)
      (fun _ _ => True) fun _ _ => True := by
  obtain ⟨log, hreads⟩ := h
  cases request with
  | openLog =>
    exact (openLog_readable hreads).mono (fun _ hC => hC.2.1) (fun _ _ _ => trivial)
      fun _ _ he => he
  | appendApplyWithMetadata applyIndex stateHash nextPageId rootDirectory pages =>
    simp only [LogRequest.fits, Bool.and_eq_true, decide_eq_true_eq] at hfits
    exact .bind_pure (f := fun _ => ()) ((appendApplyWithMetadata_durable hreads hfits.1.1
      hfits.1.2).mono (fun _ hC => hC.2) (fun _ _ _ => trivial) fun _ _ he => he)
      fun _ _ _ => trivial
  | appendCheckpoint throughLsn appliedIndex stateHash =>
    simp only [LogRequest.fits, Bool.and_eq_true, decide_eq_true_eq] at hfits
    exact .bind_pure (f := fun _ => ()) (appendCheckpoint_readable hreads hfits.2)
      fun _ _ _ => trivial
  | flushThrough => exact .perform ⟨log, hreads⟩ ⟨log, hreads.logOk, hreads.tail⟩ trivial

end Readable

end AsterStorage
