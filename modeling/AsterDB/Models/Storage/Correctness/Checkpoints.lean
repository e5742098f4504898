import AsterDB.Models.Storage.Correctness.Reopening

/-!
# Checkpoints

A checkpoint is refused if the last group of the log is not the one that led to the
published state, as after a snapshot was installed. Otherwise it succeeds, while there
is a generation and room for the marker, and leaves the database as it was.
-/

namespace AsterStorage

open AsterRaft (Digest Sha256 u64Max zeroHash)
open Crash

/-- The database as readers see it: its superblock up to the checkpoint, and its pages. -/
structure SameDatabase (sb : Superblock) (disk : Disk) (next : Superblock) (disk' : Disk) :
    Prop where
  appliedIndex : next.appliedIndex = sb.appliedIndex
  stateHash : next.stateHash = sb.stateHash
  nextPageId : next.nextPageId = sb.nextPageId
  rootDirectory : next.rootDirectory = sb.rootDirectory
  pages : ∀ id, 2 ≤ id → disk'.pages id = disk.pages id

variable {store : Store} {sb : Superblock}

/-- Publishing writes no page of the database. -/
theorem publishSuperblock_frame {appliedIndex : Nat}
    {stateHash : Digest} {checkpointLsn nextPageId : Nat} {rootDirectory : Option Nat} :
    Spec (publishSuperblock sb appliedIndex stateHash checkpointLsn nextPageId rootDirectory) store
      (fun _ => True)
      (fun next store' => sb.generation < u64Max ∧ next.appliedIndex = appliedIndex ∧
        next.stateHash = stateHash ∧ next.nextPageId = nextPageId ∧
        next.rootDirectory = rootDirectory ∧
        ∀ id, 2 ≤ id → store'.disk.pages id = store.disk.pages id)
      (fun _ _ => True) := by
  unfold publishSuperblock
  split
  · exact .fail trivial trivial
  rename_i hgeneration
  refine .bind (Q := fun page store' => page.id < 2 ∧ store' = store)
    (.query trivial (fun page hpage => ⟨Superblock.id_of_encode hpage, rfl⟩) fun _ _ => trivial) ?_
  rintro page store' ⟨hpage, hstore⟩
  subst hstore
  refine .perform_bind trivial (.perform_bind trivial (.pure trivial ?_))
  refine ⟨by omega, rfl, rfl, rfl, rfl, fun id hid => ?_⟩
  change (store'.disk.writePage page.id page.array).pages id = _
  rw [Disk.pages_writePage, Function.update_of_ne (by omega)]

section Pager

variable [Sha256]

/-- The last group of the log led to the published state, and there is a generation and room for
a marker. -/
def checkpointFits (store : Store) (sb : Superblock) : Bool :=
  match scanBytes store.wal.bytes with
  | .ok scan =>
    (scan.groups.getLast?.all fun group =>
      decide (group.applyIndex = sb.appliedIndex ∧ group.stateHash = sb.stateHash)) &&
      decide (scan.safeAppendOffset + 88 ≤ u64Max) && decide (sb.generation < u64Max)
  | .error _ => false

section Checkpoint

variable {v : Version} {log : List Record} {pending : Option CommittedApply}
  {old written : Page → Prop}

section

variable (h : Sound store sb v log pending old written)
include h

theorem checkpointFits_iff :
    checkpointFits store sb = true ↔ EndsIn (fullLog log pending) sb.appliedIndex sb.stateHash ∧
      (logBytes (fullLog log pending)).length + 88 ≤ u64Max ∧ sb.generation < u64Max := by
  obtain ⟨scan, hscan, hgroups, -, hoffset⟩ := h.reads.isScan
  unfold checkpointFits EndsIn
  rw [hscan]
  simp only [hgroups, hoffset, Bool.and_eq_true, decide_eq_true_eq, and_assoc]
  refine and_congr_left fun _ => ?_
  cases (logGroups (fullLog log pending)).getLast? <;> simp

/-- What is known of a checkpoint that succeeded. -/
theorem checkpoint_frame :
    Spec (DurablePager.checkpoint sb) store (fun _ => True)
      (fun result store' => result.2.appliedIndex = sb.appliedIndex ∧
        result.2.stateHash = sb.stateHash ∧ SameDatabase sb store.disk result.1 store'.disk ∧
        checkpointFits store sb = true) (fun _ _ => True) := by
  refine .perform_bind trivial ?_
  have hsync := h.syncDisk
  refine scan_bind hsync.reads fun scan _ => ?_
  refine .bind (appendCheckpoint_spec hsync.reads h.slots.fits.appliedIndex (fun _ _ => trivial)
    (fun _ _ _ _ _ _ => trivial) fun _ _ _ _ => trivial) ?_
  rintro marker _ ⟨hnew, hlast, wal, rfl, -, -⟩
  refine .bind publishSuperblock_frame ?_
  rintro next store' ⟨hgeneration, happlied, hhash, hnext, hroot, hpages⟩
  refine .pure trivial ⟨hnew.appliedIndex, hnew.stateHash, ⟨happlied, hhash, hnext, hroot, hpages⟩,
    ?_⟩
  have hroom : (logBytes (fullLog log pending)).length + 88 = marker.endLsn := by
    rw [← hnew.chain.1.endLsn.trans
      (congrArg _ (by simp [Frame.size, Checkpoint.frame, frameFixed]))]
    rfl
  exact (checkpointFits_iff h).mpr ⟨hlast, hroom ▸ hnew.endLsn, hgeneration⟩

/-- A checkpoint that fits succeeds. -/
theorem exists_checkpoint (hfits : checkpointFits store sb = true) :
    ∃ result, (DurablePager.checkpoint sb store).result = .ok result := by
  obtain ⟨hlast, hroom, hgeneration⟩ := (checkpointFits_iff h).mp hfits
  cases pending with
  | some g =>
    -- a pending group is beyond the published index
    have hindex := (h.body.next g rfl).1
    have hsame := (hlast g (by simp [fullLog])).1
    rw [h.described.appliedIndex] at hsame
    omega
  | none =>
    rw [fullLog_none] at hlast hroom
    rw [h.described.appliedIndex, h.described.stateHash] at hlast
    have hspec := checkpoint_spec (R := fun _ => True) h (fun _ _ => trivial)
      (fun _ _ _ _ _ => trivial) fun _ _ _ _ _ _ _ => trivial
    obtain ⟨result, hresult, -⟩ := hspec.exists_ok fun e hE =>
      absurd (hE.2 rfl hlast hroom) hgeneration.ne
    exact ⟨result, hresult⟩

end

/-- A checkpoint is refused if another group is the last one of the log. -/
theorem checkpoint_refused (h : Sound store sb v log none old written) {g : CommittedApply}
    (hlast : (logGroups log).getLast? = some g) (hindex : g.applyIndex ≠ sb.appliedIndex) :
    Spec (DurablePager.checkpoint sb) store (fun _ => True) (fun _ _ => False)
      (fun e _ => e = .invariant "checkpoint applied index/hash does not match WAL prefix") := by
  refine .perform_bind trivial ?_
  have hreads := h.syncDisk.reads
  rw [fullLog_none] at hreads
  refine scan_bind hreads fun scan hscan => .bind (Q := fun _ _ => False) ?_
    fun _ _ hfalse => hfalse.elim
  have hthrough := hscan.throughLsn_le (by simpa using h.body.wal.logOk.chain)
  refine scanAndTruncate_bind hreads (fun _ _ => trivial) fun again wal hagain _ _ => ?_
  rw [if_neg (by rw [hagain.2.2]; omega), if_pos]
  · exact .fail trivial rfl
  · rw [hagain.1, hlast]
    simp [hindex.symm]

end Checkpoint

/-- A checkpoint of a pager that runs returns the applied index and the state hash and leaves the
database as it was if and only if it fits. -/
theorem checkpoint_iff_fits (w : World) (h : w.Reachable) (hpager : w.pager = some sb) :
    (∃ next marker, (DurablePager.checkpoint sb w.store).result = .ok (next, marker) ∧
      marker.appliedIndex = sb.appliedIndex ∧ marker.stateHash = sb.stateHash ∧
      SameDatabase sb w.store.disk next ((DurablePager.checkpoint sb).final w.store).disk) ↔
    checkpointFits w.store sb = true := by
  have hinv : w.Inv False := World.inv_of_reachable (fun hfalse => hfalse.elim) h
  unfold World.Inv at hinv
  rw [hpager] at hinv
  obtain ⟨-, upto, operations, -, log, pending, hs, -⟩ := hinv
  have hframe := checkpoint_frame hs
  constructor
  · rintro ⟨next, marker, hresult, -⟩
    exact (hframe.ok _ hresult).2.2.2
  · intro hfits
    obtain ⟨⟨next, marker⟩, hresult⟩ := exists_checkpoint hs hfits
    obtain ⟨hindex, hhash, hsame, -⟩ := hframe.ok _ hresult
    exact ⟨next, marker, hresult, hindex, hhash, hsame⟩

namespace World

/-- Transitions without a crash. -/
def Label.running : Label → Bool
  | .openPager | .call _ | .close => true
  | _ => false

variable {w : World} {v : Version} {log : List Record} {old written : Page → Prop}

/-- A snapshot of one fresh page, some indexes ahead. -/
def freshSnapshot (v : Version) (stateHash : Digest) : Operation :=
  .installSnapshot (v.appliedIndex + 4) stateHash [.new v.nextPageId .treeDirectory]
    (v.nextPageId + 1) v.nextPageId

omit [Sha256] in
theorem installs_fresh (hnext : v.nextPageId < u64Max) : Installs v (v.appliedIndex + 4)
    [.new v.nextPageId .treeDirectory] (v.nextPageId + 1) v.nextPageId := by
  have hid : (Page.new v.nextPageId .treeDirectory).id = v.nextPageId :=
    Superblock.id_new (hnext.trans u64Max_lt) _
  refine ⟨by omega, by omega, fun page hpage => ?_, ⟨_, List.mem_singleton_self _, hid⟩,
    List.nodup_singleton _, fun page hpage => ?_⟩
  · rw [List.mem_singleton.mp hpage, hid]
    omega
  · rw [List.mem_singleton.mp hpage]
    exact Superblock.valid_new _ _

/-- Such a snapshot is installed while there is a generation. -/
theorem exists_installed (hs : Sound w.store sb v log none old written) (hpager : w.pager = some sb)
    (hgeneration : sb.generation < u64Max) (hindex : v.appliedIndex + 4 ≤ u64Max)
    (hnext : v.nextPageId < u64Max) (stateHash : Digest) :
    ∃ w' sb', w.next (.call (freshSnapshot v stateHash)) = some w' ∧ w'.pager = some sb' ∧
      w'.calls = w.calls ++ [⟨freshSnapshot v stateHash, .ok⟩] ∧
      Sound w'.store sb' (v.after (freshSnapshot v stateHash)) log none (fun _ => True)
        fun _ => True := by
  have hfits : (freshSnapshot v stateHash).fits = true := by
    simp only [freshSnapshot, Operation.fits, Bool.and_eq_true, decide_eq_true_eq]
    omega
  have hall := hs.mono (fun _ _ => trivial) fun _ _ _ => trivial
  have hspec := installSnapshot_spec (R := fun _ => True) hall (.inl rfl) hindex hnext
    (fun _ _ => trivial) (rfl : v.after (freshSnapshot v stateHash) = _) (fun _ _ => trivial)
    fun _ _ _ _ => trivial
  obtain ⟨sb', hresult, ⟨hdup, -⟩ | ⟨-, hs'⟩⟩ := hspec.exists_ok fun _ hE =>
    absurd (hE.2 (installs_fresh hnext)) hgeneration.ne
  · omega
  · exact ⟨_, sb', next_call hpager hfits hresult, rfl, rfl, hs'⟩

end World

end Pager

/-- After an apply and a snapshot, no checkpoint is taken. -/
theorem checkpoint_after_snapshot :
    let _ := zeroHash
    ∃ (w : World) (sb : Superblock),
      World.ReachableIf (fun _ label => label.running = true) w ∧
      (∀ call ∈ w.calls, call.status = .ok) ∧ w.pager = some sb ∧
      (DurablePager.checkpoint sb w.store).result =
        .error (.invariant "checkpoint applied index/hash does not match WAL prefix") := by
  intro _
  have hmax : u64Max = 2 ^ 64 - 1 := rfl
  set hash : Digest := Vector.replicate 32 0
  obtain ⟨w₂, sb₂, g, hfirst, hpager₂, -, hcalls₂, hgeneration₂, -, -, hadvance, hs₂⟩ :=
    World.exists_first hash
  set v := Version.genesis.after (World.emptyApply .genesis hash)
  have happlied : v.appliedIndex = 1 := rfl
  obtain ⟨w₃, sb₃, hnext₃, hpager₃, hcalls₃, hs₃⟩ :=
    World.exists_installed hs₂ hpager₂ (by omega) (by omega) (by decide) hash
  refine ⟨w₃, sb₃, .next _ (hfirst _ rfl fun _ _ => rfl) rfl hnext₃, ?_, hpager₃, ?_⟩
  · rw [hcalls₃, hcalls₂]
    simp
  · have hindex : g.applyIndex ≠ sb₃.appliedIndex := by
      rw [hs₃.described.appliedIndex, ← hadvance.appliedIndex]
      decide
    have hspec := checkpoint_refused hs₃ (g := g) (by simp) hindex
    cases hresult : (DurablePager.checkpoint sb₃ w₃.store).result with
    | ok result => exact (hspec.ok _ hresult).elim
    | error e => rw [hspec.error _ hresult]

/-- A checkpoint is taken right after an apply. -/
theorem checkpoint_after_apply : ∃ (w : World) (sb next : Superblock) (marker : Checkpoint),
    @World.Reachable zeroHash w ∧ w.pager = some sb ∧
    w.calls = [⟨World.emptyApply .genesis (Vector.replicate 32 0), .ok⟩] ∧
    (@DurablePager.checkpoint zeroHash sb w.store).result = .ok (next, marker) ∧
    marker.appliedIndex = sb.appliedIndex := by
  let _ := zeroHash
  obtain ⟨w, sb, g, hfirst, hpager, -, hcalls, hgeneration, -, hlength, hadvance, hs⟩ :=
    World.exists_first (Vector.replicate 32 0)
  have hfits : checkpointFits w.store sb = true := by
    refine (checkpointFits_iff hs).mpr ⟨fun last hlast => ?_, ?_, hgeneration ▸ by decide⟩
    · obtain rfl : g = last := by simpa [fullLog] using hlast
      rw [hs.described.appliedIndex, hs.described.stateHash]
      exact ⟨hadvance.appliedIndex.symm, hadvance.stateHash.symm⟩
    · rw [fullLog_none, hlength]
      decide
  have hreach : w.Reachable := hfirst _ trivial fun _ _ => trivial
  obtain ⟨next, marker, hresult, hindex, -⟩ := (checkpoint_iff_fits w hreach hpager).mpr hfits
  exact ⟨w, sb, next, marker, hreach, hpager, hcalls, hresult, hindex⟩

end AsterStorage
