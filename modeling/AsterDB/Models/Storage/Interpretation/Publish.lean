import AsterDB.Models.Storage.Interpretation.Version

/-!
# Replaying a group and publishing a superblock

What the files hold is kept by crashes, syncs and the writes of recovery, and the
alternate slot makes the step from one version to the next atomic.
-/

namespace AsterStorage

open AsterRaft (Sha256 u64Max)
open Crash

/-- Whatever a crash now leaves of the files satisfies `R`. -/
def Safely (R : Store → Prop) (store : Store) : Prop := ∀ fates kept, R (store.crash fates kept)

namespace Slots

variable {disk : Disk} {sb : Superblock}

/-- Slots are kept when no slot gets new possible contents. -/
theorem of_possible {disk' : Disk} (h : Slots disk sb)
    (hpossible : ∀ id content, id ≤ 1 → disk'.Possible id content → disk.Possible id content) :
    Slots disk' sb where
  fits := h.fits
  current content hcontent := h.current content (hpossible _ _ h.fits.slot hcontent)
  other content hcontent := h.other content (hpossible _ _ (by omega) hcontent)

theorem crash (h : Slots disk sb) (fates : List Fate) : Slots (disk.crash fates) sb :=
  h.of_possible fun _ _ _ hp => hp.of_crash

theorem sync (h : Slots disk sb) : Slots disk.sync sb :=
  h.of_possible fun _ _ _ hp => hp.sync

theorem writePage (h : Slots disk sb) {id : Nat} (hid : 2 ≤ id) (bytes : PageArray) :
    Slots (disk.writePage id bytes) sb :=
  h.of_possible fun _ _ hle hp => hp.of_writePage_of_ne (by omega)

theorem read (h : Slots disk sb) : readSuperblock disk = .ok (some sb) :=
  readSuperblock_eq h.fits (h.current _ (disk.possible_pages _)) (h.other _ (disk.possible_pages _))

variable {next : Superblock}

/-- The superblock before is older than the next one. -/
theorem older (h : sb.Fits) (hlt : sb.generation < next.generation) :
    OlderSlot next (some sb.encodePage.array) := by
  rintro bytes page other hbytes hpage hother
  obtain ⟨rfl, -⟩ := Page.decode_eq_ok.mp hpage
  have hpage : (⟨bytes⟩ : Page) = sb.encodePage := by rw [← Option.some.inj hbytes]
  rw [hpage, Superblock.decode_encodePage h] at hother
  cases hother
  exact hlt

/-- A crash after the write of the next superblock leaves the slots of one of the two. -/
theorem crash_writePage (h : Slots disk sb) (hnext : next.Fits)
    (hslot : next.slot = 1 - sb.slot) (hlt : sb.generation < next.generation) (fates : List Fate) :
    Slots ((disk.writePage next.slot next.encodePage.array).crash fates) sb ∨
      Slots ((disk.writePage next.slot next.encodePage.array).crash fates) next := by
  set disk' := (disk.writePage next.slot next.encodePage.array).crash fates with hdisk
  have hle := h.fits.slot
  have hdurable : ∀ id content, disk'.Possible id content → content = disk'.durable id := by
    rintro id content (hcontent | ⟨_, hmem, _⟩)
    · exact hcontent
    · cases hmem
  have hcurrent : disk'.durable sb.slot = some sb.encodePage.array := by
    have hp : disk'.Possible sb.slot (disk'.durable sb.slot) := .inl rfl
    exact h.current _ (hp.of_crash.of_writePage_of_ne (by omega))
  have hp : disk'.Possible next.slot (disk'.durable next.slot) := .inl rfl
  -- the other slot holds what it held, the next superblock, or a torn page
  rcases hp.of_crash.of_writePage with hold | ⟨-, hwritten | ⟨torn, htorn⟩⟩
  · left
    refine ⟨h.fits, fun content hc => (hdurable _ _ hc).trans hcurrent, fun content hc => ?_⟩
    rw [hdurable _ _ hc]
    exact h.other _ (hslot ▸ hold)
  · right
    refine ⟨hnext, fun content hc => (hdurable _ _ hc).trans hwritten, fun content hc => ?_⟩
    rw [hdurable _ _ hc, show 1 - next.slot = sb.slot by omega, hcurrent]
    exact older h.fits hlt
  · left
    refine ⟨h.fits, fun content hc => (hdurable _ _ hc).trans hcurrent, fun content hc => ?_⟩
    rw [hdurable _ _ hc, ← hslot, htorn]
    rintro bytes page other hbytes hpage -
    cases hbytes
    exact absurd hpage (torn.2 page)

/-- After a sync the written superblock is the newest. -/
theorem sync_writePage (h : Slots disk sb) (hnext : next.Fits)
    (hslot : next.slot = 1 - sb.slot) (hlt : sb.generation < next.generation) :
    Slots (disk.writePage next.slot next.encodePage.array).sync next := by
  have hle := h.fits.slot
  refine ⟨hnext, fun content hc => ?_, fun content hc => ?_⟩
  · rw [hc.of_sync, Disk.pages_writePage, Function.update_self]
  · have hpages : disk.pages sb.slot = some sb.encodePage.array :=
      h.current _ (disk.possible_pages _)
    rw [hc.of_sync, Disk.pages_writePage, show 1 - next.slot = sb.slot by omega,
      Function.update_of_ne (by omega), hpages]
    exact older h.fits hlt

end Slots

variable [Sha256] {store : Store} {sb : Superblock} {v v' : Version} {log log' : List Record}
  {pending : Option CommittedApply} {old written : Page → Prop}

namespace Body

variable (h : Body store v log pending old written)
include h

/-- The body is kept when no page gets new possible contents and the log stays. -/
theorem of_possible {store' : Store}
    (hpossible : ∀ id content, 2 ≤ id → store'.disk.Possible id content →
      store.disk.Possible id content) (hwal : WalOk store'.wal (log ++ pending.toList.map .group)) :
    Body store' v log pending old written :=
  ⟨h.version, hwal, fun id content hid hc => h.pages id content hid (hpossible id content hid hc),
    h.applied, h.next, fun hnone id content content' hid hlt hc hc' =>
      h.steady hnone id content content' hid hlt (hpossible id content hid hc)
        (hpossible id content' hid hc')⟩

theorem crash (fates : List Fate) (kept : Nat) :
    Body (store.crash fates kept) v log pending old written :=
  h.of_possible (fun _ _ _ hp => hp.of_crash) (h.wal.crash kept)

theorem syncDisk : Body { store with disk := store.disk.sync } v log pending old written :=
  h.of_possible (fun _ _ _ hp => hp.sync) h.wal

theorem writeSlot {slot : Nat} (hslot : slot ≤ 1) (bytes : PageArray) :
    Body { store with disk := store.disk.writePage slot bytes } v log pending old written :=
  h.of_possible (fun _ _ hid hp => hp.of_writePage_of_ne (by omega)) h.wal

end Body

namespace Sound

variable (h : Sound store sb v log pending old written)
include h

theorem crash (fates : List Fate) (kept : Nat) :
    Sound (store.crash fates kept) sb v log pending old written :=
  ⟨h.slots.crash fates, h.described, h.body.crash fates kept⟩

theorem syncDisk : Sound { store with disk := store.disk.sync } sb v log pending old written :=
  ⟨h.slots.sync, h.described, h.body.syncDisk⟩

theorem safely {R : Store → Prop}
    (hR : ∀ store, Sound store sb v log pending old written → R store) : Safely R store :=
  fun fates kept => hR _ (h.crash fates kept)

end Sound

/-! ## Replaying the pending group -/

section Replay

variable {g : CommittedApply} {image : Page}

namespace Body

section

variable (h : Body store v log (some g) old written) (hmem : image ∈ g.pages)
include h hmem

omit hmem in
theorem pendingOk : g.Ok :=
  h.wal.logOk.ok (.group g) (by simp)

omit hmem in
theorem chain_pending : Chain (logBytes log).length g.frames := by
  have hchain := h.wal.logOk.chain
  simp only [Option.toList_some, List.map_cons, List.map_nil, logFrames_append] at hchain
  simpa [logBytes, logFrames, Record.frames] using (Chain.append.mp hchain).2

omit [Sha256] h hmem in
theorem length_logBytes_pending : (logBytes (log ++ (some g).toList.map .group)).length =
      (logBytes log).length + (framesBytes g.frames).length := by
  simp [logBytes, logFrames, Record.frames]

/-- The LSNs of a pending group lie in its part of the log. -/
theorem lsn_image : (logBytes log).length < image.lsn ∧
      image.lsn ≤ (logBytes (log ++ (some g).toList.map .group)).length := by
  have hchain := h.chain_pending
  have hframe : g.pageFrame image ∈ g.pages.map g.pageFrame := List.mem_map_of_mem hmem
  have hsplit : g.frames = g.beginFrame :: (g.pages.map g.pageFrame ++ [g.commitFrame]) := rfl
  rw [hsplit] at hchain
  obtain ⟨-, hrest⟩ := hchain
  have hbounds := hrest.bounds (List.mem_append_left _ hframe)
  have hlsn : (g.pageFrame image).lsn = image.lsn := rfl
  have hsize : 0 < g.beginFrame.size := by simp [Frame.size, frameFixed]
  rw [length_logBytes_pending, hsplit, framesBytes_cons, List.length_append, Frame.length_bytes]
  omega

theorem pageOk_image :
    PageOk v (some g) (logBytes (log ++ (some g).toList.map .group)).length old written image.id
      (some image.array) where
  found page hpage _ := by
    obtain rfl : image = page := by
      cases image
      cases page
      cases hpage
      rfl
    refine ⟨rfl, (h.lsn_image hmem).2, ((h.next g rfl).2.2 _ hmem).2, fun _ => .inr ⟨g, rfl, hmem⟩⟩
  held _ _ _ hnot := absurd (List.mem_map_of_mem hmem) (hnot g rfl)
  redo g' hg' other hother hid page hpage _ := by
    obtain rfl : g = g' := Option.some.inj hg'
    left
    obtain rfl : image = page := by
      cases image
      cases page
      cases hpage
      rfl
    exact (List.inj_on_of_nodup_map h.pendingOk.nodup hother hmem hid).symm

omit [Sha256] h in
theorem pageOk_torn (logEnd : Nat) (torn : TornPage) :
    PageOk v (some g) logEnd old written image.id (some torn.1) where
  found _ hpage hvalid := absurd hvalid (torn.not_valid hpage)
  held _ _ _ hnot := absurd (List.mem_map_of_mem hmem) (hnot g rfl)
  redo _ _ _ _ _ _ hpage hvalid := absurd hvalid (torn.not_valid hpage)

/-- Writing an image of the pending group keeps the body. -/
theorem writeImage :
    Body { store with disk := store.disk.writePage image.id image.array } v log (some g) old
      written where
  version := h.version
  wal := h.wal
  pages id content hid hc := by
    rcases hc.of_writePage with hc | ⟨rfl, rfl | ⟨torn, rfl⟩⟩
    · exact h.pages id content hid hc
    · exact h.pageOk_image hmem
    · exact pageOk_torn hmem _ torn
  applied := h.applied
  next := h.next
  steady hnone := by cases hnone

/-- The page on disk is the image, or older, or none at all. -/
theorem currentLsn_eq :
    ∃ lsn, currentLsn store.disk image = .ok lsn ∧ ((lsn.any fun lsn => decide (image.lsn ≤ lsn)) →
        store.disk.pages image.id = some image.array) := by
  have hok := h.pages image.id _ ((h.next g rfl).2.2 _ hmem).1 (store.disk.possible_pages image.id)
  unfold currentLsn Disk.readPage
  cases hpages : store.disk.pages image.id with
  | none => exact ⟨none, rfl, by simp⟩
  | some bytes =>
    dsimp only
    cases hdecode : Page.decode bytes with
    | error e => exact ⟨none, rfl, by simp⟩
    | ok page =>
      obtain ⟨rfl, hvalid⟩ := Page.decode_eq_ok.mp hdecode
      refine ⟨some (⟨bytes⟩ : Page).lsn, if_pos (hok.found ⟨bytes⟩ hpages hvalid).1, ?_⟩
      intro hle
      rcases hok.redo g rfl image hmem rfl ⟨bytes⟩ hpages hvalid with heq | hlt
      · rw [← heq]
      · simp only [Option.any_some, decide_eq_true_eq] at hle
        omega

end

end Body

variable {R : Store → Prop}

/-- Replaying a pending group puts its images on the disk. -/
theorem replayGroup_spec (hR : ∀ store, Sound store sb v log (some g) old written → R store)
    {done todo : List Page} (hpages : g.pages = done ++ todo) {store : Store}
    (h : Sound store sb v log (some g) old written)
    (hdone : ∀ image ∈ done, store.disk.pages image.id = some image.array)
    (report : RecoveryReport) :
    Spec (replayGroup todo report) store (Safely R)
      (fun _ store' => Sound store' sb v log (some g) old written ∧
        ∀ image ∈ g.pages, store'.disk.pages image.id = some image.array)
      (fun _ _ => False) := by
  induction todo generalizing done store report with
  | nil =>
    refine .pure (h.safely hR) ⟨h, ?_⟩
    rw [hpages, List.append_nil]
    exact hdone
  | cons image todo ih =>
    have hmem : image ∈ g.pages := by simp [hpages]
    have hid := ((h.body.next g rfl).2.2 _ hmem).1
    have hsplit : g.pages = (done ++ [image]) ++ todo := by simp [hpages]
    obtain ⟨lsn, hlsn, hcurrent⟩ := h.body.currentLsn_eq hmem
    refine .query_bind hlsn ?_
    split
    · rename_i hle
      refine ih hsplit h (fun other hother => ?_) _
      rcases List.mem_append.mp hother with hother | hother
      · exact hdone other hother
      · rw [List.mem_singleton.mp hother]
        exact hcurrent hle
    · have hwrite : Sound { store with disk := store.disk.writePage image.id image.array } sb v log
          (some g) old written :=
        ⟨h.slots.writePage hid _, h.described, h.body.writeImage hmem⟩
      refine .perform_bind (h.safely hR) (ih hsplit hwrite (fun other hother => ?_) _)
      rw [Disk.pages_writePage]
      rcases List.mem_append.mp hother with hother | hother
      · have hne : other.id ≠ image.id := by
          have hnodup := h.body.pendingOk.nodup
          rw [hpages, List.map_append] at hnodup
          exact (List.nodup_append.mp hnodup).2.2 _ (List.mem_map_of_mem hother) _
            List.mem_cons_self
        rw [Function.update_of_ne hne, hdone other hother]
      · rw [List.mem_singleton.mp hother, Function.update_self]

/-- The version after a pending group is in range. -/
theorem Body.version_advance (h : Body store v log (some g) old written)
    (hadvance : v.Advance g v') : v'.Ok := by
  have hg := h.pendingOk
  have hv := h.version
  obtain ⟨-, hnext, hpages⟩ := h.next g rfl
  refine ⟨?_, ?_, ?_, fun root hroot => ?_, fun id hid => ?_⟩
  · rw [hadvance.appliedIndex]
    exact h.chain_pending.1.applyIndex
  · rw [hadvance.nextPageId]
    exact hg.nextPageId
  · rw [hadvance.nextPageId]
    exact hg.two_le
  · rw [hadvance.nextPageId]
    exact hg.rootDirectory root (hadvance.rootDirectory ▸ hroot)
  · rw [hadvance.nextPageId]
    by_cases hmem : id ∈ g.pages.map Page.id
    · obtain ⟨page, hpage, rfl⟩ := List.mem_map.mp hmem
      exact ⟨(hpages page hpage).1, hg.id_lt page hpage⟩
    · rw [hadvance.same id hmem] at hid
      have hle := hv.allocated id hid
      omega

/-- Once its images are durable, a pending group is part of the version. -/
theorem Body.advance (h : Body store v log (some g) old written) (hadvance : v.Advance g v')
    (hsynced : ∀ id content, store.disk.Possible id content → content = store.disk.pages id)
    (himages : ∀ image ∈ g.pages, store.disk.pages image.id = some image.array) :
    Body store v' (log ++ [.group g]) none written written where
  version := h.version_advance hadvance
  wal := by simpa using h.wal
  pages id content hid hc := by
    have hok := h.pages id content hid hc
    refine ⟨fun page hpage hvalid => ?_, fun page epoch hpage _ => ?_, fun _ hg => by cases hg⟩
    · obtain ⟨hpid, hlsn, hwritten, -⟩ := hok.found page hpage hvalid
      exact ⟨hpid, by simpa using hlsn, hwritten, fun _ => .inl hwritten⟩
    · by_cases hmem : id ∈ g.pages.map Page.id
      · obtain ⟨image, himage, rfl⟩ := List.mem_map.mp hmem
        obtain ⟨page', lsn, epoch', hpage', himage'⟩ := hadvance.image image himage
        rw [hpage'] at hpage
        cases hpage
        exact ⟨lsn, himage' ▸ (hsynced _ content hc).trans (himages image himage)⟩
      · rw [hadvance.same id hmem] at hpage
        refine hok.held page epoch hpage fun g' hg' => ?_
        rwa [← Option.some.inj hg']
  applied g' hg' := by
    obtain ⟨hindex, -⟩ := h.next g rfl
    rw [hadvance.appliedIndex, hadvance.stateHash]
    rw [logGroups_append] at hg'
    rcases List.mem_append.mp hg' with hg' | hg'
    · have hle := (h.applied g' hg').1
      exact ⟨by omega, fun heq => by omega⟩
    · rw [List.mem_singleton.mp hg']
      exact ⟨le_rfl, fun _ => rfl⟩
  next _ hg := by cases hg
  steady _ id content content' _ _ hc hc' :=
    (hsynced id content hc).trans (hsynced id content' hc').symm

/-- Replay, sync and go on, ready for the version the group leads to. -/
theorem redo_spec {β : Type} {k : RecoveryReport → Io β}
    {Q : β → Store → Prop} {E : StorageError → Store → Prop}
    (hR : ∀ store, Sound store sb v log (some g) old written → R store)
    (h : Sound store sb v log (some g) old written) (report : RecoveryReport)
    (hk : ∀ report store, Sound store sb v log (some g) old written →
      (∀ v', v.Advance g v' → Body store v' (log ++ [.group g]) none written written) →
      Spec (k report) store (Safely R) Q E) :
    Spec (do
      let report ← replayGroup g.pages report
      Io.syncDisk
      k report) store (Safely R) Q E := by
  have hreplay := replayGroup_spec hR (List.nil_append g.pages).symm h
    (fun _ hmem => by cases hmem) report
  refine .bind (hreplay.imp_error fun _ _ hE => hE.elim) ?_
  rintro report store' ⟨hsound, hpages⟩
  refine .perform_bind (hsound.safely hR) (hk report _ hsound.syncDisk fun v' hadvance => ?_)
  exact hsound.syncDisk.body.advance hadvance (fun _ _ hc => hc.of_sync) hpages

end Replay

/-- A superblock published after another one. -/
structure Superblock.Follows (next previous : Superblock) (checkpointLsn : Nat) : Prop where
  generation : next.generation = previous.generation + 1
  checkpointLsn : next.checkpointLsn = checkpointLsn

/-- Publishing a superblock moves the files from one version to another or fails before it
writes. -/
theorem publishSuperblock_spec {R : Store → Prop} {checkpointLsn : Nat}
    (h : Sound store sb v log pending old written) (hbody : Body store v' log' none written written)
    (hlsn : checkpointLsn ≤ u64Max)
    (hR : ∀ store, Sound store sb v log pending old written → R store)
    (hR' : ∀ store next, next.Follows sb checkpointLsn →
      Sound store next v' log' none written written → R store) :
    Spec (publishSuperblock sb v'.appliedIndex v'.stateHash checkpointLsn v'.nextPageId
        v'.rootDirectory) store (Safely R)
      (fun next store' => next.Follows sb checkpointLsn ∧
        Sound store' next v' log' none written written)
      (fun _ store' => sb.generation = u64Max ∧ store' = store) := by
  have hgeneration := h.slots.fits.generation
  unfold publishSuperblock
  split
  · rename_i hmax
    exact .fail (h.safely hR) ⟨by omega, rfl⟩
  rename_i hmax
  set next : Superblock := {
    slot := 1 - sb.slot
    generation := sb.generation + 1
    appliedIndex := v'.appliedIndex
    stateHash := v'.stateHash
    checkpointLsn
    nextPageId := v'.nextPageId
    rootDirectory := v'.rootDirectory } with hnext
  have hv := hbody.version
  have hfits : next.Fits := {
    slot := by simp [hnext]
    generation := by simp only [hnext]; omega
    appliedIndex := hv.appliedIndex
    checkpointLsn := hlsn
    nextPageId := hv.nextPageId
    two_le := hv.two_le
    rootDirectory := fun root hroot =>
      lt_of_lt_of_le (hv.rootDirectory root hroot) hv.nextPageId }
  have hdescribed : v'.DescribedBy next := ⟨rfl, rfl, rfl, rfl⟩
  have hlt : sb.generation < next.generation := Nat.lt_succ_self _
  have hid : next.encodePage.id = next.slot := Superblock.id_encodePage hfits.slot
  have hwrite : Safely R
      { store with disk := store.disk.writePage next.slot next.encodePage.array } := by
    intro fates kept
    rcases h.slots.crash_writePage hfits rfl hlt fates with hs | hs
    · exact hR _ ⟨hs, h.described, (h.body.writeSlot hfits.slot _).crash fates kept⟩
    · exact hR' _ next ⟨rfl, rfl⟩ ⟨hs, hdescribed, (hbody.writeSlot hfits.slot _).crash fates kept⟩
  have hsync : Sound { store with
      disk := (store.disk.writePage next.slot next.encodePage.array).sync } next v' log' none
      written written :=
    ⟨h.slots.sync_writePage hfits rfl hlt, hdescribed, (hbody.writeSlot hfits.slot _).syncDisk⟩
  refine .query_bind (Superblock.encode_eq hfits.slot) ?_
  rw [hid]
  refine .perform_bind (h.safely hR) (.perform_bind hwrite ?_)
  exact .pure (hsync.safely fun store hs => hR' store next ⟨rfl, rfl⟩ hs) ⟨⟨rfl, rfl⟩, hsync⟩

end AsterStorage
