import AsterDB.Models.Storage.Interpretation.Append
import AsterDB.Models.Storage.Interpretation.Publish

/-!
# Committing a group and marking a checkpoint

An append that a crash cuts leaves the version as it was; from its last frame on
a group is pending and a checkpoint part of the log.
-/

namespace AsterStorage

open AsterRaft (Digest Sha256 u64Max)
open ByteString Crash WriteAheadLog

variable [Sha256] {store : Store} {sb : Superblock} {v v' : Version} {log log' : List Record}
  {pending : Option CommittedApply} {old written : Page → Prop} {R : Store → Prop}

/-- The whole log, with the pending group. -/
abbrev fullLog (log : List Record) (pending : Option CommittedApply) : List Record :=
  log ++ pending.toList.map .group

omit [Sha256] in
theorem fullLog_none (log : List Record) : fullLog log none = log := List.append_nil log

theorem Sound.reads (h : Sound store sb v log pending old written) :
    Reads store.wal (fullLog log pending) := h.body.wal.reads

variable {wal : WalFile}

/-- What is appended behind the log is not seen as long as it is a tail. -/
theorem Sound.withReads (h : Sound store sb v log pending old written)
    (hreads : Reads wal (fullLog log pending))
    (hsynced : (logBytes (fullLog log pending)).length ≤ wal.synced) :
    Sound { store with wal := wal } sb v log pending old written :=
  ⟨h.slots, h.described, h.body.of_possible (fun _ _ _ hp => hp)
    ⟨hreads.logOk, hreads.tail, hsynced⟩⟩

theorem Sound.retains (h : Sound store sb v log pending old written)
    (hretains : Retains (fullLog log pending) store.wal wal) :
    Sound { store with wal := wal } sb v log pending old written := by
  refine h.withReads hretains.reads ?_
  have hsynced : (logBytes (fullLog log pending)).length ≤ store.wal.synced := h.body.wal.synced
  have hle := hretains.synced
  omega

variable {rootDirectory : Option Nat} {stateHash : Digest} {applyIndex : Nat} {nextPageId : Nat}

/-- A new group leads from a version to what the call makes of it. -/
theorem advance_newGroup {pages sorted : List Page} {beginLsn : Nat} (hperm : sorted.Perm pages)
    (hnodup : (pages.map Page.id).Nodup) (hindex : applyIndex ≠ v.appliedIndex) :
    v.Advance (newGroup applyIndex stateHash nextPageId rootDirectory sorted beginLsn)
      (v.after (.apply applyIndex stateHash pages nextPageId rootDirectory)) := by
  have hafter : v.after (.apply applyIndex stateHash pages nextPageId rootDirectory) =
      { appliedIndex := applyIndex, stateHash, nextPageId, rootDirectory
        pages := Version.overlay v.pages pages applyIndex } := if_neg hindex
  rw [hafter]
  refine ⟨rfl, rfl, rfl, rfl, fun id hid => ?_, fun image himage => ?_⟩
  · have hnone : pages.find? (fun page => decide (page.id = id)) = none := by
      simp only [List.find?_eq_none, decide_eq_true_eq]
      intro page hpage heq
      apply hid
      simp only [newGroup, map_id_stampAll]
      exact heq ▸ List.mem_map_of_mem (hperm.mem_iff.mpr hpage)
    simp only [Version.overlay, hnone]
  · obtain ⟨page, hpage, lsn, rfl⟩ := mem_stampAll himage
    have hpage := hperm.mem_iff.mp hpage
    refine ⟨page, lsn, applyIndex, ?_, rfl⟩
    have hfind : pages.find? (fun other => decide (other.id = page.id)) = some page := by
      obtain ⟨found, hfound⟩ : ∃ found, pages.find? (fun other => decide (other.id = page.id)) =
          some found := Option.isSome_iff_exists.mp (List.find?_isSome.mpr ⟨page, hpage, by simp⟩)
      have heq : found.id = page.id := by simpa using List.find?_some hfound
      rw [hfound, List.inj_on_of_nodup_map hnodup (List.mem_of_find?_eq_some hfound) hpage heq]
    simp only [Version.overlay, Page.id_stamp, hfind]

omit [Sha256] in
theorem PageOk.mono {logEnd logEnd' id : Nat} {content : Option PageArray}
    (h : PageOk v pending logEnd old written id content) (hle : logEnd ≤ logEnd') :
    PageOk v pending logEnd' old written id content where
  found page hpage hvalid := by
    obtain ⟨hid, hlsn, hrest⟩ := h.found page hpage hvalid
    exact ⟨hid, hlsn.trans hle, hrest⟩
  held := h.held
  redo := h.redo

section

variable (h : Sound store sb v log none old written)
include h

/-- A crash between the last append of a record and the sync of the log leaves a part of the
record that is not seen, or all of it. -/
theorem safely_append {frames : List Frame} (htail : ∀ count < (framesBytes frames).length,
      Tail (logBytes log).length ((framesBytes frames).take count))
    (hbytes : wal.bytes = logBytes log ++ framesBytes frames)
    (hsynced : (logBytes log).length ≤ wal.synced)
    (hR : ∀ store, Sound store sb v log none old written → R store)
    (hR' : ∀ (store : Store) (wal : WalFile), Sound store sb v log none old written →
      wal.bytes = logBytes log ++ framesBytes frames → wal.bytes.length ≤ wal.synced →
      R { store with wal := wal }) :
    Safely R { store with wal := wal } := by
  intro fates kept
  have hcrash := h.crash fates 0
  have htake : wal.bytes.take (wal.synced + kept) = logBytes log ++
      (framesBytes frames).take (wal.synced + kept - (logBytes log).length) := by
    rw [hbytes, List.take_append, List.take_of_length_le (by omega)]
  by_cases hcount : wal.synced + kept - (logBytes log).length < (framesBytes frames).length
  · have hreads : Reads (wal.crash kept) (fullLog log none) := by
      rw [fullLog_none]
      exact ⟨by simpa using h.body.wal.logOk, _, htail _ hcount, htake⟩
    refine hR _ (hcrash.withReads hreads ?_)
    · simp only [fullLog, WalFile.crash, htake, Option.toList_none, List.map_nil, List.append_nil,
        List.length_append]
      omega
  · refine hR' _ (wal.crash kept) hcrash ?_ le_rfl
    rw [WalFile.crash, htake, List.take_of_length_le (by omega)]

/-- The log with one more record, all of it durable. -/
theorem Sound.walOk_append {record : Record}
    (hok : record.Ok) (hchain : Chain (logBytes log).length record.frames)
    (hlt : ∀ g ∈ record.group?, ∀ last ∈ logGroups log, last.applyIndex < g.applyIndex)
    (hbytes : wal.bytes = logBytes log ++ framesBytes record.frames)
    (hsynced : wal.bytes.length ≤ wal.synced) : WalOk wal (log ++ [record]) := by
  have hlog : LogOk log := by simpa using h.body.wal.logOk
  have hreads := hlog.reads_append hok hchain hlt hbytes
  refine ⟨hreads.logOk, hreads.tail, ?_⟩
  simpa [hbytes, logBytes, logFrames] using hsynced

/-- A committed group behind the log is pending. -/
theorem Sound.withGroup {g : CommittedApply} (wal : WalFile) (hg : g.Ok)
    (hchain : Chain (logBytes log).length g.frames) (hindex : g.applyIndex = v.appliedIndex + 1)
    (hnext : v.nextPageId ≤ g.nextPageId) (hpages : ∀ page ∈ g.pages, 2 ≤ page.id ∧ written page)
    (hbytes : wal.bytes = logBytes log ++ framesBytes g.frames)
    (hsynced : wal.bytes.length ≤ wal.synced) :
    Sound { store with wal := wal } sb v log (some g) old written := by
  have hwal : WalOk wal (log ++ [.group g]) := by
    have hok : Record.Ok (.group g) := hg
    refine h.walOk_append hok hchain ?_ hbytes hsynced
    intro g' hg' last hlast
    cases hg'
    have hle := (h.body.applied last hlast).1
    omega
  have hend : (logBytes (log ++ (none : Option CommittedApply).toList.map .group)).length ≤
      (logBytes log).length := by simp
  have hend' : (logBytes log).length ≤ (logBytes (log ++ (some g).toList.map .group)).length := by
    rw [Body.length_logBytes_pending]
    omega
  have himages : ∀ image ∈ g.pages, (logBytes log).length < image.lsn := by
    intro image himage
    have hframe : g.pageFrame image ∈ g.pages.map g.pageFrame := List.mem_map_of_mem himage
    have hbounds := hchain.2.bounds (List.mem_append_left _ hframe)
    have hsize : 0 < g.beginFrame.size := by simp [Frame.size, frameFixed]
    have hlsn : (g.pageFrame image).lsn = image.lsn := rfl
    omega
  refine ⟨h.slots, h.described, h.body.version, hwal, fun id content hid hc => ?_, h.body.applied,
    fun g' hg' => ?_, fun hnone => by cases hnone⟩
  · have hok := (h.body.pages id content hid hc).mono hend
    refine ⟨fun page hpage hvalid => ?_, fun page epoch hpage _ => ?_, ?_⟩
    · obtain ⟨hpid, hlsn, hwritten, hold⟩ := hok.found page hpage hvalid
      refine ⟨hpid, hlsn.trans hend', hwritten, fun hlt => .inl ?_⟩
      rcases hold hlt with hold | ⟨_, hnone, _⟩
      · exact hold
      · cases hnone
    · exact hok.held page epoch hpage fun _ hnone => by cases hnone
    · intro g' hg' image himage hid page hpage hvalid
      cases hg'
      exact .inr (lt_of_le_of_lt (hok.found page hpage hvalid).2.1 (himages image himage))
  · cases hg'
    exact ⟨hindex, hnext, hpages⟩

/-- A checkpoint behind the log is part of it. -/
theorem Sound.withCheckpoint {c : Checkpoint}
    (wal : WalFile) (hc : c.throughLsn ≤ u64Max) (hchain : Chain (logBytes log).length [c.frame])
    (hbytes : wal.bytes = logBytes log ++ framesBytes [c.frame])
    (hsynced : wal.bytes.length ≤ wal.synced) :
    Sound { store with wal := wal } sb v (log ++ [.checkpoint c]) none old written := by
  have hok : Record.Ok (.checkpoint c) := hc
  have hwal : WalOk wal (log ++ [.checkpoint c]) :=
    h.walOk_append hok hchain (fun _ hg => by cases hg) hbytes hsynced
  refine ⟨h.slots, h.described, h.body.version, by simpa using hwal, fun id content hid hp => ?_,
    fun g hg => ?_, fun _ hg => (by cases hg), h.body.steady⟩
  · refine (h.body.pages id content hid hp).mono ?_
    simp [logBytes, logFrames]
  · rw [logGroups_append, logGroups_checkpoint, List.append_nil] at hg
    exact h.body.applied g hg

end

/-- Appending a group commits it, returns the pending group or changes nothing. -/
theorem Sound.appendApplyWithMetadata {pages : List Page}
    (h : Sound store sb v log pending old written)
    (hindex : applyIndex = v.appliedIndex + 1) (hmax : applyIndex ≤ u64Max)
    (hnextMax : nextPageId ≤ u64Max) (hnext : v.nextPageId ≤ nextPageId)
    (hpages : ∀ page ∈ pages, 2 ≤ page.id ∧ ∀ lsn, written (page.stamp lsn applyIndex))
    (hR : ∀ store, Sound store sb v log pending old written → R store)
    (hR' : ∀ store g, pending = none →
      v.Advance g (v.after (.apply applyIndex stateHash pages nextPageId rootDirectory)) →
      Sound store sb v log (some g) old written → R store) :
    Spec (appendApplyWithMetadata applyIndex stateHash nextPageId rootDirectory pages) store
      (Safely R)
      (fun g store' => Sound store' sb v log (some g) old written ∧ (pending = some g ∨
        pending = none ∧
          v.Advance g (v.after (.apply applyIndex stateHash pages nextPageId rootDirectory))))
      (fun _ store' => Sound store' sb v log pending old written ∧
        (pending = none → ¬Accepts log nextPageId rootDirectory pages)) := by
  have hbelow : ∀ last ∈ logGroups log, last.applyIndex < applyIndex := by
    intro last hlast
    have hle := (h.body.applied last hlast).1
    omega
  have hnone : (∀ last ∈ logGroups (fullLog log pending), last.applyIndex < applyIndex) →
      pending = none := by
    intro hall
    cases pending with
    | none => rfl
    | some g =>
      have hlt := hall g (by simp [fullLog])
      have heq := (h.body.next g rfl).1
      omega
  have hsynced : (logBytes (fullLog log pending)).length ≤ store.wal.synced := h.body.wal.synced
  -- what a new group is, as a whole or cut by a crash
  have hnew : ∀ {g : CommittedApply}, pending = none →
      NewGroup log applyIndex stateHash nextPageId rootDirectory pages g →
      v.Advance g (v.after (.apply applyIndex stateHash pages nextPageId rootDirectory)) ∧
      ∀ (store : Store) (wal : WalFile), Sound store sb v log none old written →
        wal.bytes = logBytes log ++ framesBytes g.frames → wal.bytes.length ≤ wal.synced →
        Sound { store with wal := wal } sb v log (some g) old written := by
    rintro g - hg
    obtain ⟨sorted, hperm, heq⟩ := hg.eq
    have himages : ∀ image ∈ g.pages, 2 ≤ image.id ∧ written image := by
      intro image himage
      rw [heq] at himage
      obtain ⟨page, hpage, lsn, rfl⟩ := mem_stampAll himage
      obtain ⟨hid, hwritten⟩ := hpages page (hperm.mem_iff.mp hpage)
      exact ⟨by rwa [Page.id_stamp], hwritten lsn⟩
    have hnext' : v.nextPageId ≤ g.nextPageId := by
      rw [heq]
      exact hnext
    refine ⟨?_, fun store wal hs => hs.withGroup wal hg.ok hg.chain
      (hg.applyIndex_eq.trans hindex) hnext' himages⟩
    rw [heq]
    exact advance_newGroup hperm hg.nodup (by omega)
  have hrefused : ((∀ g ∈ logGroups (fullLog log pending), g.applyIndex < applyIndex) →
      2 ≤ nextPageId → ¬Accepts (fullLog log pending) nextPageId rootDirectory pages) →
      pending = none → ¬Accepts log nextPageId rootDirectory pages := by
    rintro hnot rfl
    rw [fullLog_none] at hnot
    exact hnot hbelow (le_trans h.body.version.two_le hnext)
  refine (appendApplyWithMetadata_spec h.reads hmax hnextMax
    (fun wal hretains => (h.retains hretains).safely hR) (fun g wal hg hall hbytes hle => ?_)
    fun e wal hretains hnot => ⟨h.retains hretains, hrefused hnot⟩).imp ?_
  · obtain rfl := hnone hall
    rw [fullLog_none] at hg hbytes hle hsynced
    obtain ⟨hadvance, hwhole⟩ := hnew rfl hg
    exact safely_append h (fun _ => tail_take_group hg.ok.toOpenOk hg.chain) hbytes (by omega) hR
      fun store wal hs hb hsync => hR' _ g rfl hadvance (hwhole store wal hs hb hsync)
  · rintro g store' ⟨wal, rfl, ⟨hmem, hgindex, hretains⟩ | ⟨hg, hall, hbytes, hsync⟩⟩
    · -- the log has a group at this index: it is the pending one
      obtain rfl : pending = some g := by
        rw [fullLog, logGroups_append] at hmem
        rcases List.mem_append.mp hmem with hmem | hmem
        · have hlt := hbelow g hmem
          omega
        · cases pending with
          | none => cases hmem
          | some g' =>
            have heq : g = g' := by simpa [logGroups, Record.group?] using hmem
            rw [heq]
      exact ⟨h.retains hretains, .inl rfl⟩
    · obtain rfl := hnone hall
      rw [fullLog_none] at hg hbytes
      obtain ⟨hadvance, hwhole⟩ := hnew rfl hg
      exact ⟨hwhole store wal h hbytes hsync.ge, .inr ⟨rfl, hadvance⟩⟩

/-- Appending a checkpoint marks the log or changes nothing. -/
theorem Sound.appendCheckpoint {throughLsn : Nat} (h : Sound store sb v log pending old written)
    (hR : ∀ store, Sound store sb v log pending old written → R store)
    (hR' : ∀ store c, c.appliedIndex = v.appliedIndex → c.stateHash = v.stateHash →
      Sound store sb v (log ++ [.checkpoint c]) none old written → R store) :
    Spec (appendCheckpoint throughLsn v.appliedIndex v.stateHash) store (Safely R)
      (fun c store' => c.appliedIndex = v.appliedIndex ∧ c.stateHash = v.stateHash ∧
        c.endLsn ≤ u64Max ∧ Sound store' sb v (log ++ [.checkpoint c]) none old written)
      (fun _ store' => Sound store' sb v log pending old written ∧
        (pending = none → throughLsn ≤ (logBytes log).length →
          EndsIn log v.appliedIndex v.stateHash → u64Max < (logBytes log).length + 88)) := by
  -- a pending group is the last one and beyond the applied index
  have hnone : EndsIn (fullLog log pending) v.appliedIndex v.stateHash → pending = none := by
    intro hsame
    cases pending with
    | none => rfl
    | some g =>
      have hlast : g ∈ (logGroups (fullLog log (some g))).getLast? := by simp [fullLog]
      have heq := (hsame g hlast).1
      have hindex := (h.body.next g rfl).1
      omega
  have hsynced : (logBytes (fullLog log pending)).length ≤ store.wal.synced := h.body.wal.synced
  have hrefused : (throughLsn ≤ (logBytes (fullLog log pending)).length →
      EndsIn (fullLog log pending) v.appliedIndex v.stateHash →
        u64Max < (logBytes (fullLog log pending)).length + 88) →
      pending = none → throughLsn ≤ (logBytes log).length →
      EndsIn log v.appliedIndex v.stateHash → u64Max < (logBytes log).length + 88 := by
    rintro hroom rfl
    rwa [fullLog_none] at hroom
  have hwhole : ∀ {c : Checkpoint}, NewCheckpoint log v.appliedIndex v.stateHash c →
      ∀ (store : Store) (wal : WalFile), Sound store sb v log none old written →
        wal.bytes = logBytes log ++ framesBytes [c.frame] → wal.bytes.length ≤ wal.synced →
        Sound { store with wal := wal } sb v (log ++ [.checkpoint c]) none old written :=
    fun hc _ wal hs => hs.withCheckpoint wal hc.throughLsn hc.chain
  refine (appendCheckpoint_spec h.reads h.body.version.appliedIndex
    (fun wal hretains => (h.retains hretains).safely hR)
    (fun c wal hc hsame hbytes hle => ?_)
    fun e wal hretains hroom => ⟨h.retains hretains, hrefused hroom⟩).imp ?_
  · obtain rfl := hnone hsame
    rw [fullLog_none] at hc hbytes hle hsynced
    have htail : ∀ count < (framesBytes [c.frame]).length,
        Tail (logBytes log).length ((framesBytes [c.frame]).take count) := by
      intro count hcount
      simp only [framesBytes_cons, framesBytes_nil, List.append_nil, Frame.length_bytes]
        at hcount ⊢
      exact tail_of_cut _ ⟨c.frame, count, hc.chain.1.size_le, hcount, rfl⟩
    exact safely_append h htail hbytes (by omega) hR fun store wal hs hb hsync =>
      hR' _ c hc.appliedIndex hc.stateHash (hwhole hc store wal hs hb hsync)
  · rintro c store' ⟨hc, hsame, wal, rfl, hbytes, hsync⟩
    obtain rfl := hnone hsame
    rw [fullLog_none] at hc hbytes
    exact ⟨hc.appliedIndex, hc.stateHash, hc.endLsn, hwhole hc store wal h hbytes hsync.ge⟩

end AsterStorage
