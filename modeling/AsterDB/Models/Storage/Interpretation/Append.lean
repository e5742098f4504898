import AsterDB.Models.Storage.Interpretation.Disk

/-!
# Appending to the log

Until its last frame is complete a record is only a tail of the log, which reads
as it did before; from then on the log has one more record.
-/

namespace AsterStorage

open AsterRaft (Digest Sha256 u64Max)
open ByteString Crash WriteAheadLog

/-- The length of a page image frame. -/
def pageFrameSize : Nat := frameFixed + (8 + pageSize)

/-- Pages as they are logged from an offset on. -/
def stampAll (applyIndex : Nat) : List Page → Nat → List Page
  | [], _ => []
  | page :: pages, offset =>
    page.stamp offset applyIndex :: stampAll applyIndex pages (offset + pageFrameSize)

@[simp]
theorem map_id_stampAll (applyIndex : Nat) (pages : List Page) (offset : Nat) :
    (stampAll applyIndex pages offset).map Page.id = pages.map Page.id := by
  induction pages generalizing offset with
  | nil => rfl
  | cons page pages ih => simp [stampAll, ih]

variable {pages : List Page} {offset : Nat}

theorem mem_stampAll {applyIndex : Nat} {image : Page}
    (h : image ∈ stampAll applyIndex pages offset) :
    ∃ page ∈ pages, ∃ lsn, image = page.stamp lsn applyIndex := by
  induction pages generalizing offset with
  | nil => cases h
  | cons page pages ih =>
    rcases List.mem_cons.mp h with rfl | h
    · exact ⟨page, List.mem_cons_self, offset, rfl⟩
    · obtain ⟨page', hmem, lsn, rfl⟩ := ih h
      exact ⟨page', List.mem_cons_of_mem _ hmem, lsn, rfl⟩

@[simp]
theorem length_stampAll (applyIndex : Nat) (pages : List Page) (offset : Nat) :
    (stampAll applyIndex pages offset).length = pages.length := by
  induction pages generalizing offset with
  | nil => rfl
  | cons page pages ih => simp [stampAll, ih]

variable {g : CommittedApply} {done todo : List Page}

/-- The first frames of a group behind the log are a tail. -/
theorem tail_open (h : g.OpenOk) (hpages : g.pages = done ++ todo)
    (hchain : Chain offset (g.beginFrame :: done.map g.pageFrame)) :
    Tail offset (framesBytes (g.beginFrame :: done.map g.pageFrame)) := by
  have htake : g.openFrames.take (done.length + 1) = g.beginFrame :: done.map g.pageFrame := by
    simp [CommittedApply.openFrames, hpages]
  refine ⟨g, done.length + 1, [], h, ?_, cut_nil, ?_⟩
  · rwa [htake]
  · rw [htake, List.append_nil]

theorem pageFrameSize_le : pageFrameSize ≤ maxFrame := by decide

theorem size_pageImage (lsn applyIndex : Nat) (page : Page) (endLsn : Nat) :
    Frame.size ⟨.pageImage, lsn, applyIndex, pagePayload page, endLsn⟩ = pageFrameSize := by
  simp [Frame.size, pagePayload, pageFrameSize]

theorem size_pageFrame (g : CommittedApply) (page : Page) :
    (g.pageFrame page).size = pageFrameSize := size_pageImage ..

variable {β : Type} {E : StorageError → Store → Prop} {Q : β → Store → Prop}

/-- Append one frame, unless the file is full. -/
theorem appendFrame_bind {store : Store} {k : Nat → Io β} {C : Store → Prop} (frame : Frame)
    (hsize : frame.size ≤ maxFrame) (hC : C store)
    (hE : ∀ reason, u64Max < store.wal.bytes.length + frame.size → E (.io reason) store)
    (hk : store.wal.bytes.length + frame.size ≤ u64Max →
      Spec (k frame.size) { store with wal := store.wal.append frame.bytes } C Q E) :
    Spec (appendFrame frame.kind frame.lsn frame.applyIndex frame.payload >>= k) store C Q E := by
  have hframe : Spec (appendFrame frame.kind frame.lsn frame.applyIndex frame.payload) store C
      (fun length store' => length = frame.size ∧
        store.wal.bytes.length + frame.size ≤ u64Max ∧
        store' = { store with wal := store.wal.append frame.bytes }) E := by
    refine .query_bind (Frame.encodeFrame_eq hsize) ?_
    by_cases hfull : u64Max < store.wal.bytes.length + frame.size
    · refine .bind (Q := fun _ _ => False) (.query_bind rfl ?_) fun _ _ hfalse => hfalse.elim
      rw [if_pos (by simpa using hfull)]
      exact .fail hC (hE _ hfull)
    · have hrest := hk (by omega)
      refine .bind (Q := fun _ store' => store' = { store with
        wal := store.wal.append frame.bytes }) (.query_bind rfl ?_) ?_
      · rw [if_neg (by simpa using hfull)]
        exact .perform hC hrest.start rfl
      · rintro _ _ rfl
        exact .pure hrest.start ⟨Frame.length_bytes frame, by omega, rfl⟩
  refine .bind hframe ?_
  rintro _ _ ⟨rfl, hle, rfl⟩
  exact hk hle

variable [Sha256] {store : Store} {log : List Record} {C : Store → Prop}

/-- The scan of a log. -/
def IsScan (log : List Record) (scan : WalScan) : Prop :=
  scan.groups = logGroups log ∧ scan.checkpoints = logCheckpoints log ∧
    scan.safeAppendOffset = (logBytes log).length

theorem Reads.isScan {wal : WalFile} (h : Reads wal log) :
    ∃ scan, scanBytes wal.bytes = .ok scan ∧ IsScan log scan := by
  obtain ⟨torn, hscan⟩ := h.scan
  exact ⟨_, hscan, rfl, rfl, rfl⟩

theorem scan_spec (h : Reads store.wal log) (hC : C store) :
    Spec WriteAheadLog.scan store C (fun scan store' => IsScan log scan ∧ store' = store) E := by
  obtain ⟨scan, hscan, hisScan⟩ := h.isScan
  exact .query_bind rfl (.query_ok hscan hC ⟨hisScan, rfl⟩)

variable {k : WalScan → Io β}

theorem scan_bind (h : Reads store.wal log)
    (hk : ∀ scan, IsScan log scan → Spec (k scan) store C Q E) :
    Spec (WriteAheadLog.scan >>= k) store C Q E := by
  obtain ⟨scan, -, hisScan⟩ := h.isScan
  refine .bind (scan_spec h (hk scan hisScan).start) ?_
  rintro scan _ ⟨hisScan, rfl⟩
  exact hk scan hisScan

/-- A WAL file that reads as a log and has lost nothing durable of it, and of which nothing new
became durable. -/
structure Retains (log : List Record) (wal wal' : WalFile) : Prop where
  reads : Reads wal' log
  synced : min wal.synced (logBytes log).length ≤ wal'.synced
  synced_le : wal'.synced ≤ wal.synced

section

variable (h : Reads store.wal log)
  (hC : ∀ wal, Retains log store.wal wal → C { store with wal := wal })
include h hC

/-- Scanning and cutting the tail leaves exactly the log. -/
theorem scanAndTruncate_spec :
    Spec scanAndTruncate store C
      (fun scan store' => ∃ wal, store' = { store with wal := wal } ∧ IsScan log scan ∧
        wal.bytes = logBytes log ∧ Retains log store.wal wal) E := by
  have hretains : Retains log store.wal store.wal := ⟨h, min_le_left .., le_rfl⟩
  refine scan_bind h fun scan hisScan => .query_bind rfl ?_
  split
  · have hcut : Retains log store.wal (store.wal.truncate (logBytes log).length) :=
      ⟨h.logOk.reads h.truncate, le_rfl, min_le_left ..⟩
    rw [hisScan.2.2]
    exact .perform_bind (hC _ hretains) (.pure (hC _ hcut) ⟨_, rfl, hisScan, h.truncate, hcut⟩)
  · rename_i hlen
    refine .pure (hC _ hretains) ⟨store.wal, rfl, hisScan, ?_, hretains⟩
    -- the log is all there is
    obtain ⟨tail, -, hwal⟩ := h.tail
    have hlen : store.wal.bytes.length = (logBytes log).length :=
      (not_not.mp hlen).trans hisScan.2.2
    rw [hwal, List.length_append] at hlen
    have hnil : tail = [] := List.eq_nil_of_length_eq_zero (by omega)
    rw [hwal, hnil, List.append_nil]

theorem scanAndTruncate_bind
    (hk : ∀ scan wal, IsScan log scan → wal.bytes = logBytes log → Retains log store.wal wal →
      Spec (k scan) { store with wal := wal } C Q E) :
    Spec (scanAndTruncate >>= k) store C Q E := by
  refine .bind (scanAndTruncate_spec h hC) ?_
  rintro scan _ ⟨wal, rfl, hisScan, hbytes, hretains⟩
  exact hk scan wal hisScan hbytes hretains

end

/-! ## A new group -/

/-- The group an append writes at `beginLsn`. -/
def newGroup (applyIndex : Nat) (stateHash : Digest) (nextPageId : Nat)
    (rootDirectory : Option Nat) (pages : List Page) (beginLsn : Nat) : CommittedApply where
  applyIndex := applyIndex
  stateHash := stateHash
  nextPageId := nextPageId
  rootDirectory := rootDirectory
  pages := stampAll applyIndex pages (beginLsn + 88)
  beginLsn := beginLsn
  commitLsn := beginLsn + 88 + pages.length * pageFrameSize
  endLsn := beginLsn + 88 + pages.length * pageFrameSize + 76
  digest := Sha256.digest (leBytes 8 applyIndex ++
    beginPayload stateHash nextPageId rootDirectory ++
    (stampAll applyIndex pages (beginLsn + 88)).flatMap pagePayload)

/-- Appending page images behind the first frames of a group. -/
theorem appendPages_spec (hopen : g.OpenOk) (hlog : LogOk log) {disk : Disk} {synced : Nat}
    (hC : ∀ wal, Reads wal log → wal.synced = synced → C { disk, wal })
    (hE : ∀ e wal, Reads wal log → wal.synced = synced →
      u64Max < offset + todo.length * pageFrameSize → E e { disk, wal })
    (hpages : g.pages = done ++ stampAll g.applyIndex todo offset) {wal : WalFile}
    (hbytes : wal.bytes = logBytes log ++ framesBytes (g.beginFrame :: done.map g.pageFrame))
    (hsynced : wal.synced = synced) (hoffset : offset = wal.bytes.length)
    (hchain : Chain (logBytes log).length (g.beginFrame :: done.map g.pageFrame)) :
    Spec (appendPages g.applyIndex todo done (g.material done) offset) { disk, wal } C
      (fun result store' => ∃ wal', store' = { disk, wal := wal' } ∧
        result = (g.pages, g.material g.pages, wal'.bytes.length) ∧
        wal'.bytes = logBytes log ++ framesBytes g.openFrames ∧
        wal'.bytes.length = offset + todo.length * pageFrameSize ∧ wal'.synced = synced ∧
        Reads wal' log ∧ Chain (logBytes log).length g.openFrames)
      E := by
  induction todo generalizing done offset wal with
  | nil =>
    have hdone : g.pages = done := by simpa [stampAll] using hpages
    have hreads : Reads wal log := ⟨hlog, _, tail_open hopen hpages hchain, hbytes⟩
    subst hdone
    exact .pure (hC wal hreads hsynced) ⟨wal, rfl, by rw [hoffset], hbytes, by simp [hoffset],
      hsynced, hreads, hchain⟩
  | cons page todo ih =>
    have hreads : Reads wal log := ⟨hlog, _, tail_open hopen hpages hchain, hbytes⟩
    set image := page.stamp offset g.applyIndex with himage
    have hpages' : g.pages = (done ++ [image]) ++
        stampAll g.applyIndex todo (offset + pageFrameSize) := by
      rw [hpages, stampAll, List.append_assoc, List.singleton_append]
    unfold appendPages
    rw [Page.stampPage_eq]
    refine appendFrame_bind
      ⟨.pageImage, offset, g.applyIndex, pagePayload image, offset + pageFrameSize⟩
      (by rw [size_pageImage]; exact pageFrameSize_le) (hC wal hreads hsynced)
      (fun _ hfull => hE _ wal hreads hsynced ?_) fun hfits => ?_
    · rw [size_pageImage] at hfull
      dsimp only at hfull
      rw [List.length_cons, Nat.add_mul]
      omega
    have hlsn : image.lsn = offset := Page.lsn_stamp (by dsimp only at hfits; omega) _ _
    have hframe : (⟨.pageImage, offset, g.applyIndex, pagePayload image,
        offset + pageFrameSize⟩ : Frame) = g.pageFrame image := by
      simp only [CommittedApply.pageFrame, hlsn, pageFrameSize, Nat.add_assoc]
    rw [hframe] at hfits ⊢
    have hsize := size_pageFrame g image
    have hbytes' : (wal.append (g.pageFrame image).bytes).bytes =
        logBytes log ++ framesBytes (g.beginFrame :: (done ++ [image]).map g.pageFrame) := by
      simp [WalFile.append, hbytes]
    have hat : (g.pageFrame image).At (wal.bytes.length) := {
      lsn := by rw [← hoffset]; exact hlsn
      lsn_le := by dsimp only at hfits; omega
      applyIndex := hchain.1.applyIndex
      size_le := by rw [hsize]; exact pageFrameSize_le
      endLsn := by rw [hsize, ← hoffset, ← hlsn]; rfl }
    have hchain' : Chain (logBytes log).length
        (g.beginFrame :: (done ++ [image]).map g.pageFrame) := by
      rw [List.map_append, ← List.cons_append]
      refine Chain.append.mpr ⟨hchain, ?_, trivial⟩
      rwa [hbytes, List.length_append] at hat
    have hoffset' :
        offset + pageFrameSize = (wal.append (g.pageFrame image).bytes).bytes.length := by
      simp [WalFile.append, hoffset, hsize]
    have hrest := ih (fun e wal hr hsync hfull => hE e wal hr hsync (by
      rw [List.length_cons, Nat.add_mul]
      omega)) hpages' hbytes' hsynced hoffset' hchain'
    have hmaterial : g.material (done ++ [image]) = g.material done ++ pagePayload image := by
      simp [CommittedApply.material]
    rw [hmaterial] at hrest
    rw [hsize]
    refine hrest.imp ?_
    rintro result _ ⟨wal', rfl, hresult, hbytes, hlength, hrest⟩
    refine ⟨wal', rfl, hresult, hbytes, ?_, hrest⟩
    rw [hlength, List.length_cons]
    ring

/-- What a group must be like to be appended. -/
structure Accepts (log : List Record) (nextPageId : Nat) (rootDirectory : Option Nat)
    (pages : List Page) : Prop where
  id_lt : ∀ page ∈ pages, page.id < nextPageId
  rootDirectory : ∀ root, rootDirectory = some root → root < nextPageId
  valid : ∀ page ∈ pages, page.Valid
  nodup : (pages.map Page.id).Nodup
  count : pages.length < 2 ^ 32
  room : (logBytes log).length + 88 + pages.length * pageFrameSize + 76 ≤ u64Max

omit [Sha256] in
theorem checkPages_eq_ok {ids : List Nat} :
    checkPages pages ids = .ok () ↔ (∀ page ∈ pages, page.Valid) ∧ (pages.map Page.id).Nodup ∧
      ∀ page ∈ pages, page.id ∉ ids := by
  induction pages generalizing ids with
  | nil => simp [checkPages]
  | cons page pages ih =>
    unfold checkPages
    constructor
    · intro h
      split at h
      · cases h
      rename_i hvalidate
      split at h
      · cases h
      rename_i hfresh
      obtain ⟨hvalid, hnodup, hnot⟩ := ih.mp h
      refine ⟨?_, ?_, ?_⟩
      · intro other hother
        rcases List.mem_cons.mp hother with rfl | hother
        · exact Page.validate_eq_ok.mp hvalidate
        · exact hvalid other hother
      · rw [List.map_cons, List.nodup_cons]
        refine ⟨fun hmem => ?_, hnodup⟩
        obtain ⟨other, hother, heq⟩ := List.mem_map.mp hmem
        exact hnot other hother (heq ▸ List.mem_cons_self)
      · intro other hother
        rcases List.mem_cons.mp hother with rfl | hother
        · exact hfresh
        · exact fun hmem => hnot other hother (List.mem_cons_of_mem _ hmem)
    · rintro ⟨hvalid, hnodup, hnot⟩
      rw [List.map_cons, List.nodup_cons] at hnodup
      rw [Page.validate_eq_ok.mpr (hvalid page List.mem_cons_self)]
      rw [if_neg (hnot page List.mem_cons_self)]
      refine ih.mpr ⟨fun other hother => hvalid other (List.mem_cons_of_mem _ hother), hnodup.2,
        fun other hother hmem => ?_⟩
      rcases List.mem_cons.mp hmem with heq | hmem
      · exact hnodup.1 (heq ▸ List.mem_map_of_mem hother)
      · exact hnot other (List.mem_cons_of_mem _ hother) hmem

theorem openOk_newGroup {applyIndex : Nat} {stateHash : Digest} {nextPageId : Nat}
    {rootDirectory : Option Nat} {beginLsn : Nat} (htwo : 2 ≤ nextPageId)
    (hmax : nextPageId ≤ u64Max) (hroot : ∀ root, rootDirectory = some root → root < nextPageId)
    (hvalid : ∀ page ∈ pages, page.Valid) (hlt : ∀ page ∈ pages, page.id < nextPageId)
    (hnodup : (pages.map Page.id).Nodup) :
    (newGroup applyIndex stateHash nextPageId rootDirectory pages beginLsn).OpenOk where
  two_le := htwo
  nextPageId := hmax
  rootDirectory := hroot
  valid image himage := by
    obtain ⟨page, hpage, lsn, rfl⟩ := mem_stampAll himage
    exact (hvalid page hpage).stamp lsn applyIndex
  id_lt image himage := by
    obtain ⟨page, hpage, lsn, rfl⟩ := mem_stampAll himage
    rw [Page.id_stamp]
    exact hlt page hpage
  nodup := by
    simpa [newGroup] using hnodup

/-- A group that was made of the arguments of an append and may follow the log. -/
structure NewGroup (log : List Record) (applyIndex : Nat) (stateHash : Digest) (nextPageId : Nat)
    (rootDirectory : Option Nat) (pages : List Page) (g : CommittedApply) : Prop where
  eq : ∃ sorted, sorted.Perm pages ∧
    g = newGroup applyIndex stateHash nextPageId rootDirectory sorted (logBytes log).length
  nodup : (pages.map Page.id).Nodup
  ok : g.Ok
  chain : Chain (logBytes log).length g.frames

omit [Sha256] in
theorem pairwise_le_getLast {groups : List CommittedApply}
    (h : groups.Pairwise fun a b => a.applyIndex < b.applyIndex) {last : CommittedApply}
    (hlast : groups.getLast? = some last) (hg : g ∈ groups) : g.applyIndex ≤ last.applyIndex := by
  obtain ⟨front, rfl⟩ := List.getLast?_eq_some_iff.mp hlast
  rcases List.mem_append.mp hg with hg | hg
  · exact ((List.pairwise_append.mp h).2.2 g hg last (List.mem_singleton_self _)).le
  · rw [List.mem_singleton.mp hg]

section Apply

variable {applyIndex : Nat} {stateHash : Digest} {nextPageId : Nat} {rootDirectory : Option Nat}
  {pages : List Page} {E : StorageError → Store → Prop}

theorem NewGroup.applyIndex_eq {g : CommittedApply}
    (h : NewGroup log applyIndex stateHash nextPageId rootDirectory pages g) :
    g.applyIndex = applyIndex := by
  obtain ⟨sorted, -, rfl⟩ := h.eq
  rfl

/-- Writing a group commits it, or fails when there are too many pages or there is no room. -/
theorem writeGroup_spec {g : CommittedApply} (hlog : LogOk log)
    (hbytes : store.wal.bytes = logBytes log)
    (hgroup : g = newGroup applyIndex stateHash nextPageId rootDirectory pages
      (logBytes log).length) (hopen : g.OpenOk) (hmax : applyIndex ≤ u64Max)
    (hC : ∀ wal, Reads wal log → wal.synced = store.wal.synced → C { store with wal := wal })
    (hC' : g.Ok → Chain (logBytes log).length g.frames → ∀ wal : WalFile,
      wal.bytes = logBytes log ++ framesBytes g.frames →
      wal.synced = store.wal.synced ∨ wal.synced = wal.bytes.length → C { store with wal := wal })
    (hE : ∀ e wal, Reads wal log → wal.synced = store.wal.synced → (pages.length < 2 ^ 32 →
      u64Max < (logBytes log).length + 88 + pages.length * pageFrameSize + 76) →
      E e { store with wal := wal }) :
    Spec (writeGroup applyIndex stateHash nextPageId rootDirectory pages) store C
      (fun g' store' => g' = g ∧ g.Ok ∧ Chain (logBytes log).length g.frames ∧
        ∃ wal, store' = { store with wal := wal } ∧
          wal.bytes = logBytes log ++ framesBytes g.frames ∧ wal.synced = wal.bytes.length) E := by
  have hbeginSize : g.beginFrame.size = 88 := by
    simp [Frame.size, CommittedApply.beginFrame, beginPayload, frameFixed]
  have hcommitSize : g.commitFrame.size = 76 := by
    simp [Frame.size, CommittedApply.commitFrame, frameFixed]
  have hindex : g.applyIndex = applyIndex := by rw [hgroup]; rfl
  have hcount : g.pages.length = pages.length := by rw [hgroup]; exact length_stampAll ..
  have hstart : Reads store.wal log := hlog.reads hbytes
  refine .query_bind rfl ?_
  have hbegin : appendFrame .beginApply store.wal.bytes.length applyIndex
      (beginPayload stateHash nextPageId rootDirectory) = appendFrame g.beginFrame.kind
        g.beginFrame.lsn g.beginFrame.applyIndex g.beginFrame.payload := by
    rw [hgroup, hbytes]
    rfl
  dsimp only
  rw [hbegin]
  refine appendFrame_bind g.beginFrame (by rw [hbeginSize]; decide) (hC _ hstart rfl) ?_ ?_
  · intro _ hfull
    rw [hbytes] at hfull
    exact hE _ store.wal hstart rfl fun _ => by omega
  intro hfits
  -- the begin frame
  have hbeginAt : g.beginFrame.At (logBytes log).length := {
    lsn := by rw [hgroup]; rfl
    lsn_le := by rw [← hbytes]; omega
    applyIndex := hindex.trans_le hmax
    size_le := by rw [hbeginSize]; decide
    endLsn := by rw [hbeginSize, hgroup]; rfl }
  have hwal₁ : (store.wal.append g.beginFrame.bytes).bytes =
      logBytes log ++ framesBytes (g.beginFrame :: ([] : List Page).map g.pageFrame) := by
    simp [WalFile.append, hbytes]
  have hchain₁ : Chain (logBytes log).length
      (g.beginFrame :: ([] : List Page).map g.pageFrame) := ⟨hbeginAt, trivial⟩
  have hsplit : g.pages = [] ++ stampAll g.applyIndex pages (store.wal.bytes.length + 88) := by
    rw [hgroup, hbytes]
    rfl
  -- the page images
  have hmaterial : leBytes 8 applyIndex ++ beginPayload stateHash nextPageId rootDirectory =
      g.material [] := by
    rw [hgroup]
    simp [CommittedApply.material, newGroup]
  rw [hbeginSize, hmaterial, ← hindex]
  have hE' : ∀ (e : StorageError) (wal : WalFile), Reads wal log →
      wal.synced = store.wal.synced →
      u64Max < store.wal.bytes.length + 88 + pages.length * pageFrameSize →
      E e { store with wal := wal } := by
    intro e wal hr hsync hroom
    rw [hbytes] at hroom
    exact hE e wal hr hsync fun _ => by omega
  refine .bind (appendPages_spec hopen hlog hC hE' hsplit hwal₁ rfl
    (by simp [WalFile.append, hbeginSize]) hchain₁) ?_
  rintro _ _ ⟨wal₂, rfl, rfl, hwal₂, hlength, hsynced, hreads, hchain₂⟩
  dsimp only
  split
  · rename_i htoo
    exact .fail (hC wal₂ hreads hsynced) (hE _ wal₂ hreads hsynced fun hless => by omega)
  rename_i hcountLt
  -- the commit
  have hcommitLsn : wal₂.bytes.length = g.commitLsn := by
    rw [hlength, hgroup, hbytes]
    rfl
  have hdigest : Sha256.digest (g.material g.pages) = g.digest := by
    rw [hgroup]
    rfl
  rw [hdigest, hcommitLsn]
  refine appendFrame_bind g.commitFrame (by rw [hcommitSize]; decide) (hC wal₂ hreads hsynced) ?_ ?_
  · intro _ hroom
    rw [hlength, hbytes] at hroom
    exact hE _ wal₂ hreads hsynced fun _ => by omega
  intro hfits₂
  have hg : g.Ok := ⟨hopen, by omega, hdigest.symm⟩
  have hbytes₃ :
      (wal₂.append g.commitFrame.bytes).bytes = logBytes log ++ framesBytes g.frames := by
    simp [WalFile.append, hwal₂, CommittedApply.frames]
  have hchain₃ : Chain (logBytes log).length g.frames := by
    refine Chain.append.mpr ⟨hchain₂, ⟨?_, ?_, ?_, ?_, ?_⟩, trivial⟩
    · rw [← List.length_append, ← hwal₂]
      exact hcommitLsn.symm
    · rw [← List.length_append, ← hwal₂]
      dsimp only at hfits₂
      omega
    · exact hindex.trans_le hmax
    · rw [hcommitSize]
      decide
    · rw [← List.length_append, ← hwal₂, hcommitLsn, hcommitSize, hgroup]
      rfl
  refine .perform_bind (hC' hg hchain₃ _ hbytes₃ (.inl hsynced)) ?_
  refine .pure (hC' hg hchain₃ _ hbytes₃ (.inr rfl)) ⟨?_, hg, hchain₃, _, rfl, hbytes₃, rfl⟩
  rw [hcommitSize, hgroup, hbytes]
  rfl

/-- Appending a new group commits it or fails when it is not accepted. -/
theorem appendGroup_spec (hlog : LogOk log) (hbytes : store.wal.bytes = logBytes log)
    (hmax : applyIndex ≤ u64Max) (hnextMax : nextPageId ≤ u64Max)
    (hC : ∀ wal, Reads wal log → wal.synced = store.wal.synced → C { store with wal := wal })
    (hC' : ∀ g wal, NewGroup log applyIndex stateHash nextPageId rootDirectory pages g →
      wal.bytes = logBytes log ++ framesBytes g.frames →
      wal.synced = store.wal.synced ∨ wal.synced = wal.bytes.length → C { store with wal := wal })
    (hE : ∀ e wal, Reads wal log → wal.synced = store.wal.synced →
      (2 ≤ nextPageId → ¬Accepts log nextPageId rootDirectory pages) →
      E e { store with wal := wal }) :
    Spec (appendGroup applyIndex stateHash nextPageId rootDirectory pages) store C
      (fun g store' => NewGroup log applyIndex stateHash nextPageId rootDirectory pages g ∧
        ∃ wal, store' = { store with wal := wal } ∧
          wal.bytes = logBytes log ++ framesBytes g.frames ∧ wal.synced = wal.bytes.length) E := by
  have hperm := List.perm_insertionSort (fun a b : Page => a.id ≤ b.id) pages
  have hstart : Reads store.wal log := hlog.reads hbytes
  have hsafe : C store := hC store.wal hstart rfl
  unfold appendGroup
  dsimp only
  set sorted := pages.insertionSort fun a b => a.id ≤ b.id with hsorted
  split
  · rename_i hbad
    refine .fail hsafe (hE _ store.wal hstart rfl fun htwo haccepts => ?_)
    rcases hbad with hbad | hbad | hbad
    · omega
    · obtain ⟨page, hpage, hle⟩ := List.any_eq_true.mp hbad
      have hlt := haccepts.id_lt page (hperm.mem_iff.mp hpage)
      simp only [decide_eq_true_eq] at hle
      omega
    · cases rootDirectory with
      | none => cases hbad
      | some root =>
        have hlt := haccepts.rootDirectory root rfl
        simp only [rootOutside, Option.any_some, decide_eq_true_eq] at hbad
        omega
  rename_i hgood
  simp only [not_or, not_lt, Bool.not_eq_true] at hgood
  obtain ⟨htwo, hids, hroot⟩ := hgood
  cases hcheck : checkPages sorted [] with
  | error e =>
    refine .bind (.query (Q := fun _ _ => False) hsafe (fun a ha => ?_) fun e' he' => ?_)
      fun _ _ hfalse => hfalse.elim
    · cases ha
    · refine hE _ store.wal hstart rfl fun _ haccepts => ?_
      rw [checkPages_eq_ok.mpr ⟨fun page hpage => haccepts.valid page (hperm.mem_iff.mp hpage),
        (hperm.map Page.id).nodup_iff.mpr haccepts.nodup, fun _ _ => List.not_mem_nil⟩] at hcheck
      cases hcheck
  | ok u =>
    obtain ⟨hvalid, hnodup, -⟩ := checkPages_eq_ok.mp hcheck
    refine .query_bind rfl ?_
    have hlt : ∀ page ∈ sorted, page.id < nextPageId := by
      intro page hpage
      have hnot := List.any_eq_false.mp hids page hpage
      simpa using hnot
    have hroot' : ∀ root, rootDirectory = some root → root < nextPageId := by
      rintro root rfl
      simpa [rootOutside] using hroot
    have hnew : ∀ {g : CommittedApply}, g = newGroup applyIndex stateHash nextPageId rootDirectory
        sorted (logBytes log).length → g.Ok → Chain (logBytes log).length g.frames →
        NewGroup log applyIndex stateHash nextPageId rootDirectory pages g :=
      fun heq hok hchain =>
        ⟨⟨sorted, hperm, heq⟩, (hperm.map Page.id).nodup_iff.mp hnodup, hok, hchain⟩
    refine (writeGroup_spec hlog hbytes rfl (openOk_newGroup htwo hnextMax hroot' hvalid hlt hnodup)
      hmax hC (fun hok hchain wal => hC' _ wal (hnew rfl hok hchain))
      fun e wal hr hsync hroom => hE e wal hr hsync fun _ haccepts => ?_).imp ?_
    · have hlen : sorted.length = pages.length := hperm.length_eq
      have hno := hroom (hlen ▸ haccepts.count)
      have hyes := haccepts.room
      rw [hlen] at hno
      omega
    · rintro _ store' ⟨rfl, hok, hchain, hrest⟩
      exact ⟨hnew rfl hok hchain, hrest⟩

/-- Appending a group commits it, or returns the one the log has at this index, or fails. -/
theorem appendApplyWithMetadata_spec (h : Reads store.wal log) (hmax : applyIndex ≤ u64Max)
    (hnextMax : nextPageId ≤ u64Max)
    (hC : ∀ wal, Retains log store.wal wal → C { store with wal := wal })
    (hC' : ∀ g wal, NewGroup log applyIndex stateHash nextPageId rootDirectory pages g →
      (∀ last ∈ logGroups log, last.applyIndex < applyIndex) →
      wal.bytes = logBytes log ++ framesBytes g.frames →
      min store.wal.synced (logBytes log).length ≤ wal.synced → C { store with wal := wal })
    (hE : ∀ e wal, Retains log store.wal wal →
      ((∀ g ∈ logGroups log, g.applyIndex < applyIndex) → 2 ≤ nextPageId →
        ¬Accepts log nextPageId rootDirectory pages) → E e { store with wal := wal }) :
    Spec (appendApplyWithMetadata applyIndex stateHash nextPageId rootDirectory pages) store C
      (fun g store' => ∃ wal, store' = { store with wal := wal } ∧
        (g ∈ logGroups log ∧ g.applyIndex = applyIndex ∧ Retains log store.wal wal ∨
          NewGroup log applyIndex stateHash nextPageId rootDirectory pages g ∧
          (∀ last ∈ logGroups log, last.applyIndex < applyIndex) ∧
          wal.bytes = logBytes log ++ framesBytes g.frames ∧ wal.synced = wal.bytes.length)) E := by
  refine scanAndTruncate_bind h hC fun scan wal hscan hbytes hretains => ?_
  have hsafe := hC wal hretains
  split
  · -- the log has a group at this index
    rename_i existing hfind
    have hmem : existing ∈ logGroups log := hscan.1 ▸ List.mem_of_find?_eq_some hfind
    have hindex : existing.applyIndex = applyIndex := by simpa using List.find?_some hfind
    split
    · exact .pure hsafe ⟨wal, rfl, .inl ⟨hmem, hindex, hretains⟩⟩
    · refine .fail hsafe (hE _ wal hretains fun hall => ?_)
      exact absurd (hall existing hmem) (by omega)
  · split
    · rename_i last hlast
      obtain ⟨hlast, hle⟩ := Option.filter_eq_some_iff.mp hlast
      have hmem : last ∈ logGroups log := hscan.1 ▸ List.mem_of_getLast? hlast
      simp only [decide_eq_true_eq] at hle
      refine .fail hsafe (hE _ wal hretains fun hall => ?_)
      exact absurd (hall last hmem) (by omega)
    · -- every group of the log is below this index
      rename_i hlast
      have hall : ∀ last ∈ logGroups log, last.applyIndex < applyIndex := by
        intro g hg
        rw [hscan.1, Option.filter_eq_none_iff] at hlast
        obtain ⟨last, hlast'⟩ : ∃ last, (logGroups log).getLast? = some last := by
          cases hlast' : (logGroups log).getLast? with
          | none => simp [List.getLast?_eq_none_iff.mp hlast'] at hg
          | some last => exact ⟨last, rfl⟩
        have hbelow := hlast last hlast'
        simp only [decide_eq_true_eq, not_le] at hbelow
        have hle := pairwise_le_getLast h.logOk.ascending hlast' hg
        omega
      have hsynced := hretains.synced
      have hle := hretains.synced_le
      have hstep : ∀ wal', Reads wal' log → wal'.synced = wal.synced →
          Retains log store.wal wal' := fun wal' hr hsync => ⟨hr, by rwa [hsync], by rwa [hsync]⟩
      have hbytes : ({ store with wal := wal } : Store).wal.bytes = logBytes log := hbytes
      refine (appendGroup_spec h.logOk hbytes hmax hnextMax
        (fun wal' hr hsync => hC wal' (hstep wal' hr hsync))
        (fun g wal' hnew hbytes' hsync => hC' g wal' hnew hall hbytes' ?_)
        fun e wal' hr hsync hnot => hE e wal' (hstep wal' hr hsync) fun _ => hnot).imp ?_
      · rcases hsync with hsync | hsync
        · rwa [hsync]
        · rw [hsync, hbytes', List.length_append]
          omega
      · rintro g store' ⟨hnew, wal', rfl, hrest⟩
        exact ⟨wal', rfl, .inr ⟨hnew, hall, hrest⟩⟩

end Apply

/-- The last group of a log, if there is one, has this index and hash. -/
def EndsIn (log : List Record) (appliedIndex : Nat) (stateHash : Digest) : Prop :=
  ∀ g ∈ (logGroups log).getLast?, g.applyIndex = appliedIndex ∧ g.stateHash = stateHash

/-- A checkpoint that was made of the arguments of an append and may follow the log. -/
structure NewCheckpoint (log : List Record) (appliedIndex : Nat) (stateHash : Digest)
    (c : Checkpoint) : Prop where
  appliedIndex : c.appliedIndex = appliedIndex
  stateHash : c.stateHash = stateHash
  throughLsn : c.throughLsn ≤ u64Max
  endLsn : c.endLsn ≤ u64Max
  chain : Chain (logBytes log).length [c.frame]

/-- Appending a checkpoint marks the log or fails. -/
theorem appendCheckpoint_spec {throughLsn appliedIndex : Nat} {stateHash : Digest}
    (h : Reads store.wal log) (hmax : appliedIndex ≤ u64Max)
    (hC : ∀ wal, Retains log store.wal wal → C { store with wal := wal })
    (hC' : ∀ c wal, NewCheckpoint log appliedIndex stateHash c →
      EndsIn log appliedIndex stateHash → wal.bytes = logBytes log ++ framesBytes [c.frame] →
      min store.wal.synced (logBytes log).length ≤ wal.synced → C { store with wal := wal })
    (hE : ∀ e wal, Retains log store.wal wal → (throughLsn ≤ (logBytes log).length →
      EndsIn log appliedIndex stateHash → u64Max < (logBytes log).length + 88) →
      E e { store with wal := wal }) :
    Spec (appendCheckpoint throughLsn appliedIndex stateHash) store C
      (fun c store' => NewCheckpoint log appliedIndex stateHash c ∧
        EndsIn log appliedIndex stateHash ∧ ∃ wal, store' = { store with wal := wal } ∧
          wal.bytes = logBytes log ++ framesBytes [c.frame] ∧ wal.synced = wal.bytes.length) E := by
  refine scanAndTruncate_bind h hC fun scan wal hscan hbytes hretains => ?_
  have hsafe := hC wal hretains
  split
  · rename_i hthrough
    refine .fail hsafe (hE _ wal hretains fun hle => ?_)
    rw [hscan.2.2] at hthrough
    omega
  rename_i hthrough
  rw [hscan.2.2] at hthrough
  split
  · rename_i hlast
    refine .fail hsafe (hE _ wal hretains fun _ hsame => ?_)
    rw [hscan.1] at hlast
    cases hgroup : (logGroups log).getLast? with
    | none =>
      rw [hgroup] at hlast
      cases hlast
    | some g =>
      obtain ⟨hindex, hhash⟩ := hsame g hgroup
      simp [hgroup, hindex, hhash] at hlast
  rename_i hlast
  have hsame : EndsIn log appliedIndex stateHash := by
    intro g hg
    rw [hscan.1, Option.mem_def.mp hg] at hlast
    simp only [Option.any_some, decide_eq_true_eq, not_or, not_not] at hlast
    exact ⟨hlast.1.symm, hlast.2.symm⟩
  refine .query_bind rfl ?_
  set c : Checkpoint := {
    frameLsn := wal.bytes.length
    throughLsn
    appliedIndex
    stateHash
    endLsn := wal.bytes.length + 88 } with hc
  have hsize : c.frame.size = 88 := by simp [Frame.size, Checkpoint.frame, frameFixed]
  refine appendFrame_bind c.frame (by rw [hsize]; decide) hsafe (fun _ hroom => ?_) fun hfits => ?_
  · rw [hsize] at hroom
    rw [hbytes] at hroom
    exact hE _ wal hretains fun _ _ => hroom
  rw [hsize] at hfits
  dsimp only at hfits
  have hnew : NewCheckpoint log appliedIndex stateHash c := by
    refine ⟨rfl, rfl, ?_, hfits, ⟨?_, ?_, hmax, ?_, ?_⟩, trivial⟩
    · change throughLsn ≤ u64Max
      rw [hbytes] at hfits
      omega
    · rw [← hbytes]
      rfl
    · rw [← hbytes]
      omega
    · rw [hsize]
      decide
    · rw [hsize, ← hbytes]
      rfl
  have hbytes' : (wal.append c.frame.bytes).bytes = logBytes log ++ framesBytes [c.frame] := by
    simp [WalFile.append, hbytes]
  refine .perform_bind (hC' c _ hnew hsame hbytes' hretains.synced) ?_
  rw [hsize]
  refine .pure (hC' c _ hnew hsame hbytes' ?_) ⟨hnew, hsame, _, rfl, hbytes', rfl⟩
  change _ ≤ (wal.append c.frame.bytes).bytes.length
  rw [hbytes', List.length_append]
  omega

end AsterStorage
