import AsterDB.Models.Storage.Interpretation.Calls

/-!
# Opening the pager

Recovery passes over the groups its superblock covers, replays the pending one
and publishes it. On files that were never opened it writes both slots.
-/

namespace AsterStorage

open AsterRaft (Sha256 u64Max)
open ByteString Crash

/-- Groups that a superblock covers are passed over. -/
theorem recoverGroups_append {sb : Superblock} {groups : List CommittedApply}
    (h : ∀ g ∈ groups, g.applyIndex ≤ sb.appliedIndex ∧
      (g.applyIndex = sb.appliedIndex → g.stateHash = sb.stateHash))
    (rest : List CommittedApply) (report : RecoveryReport) :
    ∃ report', recoverGroups (groups ++ rest) sb report = recoverGroups rest sb report' := by
  induction groups generalizing report with
  | nil => exact ⟨report, rfl⟩
  | cons g groups ih =>
    obtain ⟨hle, hhash⟩ := h g List.mem_cons_self
    obtain ⟨report', hrest⟩ := ih (fun g hg => h g (List.mem_cons_of_mem _ hg))
      { report with groupsExamined := report.groupsExamined + 1 }
    refine ⟨report', ?_⟩
    rw [List.cons_append, recoverGroups]
    by_cases hlt : g.applyIndex < sb.appliedIndex
    · rw [if_pos hlt, hrest]
    · have heq : g.applyIndex = sb.appliedIndex := by omega
      rw [if_neg hlt, if_pos heq, if_neg (not_not.mpr (hhash heq)), hrest]

variable [Sha256] {store : Store} {sb : Superblock} {v v' : Version} {log log' : List Record}
  {pending : Option CommittedApply} {old written : Page → Prop} {R : Store → Prop}

omit [Sha256] in
/-- A checkpoint of the log passes the check. -/
theorem CheckpointOk.check {scan : WalScan} (h : CheckpointOk sb log)
    (hchain : Chain 0 (logFrames log)) (hscan : IsScan (fullLog log pending) scan) :
    checkCheckpoint sb scan = .ok () := by
  have hcheckpoints : scan.checkpoints = logCheckpoints log := by
    rw [hscan.2.1, fullLog]
    cases pending <;> simp [logCheckpoints, Record.checkpoint?]
  have hoffset : (logBytes log).length ≤ scan.safeAppendOffset := by
    rw [hscan.2.2, logBytes_append, List.length_append]
    omega
  unfold checkCheckpoint
  rcases h with hzero | ⟨⟨c, hc, hend⟩, hall⟩
  · rw [if_neg (by omega), if_pos hzero]
  · have hbounds : 0 < c.endLsn ∧ c.endLsn ≤ (logBytes log).length :=
      Record.endLsn_le hchain (mem_logCheckpoints.mp hc)
    rw [if_neg (by omega), if_neg (by omega), hcheckpoints]
    cases hfind : (logCheckpoints log).find? fun c => c.endLsn = sb.checkpointLsn with
    | none =>
      have hno := List.find?_eq_none.mp hfind c hc
      simp [hend] at hno
    | some found =>
      have hfound : found.endLsn = sb.checkpointLsn := by simpa using List.find?_some hfind
      obtain ⟨hindex, hhash⟩ := hall found (List.mem_of_find?_eq_some hfind) hfound
      dsimp only
      rw [if_neg (by simp [hindex, hhash])]

variable {E : StorageError → Store → Prop} {C : Store → Prop}

/-- An open of sound files scans the log and recovers. -/
theorem openPager_recover {Q : Superblock × RecoveryReport → Store → Prop}
    (h : Sound store sb v log pending old written)
    (hC : ∀ wal, Sound { store with wal := wal } sb v log pending old written →
      C { store with wal := wal })
    (hE : ∀ scan wal e, IsScan (fullLog log pending) scan → checkCheckpoint sb scan = .error e →
      Sound { store with wal := wal } sb v log pending old written → E e { store with wal := wal })
    (hrecover : ∀ scan wal report, IsScan (fullLog log pending) scan → checkCheckpoint sb scan =
      .ok () → Sound { store with wal := wal } sb v log pending old written →
      Spec (recoverGroups pending.toList sb report) { store with wal := wal } C Q E) :
    Spec DurablePager.openPager store C Q E := by
  refine .bind (Q := fun _ store' => ∃ wal, store' = { store with wal := wal } ∧
    Sound { store with wal := wal } sb v log pending old written) ?_ ?_
  · exact scanAndTruncate_bind h.reads (fun wal hretains => hC wal (h.retains hretains))
      fun scan wal _ _ hretains =>
        .pure (hC wal (h.retains hretains)) ⟨wal, rfl, h.retains hretains⟩
  rintro _ _ ⟨wal, rfl, hs⟩
  refine scan_bind hs.reads fun scan hscan => ?_
  refine .query_bind hs.slots.read ?_
  have hrun : Spec (recover scan) { store with wal := wal } C Q E := by
    refine .query_bind hs.slots.read ?_
    dsimp only [Option.getD_some]
    cases hcheck : checkCheckpoint sb scan with
    | error e =>
      refine .bind (Q := fun _ _ => False) (.query (hC wal hs) (fun _ hok => ?_) fun e' he => ?_)
        fun _ _ hfalse => hfalse.elim
      · cases hok
      · cases he
        exact hE scan wal e hscan hcheck hs
    | ok u =>
      refine .query_bind rfl ?_
      have hgroups : scan.groups = logGroups log ++ pending.toList := by
        rw [hscan.1, fullLog]
        cases pending <;> simp [logGroups, Record.group?]
      obtain ⟨report, hskip⟩ := recoverGroups_append (fun g hg => by
        rw [hs.described.appliedIndex, hs.described.stateHash]
        exact hs.body.applied g hg) pending.toList {}
      rw [hgroups, hskip]
      exact hrecover scan wal report hscan hcheck hs
  exact hrun.bind_pure fun _ _ hQ => hQ

/-- An open with nothing to replay only cuts the tail of the log. -/
theorem openPager_quiet (h : Sound store sb v log none old written) :
    Spec DurablePager.openPager store
      (fun store' => store'.disk = store.disk ∧ Sound store' sb v log none old written)
      (fun result store' => result.1 = sb ∧ store'.disk = store.disk ∧
        Sound store' sb v log none old written ∧
        ∃ scan, IsScan log scan ∧ checkCheckpoint sb scan = .ok ())
      (fun e store' => Sound store' sb v log none old written ∧
        ∃ scan, IsScan log scan ∧ checkCheckpoint sb scan = .error e) := by
  refine openPager_recover h (fun wal hs => ⟨rfl, hs⟩) (fun scan wal e hscan hcheck hs =>
    ⟨hs, scan, fullLog_none log ▸ hscan, hcheck⟩) fun scan wal report hscan hcheck hs => ?_
  exact .pure ⟨rfl, hs⟩ ⟨rfl, rfl, hs, scan, fullLog_none log ▸ hscan, hcheck⟩

/-- An open with a pending group replays and publishes it. -/
theorem openPager_replay {g : CommittedApply} (h : Sound store sb v log (some g) old written)
    (hadvance : sb.generation = u64Max ∨ v.Advance g v')
    (hR : ∀ store, Sound store sb v log (some g) old written → R store)
    (hR' : ∀ store next, v.Advance g v' → next.Follows sb sb.checkpointLsn →
      Sound store next v' (log ++ [.group g]) none written written → R store) :
    Spec DurablePager.openPager store (Safely R)
      (fun result store' => v.Advance g v' ∧ result.1.Follows sb sb.checkpointLsn ∧
        Sound store' result.1 v' (log ++ [.group g]) none written written)
      (fun _ store' => Sound store' sb v log (some g) old written ∧
        (CheckpointOk sb log → sb.generation = u64Max)) := by
  have hchain : Chain 0 (logFrames log) := by
    have hall := h.body.wal.logOk.chain
    rw [logFrames_append] at hall
    exact (Chain.append.mp hall).1
  refine openPager_recover h (fun wal hs => hs.safely hR) (fun scan wal e hscan hcheck hs =>
    ⟨hs, fun hok => ?_⟩) fun scan wal report _ _ hs => ?_
  · rw [hok.check hchain hscan] at hcheck
    cases hcheck
  obtain ⟨hindex, -⟩ := hs.body.next g rfl
  rw [Option.toList_some, recoverGroups]
  rw [hs.described.appliedIndex, if_neg (by omega), if_neg (by omega), if_neg (by omega)]
  refine redo_spec hR hs _ fun report store₁ hs₁ hbody => ?_
  rcases hadvance with hexhausted | hadvance
  · exact .bind (publishSuperblock_exhausted hexhausted (hs₁.safely hR) fun _ =>
      ⟨hs₁, fun _ => hexhausted⟩) fun _ _ hfalse => hfalse.elim
  · have hpublish := publishSuperblock_spec hs₁ (hbody v' hadvance) h.slots.fits.checkpointLsn hR
      fun store next => hR' store next hadvance
    rw [hadvance.appliedIndex, hadvance.stateHash, hadvance.nextPageId, hadvance.rootDirectory]
      at hpublish
    refine .bind (hpublish.imp_error ?_) ?_
    · rintro e store' ⟨hexhausted, rfl⟩
      exact ⟨hs₁, fun _ => hexhausted⟩
    · rintro next store' ⟨hfollows, hs'⟩
      exact .pure (hs'.safely fun store hs => hR' store next hadvance hfollows hs)
        ⟨hadvance, hfollows, hs'⟩

/-! ## Files that were never opened -/

omit [Sha256] in
/-- Files on which no open has got as far as a superblock. -/
structure Fresh (store : Store) : Prop where
  wal : store.wal.bytes = []
  first : ∀ content, store.disk.Possible 0 content →
    content = none ∨ ∃ torn : TornPage, content = some torn.1
  rest : ∀ id content, id ≠ 0 → store.disk.Possible id content → content = none

omit [Sha256] in
theorem fresh_empty : Fresh .empty where
  wal := rfl
  first content hc := by
    rcases hc with rfl | ⟨_, hmem, _⟩
    · exact .inl rfl
    · cases hmem
  rest id content _ hc := by
    rcases hc with rfl | ⟨_, hmem, _⟩
    · rfl
    · cases hmem

omit [Sha256] in
theorem Fresh.crash (h : Fresh store) (fates : List Fate) (kept : Nat) :
    Fresh (store.crash fates kept) where
  wal := by simp [Store.crash, WalFile.crash, h.wal]
  first content hc := h.first content hc.of_crash
  rest id content hid hc := h.rest id content hid hc.of_crash

omit [Sha256] in
/-- Nothing is read from fresh slots. -/
theorem Fresh.read (h : Fresh store) :
    readSuperblock store.disk = .ok none ∨
      store.disk.pages 0 ≠ none ∧ ∃ e, readSuperblock store.disk = .error e := by
  have hone : readSlot store.disk 1 = .error (.notFound s!"page {1}") := by
    simp [readSlot, Disk.readPage, h.rest 1 _ one_ne_zero (store.disk.possible_pages 1)]
  rcases h.first _ (store.disk.possible_pages 0) with hnone | ⟨torn, htorn⟩
  · left
    have hzero : readSlot store.disk 0 = .error (.notFound s!"page {0}") := by
      simp [readSlot, Disk.readPage, hnone]
    simp [readSuperblock, readSlots, hone, hzero]
  · obtain ⟨e, hdecode⟩ : ∃ e, Page.decode torn.1 = .error e := by
      cases hdecode : Page.decode torn.1 with
      | error e => exact ⟨e, rfl⟩
      | ok page => exact absurd hdecode (torn.2 page)
    have hzero : readSlot store.disk 0 = .error e := by
      simp [readSlot, Disk.readPage, htorn, hdecode]
    cases e with
    | notFound value => exact .inl (by simp [readSuperblock, readSlots, hone, hzero])
    | _ => exact .inr ⟨by simp [htorn], by simp [readSuperblock, readSlots, hone, hzero]⟩

omit [Sha256] in
theorem fits_genesis : Superblock.genesis.Fits where
  slot := by decide
  generation := by decide
  appliedIndex := by decide
  checkpointLsn := by decide
  nextPageId := by decide
  two_le := by decide
  rootDirectory _ hroot := by cases hroot

/-- The first superblock on files without pages. -/
theorem sound_genesis {disk : Disk} {wal : WalFile} (hfirst : ∀ content, disk.Possible 0 content →
      content = some Superblock.genesis.encodePage.array)
    (hrest : ∀ id content, id ≠ 0 → disk.Possible id content → content = none)
    (hwal : wal.bytes = []) :
    Sound { disk, wal } .genesis .genesis [] none (fun _ => False) fun _ => False := by
  have hslots : Slots disk .genesis := by
    refine ⟨fits_genesis, hfirst, fun content hc bytes page other hbytes => ?_⟩
    rw [hrest 1 content one_ne_zero hc] at hbytes
    cases hbytes
  have hversion : Version.genesis.Ok := by
    refine ⟨by decide, by decide, by decide, ?_, ?_⟩
    · rintro root hroot
      cases hroot
    · exact fun id hid => absurd rfl hid
  have hlog : WalOk wal [] := by
    refine ⟨⟨trivial, ?_, List.Pairwise.nil⟩, ⟨[], tail_nil _, by simp [hwal]⟩, Nat.zero_le _⟩
    rintro record hrecord
    cases hrecord
  refine ⟨hslots, ⟨rfl, rfl, rfl, rfl⟩, hversion, hlog, fun id content hid hc => ?_, ?_, ?_, ?_⟩
  · rw [hrest id content (by omega) hc]
    exact ⟨fun _ hpage => (by cases hpage), fun _ _ hpage => (by cases hpage),
      fun _ hg => (by cases hg)⟩
  · rintro g hg
    cases hg
  · rintro g hg
    cases hg
  · intro _ id _ _ hid hlt
    have hnext : Version.genesis.nextPageId = 2 := rfl
    omega

/-- The scan of an empty log. -/
theorem Fresh.scan_bind (h : Fresh store) {β : Type} {k : WalScan → Io β} {Q : β → Store → Prop}
    (hk : Spec (k { groups := [], checkpoints := [], safeAppendOffset := 0, tornTailAt := none })
      store C Q E) : Spec (WriteAheadLog.scan >>= k) store C Q E := by
  have hscan : scanBytes store.wal.bytes =
      .ok { groups := [], checkpoints := [], safeAppendOffset := 0, tornTailAt := none } := by
    rw [h.wal]
    rfl
  refine .bind (Q := fun scan store' => scan = { groups := [], checkpoints := []
                                                 safeAppendOffset := 0, tornTailAt := none } ∧
    store' = store) (.query_bind rfl (.query_ok hscan hk.start ⟨rfl, rfl⟩)) ?_
  rintro _ _ ⟨rfl, rfl⟩
  exact hk

variable (h : Fresh store) (hR : ∀ store, Fresh store → R store)
  (hR' : ∀ store sb, sb.checkpointLsn = 0 →
    Sound store sb .genesis [] none (fun _ => False) (fun _ => False) → R store)
include h hR hR'

/-- The first slot of fresh files, written but not synced. -/
theorem Fresh.safely_first :
    Safely R { store with disk := store.disk.writePage 0 Superblock.genesis.encodePage.array } := by
  intro fates kept
  set store' := ({ store with
    disk := store.disk.writePage 0 Superblock.genesis.encodePage.array } : Store).crash fates kept
    with hstore
  have hwal : store'.wal.bytes = [] := by simp [hstore, Store.crash, WalFile.crash, h.wal]
  have hdurable : ∀ id content, store'.disk.Possible id content →
      content = store'.disk.durable id := by
    rintro id content (hcontent | ⟨_, hmem, _⟩)
    · exact hcontent
    · cases hmem
  have hrest : ∀ id content, id ≠ 0 → store'.disk.Possible id content → content = none :=
    fun id content hid hc => h.rest id content hid (hc.of_crash.of_writePage_of_ne hid)
  have hzero : store'.disk.Possible 0 (store'.disk.durable 0) := .inl rfl
  rcases hzero.of_crash.of_writePage with hold | ⟨-, hkept | ⟨torn, htorn⟩⟩
  · refine hR store' ⟨hwal, fun content hc => ?_, hrest⟩
    rw [hdurable 0 content hc]
    exact h.first _ hold
  · refine hR' store' .genesis rfl (sound_genesis (fun content hc => ?_) hrest hwal)
    rw [hdurable 0 content hc, hkept]
  · refine hR store' ⟨hwal, fun content hc => ?_, hrest⟩
    exact .inr ⟨torn, (hdurable 0 content hc).trans htorn⟩

/-- The first open writes both slots or finds a torn one. -/
theorem openPager_fresh :
    Spec DurablePager.openPager store (Safely R) (fun result store' => result.1.Follows .genesis 0 ∧
        Sound store' result.1 .genesis [] none (fun _ => False) fun _ => False)
      (fun _ store' => Fresh store' ∧ store.disk.pages 0 ≠ none) := by
  have hsafe : Safely R store := fun fates kept => hR _ (h.crash fates kept)
  refine .bind (Q := fun _ store' => store = store') ?_ ?_
  · refine .bind (Q := fun _ store' => store = store') (h.scan_bind (.query_bind rfl ?_))
      fun _ _ hstore => .pure (hstore ▸ hsafe) hstore
    rw [if_neg (by simp [h.wal])]
    exact .pure hsafe rfl
  rintro _ _ rfl
  refine h.scan_bind ?_
  rcases h.read with hread | ⟨hpages, e, hread⟩
  · refine .query_bind hread ?_
    refine .bind (Q := fun result store' => result.1 = .genesis ∧ store = store') ?_ ?_
    · exact .query_bind hread (.query_bind rfl (.pure hsafe ⟨rfl, rfl⟩))
    rintro ⟨_, report⟩ _ ⟨rfl, rfl⟩
    refine .query_bind (Superblock.encode_eq fits_genesis.slot) ?_
    rw [Superblock.id_encodePage fits_genesis.slot]
    refine .perform_bind hsafe (.perform_bind (h.safely_first hR hR') ?_)
    have hsync : Sound { store with
        disk := (store.disk.writePage 0 Superblock.genesis.encodePage.array).sync } .genesis
        .genesis [] none (fun _ => False) fun _ => False := by
      refine sound_genesis (fun content hc => ?_) (fun id content hid hc => ?_) h.wal
      · rw [hc.of_sync, Disk.pages_writePage, Function.update_self]
      · exact h.rest id content hid (hc.sync.of_writePage_of_ne hid)
    have hpublish := publishSuperblock_spec hsync hsync.body (Nat.zero_le u64Max)
      (fun store => hR' store .genesis rfl) fun store next hfollows =>
        hR' store next hfollows.checkpointLsn
    refine .bind_pure (hpublish.imp_error ?_) fun _ _ hQ => hQ
    rintro e store' ⟨hexhausted, -⟩
    cases hexhausted
  · refine .bind (Q := fun _ _ => False) (.query hsafe (fun a ha => ?_) fun _ _ => ⟨h, hpages⟩)
      fun _ _ hfalse => hfalse.elim
    rw [hread] at ha
    cases ha

end AsterStorage
