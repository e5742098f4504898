import AsterDB.Models.Storage.Correctness.Reopening
import AsterDB.Models.Storage.Interpretation.Faults

/-!
# Data pages follow the log

A data page is written by an apply or an open only as an image of a group all of
whose bytes a sync made durable, as long as neither finds a group in the log that
no sync covered. After a sync that failed such a group is there: it reads as
committed, and the retry takes it for durable.
-/

namespace AsterStorage

open AsterRaft (Digest Sha256 u64Max zeroHash)
open Crash WriteAheadLog

variable [Sha256]

/-- A data page is only written as an image of a durable group of the log. -/
def WalBeforeData (store : Store) (effect : Effect) : Prop :=
  ∀ pageId bytes, effect = .writePage pageId bytes → 2 ≤ pageId →
    ∃ g, Durable store.wal g ∧ ∃ image ∈ g.pages, image.id = pageId ∧ image.array = bytes

/-- Every selected group of the log is durable. -/
def durableIf (wal : WalFile) (select : CommittedApply → Bool) : Bool :=
  match scanBytes wal.bytes with
  | .error _ => true
  | .ok scan => scan.groups.all fun g => !select g || decide (g.endLsn ≤ wal.synced)

section Programs

variable {α : Type} {m : Io α} {store : Store} {log : List Record} {select : CommittedApply → Bool}

theorem Reads.endLsn_le {wal : WalFile} (h : Reads wal log)
    (hdurable : durableIf wal select = true) {g : CommittedApply} (hg : g ∈ logGroups log)
    (hselect : select g = true) : g.endLsn ≤ wal.synced := by
  obtain ⟨scan, hscan, hgroups, -⟩ := h.isScan
  unfold durableIf at hdurable
  rw [hscan] at hdurable
  have hall := List.all_eq_true.mp hdurable g (hgroups ▸ hg)
  simpa [hselect] using hall

theorem Reads.durableIf {wal : WalFile} (h : Reads wal log)
    (hend : ∀ g ∈ logGroups log, select g = true → g.endLsn ≤ wal.synced) :
    AsterStorage.durableIf wal select = true := by
  obtain ⟨scan, hscan, hgroups, -⟩ := h.isScan
  unfold AsterStorage.durableIf
  rw [hscan]
  refine List.all_eq_true.mpr fun g hg => ?_
  cases hselect : select g with
  | false => rfl
  | true => simpa using hend g (hgroups ▸ hg) hselect

theorem Effect.KeepsPages.walBeforeData {effect : Effect} (h : effect.KeepsPages)
    (store : Store) : WalBeforeData store effect := by
  rintro pageId bytes rfl htwo
  exact absurd (show pageId < 2 from h) (by omega)

/-- Images of durable groups may be written while the log stays as it is. -/
theorem walBeforeData_of_onDisk (h : Emits m store fun _ effect => effect.OnDisk ∧
      (effect.KeepsPages ∨ ∃ g, Durable store.wal g ∧ effect.WritesImage g.pages)) :
    Emits m store WalBeforeData := by
  intro count effect heffect
  have hwal := wal_cut (h.mono fun _ _ hboth => hboth.1) count
  rcases (h count effect heffect).2 with hkeeps | ⟨g, hdurable, image, himage, rfl⟩
  · exact hkeeps.walBeforeData _
  · rintro pageId bytes heq -
    cases heq
    exact ⟨g, hwal ▸ hdurable, image, himage, rfl, rfl⟩

theorem scan_yields {P : Store → Effect → Prop} : Yields scan store P fun _ => True :=
  .query_bind fun _ _ => .query fun _ _ => trivial

/-- An apply writes durable images only. -/
theorem apply_walBeforeData {state : Superblock} {applyIndex : Nat} {stateHash : Digest}
    {pages : List Page} {nextPageId : Nat} {rootDirectory : Option Nat} (h : Readable store.wal)
    (hmax : applyIndex ≤ u64Max) (hnextMax : nextPageId ≤ u64Max)
    (hdurable : durableIf store.wal (fun g => g.applyIndex = applyIndex) = true) :
    Emits (DurablePager.apply state applyIndex stateHash pages nextPageId rootDirectory) store
      WalBeforeData := by
  obtain ⟨log, hreads⟩ := h
  refine Yields.emits (Q := fun _ => True) ?_
  unfold DurablePager.apply
  split
  · exact .fail
  split
  · split
    · exact .fail
    · refine .bind scan_yields fun scan _ _ => ?_
      split
      · exact .fail
      · exact .pure trivial
  split
  · exact .fail
  split
  · exact .fail
  have happend : Spec (appendApplyWithMetadata applyIndex stateHash nextPageId rootDirectory pages)
      store _ _ _ := appendApplyWithMetadata_durable hreads hmax hnextMax
  refine .bind_spec ((emits_of_disk_cut fun count => (happend.crash count).1).mono
    fun t _ hkeeps => hkeeps.walBeforeData t) happend fun g t hg =>
      ⟨walBeforeData_of_onDisk ?_, fun _ _ => trivial⟩
  have hdurable := hg fun other hother heq =>
    hreads.endLsn_le hdurable hother (decide_eq_true heq)
  exact (redo_yields state g t).emits.mono fun _ _ ⟨hdisk, hwrites⟩ =>
    ⟨hdisk, hwrites.imp_right fun hwrites => ⟨g, hdurable, hwrites⟩⟩

/-- An open writes durable images only. -/
theorem openPager_walBeforeData (h : Readable store.wal)
    (hdurable : ∀ found, readSuperblock store.disk = .ok found → durableIf store.wal (fun g =>
      (found.getD .genesis).appliedIndex < g.applyIndex) = true) :
    Emits DurablePager.openPager store WalBeforeData := by
  obtain ⟨log, hreads⟩ := h
  obtain ⟨rest, hrest, hyields⟩ := openPager_parts
  rw [hrest]
  refine Yields.emits (Q := fun _ => True) ?_
  have hopen := openLog_readable hreads
  refine .bind_spec ((emits_of_disk_cut fun count => (hopen.crash count).1).mono
    fun t _ hkeeps => hkeeps.walBeforeData t) hopen ?_
  rintro _ t ⟨hdisk, hretains⟩
  refine .bind_spec scan_yields.emits (scan_spec (C := fun _ => True)
    (E := fun _ _ => True) hretains.reads trivial) ?_
  rintro scan _ ⟨hscan, rfl⟩
  refine ⟨walBeforeData_of_onDisk ((hyields scan _).emits.mono fun _ _ ⟨hondisk, hwrites⟩ =>
    ⟨hondisk, hwrites.imp_right ?_⟩), fun _ _ => trivial⟩
  rintro ⟨found, g, hfound, hg, hlt, hwrites⟩
  have hg : g ∈ logGroups log := hscan.1 ▸ hg
  have hend := hreads.endLsn_le (hdurable found (hdisk ▸ hfound)) hg (decide_eq_true hlt)
  exact ⟨g, hretains.durable hg hend, hwrites⟩

end Programs

variable {store : Store}

/-- The files after a call that ends in any way hold a readable log. -/
theorem Ending.readable {α : Type} {program : Io α} {store' : Store} {ending : Ending}
    (h : ∀ count, Readable (program.cut store count).wal)
    (hstore : ending.store program store = some store') : Readable store'.wal := by
  cases ending with
  | done =>
    cases hstore
    rw [← Program.cut_all]
    exact h _
  | killed count =>
    cases hstore
    exact h count
  | failed count remains =>
    unfold Ending.store at hstore
    dsimp only at hstore
    split at hstore
    · cases hstore
    rename_i effect heffect
    cases hstore
    cases effect with
    | writePage pageId bytes =>
      unfold Store.performFailed
      dsimp only
      split <;> exact h count
    | append bytes =>
      -- part of the append is a cut of the log with all of it
      have hnext := h (count + 1)
      rw [Program.cut_succ heffect] at hnext
      exact hnext.take ((program.cut store count).wal.bytes.length + remains.appended)
        (List.take_length_add_append ..).symm
    | syncDisk | syncWal | truncate length => exact h count

namespace Machine

variable {w w' : Machine} {ok : Machine → Label → Prop}

/-- The log is readable and the pager has a 64-bit index. -/
structure Ok (w : Machine) : Prop where
  readable : Readable w.store.wal
  index : ∀ state, w.pager = some state → state.appliedIndex ≤ u64Max

theorem ok_init : init.Ok where
  readable := readable_empty
  index _ hstate := by cases hstate

theorem Ok.next (h : w.Ok) {label : Label} (hnext : w.next label = some w') : w'.Ok := by
  cases label with
  | openPager ending =>
    unfold Machine.next at hnext
    dsimp only at hnext
    split at hnext
    · obtain ⟨store, hstore, rfl⟩ := Option.map_eq_some_iff.mp hnext
      have hspec := openPager_readable h.readable
      refine ⟨Ending.readable (fun count => (hspec.crash count).1) hstore, fun state hstate => ?_⟩
      split at hstate
      · rename_i hresult
        cases hstate
        exact hspec.ok _ hresult
      · cases hstate
    · cases hnext
  | call operation ending =>
    unfold Machine.next at hnext
    dsimp only at hnext
    split at hnext
    · cases hnext
    rename_i state hpager
    split at hnext
    · rename_i hfits
      obtain ⟨store, hstore, rfl⟩ := Option.map_eq_some_iff.mp hnext
      have hspec := Operation.run_readable hfits h.readable (h.index state hpager)
      refine ⟨Ending.readable hspec.crash hstore, fun state' hstate => ?_⟩
      split at hstate
      · rename_i hresult
        cases hstate
        exact hspec.ok _ hresult
      · cases hstate
      · cases hstate
        exact h.index _ hpager
    · cases hnext
  | log request ending =>
    unfold Machine.next at hnext
    dsimp only at hnext
    split at hnext
    · rename_i hfits
      obtain ⟨store, hstore, rfl⟩ := Option.map_eq_some_iff.mp hnext
      refine ⟨Ending.readable (LogRequest.run_readable hfits h.readable).crash hstore,
        fun state hstate => ?_⟩
      split at hstate
      · cases hstate
      · exact h.index state hstate
    · cases hnext
  | kill =>
    cases hnext
    exact ⟨h.readable, fun _ hstate => by cases hstate⟩
  | crash fates kept =>
    cases hnext
    exact ⟨h.readable.take _ rfl, fun _ hstate => by cases hstate⟩

theorem ok_of_reachableIf (h : ReachableIf ok w) : w.Ok := by
  induction h with
  | init => exact ok_init
  | next label _ _ hnext ih => exact ih.next hnext

/-- No group that the open or the apply would take from the log is short of its sync. -/
def replaysDurably (w : Machine) : Label → Bool
  | .openPager _ =>
    match readSuperblock w.store.disk with
    | .error _ => true
    | .ok found => durableIf w.store.wal fun g =>
      decide ((found.getD .genesis).appliedIndex < g.applyIndex)
  | .call (.apply applyIndex _ _ _ _) _ =>
    durableIf w.store.wal fun g => decide (g.applyIndex = applyIndex)
  | _ => true

end Machine

/-- In every run in which no open and no apply finds a group that is not durable, whatever I/O
fails and whenever the process is killed, opens and applies write images of durable groups. -/
theorem wal_before_data (w : Machine)
    (h : Machine.ReachableIf (fun w label => w.replaysDurably label = true) w) (ending : Ending) :
    (w.pager = none → w.replaysDurably (.openPager ending) = true →
      Emits DurablePager.openPager w.store WalBeforeData) ∧
    ∀ state applyIndex stateHash pages nextPageId rootDirectory, w.pager = some state →
      (Operation.apply applyIndex stateHash pages nextPageId rootDirectory).fits = true →
      w.replaysDurably (.call (.apply applyIndex stateHash pages nextPageId rootDirectory)
        ending) = true →
      Emits (DurablePager.apply state applyIndex stateHash pages nextPageId rootDirectory) w.store
        WalBeforeData := by
  have hok := Machine.ok_of_reachableIf h
  constructor
  · intro _ hdurable
    refine openPager_walBeforeData hok.readable fun found hfound => ?_
    unfold Machine.replaysDurably at hdurable
    rwa [hfound] at hdurable
  · intro state applyIndex stateHash pages nextPageId rootDirectory _ hfits hdurable
    simp only [Operation.fits, Bool.and_eq_true, decide_eq_true_eq] at hfits
    exact apply_walBeforeData hok.readable hfits.1.1 hfits.1.2 hdurable

/-! ## A sync that fails -/

/-- A heap page. -/
def heapPage : Page := Page.new 2 .heap

omit [Sha256] in
theorem id_heapPage : heapPage.id = 2 := Superblock.id_new (by decide) _

/-- The apply that writes the heap page first. -/
def heapApply (stateHash : Digest) : Operation := .apply 1 stateHash [heapPage] 3 none

/-- Its append to the log. -/
def heapAppend (stateHash : Digest) : Io CommittedApply :=
  appendApplyWithMetadata 1 stateHash 3 none [heapPage]

omit [Sha256] in
theorem accepts_heapPage : Accepts [] 3 none [heapPage] where
  id_lt page hpage := by
    rw [List.mem_singleton.mp hpage, id_heapPage]
    decide
  rootDirectory _ hroot := by cases hroot
  valid page hpage := by
    rw [List.mem_singleton.mp hpage]
    exact Superblock.valid_new 2 .heap
  nodup := List.nodup_singleton _
  count := by decide
  room := by decide

variable {log : List Record} {g : CommittedApply}

/-- A new group of one page has one image. -/
theorem NewGroup.pages_eq {applyIndex : Nat} {stateHash : Digest}
    {nextPageId : Nat} {rootDirectory : Option Nat} {page : Page}
    (h : NewGroup log applyIndex stateHash nextPageId rootDirectory [page] g) :
    ∃ image, g.pages = [image] ∧ image.id = page.id := by
  obtain ⟨sorted, hperm, rfl⟩ := h.eq
  obtain rfl := List.perm_singleton.mp hperm
  exact ⟨_, rfl, Page.id_stamp ..⟩

/-- Nothing of a log is durable when no byte is. -/
theorem Reads.not_durable {wal : WalFile} (h : Reads wal log)
    (hsynced : wal.synced = 0) (g : CommittedApply) : ¬Durable wal g := by
  rintro ⟨scan, hscan, hg, hend⟩
  obtain ⟨scan', hscan', hgroups, -⟩ := h.isScan
  obtain rfl : scan = scan' := Except.ok.inj (hscan.symm.trans hscan')
  have hpos := (Record.endLsn_le h.logOk.chain (mem_logGroups.mp (hgroups ▸ hg))).1
  exact absurd (show 0 < g.endLsn from hpos) (by omega)

/-- A group that is in the log is returned, whether it is durable or not. -/
theorem appendApplyWithMetadata_again (h : Reads store.wal log) (hgroups : logGroups log = [g])
    (nextPageId : Nat) (rootDirectory : Option Nat) (pages : List Page) :
    Spec (appendApplyWithMetadata g.applyIndex g.stateHash nextPageId rootDirectory pages) store
      (fun _ => True) (fun g' t => g' = g ∧ t.disk = store.disk ∧ Retains log store.wal t.wal)
      fun _ _ => False := by
  refine scanAndTruncate_bind h (fun _ _ => trivial) fun scan wal hscan _ hretains => ?_
  have hfind : scan.groups.find? (fun group => decide (group.applyIndex = g.applyIndex)) =
      some g := by
    rw [hscan.1, hgroups]
    simp
  rw [hfind]
  dsimp only
  rw [if_pos rfl]
  exact .pure trivial ⟨rfl, rfl, hretains⟩

omit [Sha256] in
/-- Replay writes an image where the disk holds no page. -/
theorem replayGroup_writes {image : Page} {images : List Page}
    {report : RecoveryReport} (hcurrent : currentLsn store.disk image = .ok none)
    {P : Store → Effect → Prop} (h : Emits (replayGroup (image :: images) report) store P) :
    P store (.writePage image.id image.array) := by
  have hrest := h.right (a := none) hcurrent
  exact hrest.left 0 _ rfl

namespace Machine

variable {state : Superblock}

theorem next_openPager {w : Machine} {report : RecoveryReport} (hpager : w.pager = none)
    (hresult : (DurablePager.openPager w.store).result = .ok (state, report)) :
    w.next (.openPager .done) = some {
      store := DurablePager.openPager.final w.store, pager := some state } := by
  unfold Machine.next
  dsimp only
  rw [hpager, Option.isNone_none, hresult]
  rfl

/-- The first open succeeds and makes nothing durable in the log. -/
theorem exists_opened : ∃ w sb, init.next (.openPager .done) = some w ∧ w.pager = some sb ∧
    w.store.wal.synced = 0 ∧
    Sound w.store sb .genesis [] none (fun _ => False) fun _ => False := by
  obtain ⟨sb, report, hresult, -, hs⟩ := World.exists_opened
  have hempty : Readable Store.empty.wal := readable_empty
  have hsynced := (openPager_readable hempty).crash
    (DurablePager.openPager Store.empty).effects.length
  exact ⟨_, sb, next_openPager rfl hresult, rfl, Nat.le_zero.mp hsynced.2, hs⟩

/-- The log gets a new group, and there is a moment before it is synced. -/
theorem exists_unsynced {store : Store} (hreads : Reads store.wal [])
    (hsynced : store.wal.synced = 0) (stateHash : Digest) :
    ∃ count g, (heapAppend stateHash store).effects[count]? = some .syncWal ∧
      NewGroup [] 1 stateHash 3 none [heapPage] g ∧
      ((heapAppend stateHash).cut store count).disk = store.disk ∧
      ((heapAppend stateHash).cut store count).wal.bytes = framesBytes g.frames ∧
      ((heapAppend stateHash).cut store count).wal.synced = 0 := by
  have hspec : Spec (heapAppend stateHash) store
      (fun t => t.disk = store.disk ∧ (t.wal.synced = 0 ∨
        ∃ g, NewGroup [] 1 stateHash 3 none [heapPage] g ∧ t.wal.bytes = framesBytes g.frames))
      (fun _ t => 0 < t.wal.synced) fun _ _ => False := by
    refine (appendApplyWithMetadata_spec hreads (by decide) (by decide) (fun wal hretains => ?_)
      (fun g wal hnew _ hbytes _ => ?_) fun _ _ _ hnot => ?_).imp ?_
    · exact ⟨rfl, .inl (Nat.le_zero.mp (hsynced ▸ hretains.synced_le))⟩
    · exact ⟨rfl, .inr ⟨g, hnew, hbytes⟩⟩
    · exact hnot (fun _ hg => by cases hg) (by decide) accepts_heapPage
    · rintro g _ ⟨wal, rfl, ⟨hmem, -⟩ | ⟨-, -, hbytes, hall⟩⟩
      · cases hmem
      · rw [hall, hbytes]
        have hle := length_le_framesBytes g.frames
        have hpos : 0 < g.frames.length := by simp [CommittedApply.frames]
        simp only [logBytes_nil, List.nil_append]
        omega
  obtain ⟨_, -, hend⟩ := hspec.exists_ok fun _ hE => hE
  obtain ⟨count, effect, heffect, hbefore, hafter⟩ := Program.exists_turn
    (P := fun t : Store => 0 < t.wal.synced) (by omega) hend
  have hnow := hspec.crash count
  have hnext := hspec.crash (count + 1)
  rw [Program.cut_succ heffect] at hnext hafter
  cases effect with
  | syncWal =>
    obtain ⟨g, hnew, hbytes⟩ := hnext.2.resolve_left hafter.ne'
    exact ⟨count, g, heffect, hnew, hnow.1, hbytes, by omega⟩
  | writePage pageId bytes | syncDisk | append bytes => exact absurd hafter hbefore
  | truncate length =>
    exact absurd (lt_of_lt_of_le hafter (min_le_left _ _)) hbefore

/-- The apply of the heap page starts with its append. -/
theorem heapApply_eq (hindex : state.appliedIndex = 0) (hnext : state.nextPageId = 2)
    (stateHash : Digest) : DurablePager.apply state 1 stateHash [heapPage] 3 none = (do
      let group ← heapAppend stateHash
      let _ ← replayGroup group.pages {}
      Io.syncDisk
      let state ← publishSuperblock state 1 stateHash 0 3 none
      return (state, group)) := by
  unfold DurablePager.apply heapAppend
  rw [hindex, hnext, if_neg (by simp [id_heapPage]), if_neg (by decide), if_neg (by decide),
    if_neg (by simp [id_heapPage])]

/-- An apply that starts with an append may fail where the append syncs the log. -/
theorem next_failed {w : Machine} {operation : Operation} {applyIndex : Nat}
    {stateHash : Digest} {pages : List Page} {nextPageId : Nat} {rootDirectory : Option Nat}
    (hoperation : operation = .apply applyIndex stateHash pages nextPageId rootDirectory)
    (hpager : w.pager = some state) (hfits : operation.fits = true) {γ : Type} {append : Io γ}
    {k : γ → Io (Superblock × CommittedApply)}
    (happly : DurablePager.apply state applyIndex stateHash pages nextPageId rootDirectory =
      append >>= k) {count : Nat} (heffect : (append w.store).effects[count]? = some .syncWal) :
    ∃ w', w.next (.call operation (.failed count ⟨0, none⟩)) = some w' ∧
      w'.pager = some state ∧ w'.store = append.cut w.store count := by
  have hcount := (List.getElem?_eq_some_iff.mp heffect).1
  have hrun : operation.run state = append >>= k >>= fun result => pure result.1 := by
    rw [hoperation, ← happly]
    rfl
  have heffect' : (operation.run state w.store).effects[count]? = some .syncWal := by
    rw [hrun, Program.getElem?_effects_bind_of_lt _ _
      (hcount.trans_le (Program.effects_bind_le ..)),
      Program.getElem?_effects_bind_of_lt _ _ hcount, heffect]
  have hcut : (operation.run state).cut w.store count = append.cut w.store count := by
    rw [hrun, Program.cut_bind _ _ _ (hcount.le.trans (Program.effects_bind_le ..)),
      Program.cut_bind _ _ _ hcount.le]
  refine ⟨⟨(operation.run state).cut w.store count, some state⟩, ?_, rfl, hcut⟩
  unfold Machine.next
  rw [hpager]
  dsimp only
  rw [if_pos hfits]
  unfold Ending.store
  dsimp only
  rw [heffect']
  rfl

end Machine

/-- No page is on the disk of a fresh database. -/
theorem Sound.currentLsn_eq_none {sb : Superblock} {v : Version} {pending : Option CommittedApply}
    {old : Page → Prop} (h : Sound store sb v log pending old fun _ => False) {image : Page}
    (htwo : 2 ≤ image.id) : currentLsn store.disk image = .ok none := by
  have hok := h.body.pages image.id _ htwo (store.disk.possible_pages image.id)
  unfold currentLsn Disk.readPage
  cases hpages : store.disk.pages image.id with
  | none => rfl
  | some bytes =>
    dsimp only
    cases hdecode : Page.decode bytes with
    | error e => rfl
    | ok page =>
      obtain ⟨rfl, hvalid⟩ := Page.decode_eq_ok.mp hdecode
      exact (hok.found ⟨bytes⟩ hpages hvalid).2.2.1.elim

omit [Sha256] in
/-- The sync of the log fails in the first apply. The retry finds the group in the log and writes
its page, and no byte of the log is durable. -/
theorem unsynced_replay :
    let _ := zeroHash
    ∃ (w : Machine) (state : Superblock) (stateHash : Digest), w.Reachable ∧ w.pager = some state ∧
      w.store.wal.synced = 0 ∧
      ¬Emits (DurablePager.apply state 1 stateHash [heapPage] 3 none) w.store WalBeforeData := by
  intro _
  set hash : Digest := Vector.replicate 32 0
  obtain ⟨w₁, sb, hnext₁, hpager₁, hsynced₁, hs₁⟩ := Machine.exists_opened
  have hindex : sb.appliedIndex = 0 := hs₁.described.appliedIndex
  have hnext : sb.nextPageId = 2 := hs₁.described.nextPageId
  obtain ⟨count, g, heffect, hnew, hdisk, hbytes, hsynced⟩ :=
    Machine.exists_unsynced hs₁.reads hsynced₁ hash
  have happly := Machine.heapApply_eq hindex hnext hash
  -- the sync of the log fails
  have hfits : (heapApply hash).fits = true := by simp [heapApply, Operation.fits, u64Max]
  obtain ⟨w₂, hnext₂, hpager₂, hstore₂⟩ := Machine.next_failed rfl hpager₁ hfits happly heffect
  have hreach : w₂.Reachable :=
    .next _ (.next _ .init trivial hnext₁) trivial hnext₂
  rw [← hstore₂] at hdisk hbytes hsynced
  refine ⟨w₂, sb, hash, hreach, hpager₂, hsynced, fun hemits => ?_⟩
  -- the retry takes the group of the log
  have hreads : Reads w₂.store.wal ([] ++ [.group g]) :=
    hnew.reads hs₁.reads.logOk (fun _ hlast => by cases hlast) hbytes
  obtain ⟨sorted, -, hg⟩ := hnew.eq
  have hagain : Spec (heapAppend hash) w₂.store (fun _ => True)
      (fun g' t => g' = g ∧ t.disk = w₂.store.disk ∧
        Retains ([] ++ [.group g]) w₂.store.wal t.wal) fun _ _ => False := by
    unfold heapAppend
    have happend := appendApplyWithMetadata_again hreads rfl 3 none [heapPage]
    rwa [hg] at happend ⊢
  obtain ⟨_, hresult, rfl, hdisk', hretains⟩ := hagain.exists_ok fun _ hE => hE
  obtain ⟨image, hpages, hid⟩ := hnew.pages_eq
  rw [id_heapPage] at hid
  rw [happly] at hemits
  have hreplay := (hemits.right hresult).left
  rw [hpages] at hreplay
  -- it writes the page, and the log is as durable as before
  have hcurrent := hs₁.currentLsn_eq_none (hid ▸ le_rfl : 2 ≤ image.id)
  rw [← hdisk, ← hdisk'] at hcurrent
  have hwrite := replayGroup_writes hcurrent hreplay
  obtain ⟨g', hdurable, -⟩ := hwrite image.id image.array rfl (hid ▸ le_rfl)
  exact hretains.reads.not_durable (Nat.le_zero.mp (hsynced ▸ hretains.synced_le)) g' hdurable

omit [Sha256] in
/-- The first apply of the heap page, where the sync of the log fails or not. -/
theorem wal_before_data_first : ∃ w state stateHash ending,
    @Machine.ReachableIf zeroHash (fun w label => @Machine.replaysDurably zeroHash w label = true)
      w ∧ w.pager = some state ∧
    @Machine.replaysDurably zeroHash w (.call (heapApply stateHash) ending) = true ∧
    Emits (@DurablePager.apply zeroHash state 1 stateHash [heapPage] 3 none) w.store
      (@WalBeforeData zeroHash) := by
  let _ := zeroHash
  set hash : Digest := Vector.replicate 32 0
  obtain ⟨w, state, hnext, hpager, -, hs⟩ := Machine.exists_opened
  have hopen : Machine.init.replaysDurably (.openPager .done) = true := rfl
  have hreach : Machine.ReachableIf (fun w label => w.replaysDurably label = true) w :=
    .next _ .init hopen hnext
  have hdurable : w.replaysDurably (.call (heapApply hash) .done) = true :=
    hs.reads.durableIf fun _ hg => by cases hg
  have hfits : (heapApply hash).fits = true := by simp [heapApply, Operation.fits, u64Max]
  exact ⟨w, state, hash, .done, hreach, hpager, hdurable,
    (wal_before_data w hreach .done).2 state 1 hash [heapPage] 3 none hpager hfits hdurable⟩

end AsterStorage
