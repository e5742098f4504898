import AsterDB.Models.Storage.Interpretation.Commit

/-!
# The calls of the pager

An apply, a snapshot and a checkpoint lead from one version to the next or leave
it as it was, wherever a crash cuts them.
-/

namespace AsterStorage

open AsterRaft (Digest Sha256 u64Max)
open ByteString Crash

variable [Sha256] {store : Store} {sb : Superblock} {v v' : Version} {log log' : List Record}
  {pending : Option CommittedApply} {old written : Page → Prop} {R : Store → Prop}

/-- More pages may count as written. -/
theorem Sound.mono {old' written' : Page → Prop} (h : Sound store sb v log pending old written)
    (hwritten : ∀ page, written page → written' page)
    (hold : ∀ page, old page → written page → old' page) :
    Sound store sb v log pending old' written' := by
  obtain ⟨hslots, hdescribed, hversion, hwal, hpages, happlied, hnext, hsteady⟩ := h
  refine ⟨hslots, hdescribed, hversion, hwal, fun id content hid hc => ?_, happlied,
    fun g hg => ?_, hsteady⟩
  · obtain ⟨hfound, hheld, hredo⟩ := hpages id content hid hc
    refine ⟨fun page hpage hvalid => ?_, hheld, hredo⟩
    obtain ⟨hpid, hlsn, hw, ho⟩ := hfound page hpage hvalid
    exact ⟨hpid, hlsn, hwritten page hw, fun hlt => (ho hlt).imp_left fun ho => hold page ho hw⟩
  · obtain ⟨hindex, hle, himages⟩ := hnext g hg
    exact ⟨hindex, hle, fun page hpage => (himages page hpage).imp_right (hwritten page)⟩

theorem Sound.forget (h : Sound store sb v log pending old written) :
    Sound store sb v log pending written written :=
  h.mono (fun _ hw => hw) fun _ _ hw => hw

omit [Sha256] in
/-- Without a generation left nothing is published. -/
theorem publishSuperblock_exhausted {C : Store → Prop} {E : StorageError → Store → Prop}
    {appliedIndex : Nat} {stateHash : Digest} {checkpointLsn nextPageId : Nat}
    {rootDirectory : Option Nat} (h : sb.generation = u64Max) (hC : C store) (hE : ∀ e, E e store) :
    Spec (publishSuperblock sb appliedIndex stateHash checkpointLsn nextPageId rootDirectory)
      store C (fun _ _ => False) E := by
  unfold publishSuperblock
  rw [if_pos h.ge]
  exact .fail hC (hE _)

section Apply

variable {applyIndex : Nat} {stateHash : Digest} {nextPageId : Nat} {rootDirectory : Option Nat}
  {pages : List Page}

theorem apply_spec (h : Sound store sb v log pending old written)
    (hpending : pending = none ∨ sb.generation = u64Max) (hmax : applyIndex ≤ u64Max)
    (hnextMax : nextPageId ≤ u64Max)
    (hwritten : ∀ page ∈ pages, ∀ lsn, written (page.stamp lsn applyIndex))
    (hafter : v.after (.apply applyIndex stateHash pages nextPageId rootDirectory) = v')
    (hR : ∀ store, Sound store sb v log pending old written → R store)
    (hR₁ : ∀ store g, pending = none → v.Advance g v' →
      Sound store sb v log (some g) old written → R store)
    (hR₂ : ∀ store next g, v.Advance g v' → next.Follows sb 0 →
      Sound store next v' (log ++ [.group g]) none written written → R store) :
    Spec (DurablePager.apply sb applyIndex stateHash pages nextPageId rootDirectory) store
      (Safely R)
      (fun result store' =>
        (applyIndex = v.appliedIndex ∧ result.1 = sb ∧ Sound store' sb v log pending old written) ∨
        (applyIndex = v.appliedIndex + 1 ∧ result.1.Follows sb 0 ∧
          ∃ g, v.Advance g v' ∧
            Sound store' result.1 v' (log ++ [.group g]) none written written))
      (fun _ store' =>
        (∃ pending', (pending' = none ∨ sb.generation = u64Max) ∧
          Sound store' sb v log pending' old written) ∧
        (pending = none → applyIndex = v.appliedIndex + 1 → v.nextPageId ≤ nextPageId →
          (∀ page ∈ pages, 2 ≤ page.id) → Accepts log nextPageId rootDirectory pages →
          sb.generation = u64Max)) := by
  have hsafe := h.safely hR
  have hkeep : ∃ pending', (pending' = none ∨ sb.generation = u64Max) ∧
      Sound store sb v log pending' old written := ⟨pending, hpending, h⟩
  unfold DurablePager.apply
  rw [h.described.appliedIndex, h.described.nextPageId]
  split
  · rename_i hlow
    obtain ⟨page, hpage, hlt⟩ := List.any_eq_true.mp hlow
    refine .fail hsafe ⟨hkeep, fun _ _ _ htwo _ => ?_⟩
    have hle := htwo page hpage
    simp only [decide_eq_true_eq] at hlt
    omega
  rename_i hlow
  have htwo : ∀ page ∈ pages, 2 ≤ page.id := fun page hpage => Nat.le_of_not_lt fun hlt =>
    hlow (List.any_eq_true.mpr ⟨page, hpage, decide_eq_true hlt⟩)
  split
  · rename_i hdup
    have hnot : applyIndex ≠ v.appliedIndex + 1 := by omega
    split
    · exact .fail hsafe ⟨hkeep, fun _ hindex => absurd hindex hnot⟩
    · refine scan_bind h.reads fun scan _ => ?_
      split
      · exact .fail hsafe ⟨hkeep, fun _ hindex => absurd hindex hnot⟩
      · exact .pure hsafe (.inl ⟨hdup, rfl, h⟩)
  rename_i hne
  split
  · rename_i hgap
    exact .fail hsafe ⟨hkeep, fun _ hindex => absurd hindex hgap⟩
  rename_i hindex
  have hindex := not_not.mp hindex
  split
  · rename_i hhigh
    refine .fail hsafe ⟨hkeep, fun _ _ hnext _ haccepts => ?_⟩
    rcases hhigh with hlt | hhigh
    · omega
    · obtain ⟨page, hpage, hle⟩ := List.any_eq_true.mp hhigh
      have hlt := haccepts.id_lt page hpage
      simp only [decide_eq_true_eq] at hle
      omega
  rename_i hnext
  have hnext : v.nextPageId ≤ nextPageId := by
    simp only [not_or, not_lt] at hnext
    exact hnext.1
  have hv' : v' = { appliedIndex := applyIndex, stateHash, nextPageId, rootDirectory
                    pages := Version.overlay v.pages pages applyIndex } := by
    rw [← hafter]
    exact if_neg hne
  have happend : Spec (WriteAheadLog.appendApplyWithMetadata applyIndex stateHash nextPageId
      rootDirectory pages) store (Safely R)
      (fun g store' => Sound store' sb v log (some g) old written ∧
        (pending = some g ∨ pending = none ∧ v.Advance g v'))
      (fun _ store' => Sound store' sb v log pending old written ∧
        (pending = none → ¬Accepts log nextPageId rootDirectory pages)) := by
    rw [← hafter] at hR₁ ⊢
    exact h.appendApplyWithMetadata hindex hmax hnextMax hnext
      (fun page hpage => ⟨htwo page hpage, hwritten page hpage⟩) hR hR₁
  refine .bind (happend.imp_error ?_) ?_
  · rintro e store' ⟨hs, hnot⟩
    exact ⟨⟨pending, hpending, hs⟩, fun hnone _ _ _ haccepts => absurd haccepts (hnot hnone)⟩
  rintro g store₁ ⟨hs, rfl | ⟨rfl, hadvance⟩⟩
  · -- the group of an earlier call that could not be published
    have hexhausted : sb.generation = u64Max := hpending.resolve_left (by simp)
    refine redo_spec hR hs {} fun _ store₂ hs₂ _ => ?_
    exact .bind (publishSuperblock_exhausted hexhausted (hs₂.safely hR) fun _ =>
      ⟨⟨_, .inr hexhausted, hs₂⟩, fun hnone => by cases hnone⟩) fun _ _ hfalse => hfalse.elim
  · have hR' : ∀ store, Sound store sb v log (some g) old written → R store := fun store =>
      hR₁ store g rfl hadvance
    refine redo_spec hR' hs {} fun _ store₂ hs₂ hbody => ?_
    have hpublish := publishSuperblock_spec hs₂ (hbody v' hadvance) (Nat.zero_le u64Max) hR'
      fun store next => hR₂ store next g hadvance
    rw [hv'] at hpublish hadvance ⊢
    refine .bind (hpublish.imp_error ?_) ?_
    · rintro e store' ⟨hexhausted, rfl⟩
      exact ⟨⟨_, .inr hexhausted, hs₂⟩, fun _ _ _ _ _ => hexhausted⟩
    · rintro next store' ⟨hfollows, hs'⟩
      refine .pure (hs'.safely fun store hs => ?_) (.inr ⟨hindex, hfollows, g, hadvance, hs'⟩)
      rw [← hv'] at hs hadvance
      exact hR₂ store next g hadvance hfollows hs

end Apply

section Snapshot

variable {applyIndex : Nat} {stateHash : Digest} {nextPageId rootDirectory : Nat}
  {pages : List Page}

omit [Sha256] in
theorem nodup_of_hasDuplicate (hsorted : pages.Pairwise fun a b => a.id ≤ b.id)
    (h : DurablePager.hasDuplicate pages = false) : (pages.map Page.id).Nodup := by
  induction pages with
  | nil => exact List.nodup_nil
  | cons first pages ih =>
    cases pages with
    | nil => simp
    | cons second pages =>
      simp only [DurablePager.hasDuplicate, Bool.or_eq_false_iff, decide_eq_false_iff_not] at h
      obtain ⟨hfirst, hrest⟩ := List.pairwise_cons.mp hsorted
      rw [List.map_cons, List.nodup_cons]
      refine ⟨fun hmem => ?_, ih hrest h.2⟩
      obtain ⟨other, hother, heq⟩ := List.mem_map.mp hmem
      have hle := hfirst second List.mem_cons_self
      rcases List.mem_cons.mp hother with rfl | hother
      · exact h.1 heq.symm
      · have hle' := (List.pairwise_cons.mp hrest).1 other hother
        omega

/-- A page of a snapshot, written where nothing is allocated, leaves the version as it is. -/
theorem Sound.writeFresh {image : Page} (h : Sound store sb v log pending old written)
    (hid : v.nextPageId ≤ image.id) (hlsn : image.lsn = 0) (hwritten : written image) :
    Sound { store with disk := store.disk.writePage image.id image.array } sb v log pending old
      written := by
  have htwo := h.body.version.two_le
  refine ⟨h.slots.writePage (by omega) _, h.described, h.body.version, h.body.wal,
    fun id content hidTwo hc => ?_, h.body.applied, h.body.next, ?_⟩
  · rcases hc.of_writePage with hc | ⟨rfl, hcontent⟩
    · exact h.body.pages id content hidTwo hc
    have hheld : ∀ page epoch, v.pages image.id ≠ some (page, epoch) := by
      intro page epoch hpage
      have hlt := (h.body.version.allocated image.id (by simp [hpage])).2
      omega
    rcases hcontent with rfl | ⟨torn, rfl⟩
    · have himage : ∀ page : Page, some image.array = some page.array → page = image := by
        intro page hpage
        cases image
        cases page
        cases hpage
        rfl
      refine ⟨fun page hpage _ => ?_, fun page epoch hpage => absurd hpage (hheld page epoch), ?_⟩
      · rw [himage page hpage]
        exact ⟨rfl, by omega, hwritten, fun hlt => by omega⟩
      · rintro g rfl other hother - page hpage -
        rw [himage page hpage]
        have hlt := (h.body.lsn_image hother).1
        exact .inr (by omega)
    · refine ⟨fun page hpage hvalid => absurd hvalid (torn.not_valid hpage),
        fun page epoch hpage => absurd hpage (hheld page epoch), ?_⟩
      exact fun _ _ _ _ _ page hpage hvalid => absurd hvalid (torn.not_valid hpage)
  · intro hnone id content content' hidTwo hlt hc hc'
    exact h.body.steady hnone id content content' hidTwo hlt
      (hc.of_writePage_of_ne (by omega)) (hc'.of_writePage_of_ne (by omega))

/-- Writing the pages of a snapshot leaves the version as it is. -/
theorem writeSnapshotPages_spec (hR : ∀ store, Sound store sb v log pending old written → R store)
    {done todo : List Page} (hnodup : ((done ++ todo).map Page.id).Nodup)
    (hids : ∀ page ∈ todo, v.nextPageId ≤ page.id)
    (hwritten : ∀ page ∈ todo, written (page.stamp 0 applyIndex)) {store : Store}
    (h : Sound store sb v log pending old written)
    (hdone : ∀ page ∈ done, store.disk.pages page.id = some (page.stamp 0 applyIndex).array) :
    Spec (DurablePager.writeSnapshotPages applyIndex todo) store (Safely R)
      (fun _ store' => Sound store' sb v log pending old written ∧
        ∀ page ∈ done ++ todo,
          store'.disk.pages page.id = some (page.stamp 0 applyIndex).array)
      (fun _ store' => Sound store' sb v log pending old written ∧ ¬∀ page ∈ todo, page.Valid) := by
  induction todo generalizing done store with
  | nil =>
    refine .pure (h.safely hR) ⟨h, ?_⟩
    rwa [List.append_nil]
  | cons page todo ih =>
    have hsplit : done ++ page :: todo = (done ++ [page]) ++ todo := by simp
    unfold DurablePager.writeSnapshotPages
    split
    · rename_i hlow
      have htwo := h.body.version.two_le
      have hge := hids page List.mem_cons_self
      omega
    change Spec (Io.ofExcept (page.stamp 0 applyIndex).validate >>= fun _ => _) _ _ _ _
    cases hvalidate : (page.stamp 0 applyIndex).validate with
    | error e =>
      have hinvalid : ¬∀ other ∈ page :: todo, other.Valid := by
        intro hall
        have hok := Page.validate_eq_ok.mpr ((hall page List.mem_cons_self).stamp 0 applyIndex)
        rw [hvalidate] at hok
        cases hok
      refine .bind (.query (Q := fun _ _ => False) (h.safely hR) (fun _ ha => ?_)
        fun _ _ => ⟨h, hinvalid⟩) fun _ _ hfalse => hfalse.elim
      cases ha
    | ok u =>
      refine .query_bind rfl ?_
      have hid : v.nextPageId ≤ (page.stamp 0 applyIndex).id := by
        rw [Page.id_stamp]
        exact hids page List.mem_cons_self
      have hwrite := h.writeFresh hid (Page.lsn_stamp (Nat.zero_le _) page applyIndex)
        (hwritten page List.mem_cons_self)
      refine .perform_bind (h.safely hR) ?_
      rw [hsplit] at hnodup ⊢
      refine (ih hnodup (fun other hother => hids other (List.mem_cons_of_mem _ hother))
        (fun other hother => hwritten other (List.mem_cons_of_mem _ hother)) hwrite ?_).imp_error
          fun _ _ hE => hE.imp_right fun hinvalid hall =>
          hinvalid fun other hother => hall other (List.mem_cons_of_mem _ hother)
      intro other hother
      rw [Disk.pages_writePage, Page.id_stamp]
      rcases List.mem_append.mp hother with hother | hother
      · have hne : other.id ≠ page.id := by
          rw [← hsplit, List.map_append] at hnodup
          exact (List.nodup_append.mp hnodup).2.2 _ (List.mem_map_of_mem hother) _
            List.mem_cons_self
        rw [Function.update_of_ne hne, hdone other hother]
      · rw [List.mem_singleton.mp hother, Function.update_self]

/-- Once its pages are durable, a snapshot is a version. -/
theorem Body.snapshot (h : Body store v log none old written)
    (hsynced : ∀ id content, store.disk.Possible id content → content = store.disk.pages id)
    (hpages : ∀ page ∈ pages, v.nextPageId ≤ page.id ∧ page.id < nextPageId ∧
      store.disk.pages page.id = some (page.stamp 0 applyIndex).array)
    (hindex : v.appliedIndex < applyIndex) (hmax : applyIndex ≤ u64Max)
    (hnext : v.nextPageId ≤ nextPageId) (hnextMax : nextPageId ≤ u64Max)
    (hroot : rootDirectory < nextPageId) :
    Body store { appliedIndex := applyIndex, stateHash, nextPageId
                 rootDirectory := some rootDirectory
                 pages := Version.overlay v.pages pages applyIndex } log none written written where
  version := by
    have htwo := h.version.two_le
    refine ⟨hmax, hnextMax, htwo.trans hnext, fun root hsome => ?_, fun id hid => ?_⟩
    · rwa [← Option.some.inj hsome]
    · dsimp only [Version.overlay] at hid
      split at hid
      · rename_i page hfind
        obtain ⟨hge, hlt, -⟩ := hpages page (List.mem_of_find?_eq_some hfind)
        have heq : page.id = id := by simpa using List.find?_some hfind
        dsimp only
        omega
      · have hle := h.version.allocated id hid
        dsimp only
        omega
  wal := h.wal
  pages id content hid hc := by
    have hok := h.pages id content hid hc
    refine ⟨fun page hpage hvalid => ?_, fun page epoch hpage _ => ?_, fun _ hg => by cases hg⟩
    · obtain ⟨hpid, hlsn, hwritten, -⟩ := hok.found page hpage hvalid
      exact ⟨hpid, hlsn, hwritten, fun _ => .inl hwritten⟩
    · dsimp only [Version.overlay] at hpage
      split at hpage
      · rename_i image hfind
        cases hpage
        obtain ⟨-, -, hdisk⟩ := hpages page (List.mem_of_find?_eq_some hfind)
        have heq : page.id = id := by simpa using List.find?_some hfind
        exact ⟨0, by rw [hsynced id content hc, ← heq, hdisk]⟩
      · exact hok.held page epoch hpage fun _ hg => by cases hg
  applied g hg := by
    have hle := (h.applied g hg).1
    exact ⟨by dsimp only; omega, fun heq => by dsimp only at heq; omega⟩
  next _ hg := by cases hg
  steady _ id content content' _ _ hc hc' :=
    (hsynced id content hc).trans (hsynced id content' hc').symm

/-- A snapshot that can be installed over a version. -/
structure Installs (v : Version) (applyIndex : Nat) (pages : List Page) (nextPageId : Nat)
    (rootDirectory : Nat) : Prop where
  index : v.appliedIndex < applyIndex
  next : v.nextPageId < nextPageId
  range : ∀ page ∈ pages, v.nextPageId ≤ page.id ∧ page.id < nextPageId
  root : ∃ page ∈ pages, page.id = rootDirectory
  nodup : (pages.map Page.id).Nodup
  valid : ∀ page ∈ pages, page.Valid

omit [Sha256] in
theorem hasDuplicate_of_nodup (h : (pages.map Page.id).Nodup) :
    DurablePager.hasDuplicate pages = false := by
  fun_induction DurablePager.hasDuplicate pages with
  | case1 first second pages ih =>
    rw [List.map_cons, List.nodup_cons] at h
    rw [Bool.or_eq_false_iff, decide_eq_false_iff_not]
    refine ⟨fun heq => h.1 ?_, ih h.2⟩
    rw [heq]
    exact List.mem_cons_self
  | case2 => rfl

theorem installSnapshot_spec (h : Sound store sb v log pending old written)
    (hpending : pending = none ∨ sb.generation = u64Max) (hmax : applyIndex ≤ u64Max)
    (hnextMax : nextPageId ≤ u64Max)
    (hwritten : ∀ page ∈ pages, written (page.stamp 0 applyIndex))
    (hafter : v.after (.installSnapshot applyIndex stateHash pages nextPageId rootDirectory) = v')
    (hR : ∀ store, Sound store sb v log pending old written → R store)
    (hR' : ∀ store next, next.Follows sb 0 →
      Sound store next v' log none written written → R store) :
    Spec (DurablePager.installSnapshot sb applyIndex stateHash pages nextPageId rootDirectory)
      store (Safely R)
      (fun next store' =>
        (applyIndex = v.appliedIndex ∧ next = sb ∧ Sound store' sb v log pending old written) ∨
        (next.Follows sb 0 ∧ Sound store' next v' log none written written))
      (fun _ store' => Sound store' sb v log pending old written ∧
        (Installs v applyIndex pages nextPageId rootDirectory → sb.generation = u64Max)) := by
  have hsafe := h.safely hR
  unfold DurablePager.installSnapshot
  rw [h.described.appliedIndex, h.described.nextPageId]
  split
  · rename_i hdup
    split
    · exact .fail hsafe ⟨h, fun hi => absurd hdup hi.index.ne'⟩
    · exact .pure hsafe (.inl ⟨hdup, rfl, h⟩)
  rename_i hne
  split
  · rename_i hlow
    exact .fail hsafe ⟨h, fun hi => absurd hlow hi.index.not_gt⟩
  rename_i hge
  split
  · rename_i hbad
    refine .fail hsafe ⟨h, fun hi => ?_⟩
    obtain ⟨root, hroot, heq⟩ := hi.root
    rcases hbad with hle | hempty | hrange | hno
    · exact absurd hle hi.next.not_ge
    · rw [List.isEmpty_iff.mp hempty] at hroot
      cases hroot
    · obtain ⟨page, hpage, hout⟩ := List.any_eq_true.mp hrange
      have hin := hi.range page hpage
      simp only [decide_eq_true_eq] at hout
      omega
    · exact absurd (List.any_eq_true.mpr ⟨root, hroot, decide_eq_true heq⟩) hno
  rename_i hgood
  simp only [not_or, not_le, Bool.not_eq_true, Bool.not_eq_false] at hgood
  obtain ⟨hnext, -, hrange, hroot⟩ := hgood
  have hrange : ∀ page ∈ pages, v.nextPageId ≤ page.id ∧ page.id < nextPageId := by
    intro page hpage
    have hno := List.any_eq_false.mp hrange page hpage
    simp only [decide_eq_true_eq, not_or, not_lt, not_le] at hno
    exact hno
  have hroot : rootDirectory < nextPageId := by
    obtain ⟨page, hpage, heq⟩ := List.any_eq_true.mp hroot
    simp only [decide_eq_true_eq] at heq
    rw [← heq]
    exact (hrange page hpage).2
  have hperm := List.perm_insertionSort (fun a b : Page => a.id ≤ b.id) pages
  have hsorted : (pages.insertionSort fun a b => a.id ≤ b.id).Pairwise fun a b => a.id ≤ b.id :=
    List.pairwise_insertionSort (fun a b : Page => a.id ≤ b.id) pages
  dsimp only
  split
  · rename_i hdup
    refine .fail hsafe ⟨h, fun hi => ?_⟩
    rw [hasDuplicate_of_nodup ((hperm.map Page.id).nodup_iff.mpr hi.nodup)] at hdup
    cases hdup
  rename_i hnodup
  have hnodup := nodup_of_hasDuplicate hsorted (by simpa using hnodup)
  have hmem : ∀ page ∈ pages.insertionSort fun a b => a.id ≤ b.id, page ∈ pages :=
    fun _ => hperm.mem_iff.mp
  rw [← List.nil_append (List.map _ _), ← List.map_nil, ← List.map_append] at hnodup
  refine .bind ((writeSnapshotPages_spec hR hnodup
    (fun page hpage => (hrange page (hmem page hpage)).1)
    (fun page hpage => hwritten page (hmem page hpage)) h fun _ hpage => by cases hpage).imp_error
      fun _ _ hE => hE.imp_right fun hinvalid hi =>
      absurd (fun page hpage => hi.valid page (hmem page hpage)) hinvalid) ?_
  rintro _ store₁ ⟨hs, hpages⟩
  refine .perform_bind (hs.safely hR) ?_
  have hsync := hs.syncDisk
  rcases hpending with rfl | hexhausted
  · have hv' : v' = { appliedIndex := applyIndex, stateHash, nextPageId
                      rootDirectory := some rootDirectory
                      pages := Version.overlay v.pages pages applyIndex } := by
      rw [← hafter]
      exact if_neg hne
    have hbody : Body { store₁ with disk := store₁.disk.sync } v' log none written written := by
      rw [hv']
      refine hsync.body.snapshot (fun _ _ hc => hc.of_sync) (fun page hpage => ?_) (by omega) hmax
        hnext.le hnextMax hroot
      obtain ⟨hge, hlt⟩ := hrange page hpage
      exact ⟨hge, hlt, hpages page (hperm.mem_iff.mpr hpage)⟩
    have hpublish := publishSuperblock_spec hsync hbody (Nat.zero_le u64Max) hR hR'
    rw [hv'] at hpublish ⊢
    exact hpublish.mono (fun _ hC => hC) (fun _ _ hQ => .inr hQ)
      fun _ _ ⟨hexhausted, heq⟩ => ⟨heq ▸ hsync, fun _ => hexhausted⟩
  · exact (publishSuperblock_exhausted hexhausted (hsync.safely hR)
      fun _ => ⟨hsync, fun _ => hexhausted⟩).mono
      (fun _ hC => hC) (fun _ _ hfalse => hfalse.elim) fun _ _ hE => hE

end Snapshot

section Checkpoint

omit [Sha256] in
/-- The last group of a log ends in it. -/
theorem IsScan.throughLsn_le {scan : WalScan} (h : IsScan log scan)
    (hchain : Chain 0 (logFrames log)) :
    (scan.groups.getLast?.map (·.endLsn)).getD 0 ≤ (logBytes log).length := by
  rw [h.1]
  cases hg : (logGroups log).getLast? with
  | none => simp
  | some g => exact (Record.endLsn_le hchain (mem_logGroups.mp (List.mem_of_getLast? hg))).2

theorem checkpoint_spec (h : Sound store sb v log pending old written)
    (hR : ∀ store, Sound store sb v log pending old written → R store)
    (hR₁ : ∀ store c, c.appliedIndex = v.appliedIndex → c.stateHash = v.stateHash →
      Sound store sb v (log ++ [.checkpoint c]) none old written → R store)
    (hR₂ : ∀ store next c, c.appliedIndex = v.appliedIndex → c.stateHash = v.stateHash →
      next.Follows sb c.endLsn →
      Sound store next v (log ++ [.checkpoint c]) none written written → R store) :
    Spec (DurablePager.checkpoint sb) store (Safely R)
      (fun result store' => ∃ c, c.appliedIndex = v.appliedIndex ∧ c.stateHash = v.stateHash ∧
        result.1.Follows sb c.endLsn ∧
        Sound store' result.1 v (log ++ [.checkpoint c]) none written written)
      (fun _ store' =>
        (Sound store' sb v log pending old written ∨
          ∃ c, c.appliedIndex = v.appliedIndex ∧ c.stateHash = v.stateHash ∧
            Sound store' sb v (log ++ [.checkpoint c]) none old written) ∧
        (pending = none → EndsIn log v.appliedIndex v.stateHash →
          (logBytes log).length + 88 ≤ u64Max → sb.generation = u64Max)) := by
  refine .perform_bind (h.safely hR) ?_
  have hsync := h.syncDisk
  refine scan_bind hsync.reads fun scan hscan => ?_
  rw [h.described.appliedIndex, h.described.stateHash, h.described.nextPageId,
    h.described.rootDirectory]
  refine .bind ((hsync.appendCheckpoint hR hR₁).imp_error ?_) ?_
  · rintro e store' ⟨hs, hroom⟩
    refine ⟨.inl hs, fun hnone hlast hfits => ?_⟩
    subst hnone
    rw [fullLog_none] at hscan
    have hthrough := hscan.throughLsn_le (by simpa using h.body.wal.logOk.chain)
    have hno := hroom rfl hthrough hlast
    omega
  · rintro c store₁ ⟨hindex, hhash, hmax, hs⟩
    have hpublish := publishSuperblock_spec hs hs.forget.body hmax
      (fun store hs => hR₁ store c hindex hhash hs)
      fun store next hfollows hs => hR₂ store next c hindex hhash hfollows hs
    refine .bind (hpublish.imp_error ?_) ?_
    · rintro e store' ⟨hexhausted, rfl⟩
      exact ⟨.inr ⟨c, hindex, hhash, hs⟩, fun _ _ _ => hexhausted⟩
    · rintro next store' ⟨hfollows, hs'⟩
      exact .pure (hs'.safely fun store hs => hR₂ store next c hindex hhash hfollows hs)
        ⟨c, hindex, hhash, hfollows, hs'⟩

omit [Sha256] in
theorem CheckpointOk.append_checkpoint {c : Checkpoint} (h : CheckpointOk sb log)
    (hindex : c.appliedIndex = sb.appliedIndex) (hhash : c.stateHash = sb.stateHash) :
    CheckpointOk sb (log ++ [.checkpoint c]) := by
  refine h.imp_right fun ⟨⟨found, hfound, hend⟩, hall⟩ => ?_
  simp only [logCheckpoints_append, logCheckpoints_checkpoint]
  refine ⟨⟨found, List.mem_append_left _ hfound, hend⟩, fun other hother hend => ?_⟩
  rcases List.mem_append.mp hother with hother | hother
  · exact hall other hother hend
  · rw [List.mem_singleton.mp hother]
    exact ⟨hindex, hhash⟩

omit [Sha256] in
/-- A superblock may refer to the checkpoint that was just appended. -/
theorem checkpointOk_last {c : Checkpoint} (h : Chain 0 (logFrames (log ++ [.checkpoint c])))
    (hindex : c.appliedIndex = sb.appliedIndex) (hhash : c.stateHash = sb.stateHash)
    (hend : sb.checkpointLsn = c.endLsn) : CheckpointOk sb (log ++ [.checkpoint c]) := by
  rw [logFrames_append] at h
  obtain ⟨hlog, hlast, -⟩ := Chain.append.mp h
  have hlastEnd : c.endLsn = 0 + (logBytes log).length + c.frame.size := hlast.endLsn
  have hsize : 0 < c.frame.size := by simp [Frame.size, frameFixed]
  simp only [CheckpointOk, logCheckpoints_append, logCheckpoints_checkpoint]
  refine .inr ⟨⟨c, by simp, hend.symm⟩, fun other hother hsame => ?_⟩
  rcases List.mem_append.mp hother with hother | hother
  · -- an older checkpoint ends before the new one begins
    have hle : other.endLsn ≤ (logBytes log).length :=
      (Record.endLsn_le hlog (mem_logCheckpoints.mp hother)).2
    omega
  · rw [List.mem_singleton.mp hother]
    exact ⟨hindex, hhash⟩

end Checkpoint

/-! ## Any call -/

/-- The files of an open pager. A group that was committed but could not be published stays
pending; with `K` the checkpoint of the superblock is in the log. -/
def Running (K : Prop) (store : Store) (sb : Superblock) (v : Version) (old written : Page → Prop) :
    Prop :=
  ∃ log pending, Sound store sb v log pending old written ∧
    (pending = none ∨ sb.generation = u64Max) ∧ (K → CheckpointOk sb log)

/-- The files after a crash in a call that leads from `v` to `v'`. -/
def Settling (K : Prop) (store : Store) (v v' : Version) (old written : Page → Prop) : Prop :=
  (∃ sb log pending, Sound store sb v log pending old written ∧
    (∀ g ∈ pending, sb.generation = u64Max ∨ v.Advance g v') ∧ (K → CheckpointOk sb log)) ∨
  ∃ sb, Running K store sb v' written written

/-- A superblock without a checkpoint was published. -/
theorem Superblock.Follows.running {K : Prop} {next : Superblock} (h : next.Follows sb 0)
    (hs : Sound store next v log none old written) : Running K store next v old written :=
  ⟨log, none, hs, .inl rfl, fun _ => .inl h.checkpointLsn⟩

/-- A call leads to the next version, or to an error and the same version; a crash leaves one or
the other. -/
theorem Operation.run_spec {K : Prop} {operation : Operation} (hfits : operation.fits = true)
    (hwritten : ∀ page ∈ operation.images.1, ∀ lsn, written (page.stamp lsn operation.images.2))
    (h : Running K store sb v old written) :
    Spec (operation.run sb) store (Safely fun store => Settling K store v (v.after operation) old
        written)
      (fun next store' => Running K store' next (v.after operation) written written)
      (fun _ store' => Running K store' sb v old written) := by
  obtain ⟨log, pending, hs, hpending, hcheckpoint⟩ := h
  have hsame : ∀ (store : Store), Sound store sb v log pending old written →
      Settling K store v (v.after operation) old written := fun store hs =>
    .inl ⟨sb, log, pending, hs, fun g hg => .inl (hpending.resolve_left (by
      rintro rfl
      cases hg)), hcheckpoint⟩
  cases operation with
  | apply applyIndex stateHash pages nextPageId rootDirectory =>
    simp only [Operation.fits, Bool.and_eq_true, decide_eq_true_eq] at hfits
    refine .bind
      ((apply_spec hs hpending hfits.1.1 hfits.1.2 hwritten rfl hsame ?_ ?_).imp_error ?_) ?_
    · intro store g _ hadvance hs
      exact .inl ⟨sb, log, some g, hs, fun g' hg' => .inr (Option.some.inj hg' ▸ hadvance),
        hcheckpoint⟩
    · intro store next g _ hfollows hs
      exact .inr ⟨next, hfollows.running hs⟩
    · rintro e store' ⟨⟨pending', hpending', hs'⟩, -⟩
      exact ⟨log, pending', hs', hpending', hcheckpoint⟩
    · rintro ⟨next, group⟩ store' (⟨hdup, hnext, hs'⟩ | ⟨-, hfollows, g, -, hs'⟩)
      · obtain rfl : next = sb := hnext
        have hv : v.after (.apply applyIndex stateHash pages nextPageId rootDirectory) = v :=
          if_pos hdup
        refine .pure (hs'.safely hsame) ?_
        rw [hv]
        exact ⟨log, pending, hs'.forget, hpending, hcheckpoint⟩
      · exact .pure (hs'.safely fun store hs => .inr ⟨next, hfollows.running hs⟩)
          (hfollows.running hs')
  | installSnapshot applyIndex stateHash pages nextPageId rootDirectory =>
    simp only [Operation.fits, Bool.and_eq_true, decide_eq_true_eq] at hfits
    refine (installSnapshot_spec hs hpending hfits.1.1 hfits.1.2 (fun page hpage =>
      hwritten page hpage 0) rfl hsame fun store next hfollows hs =>
        .inr ⟨next, hfollows.running hs⟩).mono (fun _ hC => hC) ?_ ?_
    · rintro next store' (⟨hdup, rfl, hs'⟩ | ⟨hfollows, hs'⟩)
      · have hv : v.after (.installSnapshot applyIndex stateHash pages nextPageId rootDirectory) =
            v := if_pos hdup
        rw [hv]
        exact ⟨log, pending, hs'.forget, hpending, hcheckpoint⟩
      · exact hfollows.running hs'
    · exact fun _ store' hE => ⟨log, pending, hE.1, hpending, hcheckpoint⟩
  | checkpoint =>
    have hmarked : ∀ {c : Checkpoint}, c.appliedIndex = v.appliedIndex →
        c.stateHash = v.stateHash → K → CheckpointOk sb (log ++ [.checkpoint c]) :=
      fun hindex hhash hK => (hcheckpoint hK).append_checkpoint
        (hindex.trans hs.described.appliedIndex.symm) (hhash.trans hs.described.stateHash.symm)
    have hrunning : ∀ (store : Store) (next : Superblock) (c : Checkpoint),
        c.appliedIndex = v.appliedIndex → c.stateHash = v.stateHash → next.Follows sb c.endLsn →
        Sound store next v (log ++ [.checkpoint c]) none written written →
        Running K store next v written written := by
      intro store next c hindex hhash hfollows hs
      refine ⟨_, none, hs, .inl rfl, fun _ => checkpointOk_last ?_ ?_ ?_ hfollows.checkpointLsn⟩
      · simpa using hs.body.wal.logOk.chain
      · exact hindex.trans hs.described.appliedIndex.symm
      · exact hhash.trans hs.described.stateHash.symm
    refine .bind ((checkpoint_spec hs hsame ?_ ?_).imp_error ?_) ?_
    · intro store c hindex hhash hs
      exact .inl ⟨sb, _, none, hs, fun _ hg => (by cases hg), hmarked hindex hhash⟩
    · intro store next c hindex hhash hfollows hs
      exact .inr ⟨next, hrunning store next c hindex hhash hfollows hs⟩
    · rintro e store' ⟨hs' | ⟨c, hindex, hhash, hs'⟩, -⟩
      · exact ⟨log, pending, hs', hpending, hcheckpoint⟩
      · exact ⟨_, none, hs', .inl rfl, hmarked hindex hhash⟩
    · rintro ⟨next, marker⟩ store' ⟨c, hindex, hhash, hfollows, hs'⟩
      have hall := fun store hs => hrunning store next c hindex hhash hfollows hs
      exact .pure (hs'.safely fun store hs => .inr ⟨next, hall store hs⟩) (hall store' hs')

end AsterStorage
