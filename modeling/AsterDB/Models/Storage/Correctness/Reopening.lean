import AsterDB.Models.Storage.Interpretation.History

/-!
# Opening the pager again

After an open has succeeded every later one does, and it finds what the one
before published, as long as no committed group is replayed over a superblock
that refers to a checkpoint: the published superblock keeps that reference, and
the checkpoint no longer has its index.
-/

namespace AsterStorage

open AsterRaft (Digest Sha256 u64Max zeroHash)
open Crash

namespace World

/-- Transitions that call nothing. -/
def Label.idle : Label → Bool
  | .call _ => false
  | .callCrash _ _ _ _ => false
  | _ => true

variable [Sha256] {w w' : World} {sb : Superblock} {v : Version} {log : List Record}
  {old written : Page → Prop}

/-- One transition without a call, where opens replay nothing over a checkpoint. -/
def Idles (w w' : World) : Prop :=
  ∃ label : Label, label.idle = true ∧ w.opensSafely label = true ∧ w.next label = some w'

/-- The files and the pager as they were published with `sb` on `store`. -/
structure Keeps (store : Store) (sb : Superblock) (v : Version) (log : List Record)
    (old written : Page → Prop) (w : World) : Prop where
  pager : w.pager = none ∨ w.pager = some sb
  sound : Sound w.store sb v log none old written
  possible : ∀ id content, w.store.disk.Possible id content → store.disk.Possible id content

theorem Keeps.idles {store : Store} (h : Keeps store sb v log old written w)
    (hidles : w.Idles w') : Keeps store sb v log old written w' := by
  obtain ⟨label, hidle, -, hnext⟩ := hidles
  have hopen := openPager_quiet h.sound
  cases label with
  | openPager =>
    obtain ⟨hnone, ⟨e, hresult, rfl⟩ | ⟨state, report, hresult, rfl⟩⟩ := of_next_openPager hnext
    · obtain ⟨hs, -⟩ := hopen.error _ hresult
      have hcut := hopen.crash (DurablePager.openPager w.store).effects.length
      rw [Program.cut_all] at hcut
      exact ⟨.inl hnone, hs, fun id content hc => h.possible id content (hcut.1 ▸ hc)⟩
    · obtain ⟨hstate, hdisk, hs, -⟩ := hopen.ok _ hresult
      exact ⟨.inr (congrArg some hstate), hs, fun id content hc =>
        h.possible id content (hdisk ▸ hc)⟩
  | openCrash count fates kept =>
    obtain ⟨hnone, rfl⟩ := of_next_openCrash hnext
    obtain ⟨hdisk, hs⟩ := hopen.crash count
    exact ⟨.inl hnone, hs.crash fates kept, fun id content hc =>
      h.possible id content (hdisk ▸ hc.of_crash)⟩
  | call operation => cases hidle
  | callCrash operation count fates kept => cases hidle
  | crash fates kept =>
    cases hnext
    exact ⟨.inl rfl, h.sound.crash fates kept, fun id content hc =>
      h.possible id content hc.of_crash⟩
  | close =>
    cases hnext
    exact ⟨.inl rfl, h.sound, h.possible⟩

/-- With a group pending and no generation left, no safe open comes any more. -/
theorem idles_exhausted {g : CommittedApply} (h : Sound w.store sb v log (some g) old written)
    (hexhausted : sb.generation = u64Max) (hidles : w.Idles w') :
    w'.pager = none ∧ Sound w'.store sb v log (some g) old written := by
  obtain ⟨label, hidle, hsafe, hnext⟩ := hidles
  cases label with
  | openPager | openCrash count fates kept => exact absurd hexhausted (h.replaysSafely hsafe).2.ne
  | call operation => cases hidle
  | callCrash operation count fates kept => cases hidle
  | crash fates kept =>
    cases hnext
    exact ⟨rfl, h.crash fates kept⟩
  | close =>
    cases hnext
    exact ⟨rfl, h⟩

variable {sb' : Superblock}

/-- Until the next call every safe open publishes the same. -/
theorem idles_keep (hw : w.Inv True) (hpager : w.pager = some sb)
    (hidles : Relation.ReflTransGen Idles w w') (hpager' : w'.pager = some sb') :
    sb' = sb ∧ ∀ id, 2 ≤ id → id < sb.nextPageId →
      w'.store.disk.pages id = w.store.disk.pages id := by
  unfold Inv at hw
  rw [hpager] at hw
  obtain ⟨-, upto, operations, -, log, pending, hs, hpending, -⟩ := hw
  cases pending with
  | none =>
    have hkeeps : Keeps w.store sb (.run operations) log (Written upto) (Written w.calls) w' := by
      clear hpager'
      induction hidles with
      | refl => exact ⟨.inr hpager, hs, fun _ _ hc => hc⟩
      | tail _ hstep ih => exact ih.idles hstep
    obtain ⟨hnone | hsome, -, hpossible⟩ := hkeeps
    · rw [hpager'] at hnone
      cases hnone
    rw [hpager'] at hsome
    refine ⟨Option.some.inj hsome, fun id hid hlt => ?_⟩
    rw [hs.described.nextPageId] at hlt
    exact hs.body.steady rfl id _ _ hid hlt (hpossible id _ (w'.store.disk.possible_pages id))
      (w.store.disk.possible_pages id)
  | some g =>
    have hexhausted : sb.generation = u64Max := hpending.resolve_left (by simp)
    have hstuck : w' = w ∨ w'.pager = none ∧
        Sound w'.store sb (.run operations) log (some g) (Written upto) (Written w.calls) := by
      clear hpager'
      induction hidles with
      | refl => exact .inl rfl
      | tail _ hstep ih =>
        right
        rcases ih with rfl | ⟨-, hs'⟩
        · exact idles_exhausted hs hexhausted hstep
        · exact idles_exhausted hs' hexhausted hstep
    rcases hstuck with rfl | ⟨hnone, -⟩
    · rw [hpager] at hpager'
      exact ⟨(Option.some.inj hpager').symm, fun _ _ _ => rfl⟩
    · rw [hpager'] at hnone
      cases hnone

/-! ## Calls that succeed -/

theorem next_openPager {report : RecoveryReport} (hpager : w.pager = none)
    (hresult : (DurablePager.openPager w.store).result = .ok (sb, report)) :
    w.next .openPager = some { w with
      store := DurablePager.openPager.final w.store, pager := some sb, opened := true } := by
  unfold World.next
  rw [hpager, Option.isNone_none, if_pos rfl]
  unfold World.openPager
  rw [hresult]

theorem next_call {operation : Operation} (hpager : w.pager = some sb)
    (hfits : operation.fits = true) (hresult : (operation.run sb w.store).result = .ok sb') :
    w.next (.call operation) = some { w with
      store := (operation.run sb).final w.store
      pager := some sb'
      calls := w.calls ++ [⟨operation, .ok⟩] } := by
  unfold World.next
  rw [hpager]
  dsimp only
  rw [if_pos hfits]
  unfold World.call
  rw [hresult]

/-- The first open succeeds. -/
theorem exists_opened : ∃ sb report,
    (DurablePager.openPager Store.empty).result = .ok (sb, report) ∧ sb.Follows .genesis 0 ∧
    Sound (DurablePager.openPager.final Store.empty) sb .genesis [] none (fun _ => False)
      fun _ => False := by
  have hspec := openPager_fresh (R := fun _ => True) fresh_empty (fun _ _ => trivial)
    fun _ _ _ _ => trivial
  obtain ⟨⟨sb, report⟩, hresult, hfollows, hs⟩ := hspec.exists_ok fun e hE => hE.2 rfl
  exact ⟨sb, report, hresult, hfollows, hs⟩

/-- The next apply of a version, without pages. -/
def emptyApply (v : Version) (stateHash : Digest) : Operation :=
  .apply (v.appliedIndex + 1) stateHash [] v.nextPageId none

omit [Sha256] in
theorem accepts_empty (hroom : (logBytes log).length + 164 ≤ u64Max) (v : Version) :
    Accepts log v.nextPageId none [] where
  id_lt _ hpage := by cases hpage
  rootDirectory _ hroot := by cases hroot
  valid _ hpage := by cases hpage
  nodup := List.nodup_nil
  count := by decide
  room := by
    rw [List.length_nil]
    omega

variable (hs : Sound w.store sb v log none old written)
include hs

theorem fits_emptyApply (hindex : v.appliedIndex < u64Max) (stateHash : Digest) :
    (emptyApply v stateHash).fits = true := by
  have hnext := hs.body.version.nextPageId
  simp only [emptyApply, Operation.fits, Option.all_none, Bool.and_true, Bool.and_eq_true,
    decide_eq_true_eq]
  omega

variable (hpager : w.pager = some sb)
include hpager

/-- An apply without pages succeeds while there is room and a generation. -/
theorem exists_applied (hgeneration : sb.generation < u64Max) (hindex : v.appliedIndex < u64Max)
    (hroom : (logBytes log).length + 164 ≤ u64Max) (stateHash : Digest) :
    ∃ w' sb' g, w.next (.call (emptyApply v stateHash)) = some w' ∧ w'.pager = some sb' ∧
      w'.opened = w.opened ∧ w'.calls = w.calls ++ [⟨emptyApply v stateHash, .ok⟩] ∧
      sb'.Follows sb 0 ∧ v.Advance g (v.after (emptyApply v stateHash)) ∧
      Sound w'.store sb' (v.after (emptyApply v stateHash)) (log ++ [.group g]) none written
        written := by
  have hspec := apply_spec (R := fun _ => True) hs (.inl rfl) hindex hs.body.version.nextPageId
    (fun _ hpage => by cases hpage) (rfl : v.after (emptyApply v stateHash) = _)
    (fun _ _ => trivial) (fun _ _ _ _ _ => trivial) fun _ _ _ _ _ _ => trivial
  have hrun : Spec ((emptyApply v stateHash).run sb) w.store (Safely fun _ => True)
      (fun next store' => next.Follows sb 0 ∧ ∃ g, v.Advance g (v.after (emptyApply v stateHash)) ∧
        Sound store' next (v.after (emptyApply v stateHash)) (log ++ [.group g]) none written
          written)
      (fun _ _ => sb.generation = u64Max) := by
    refine .bind_pure (f := Prod.fst) (hspec.imp_error ?_) ?_
    · exact fun _ _ hE => hE.2 rfl rfl le_rfl (fun _ hpage => by cases hpage)
        (accepts_empty hroom v)
    · rintro result store' (⟨hdup, -⟩ | ⟨-, hfollows, g, hadvance, hs'⟩)
      · omega
      · exact ⟨hfollows, g, hadvance, hs'⟩
  obtain ⟨sb', hresult, hfollows, g, hadvance, hs'⟩ := hrun.exists_ok fun _ hE => by omega
  exact ⟨_, sb', g, next_call hpager (fits_emptyApply hs hindex stateHash) hresult, rfl, rfl, rfl,
    hfollows, hadvance, hs'⟩

/-- A crash may come right after the log of such an apply was synced. -/
theorem exists_cut (hindex : v.appliedIndex < u64Max) (hroom : (logBytes log).length + 164 ≤ u64Max)
    (stateHash : Digest) :
    ∃ count w' g, w.next (.callCrash (emptyApply v stateHash) count [] 0) = some w' ∧
      w'.pager = none ∧ w'.calls = w.calls ++ [⟨emptyApply v stateHash, .cut⟩] ∧
      v.Advance g (v.after (emptyApply v stateHash)) ∧
      Sound w'.store sb v log (some g) old written := by
  set append := WriteAheadLog.appendApplyWithMetadata (v.appliedIndex + 1) stateHash v.nextPageId
    none [] with happend
  have hmax := hs.body.version.nextPageId
  obtain ⟨k, happly⟩ : ∃ k, DurablePager.apply sb (v.appliedIndex + 1) stateHash [] v.nextPageId
      none = append >>= k := by
    unfold DurablePager.apply
    rw [hs.described.appliedIndex, hs.described.nextPageId, if_neg (by simp), if_neg (by omega),
      if_neg (by simp), if_neg (by simp)]
    exact ⟨_, rfl⟩
  have hspec : Spec append w.store (Safely fun _ => True)
      (fun g store' => Sound store' sb v log (some g) old written ∧ (none = some g ∨
        none = none ∧ v.Advance g (v.after (emptyApply v stateHash))))
      (fun _ store' => Sound store' sb v log none old written ∧
        (none = none → ¬Accepts log v.nextPageId none [])) :=
    hs.appendApplyWithMetadata rfl hindex hmax le_rfl (fun _ hpage => by cases hpage)
      (fun _ _ => trivial) fun _ _ _ _ _ => trivial
  obtain ⟨g, -, hs', hg⟩ := hspec.exists_ok fun _ hE => hE.2 rfl (accepts_empty hroom v)
  have hadvance := (hg.resolve_left (by simp)).2
  have hcut : ((emptyApply v stateHash).run sb).cut w.store (append w.store).effects.length =
      append.final w.store := by
    unfold emptyApply Operation.run
    dsimp only
    rw [happly, Program.cut_bind _ _ _ (Program.effects_bind_le ..),
      Program.cut_bind _ _ _ le_rfl, Program.cut_all]
  refine ⟨(append w.store).effects.length, { w with
    store := (append.final w.store).crash [] 0
    pager := none
    calls := w.calls ++ [⟨emptyApply v stateHash, .cut⟩] }, g, ?_, rfl, rfl, hadvance,
    hs'.crash [] 0⟩
  unfold World.next
  rw [hpager]
  dsimp only
  rw [if_pos (fits_emptyApply hs hindex stateHash), hcut]

/-- A checkpoint right after an apply succeeds while there is room and a generation. -/
theorem exists_checkpointed (hgeneration : sb.generation < u64Max)
    (hroom : (logBytes log).length + 88 ≤ u64Max) (hlast : EndsIn log v.appliedIndex v.stateHash) :
    ∃ w' sb' c, w.next (.call .checkpoint) = some w' ∧ w'.pager = some sb' ∧
      c.appliedIndex = v.appliedIndex ∧ c.stateHash = v.stateHash ∧ sb'.Follows sb c.endLsn ∧
      Sound w'.store sb' v (log ++ [.checkpoint c]) none written written := by
  have hspec := checkpoint_spec (R := fun _ => True) hs (fun _ _ => trivial)
    (fun _ _ _ _ _ => trivial) fun _ _ _ _ _ _ _ => trivial
  have hrun : Spec (Operation.checkpoint.run sb) w.store (Safely fun _ => True)
      (fun next store' => ∃ c, c.appliedIndex = v.appliedIndex ∧ c.stateHash = v.stateHash ∧
        next.Follows sb c.endLsn ∧
        Sound store' next v (log ++ [.checkpoint c]) none written written)
      (fun _ _ => sb.generation = u64Max) :=
    .bind_pure (f := Prod.fst) (hspec.imp_error fun _ _ hE => hE.2 rfl hlast hroom) fun _ _ hQ => hQ
  obtain ⟨sb', hresult, c, hindex, hhash, hfollows, hs'⟩ := hrun.exists_ok fun _ hE => by omega
  exact ⟨_, sb', c, next_call hpager rfl hresult, rfl, hindex, hhash, hfollows, hs'⟩

end World

/-- The superblock keeps the checkpoint of the version before. -/
theorem Sound.checkCheckpoint_stale [Sha256] {store : Store} {sb : Superblock} {v : Version}
    {log : List Record} {old written : Page → Prop} {scan : WalScan} {c : Checkpoint}
    (hs : Sound store sb v log none old written) (hscan : IsScan log scan)
    (hcheckpoints : logCheckpoints log = [c])
    (hend : sb.checkpointLsn = c.endLsn) (hindex : c.appliedIndex ≠ v.appliedIndex) :
    checkCheckpoint sb scan =
      .error (.invariant "checkpoint index/hash disagrees with superblock") := by
  have hmem : c ∈ logCheckpoints log := by simp [hcheckpoints]
  have hbounds : 0 < c.endLsn ∧ c.endLsn ≤ (logBytes log).length :=
    Record.endLsn_le (by simpa using hs.body.wal.logOk.chain) (mem_logCheckpoints.mp hmem)
  have hoffset : scan.safeAppendOffset = (logBytes log).length := by
    exact hscan.2.2
  have hfound : scan.checkpoints = [c] := by rw [hscan.2.1, hcheckpoints]
  unfold checkCheckpoint
  rw [if_neg (by omega), if_neg (by omega), hfound]
  simp [hend, hs.described.appliedIndex, hindex]

section Sizes

variable {g : CommittedApply}

/-- A group without pages. -/
theorem length_logBytes_group (h : g.pages = []) : (logBytes [.group g]).length = 164 := by
  simp [logBytes, logFrames, Record.frames, CommittedApply.frames, CommittedApply.openFrames, h,
    Frame.size, CommittedApply.beginFrame, CommittedApply.commitFrame,
    WriteAheadLog.beginPayload, frameFixed]

theorem length_logBytes_checkpoint (c : Checkpoint) : (logBytes [.checkpoint c]).length = 88 := by
  simp [logBytes, logFrames, Record.frames, Frame.size, Checkpoint.frame, frameFixed]

/-- A group that leads to a version without pages has none. -/
theorem Version.Advance.pages_eq_nil {v v' : Version} (h : v.Advance g v')
    (hpages : ∀ id, v'.pages id = none) : g.pages = [] := by
  refine List.eq_nil_iff_forall_not_mem.mpr fun image himage => ?_
  obtain ⟨page, lsn, epoch, hpage, -⟩ := h.image image himage
  rw [hpages] at hpage
  cases hpage

end Sizes

/-- The first open and an apply succeed. -/
theorem World.exists_first [Sha256] (stateHash : Digest) : ∃ w sb g,
    (∀ ok : World → Label → Prop, ok init .openPager → (∀ w call, ok w (.call call)) →
      ReachableIf ok w) ∧
    w.pager = some sb ∧ w.opened = true ∧ w.calls = [⟨emptyApply .genesis stateHash, .ok⟩] ∧
    sb.generation = 3 ∧ sb.checkpointLsn = 0 ∧ (logBytes [.group g]).length = 164 ∧
    Version.genesis.Advance g (Version.genesis.after (emptyApply .genesis stateHash)) ∧
    Sound w.store sb (Version.genesis.after (emptyApply .genesis stateHash)) [.group g] none
      (fun _ => False) fun _ => False := by
  obtain ⟨sb, report, hresult, hfollows, hs⟩ := exists_opened
  have hnext := next_openPager (w := init) rfl hresult
  have hgeneration : sb.generation = 2 := hfollows.generation
  obtain ⟨w', sb', g, hnext', hpager', hopened, hcalls, hfollows', hadvance, hs'⟩ :=
    exists_applied (w := { init with store := _, pager := _, opened := true }) hs rfl
      (hgeneration ▸ by decide) (by decide) (by decide) stateHash
  exact ⟨w', sb', g, fun ok hopen hcall => .next _ (.next _ .init hopen hnext) (hcall _ _) hnext',
    hpager', hopened, hcalls, by rw [hfollows'.generation, hgeneration], hfollows'.checkpointLsn,
    length_logBytes_group (hadvance.pages_eq_nil fun _ => rfl), hadvance, hs'⟩

/-- Opens succeed again and again, and until the next call they publish the same superblock and
the same allocated pages, in every run whose opens replay nothing over a superblock that refers
to a checkpoint or has no successor. -/
theorem reopening [Sha256] (w : World)
    (h : World.ReachableIf (fun w label => w.opensSafely label = true) w) :
    (w.opened = true → w.pager = none → replaysSafely w.store = true →
      ∃ result, (DurablePager.openPager w.store).result = .ok result) ∧
    ∀ sb w' sb', w.pager = some sb → Relation.ReflTransGen World.Idles w w' →
      w'.pager = some sb' → sb' = sb ∧ ∀ id, 2 ≤ id → id < sb.nextPageId →
        w'.store.disk.pages id = w.store.disk.pages id := by
  have hinv : w.Inv True := World.inv_of_reachable (fun _ _ _ hok => hok) h
  constructor
  · intro hopened hpager hsafe
    have hspec := hinv.openPager hpager fun _ => hsafe
    obtain ⟨result, hresult, -⟩ := hspec.exists_ok fun _ hE => hE.2 hopened trivial
    exact ⟨result, hresult⟩
  · exact fun sb w' sb' hpager hidles hpager' => World.idles_keep hinv hpager hidles hpager'

/-- The pager is opened, an apply is made, a crash comes, and the pager is opened again. -/
theorem reopening_twice : ∃ w w' w'' sb sb',
    @World.ReachableIf zeroHash (fun w label => @World.opensSafely zeroHash w label = true) w ∧
    w.calls = [⟨World.emptyApply .genesis (Vector.replicate 32 0), .ok⟩] ∧ w.pager = some sb ∧
    @World.next zeroHash w (.crash [] 0) = some w' ∧
    (∃ result, (@DurablePager.openPager zeroHash w'.store).result = .ok result) ∧
    @World.next zeroHash w' .openPager = some w'' ∧ w''.pager = some sb' ∧ sb' = sb := by
  let _ := zeroHash
  obtain ⟨w, sb, g, hfirst, hpager, hopened, hcalls, -, -, -, -, hs⟩ :=
    World.exists_first (Vector.replicate 32 0)
  have hreach : World.ReachableIf (fun w label => w.opensSafely label = true) w :=
    hfirst _ rfl fun _ _ => rfl
  have hcrashed : World.ReachableIf (fun w label => w.opensSafely label = true)
      { w with store := w.store.crash [] 0, pager := none } := hreach.next (.crash [] 0) rfl rfl
  have hsafe := (hs.crash [] 0).replaysSafely_none
  obtain ⟨⟨sb', report⟩, hresult⟩ := (reopening _ hcrashed).1 hopened rfl hsafe
  have hnext' := World.next_openPager rfl hresult
  have hcrash : w.Idles _ := ⟨.crash [] 0, rfl, rfl, rfl⟩
  have hopen : World.Idles { w with store := w.store.crash [] 0, pager := none } _ :=
    ⟨.openPager, rfl, hsafe, hnext'⟩
  have hidles := (Relation.ReflTransGen.single hcrash).tail hopen
  exact ⟨w, _, _, sb, sb', hreach, hcalls, hpager, rfl, ⟨_, hresult⟩, hnext', rfl,
    ((reopening w hreach).2 sb _ sb' hpager hidles rfl).1⟩

/-- An apply is cut after its log was synced, over a superblock with a checkpoint. The next open
replays it, and the one after that fails. -/
theorem stale_checkpoint :
    let _ := zeroHash
    ∃ w : World, w.Reachable ∧ w.opened = true ∧ w.pager = none ∧
      (DurablePager.openPager w.store).result =
        .error (.invariant "checkpoint index/hash disagrees with superblock") := by
  intro _
  have hmax : u64Max = 2 ^ 64 - 1 := rfl
  set hash : Digest := Vector.replicate 32 0
  obtain ⟨w₂, sb₂, g₁, hfirst, hpager₂, -, -, hgeneration₂, -, hlength₂, hadvance₁, hs₂⟩ :=
    World.exists_first hash
  set v₁ := Version.genesis.after (World.emptyApply .genesis hash) with hv₁
  have happlied₁ : v₁.appliedIndex = 1 := rfl
  -- the checkpoint of apply 1
  obtain ⟨w₃, sb₃, c, hnext₃, hpager₃, hindex, hhash, hfollows₃, hs₃⟩ :=
    World.exists_checkpointed hs₂ hpager₂ (by omega) (by omega) fun g hg => by
      cases hg
      exact ⟨hadvance₁.appliedIndex.symm, hadvance₁.stateHash.symm⟩
  have hgeneration₃ := hfollows₃.generation
  have hlength₃ : (logBytes ([.group g₁] ++ [.checkpoint c])).length = 252 := by
    rw [logBytes_append, List.length_append, hlength₂, length_logBytes_checkpoint]
  -- apply 2, cut after the sync of the log
  obtain ⟨count, w₄, g₂, hnext₄, hpager₄, -, hadvance₂, hs₄⟩ :=
    World.exists_cut hs₃ hpager₃ (by omega) (by omega) hash
  set v₂ := v₁.after (World.emptyApply v₁ hash) with hv₂
  have happlied₂ : v₂.appliedIndex = 2 := rfl
  -- the open that replays it
  have hcheckpoint : CheckpointOk sb₃ ([.group g₁] ++ [.checkpoint c]) :=
    checkpointOk_last (by simpa using hs₃.body.wal.logOk.chain)
      (hindex.trans hs₃.described.appliedIndex.symm) (hhash.trans hs₃.described.stateHash.symm)
      hfollows₃.checkpointLsn
  have hreplay := openPager_replay (R := fun _ => True) hs₄ (.inr hadvance₂) (fun _ _ => trivial)
    fun _ _ _ _ _ => trivial
  obtain ⟨⟨sb₅, report⟩, hresult₅, -, hfollows₅, hs₅⟩ := hreplay.exists_ok fun _ hE => by
    have hgeneration := hE.2 hcheckpoint
    omega
  have hnext₅ := World.next_openPager hpager₄ hresult₅
  -- the open after it
  refine ⟨{ w₄ with store := DurablePager.openPager.final w₄.store, pager := none
                    opened := true }, ?_, rfl, rfl, ?_⟩
  · exact .next .close (.next _ (.next _ (.next _ (hfirst _ trivial fun _ _ => trivial) trivial
      hnext₃) trivial hnext₄) trivial hnext₅) trivial rfl
  · have hquiet := openPager_quiet hs₅
    have hstale : ∀ scan, IsScan ([.group g₁] ++ [.checkpoint c] ++ [.group g₂]) scan →
        checkCheckpoint sb₅ scan =
          .error (.invariant "checkpoint index/hash disagrees with superblock") := by
      intro scan hscan
      refine hs₅.checkCheckpoint_stale hscan rfl ?_ (by omega)
      rw [hfollows₅.checkpointLsn, hfollows₃.checkpointLsn]
    cases hresult : (DurablePager.openPager (DurablePager.openPager.final w₄.store)).result with
    | ok result =>
      obtain ⟨-, -, -, scan, hscan, hcheck⟩ := hquiet.ok result hresult
      rw [hstale scan hscan] at hcheck
      cases hcheck
    | error e =>
      obtain ⟨-, scan, hscan, hcheck⟩ := hquiet.error e hresult
      rw [hstale scan hscan] at hcheck
      cases hcheck
      rfl

end AsterStorage
