import AsterDB.Models.Storage.Interpretation.Recovery

/-!
# The files after any run

Whatever calls were made and wherever crashes cut them, the files hold the
version that the calls that took effect lead to.
-/

namespace AsterStorage

open AsterRaft (Sha256 u64Max)
open Crash

/-- Pages that calls write. -/
def Written (calls : List Call) (page : Page) : Prop :=
  ∃ call ∈ calls, ∃ given ∈ call.operation.images.1, ∃ lsn,
    page = given.stamp lsn call.operation.images.2

/-- The operations that took effect in a list of calls: those that returned, none that failed,
and any of those that a crash cut. -/
inductive Effective : List Call → List Operation → Prop
  | nil : Effective [] []
  | ok {calls : List Call} {operations : List Operation} (operation : Operation) :
    Effective calls operations →
    Effective (calls ++ [{ operation, status := .ok }]) (operations ++ [operation])
  | failed {calls : List Call} {operations : List Operation} (operation : Operation) :
    Effective calls operations →
    Effective (calls ++ [{ operation, status := .failed }]) operations
  | kept {calls : List Call} {operations : List Operation} (operation : Operation) :
    Effective calls operations →
    Effective (calls ++ [{ operation, status := .cut }]) (operations ++ [operation])
  | lost {calls : List Call} {operations : List Operation} (operation : Operation) :
    Effective calls operations →
    Effective (calls ++ [{ operation, status := .cut }]) operations

/-- Calls up to one that took effect, and nothing after it that returned. -/
structure History (calls upto : List Call) (operations : List Operation) : Prop where
  later : ∃ later, calls = upto ++ later ∧ ∀ call ∈ later, call.status ≠ .ok
  effective : Effective upto operations
  last : operations.getLast? = upto.getLast?.map Call.operation

theorem Version.run_concat (operations : List Operation) (operation : Operation) :
    run (operations ++ [operation]) = (run operations).after operation := by
  simp [run]

section History

variable {calls upto later : List Call} {operations : List Operation}

/-- Calls that did not return need not take effect. -/
theorem Effective.append (h : Effective upto operations)
    (hlater : ∀ call ∈ later, call.status ≠ .ok) : Effective (upto ++ later) operations := by
  induction later generalizing upto with
  | nil => rwa [List.append_nil]
  | cons call later ih =>
    rw [List.append_cons]
    refine ih ?_ fun other hother => hlater other (List.mem_cons_of_mem _ hother)
    obtain ⟨operation, status⟩ := call
    cases status with
    | ok => exact absurd rfl (hlater _ List.mem_cons_self)
    | failed => exact h.failed operation
    | cut => exact h.lost operation

theorem history_nil : History [] [] [] := ⟨⟨[], rfl, fun _ hcall => by cases hcall⟩, .nil, rfl⟩

theorem History.skip (h : History calls upto operations) {call : Call}
    (hstatus : call.status ≠ .ok) : History (calls ++ [call]) upto operations := by
  obtain ⟨⟨later, rfl, hlater⟩, heffective, hlast⟩ := h
  refine ⟨⟨later ++ [call], List.append_assoc .., fun other hother => ?_⟩, heffective, hlast⟩
  rcases List.mem_append.mp hother with hother | hother
  · exact hlater other hother
  · rwa [List.mem_singleton.mp hother]

theorem History.take (h : History calls upto operations) (operation : Operation) {status : Status}
    (hstatus : status ≠ .failed) :
    History (calls ++ [⟨operation, status⟩]) (calls ++ [⟨operation, status⟩])
      (operations ++ [operation]) := by
  obtain ⟨⟨later, rfl, hlater⟩, heffective, -⟩ := h
  refine ⟨⟨[], by simp, fun _ hcall => by cases hcall⟩, ?_, by simp⟩
  cases status with
  | ok => exact (heffective.append hlater).ok operation
  | failed => exact absurd rfl hstatus
  | cut => exact (heffective.append hlater).kept operation

theorem Written.concat {page : Page} (h : Written calls page) (call : Call) :
    Written (calls ++ [call]) page := by
  obtain ⟨other, hother, hrest⟩ := h
  exact ⟨other, List.mem_append_left _ hother, hrest⟩

theorem written_last (calls : List Call) (call : Call) :
    ∀ page ∈ call.operation.images.1, ∀ lsn,
      Written (calls ++ [call]) (page.stamp lsn call.operation.images.2) := fun page hpage lsn =>
  ⟨call, List.mem_append_right _ (List.mem_singleton_self _), page, hpage, lsn, rfl⟩

end History

variable [Sha256] {K : Prop} {store : Store} {sb : Superblock} {calls upto : List Call}
  {operations : List Operation}

/-- The files of an open pager after calls. -/
def Held (K : Prop) (calls : List Call) (store : Store) (sb : Superblock) : Prop :=
  ∃ upto operations, History calls upto operations ∧
    Running K store sb (.run operations) (Written upto) (Written calls)

/-- The files right after an open, with nothing pending. -/
def Opened (K : Prop) (calls : List Call) (store : Store) (sb : Superblock) : Prop :=
  ∃ upto operations log, History calls upto operations ∧
    Sound store sb (.run operations) log none (Written upto) (Written calls) ∧
    (K → CheckpointOk sb log)

/-- The files after calls when no pager is open: there may be a pending group, which leads to the
version with the last call. -/
def Rest (K : Prop) (calls : List Call) (store : Store) : Prop :=
  ∃ sb upto operations log pending, History calls upto operations ∧
    Sound store sb (.run operations) log pending (Written upto) (Written calls) ∧
    (∀ g ∈ pending, sb.generation = u64Max ∨ ∃ operations', History calls calls operations' ∧
      (Version.run operations).Advance g (.run operations')) ∧
    (K → CheckpointOk sb log)

theorem Opened.held (h : Opened K calls store sb) : Held K calls store sb := by
  obtain ⟨upto, operations, log, hhistory, hs, hcheckpoint⟩ := h
  exact ⟨upto, operations, hhistory, log, none, hs, .inl rfl, hcheckpoint⟩

theorem Held.rest (h : Held K calls store sb) : Rest K calls store := by
  obtain ⟨upto, operations, hhistory, log, pending, hs, hpending, hcheckpoint⟩ := h
  refine ⟨sb, upto, operations, log, pending, hhistory, hs, fun g hg => .inl ?_, hcheckpoint⟩
  refine hpending.resolve_left ?_
  rintro rfl
  cases hg

theorem Rest.crash (h : Rest K calls store) (fates : List Fate) (kept : Nat) :
    Rest K calls (store.crash fates kept) := by
  obtain ⟨sb, upto, operations, log, pending, hhistory, hs, hrest⟩ := h
  exact ⟨sb, upto, operations, log, pending, hhistory, hs.crash fates kept, hrest⟩

/-- What a call makes of the files. -/
theorem Held.call {operation : Operation} (h : Held K calls store sb)
    (hfits : operation.fits = true) :
    Spec (operation.run sb) store
      (Safely fun store => Rest K (calls ++ [{ operation, status := .cut }]) store)
      (fun next store' => Held K (calls ++ [{ operation, status := .ok }]) store' next)
      (fun _ store' => Held K (calls ++ [{ operation, status := .failed }]) store' sb) := by
  obtain ⟨upto, operations, hhistory, log, pending, hs, hpending, hcheckpoint⟩ := h
  -- which pages count as written does not depend on how the call ends
  have hwritten : ∀ status, Written (calls ++ [⟨operation, status⟩]) =
      Written (calls ++ [{ operation, status := .cut }]) := by
    intro status
    funext page
    simp [Written]
  have hrunning : Running K store sb (.run operations) (Written upto)
      (Written (calls ++ [{ operation, status := .cut }])) :=
    ⟨log, pending, hs.mono (fun _ hw => hw.concat _) fun _ ho _ => ho, hpending, hcheckpoint⟩
  refine (Operation.run_spec hfits (written_last calls ⟨operation, .cut⟩) hrunning).mono
    (fun store' hsafe fates kept => ?_) (fun next store' hrun => ?_) fun _ store' hrun => ?_
  · rcases hsafe fates kept with ⟨sb, log, pending, hs, hadvance, hcheckpoint⟩ | ⟨sb, hrun⟩
    · refine ⟨sb, upto, operations, log, pending, hhistory.skip (by simp), hs, fun g hg => ?_,
        hcheckpoint⟩
      refine (hadvance g hg).imp_right fun hadvance =>
        ⟨operations ++ [operation], hhistory.take operation (by simp), ?_⟩
      rwa [Version.run_concat]
    · have hheld : Held K (calls ++ [{ operation, status := .cut }])
          (store'.crash fates kept) sb := by
        refine ⟨_, operations ++ [operation], hhistory.take operation (by simp), ?_⟩
        rwa [Version.run_concat]
      exact hheld.rest
  · refine ⟨_, operations ++ [operation], hhistory.take operation (by simp), ?_⟩
    rwa [Version.run_concat, hwritten]
  · refine ⟨upto, operations, hhistory.skip (by simp), ?_⟩
    rwa [hwritten]

/-- Nothing is replayed over a superblock that refers to a checkpoint, or that has no successor. -/
def replaysSafely (store : Store) : Bool :=
  match readSuperblock store.disk, scanBytes store.wal.bytes with
  | .ok (some sb), .ok scan =>
    (scan.groups.all fun g => decide (g.applyIndex ≤ sb.appliedIndex)) ||
      (decide (sb.checkpointLsn = 0) && decide (sb.generation < u64Max))
  | _, _ => true

variable {old written : Page → Prop} {log : List Record}

theorem Sound.replaysSafely {v : Version} {g : CommittedApply}
    (h : Sound store sb v log (some g) old written)
    (hsafe : AsterStorage.replaysSafely store = true) :
    sb.checkpointLsn = 0 ∧ sb.generation < u64Max := by
  obtain ⟨scan, hscan, hgroups, -⟩ := h.reads.isScan
  unfold AsterStorage.replaysSafely at hsafe
  rw [h.slots.read, hscan] at hsafe
  simp only [Bool.or_eq_true, Bool.and_eq_true, decide_eq_true_eq] at hsafe
  refine hsafe.resolve_left fun hall => ?_
  have hmem : g ∈ scan.groups := by simp [hgroups, fullLog]
  have hle := List.all_eq_true.mp hall g hmem
  have hindex := (h.body.next g rfl).1
  simp only [decide_eq_true_eq, h.described.appliedIndex] at hle
  omega

theorem Sound.replaysSafely_none {v : Version}
    (h : Sound store sb v log none old written) : AsterStorage.replaysSafely store = true := by
  obtain ⟨scan, hscan, hgroups, -⟩ := h.reads.isScan
  unfold AsterStorage.replaysSafely
  rw [h.slots.read, hscan]
  simp only [Bool.or_eq_true]
  refine .inl (List.all_eq_true.mpr fun g hg => ?_)
  rw [hgroups, fullLog_none] at hg
  rw [decide_eq_true_eq, h.described.appliedIndex]
  exact (h.body.applied g hg).1

/-- What an open makes of the files; with `K` it succeeds. -/
theorem Rest.openPager (h : Rest K calls store) (hsafe : K → replaysSafely store = true) :
    Spec DurablePager.openPager store (Safely fun store => Rest K calls store)
      (fun result store' => Opened K calls store' result.1)
      (fun _ store' => Rest K calls store' ∧ ¬K) := by
  obtain ⟨sb, upto, operations, log, pending, hhistory, hs, hadvance, hcheckpoint⟩ := h
  have hrest : ∀ store, Sound store sb (.run operations) log pending (Written upto)
      (Written calls) → Rest K calls store := fun store hs =>
    ⟨sb, upto, operations, log, pending, hhistory, hs, hadvance, hcheckpoint⟩
  cases pending with
  | none =>
    refine (openPager_quiet hs).mono (fun store' hC => hC.2.safely hrest) ?_ ?_
    · rintro ⟨_, report⟩ store' ⟨rfl, -, hs', -⟩
      exact ⟨upto, operations, log, hhistory, hs', hcheckpoint⟩
    · rintro e store' ⟨hs', scan, hscan, hcheck⟩
      refine ⟨hrest store' hs', fun hK => ?_⟩
      rw [← fullLog_none log] at hscan
      rw [(hcheckpoint hK).check (by simpa using hs.body.wal.logOk.chain) hscan] at hcheck
      cases hcheck
  | some g =>
    have hmax : K → sb.generation ≠ u64Max := fun hK =>
      (hs.replaysSafely (hsafe hK)).2.ne
    have hfailed : ∀ (e : StorageError) (store' : Store),
        Sound store' sb (.run operations) log (some g) (Written upto) (Written calls) ∧
          (CheckpointOk sb log → sb.generation = u64Max) → Rest K calls store' ∧ ¬K :=
      fun _ store' hE => ⟨hrest store' hE.1, fun hK => hmax hK (hE.2 (hcheckpoint hK))⟩
    rcases hadvance g rfl with hexhausted | ⟨operations', hhistory', hadvance⟩
    · have hno : ∀ (store : Store) (next : Superblock), next.Follows sb sb.checkpointLsn →
          Slots store.disk next → False := by
        intro store next hfollows hslots
        have hle := hslots.fits.generation
        rw [hfollows.generation] at hle
        omega
      have hstuck : sb.generation = u64Max ∨ (Version.run operations).Advance g .genesis :=
        .inl hexhausted
      exact (openPager_replay hs hstuck hrest
        fun store next _ hfollows hs => (hno store next hfollows hs.slots).elim).mono
        (fun _ hC => hC) (fun _ store' hQ => (hno store' _ hQ.2.1 hQ.2.2.slots).elim) hfailed
    · have hopened : ∀ (store : Store) (next : Superblock), next.Follows sb sb.checkpointLsn →
          Sound store next (.run operations') (log ++ [.group g]) none (Written calls)
            (Written calls) → Opened K calls store next := by
        intro store next hfollows hs'
        refine ⟨calls, operations', _, hhistory', hs', fun hK => .inl ?_⟩
        rw [hfollows.checkpointLsn]
        exact (hs.replaysSafely (hsafe hK)).1
      exact (openPager_replay hs (.inr hadvance) hrest fun store next _ hfollows hs' =>
        (hopened store next hfollows hs').held.rest).mono (fun _ hC => hC)
        (fun _ store' hQ => hopened store' _ hQ.2.1 hQ.2.2) hfailed

namespace World

variable {w w' : World}

/-- What every run keeps. -/
def Inv (K : Prop) (w : World) : Prop :=
  match w.pager with
  | some sb => w.opened = true ∧ Held K w.calls w.store sb
  | none => w.opened = false ∧ w.calls = [] ∧ Fresh w.store ∨ Rest K w.calls w.store

/-- Opens replay nothing over a superblock that refers to a checkpoint. -/
def opensSafely (w : World) : Label → Bool
  | .openPager => replaysSafely w.store
  | .openCrash _ _ _ => replaysSafely w.store
  | _ => true

theorem inv_init (K : Prop) : init.Inv K := .inl ⟨rfl, rfl, fresh_empty⟩

/-- What an open does, from any state without a pager. -/
theorem Inv.openPager (h : w.Inv K) (hpager : w.pager = none)
    (hsafe : K → replaysSafely w.store = true) :
    Spec DurablePager.openPager w.store
      (Safely fun store => w.opened = false ∧ w.calls = [] ∧ Fresh store ∨ Rest K w.calls store)
      (fun result store' => Opened K w.calls store' result.1)
      (fun _ store' => (w.opened = false ∧ w.calls = [] ∧ Fresh store' ∨
        Rest K w.calls store') ∧ (w.opened = true → ¬K)) := by
  unfold Inv at h
  rw [hpager] at h
  rcases h with ⟨hopened, hcalls, hfresh⟩ | hrest
  · have hopen : ∀ store sb, sb.checkpointLsn = 0 →
        Sound store sb .genesis [] none (fun _ => False) (fun _ => False) →
        Opened K w.calls store sb := by
      intro store sb hzero hs
      rw [hcalls]
      exact ⟨[], [], [], history_nil, hs.mono (fun _ hf => hf.elim) fun _ hf => hf.elim,
        fun _ => .inl hzero⟩
    refine (openPager_fresh hfresh (fun store hf => .inl ⟨hopened, hcalls, hf⟩)
      fun store sb hzero hs => .inr (hopen store sb hzero hs).held.rest).mono (fun _ hC => hC) ?_ ?_
    · exact fun result store' hQ => hopen store' _ hQ.1.checkpointLsn hQ.2
    · refine fun _ store' hE => ⟨.inl ⟨hopened, hcalls, hE.1⟩, fun htrue => ?_⟩
      rw [hopened] at htrue
      cases htrue
  · exact (hrest.openPager hsafe).mono (fun store hC fates kept => .inr (hC fates kept))
      (fun _ _ hQ => hQ) fun _ _ hE => ⟨.inr hE.1, fun _ => hE.2⟩

/-- An open fails and leaves no pager, or succeeds. -/
theorem of_next_openPager (h : w.next .openPager = some w') : w.pager = none ∧
    ((∃ e, (DurablePager.openPager w.store).result = .error e ∧
      w' = { w with store := DurablePager.openPager.final w.store }) ∨
    ∃ sb report, (DurablePager.openPager w.store).result = .ok (sb, report) ∧
      w' = { w with
        store := DurablePager.openPager.final w.store, pager := some sb, opened := true }) := by
  unfold World.next at h
  dsimp only at h
  split at h
  · rename_i hpager
    refine ⟨Option.isNone_iff_eq_none.mp hpager, ?_⟩
    unfold World.openPager at h
    split at h
    · cases h
    · rename_i e _ hresult
      exact .inl ⟨e, hresult, (Option.some.inj h).symm⟩
    · rename_i sb report hresult
      exact .inr ⟨sb, report, hresult, (Option.some.inj h).symm⟩
  · cases h

theorem of_next_openCrash {count kept : Nat} {fates : List Fate}
    (h : w.next (.openCrash count fates kept) = some w') : w.pager = none ∧
    w' = { w with store := (DurablePager.openPager.cut w.store count).crash fates kept } := by
  unfold World.next at h
  dsimp only at h
  split at h
  · rename_i hpager
    exact ⟨Option.isNone_iff_eq_none.mp hpager, (Option.some.inj h).symm⟩
  · cases h

/-- Every transition keeps the invariant. -/
theorem Inv.next {label : Label} (h : w.Inv K) (hsafe : K → w.opensSafely label = true)
    (hnext : w.next label = some w') : w'.Inv K := by
  cases label with
  | openPager =>
    obtain ⟨hpager, hresult⟩ := of_next_openPager hnext
    have hspec := h.openPager hpager hsafe
    rcases hresult with ⟨e, hresult, rfl⟩ | ⟨sb, report, hresult, rfl⟩
    · rw [hpager]
      exact (hspec.error _ hresult).1
    · exact ⟨rfl, (hspec.ok _ hresult).held⟩
  | openCrash count fates kept =>
    obtain ⟨hpager, rfl⟩ := of_next_openCrash hnext
    rw [hpager]
    exact (h.openPager hpager hsafe).crash count fates kept
  | call operation =>
    unfold World.next at hnext
    dsimp only at hnext
    split at hnext
    · cases hnext
    rename_i state hpager
    unfold Inv at h
    rw [hpager] at h
    split at hnext
    · rename_i hfits
      have hspec := h.2.call hfits
      unfold World.call at hnext
      split at hnext
      · cases hnext
      · rename_i e hresult
        cases hnext
        rw [hpager]
        exact ⟨h.1, hspec.error _ hresult⟩
      · rename_i state' hresult
        cases hnext
        exact ⟨h.1, hspec.ok _ hresult⟩
    · cases hnext
  | callCrash operation count fates kept =>
    unfold World.next at hnext
    dsimp only at hnext
    split at hnext
    · cases hnext
    rename_i state hpager
    unfold Inv at h
    rw [hpager] at h
    split at hnext
    · rename_i hfits
      cases hnext
      exact .inr ((h.2.call hfits).crash count fates kept)
    · cases hnext
  | crash fates kept =>
    cases hnext
    unfold Inv at h ⊢
    split at h
    · exact .inr (h.2.rest.crash fates kept)
    · exact h.imp (fun ⟨hopened, hcalls, hfresh⟩ => ⟨hopened, hcalls, hfresh.crash fates kept⟩)
        fun hrest => hrest.crash fates kept
  | close =>
    cases hnext
    unfold Inv at h ⊢
    split at h
    · exact .inr h.2.rest
    · exact h

/-- The invariant holds after every run; with `K` all opens of the run are safe. -/
theorem inv_of_reachable {ok : World → Label → Prop}
    (hsafe : K → ∀ w label, ok w label → w.opensSafely label = true) (h : ReachableIf ok w) :
    w.Inv K := by
  induction h with
  | init => exact inv_init K
  | next label _ hok hnext ih => exact ih.next (fun hK => hsafe hK _ _ hok) hnext

end World

end AsterStorage
