import AsterDB.Models.Storage.Correctness.Reopening

/-!
# Calls are atomic and durable

Whenever an open succeeds, it publishes the version that the calls up to one of
them lead to. No call after that one returned, and no page of the version comes
from a later call.
-/

namespace AsterStorage

open AsterRaft (Digest Sha256 u64Max zeroHash)
open Crash

/-- A page that is there is read. -/
theorem Disk.readPage_eq_ok {disk : Disk} {id : Nat} {bytes : PageArray} :
    disk.readPage id = .ok bytes ↔ disk.pages id = some bytes := by
  unfold readPage
  cases disk.pages id with
  | none => simp
  | some found => simp

/-- An open publishes what the calls up to some call `k` made of the database: the superblock is
the one of their last call, no call after `k` returned, every page of theirs holds its last image,
and every allocated page that decodes was written by one of them. -/
theorem crash_atomicity [Sha256] (w w' : World) (sb : Superblock) (h : w.Reachable)
    (hopen : w.next .openPager = some w') (hpager : w'.pager = some sb) :
    ∃ upto operations, History w.calls upto operations ∧
      (Version.run operations).DescribedBy sb ∧
      (∀ id page epoch, (Version.run operations).pages id = some (page, epoch) →
        2 ≤ id ∧ id < sb.nextPageId ∧
        ∃ lsn, w'.store.disk.readPage id = .ok (page.stamp lsn epoch).array) ∧
      ∀ id bytes page, 2 ≤ id → id < sb.nextPageId → w'.store.disk.readPage id = .ok bytes →
        Page.decode bytes = .ok page → page.id = id ∧ Written upto page := by
  have hinv : w.Inv False := World.inv_of_reachable (fun hfalse => hfalse.elim) h
  obtain ⟨hnone, ⟨e, -, rfl⟩ | ⟨state, report, hresult, rfl⟩⟩ := World.of_next_openPager hopen
  · rw [hnone] at hpager
    cases hpager
  obtain rfl : state = sb := Option.some.inj hpager
  obtain ⟨upto, operations, log, hhistory, hs, -⟩ :=
    (hinv.openPager hnone fun hfalse => hfalse.elim).ok _ hresult
  have hpages := fun id hid => hs.body.pages id _ hid (Disk.possible_pages _ id)
  refine ⟨upto, operations, hhistory, hs.described, fun id page epoch hpage => ?_,
    fun id bytes page hid hlt hread hdecode => ?_⟩
  · obtain ⟨hid, hlt⟩ := hs.body.version.allocated id (by simp [hpage])
    obtain ⟨lsn, hlsn⟩ := (hpages id hid).held page epoch hpage fun _ hg => by cases hg
    exact ⟨hid, hs.described.nextPageId ▸ hlt, lsn, Disk.readPage_eq_ok.mpr hlsn⟩
  · obtain ⟨rfl, hvalid⟩ := Page.decode_eq_ok.mp hdecode
    obtain ⟨hpid, -, -, hold⟩ :=
      (hpages id hid).found ⟨bytes⟩ (Disk.readPage_eq_ok.mp hread) hvalid
    refine ⟨hpid, (hold (hs.described.nextPageId ▸ hlt)).resolve_right ?_⟩
    rintro ⟨_, hg, _⟩
    cases hg

/-- One apply returns, a crash cuts the next one after its log was synced, and the pager is opened
with both. -/
theorem crash_atomicity_applied : ∃ w w' sb, @World.Reachable zeroHash w ∧
    w.calls.map (·.status) = [.ok, .cut] ∧ @World.next zeroHash w .openPager = some w' ∧
    w'.pager = some sb ∧ sb.appliedIndex = 2 ∧
    ∃ upto operations, History w.calls upto operations ∧
      (Version.run operations).DescribedBy sb := by
  let _ := zeroHash
  have hmax : u64Max = 2 ^ 64 - 1 := rfl
  set hash : Digest := Vector.replicate 32 0
  obtain ⟨w₁, sb₁, g₁, hfirst, hpager₁, -, hcalls₁, hgeneration₁, hlsn₁, hlength₁, -, hs₁⟩ :=
    World.exists_first hash
  obtain ⟨count, w, g₂, hnext₂, hpager, hcalls, hadvance₂, hs⟩ :=
    World.exists_cut hs₁ hpager₁ (by decide) (by omega) hash
  have hreach : w.Reachable := .next _ (hfirst _ trivial fun _ _ => trivial) trivial hnext₂
  have hreplay := openPager_replay (R := fun _ => True) hs (.inr hadvance₂) (fun _ _ => trivial)
    fun _ _ _ _ _ => trivial
  obtain ⟨⟨sb, report⟩, hresult, -, -, hs'⟩ := hreplay.exists_ok fun _ hE => by
    have hgeneration := hE.2 (.inl hlsn₁)
    omega
  have hnext := World.next_openPager hpager hresult
  obtain ⟨upto, operations, hhistory, hdescribed, -⟩ := crash_atomicity _ _ sb hreach hnext rfl
  exact ⟨w, _, sb, hreach, by rw [hcalls, hcalls₁]; rfl, hnext, rfl,
    hs'.described.appliedIndex, upto, operations, hhistory, hdescribed⟩

end AsterStorage
