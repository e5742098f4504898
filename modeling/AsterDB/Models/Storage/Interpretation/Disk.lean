import AsterDB.Models.Storage.Interpretation.Scan

/-!
# What a crash may leave on the disk

A page may come out of a crash as it was last made durable, as one of the writes
since then, or torn. Every invariant of the disk speaks about all contents a page
may have after a crash, so it survives the crash by construction.
-/

namespace AsterStorage

open AsterRaft (Sha256)

namespace Disk

variable {disk : Disk} {id : Nat} {content : Option PageArray}

/-- Contents a page may have when a crash comes now. -/
def Possible (disk : Disk) (id : Nat) (content : Option PageArray) : Prop :=
  content = disk.durable id ∨
    ∃ bytes, (id, bytes) ∈ disk.pending ∧
      (content = some bytes ∨ ∃ torn : TornPage, content = some torn.1)

variable (pages : Nat → Option PageArray)

theorem settle_cases (writes : List (Nat × PageArray)) (fates : List Fate) (id : Nat) :
    settle pages writes fates id = pages id ∨
      ∃ bytes, (id, bytes) ∈ writes ∧ (settle pages writes fates id = some bytes ∨
        ∃ torn : TornPage, settle pages writes fates id = some torn.1) := by
  induction writes generalizing pages fates with
  | nil => exact .inl rfl
  | cons write writes ih =>
    cases fates with
    | nil => exact .inl rfl
    | cons fate fates =>
      rcases ih (settleWrite pages write fate) fates with h | ⟨bytes, hmem, h⟩
      · rw [settle, h]
        by_cases hid : write.1 = id
        · subst hid
          have hmem : (write.1, write.2) ∈ write :: writes := List.mem_cons_self
          cases fate with
          | kept => exact .inr ⟨write.2, hmem, .inl (by simp [settleWrite])⟩
          | lost => exact .inl rfl
          | torn bytes => exact .inr ⟨write.2, hmem, .inr ⟨bytes, by simp [settleWrite]⟩⟩
        · left
          cases fate with
          | kept | torn bytes => exact Function.update_of_ne (Ne.symm hid) ..
          | lost => rfl
      · exact .inr ⟨bytes, List.mem_cons_of_mem _ hmem, h⟩

theorem Possible.of_crash {fates : List Fate} (h : (disk.crash fates).Possible id content) :
    disk.Possible id content := by
  rcases h with rfl | ⟨_, hmem, _⟩
  · exact settle_cases ..
  · cases hmem

/-- With every write kept, a page is as reads see it. -/
theorem settle_kept (writes : List (Nat × PageArray)) :
    settle pages writes (List.replicate writes.length .kept) =
      writes.foldl (fun (pages : Nat → Option PageArray) write =>
        Function.update pages write.1 (some write.2)) pages := by
  induction writes generalizing pages with
  | nil => rfl
  | cons write writes ih => exact ih _

theorem possible_pages (disk : Disk) (id : Nat) : disk.Possible id (disk.pages id) := by
  have h := settle_cases disk.durable disk.pending
    (List.replicate disk.pending.length .kept) id
  rwa [settle_kept] at h

theorem Possible.of_sync (h : disk.sync.Possible id content) : content = disk.pages id := by
  rcases h with h | ⟨_, hmem, _⟩
  · exact h
  · cases hmem

theorem Possible.sync (h : disk.sync.Possible id content) : disk.Possible id content := by
  rw [h.of_sync]
  exact possible_pages disk id

variable {bytes : PageArray}

section

variable {target : Nat} (h : (disk.writePage target bytes).Possible id content)
include h

theorem Possible.of_writePage :
    disk.Possible id content ∨ id = target ∧
      (content = some bytes ∨ ∃ torn : TornPage, content = some torn.1) := by
  rcases h with h | ⟨other, hmem, h⟩
  · exact .inl (.inl h)
  · rcases List.mem_append.mp hmem with hmem | hmem
    · exact .inl (.inr ⟨other, hmem, h⟩)
    · obtain ⟨rfl, rfl⟩ := Prod.mk.inj (List.mem_singleton.mp hmem)
      exact .inr ⟨rfl, h⟩

theorem Possible.of_writePage_of_ne (hne : id ≠ target) : disk.Possible id content := by
  rcases h.of_writePage with h | ⟨heq, -⟩
  · exact h
  · exact absurd heq hne

end

@[simp]
theorem pages_writePage (disk : Disk) (target : Nat) (bytes : PageArray) :
    (disk.writePage target bytes).pages = Function.update disk.pages target (some bytes) := by
  simp [pages, writePage]

end Disk

/-- A torn page decodes to nothing. -/
theorem TornPage.not_valid (torn : TornPage) {page : Page} (h : some torn.1 = some page.array) :
    ¬page.Valid := by
  intro hvalid
  have hbytes : torn.1 = page.array := Option.some.inj h
  exact torn.2 page (hbytes ▸ Page.decode_array hvalid)

section Wal

variable [Sha256]

/-- A WAL file that reads as a log: its records, then a tail that no scan sees. -/
structure Reads (wal : WalFile) (log : List Record) : Prop where
  logOk : LogOk log
  tail : ∃ tail, Tail (logBytes log).length tail ∧ wal.bytes = logBytes log ++ tail

/-- A WAL file that holds a log, durably, and a tail. -/
structure WalOk (wal : WalFile) (log : List Record) : Prop where
  logOk : LogOk log
  tail : ∃ tail, Tail (logBytes log).length tail ∧ wal.bytes = logBytes log ++ tail
  synced : (logBytes log).length ≤ wal.synced

variable {wal : WalFile} {log : List Record}

theorem WalOk.reads (h : WalOk wal log) : Reads wal log :=
  ⟨h.logOk, h.tail⟩

theorem Reads.scan (h : Reads wal log) :
    ∃ torn, scanBytes wal.bytes = .ok {
      groups := logGroups log
      checkpoints := logCheckpoints log
      safeAppendOffset := (logBytes log).length
      tornTailAt := torn } := by
  obtain ⟨tail, htail, hbytes⟩ := h.tail
  rw [hbytes]
  exact scanBytes_log h.logOk htail

theorem WalOk.crash (h : WalOk wal log) (kept : Nat) : WalOk (wal.crash kept) log where
  logOk := h.logOk
  tail := by
    obtain ⟨tail, htail, hbytes⟩ := h.tail
    have hsynced := h.synced
    refine ⟨tail.take (wal.synced + kept - (logBytes log).length), htail.take _, ?_⟩
    rw [WalFile.crash, hbytes, List.take_append, List.take_of_length_le (by omega)]
  synced := by
    obtain ⟨tail, -, hbytes⟩ := h.tail
    have hsynced := h.synced
    simp only [WalFile.crash, hbytes, List.length_take, List.length_append]
    omega

/-- A file that is exactly a log. -/
theorem LogOk.reads (h : LogOk log) (hbytes : wal.bytes = logBytes log) : Reads wal log :=
  ⟨h, [], tail_nil _, by rw [hbytes, List.append_nil]⟩

/-- A log with one more record. -/
theorem LogOk.reads_append {record : Record} (h : LogOk log) (hok : record.Ok)
    (hchain : Chain (logBytes log).length record.frames)
    (hlt : ∀ g ∈ record.group?, ∀ last ∈ logGroups log, last.applyIndex < g.applyIndex)
    (hbytes : wal.bytes = logBytes log ++ framesBytes record.frames) :
    Reads wal (log ++ [record]) := by
  refine (h.append hok hchain hlt).reads ?_
  rw [hbytes]
  simp [logBytes, logFrames]

/-- A file that reads as a log still does when it is cut. -/
theorem Reads.take {wal' : WalFile} (h : Reads wal log) {count : Nat}
    (hbytes : wal'.bytes = wal.bytes.take count) : Reads wal' (logUpTo log count) := by
  obtain ⟨tail, htail, hwal⟩ := h.tail
  rw [hwal] at hbytes
  by_cases hcount : count ≤ (logBytes log).length
  · obtain ⟨hlog, tail', htail', htake⟩ := h.logOk.take count
    rw [List.take_append_of_le_length hcount, htake] at hbytes
    exact ⟨hlog, tail', htail', hbytes⟩
  · rw [List.take_append, List.take_of_length_le (by omega)] at hbytes
    rw [logUpTo_eq_self h.logOk.chain (by omega)]
    exact ⟨h.logOk, _, htail.take _, hbytes⟩

theorem Reads.truncate (h : Reads wal log) :
    (wal.truncate (logBytes log).length).bytes = logBytes log := by
  obtain ⟨tail, -, hbytes⟩ := h.tail
  rw [WalFile.truncate, hbytes, List.take_left]

end Wal

end AsterStorage
