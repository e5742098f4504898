import AsterDB.Models.Storage.Native.Wal

/-!
# Superblocks, recovery and the durable pager

Two superblock slots on pages 0 and 1 are written alternately. Recovery replays
committed WAL groups that the newest superblock does not cover, and the pager
logs every apply before it writes pages and publishes the next superblock.
-/

namespace AsterStorage

open AsterRaft (Bytes Digest Sha256 u64Max)
open ByteString

def superMagic : Bytes := [0x41, 0x53, 0x54, 0x45, 0x52, 0x44, 0x42, 0x00]
def superVersion : Nat := 1

structure Superblock where
  slot : Nat
  generation : Nat
  appliedIndex : Nat
  stateHash : Digest
  checkpointLsn : Nat
  nextPageId : Nat
  rootDirectory : Option Nat
  deriving DecidableEq

namespace Superblock

def genesis : Superblock where
  slot := 0
  generation := 1
  appliedIndex := 0
  stateHash := Vector.replicate 32 0
  checkpointLsn := 0
  nextPageId := 2
  rootDirectory := none

/-- What is copied into the payload, with the offsets. -/
def fields (superblock : Superblock) : List (Nat × Bytes) := [
  (0, superMagic),
  (8, leBytes 2 superVersion),
  (10, [UInt8.ofNat superblock.slot]),
  (11, List.replicate 5 0),
  (16, leBytes 8 superblock.generation),
  (24, leBytes 8 superblock.appliedIndex),
  (32, superblock.stateHash.toList),
  (64, leBytes 8 superblock.checkpointLsn),
  (72, leBytes 8 superblock.nextPageId),
  (80, leBytes 8 (rootNumber superblock.rootDirectory))]

/-- The page of a superblock whose slot is valid. -/
def encodePage (superblock : Superblock) : Page :=
  let page := superblock.fields.foldl
    (fun page field => page.put (pageHeaderSize + field.1) field.2)
    (Page.new superblock.slot .superblock)
  ((page.setLayout 152 pageSize 0).setPageEpoch superblock.appliedIndex).seal

def encode (superblock : Superblock) : Result Page :=
  if 1 < superblock.slot then .error (.invariant s!"invalid superblock slot {superblock.slot}")
  else .ok superblock.encodePage

def decode (page : Page) : Result Superblock :=
  match page.validate with
  | .error e => .error e
  | .ok () =>
    if page.kind ≠ .superblock ∨ 1 < page.id then
      .error (.invalidPage "expected superblock page 0 or 1")
    else
      let payload := page.payload
      if slice payload 0 8 ≠ superMagic then .error (.invalidPage "bad superblock magic")
      else
        let version := leNat (slice payload 8 2)
        if version ≠ superVersion then
          .error (.invalidPage s!"unsupported superblock version {version}")
        else
          let slot := leNat (slice payload 10 1)
          if slot ≠ page.id ∨ (slice payload 11 5).any (· ≠ 0) then
            .error (.invalidPage "superblock slot or reserved bytes invalid")
          else
            let nextPageId := leNat (slice payload 72 8)
            if nextPageId < 2 then
              .error (.invalidPage "superblock allocator overlaps metadata")
            else .ok {
              slot
              generation := leNat (slice payload 16 8)
              appliedIndex := leNat (slice payload 24 8)
              stateHash := digestOf (slice payload 32 32)
              checkpointLsn := leNat (slice payload 64 8)
              nextPageId
              rootDirectory := rootOf (leNat (slice payload 80 8)) }

end Superblock

/-- The superblock in a slot of the disk. -/
def readSlot (disk : Disk) (slot : Nat) : Result Superblock :=
  match disk.readPage slot with
  | .error e => .error e
  | .ok bytes =>
    match Page.decode bytes with
    | .error e => .error e
    | .ok page => Superblock.decode page

/-- The slots that hold a superblock, and those that hold something else. -/
def readSlots (disk : Disk) : List Superblock × List (Nat × StorageError) :=
  [0, 1].foldl (fun (valid, failures) slot =>
    match readSlot disk slot with
    | .ok superblock => (valid ++ [superblock], failures)
    | .error (.notFound _) => (valid, failures)
    | .error e => (valid, failures ++ [(slot, e)])) ([], [])

def displayFailures (failures : List (Nat × StorageError)) : String :=
  let texts := failures.map fun (slot, error) => s!"({slot}, {error.display.quote})"
  "[" ++ String.intercalate ", " texts ++ "]"

def readSuperblock (disk : Disk) : Result (Option Superblock) :=
  let (valid, failures) := readSlots disk
  match (valid.insertionSort fun a b => a.generation ≤ b.generation).getLast? with
  | some latest => .ok (some latest)
  | none =>
    if failures.isEmpty then .ok none
    else .error (.invalidPage s!"neither superblock is valid: {displayFailures failures}")

structure RecoveryReport where
  groupsExamined : Nat := 0
  groupsReplayed : Nat := 0
  pagesReplayed : Nat := 0
  pagesAlreadyCurrent : Nat := 0
  finalAppliedIndex : Nat := 0
  deriving DecidableEq, Repr

/-- The LSN of the page on disk, if there is a page that decodes. -/
def currentLsn (disk : Disk) (image : Page) : Result (Option Nat) :=
  match disk.readPage image.id with
  | .error (.notFound _) => .ok none
  | .error e => .error e
  | .ok bytes =>
    match Page.decode bytes with
    -- a committed full-page image repairs a torn data page
    | .error _ => .ok none
    | .ok page =>
      if page.id = image.id then .ok (some page.lsn)
      else .error (.invalidPage s!"physical page {image.id} contains page {page.id}")

/-- Write the images of a group that the disk does not have yet. -/
def replayGroup : List Page → RecoveryReport → Io RecoveryReport
  | [], report => return report
  | image :: images, report => do
    let current ← Crash.Program.query fun store : Store => currentLsn store.disk image
    if current.any fun lsn => decide (image.lsn ≤ lsn) then
      replayGroup images { report with pagesAlreadyCurrent := report.pagesAlreadyCurrent + 1 }
    else
      Io.writePage image.id image.array
      replayGroup images { report with pagesReplayed := report.pagesReplayed + 1 }

/-- Write the next superblock to the slot the previous one is not in. -/
def publishSuperblock (previous : Superblock) (appliedIndex : Nat) (stateHash : Digest)
    (checkpointLsn : Nat) (nextPageId : Nat) (rootDirectory : Option Nat) :
    Io Superblock := do
  if u64Max ≤ previous.generation then .fail (.invariant "superblock generation exhausted")
  else
    let next : Superblock := {
      slot := 1 - previous.slot
      generation := previous.generation + 1
      appliedIndex
      stateHash
      checkpointLsn
      nextPageId
      rootDirectory }
    let page ← Io.ofExcept next.encode
    Io.writePage page.id page.array
    Io.syncDisk
    return next

/-- Replay one group after the other. -/
def recoverGroups : List CommittedApply → Superblock → RecoveryReport →
    Io (Superblock × RecoveryReport)
  | [], state, report => return (state, { report with finalAppliedIndex := state.appliedIndex })
  | group :: groups, state, report => do
    let report := { report with groupsExamined := report.groupsExamined + 1 }
    if group.applyIndex < state.appliedIndex then recoverGroups groups state report
    else if group.applyIndex = state.appliedIndex then
      if group.stateHash ≠ state.stateHash then
        .fail (.invariant s!"WAL group {group.applyIndex} conflicts with durable state hash")
      else recoverGroups groups state report
    else if state.appliedIndex ≠ 0 ∧ group.applyIndex ≠ state.appliedIndex + 1 then
      .fail (.invariant s!"WAL apply gap: durable {state.appliedIndex}, next {group.applyIndex}")
    else
      let report ← replayGroup group.pages report
      Io.syncDisk
      let state ← publishSuperblock state group.applyIndex group.stateHash state.checkpointLsn
        group.nextPageId group.rootDirectory
      recoverGroups groups state { report with groupsReplayed := report.groupsReplayed + 1 }

/-- The checkpoint a superblock refers to is in the log and has its index and hash. -/
def checkCheckpoint (current : Superblock) (scan : WalScan) : Result Unit :=
  if scan.safeAppendOffset < current.checkpointLsn then
    .error (.invariant (s!"superblock checkpoint LSN {current.checkpointLsn} exceeds " ++
      s!"verified WAL end {scan.safeAppendOffset}"))
  else if current.checkpointLsn = 0 then .ok ()
  else
    match scan.checkpoints.find? fun checkpoint => checkpoint.endLsn = current.checkpointLsn with
    | none =>
      .error (.invariant s!"superblock references missing checkpoint {current.checkpointLsn}")
    | some checkpoint =>
      if checkpoint.appliedIndex ≠ current.appliedIndex ∨
          checkpoint.stateHash ≠ current.stateHash then
        .error (.invariant "checkpoint index/hash disagrees with superblock")
      else .ok ()

def recover (scan : WalScan) : Io (Superblock × RecoveryReport) := do
  let found ← Crash.Program.query fun store : Store => readSuperblock store.disk
  let current := found.getD .genesis
  Io.ofExcept (checkCheckpoint current scan)
  recoverGroups scan.groups current {}

namespace DurablePager

variable [Sha256]

/-- Open the files and recover. The pager in memory is its superblock. -/
def openPager : Io (Superblock × RecoveryReport) := do
  WriteAheadLog.openLog
  let scan ← WriteAheadLog.scan
  let found ← Crash.Program.query fun store : Store => readSuperblock store.disk
  let (state, report) ← recover scan
  if found.isSome then return (state, report)
  else
    -- establish both slots; a crash after either sync leaves one complete copy
    let first ← Io.ofExcept state.encode
    Io.writePage first.id first.array
    Io.syncDisk
    let state ← publishSuperblock state state.appliedIndex state.stateHash state.checkpointLsn
      state.nextPageId state.rootDirectory
    return (state, report)

def apply (state : Superblock) (applyIndex : Nat) (stateHash : Digest) (pages : List Page)
    (nextPageId : Nat) (rootDirectory : Option Nat) : Io (Superblock × CommittedApply) := do
  if pages.any fun page => page.id < 2 then
    .fail (.invariant "apply group may not overwrite superblocks")
  else if applyIndex = state.appliedIndex then
    if stateHash ≠ state.stateHash then
      .fail (.invariant "duplicate apply index has different hash")
    else
      let scan ← WriteAheadLog.scan
      match scan.groups.find? fun group => group.applyIndex = applyIndex with
      | none => .fail (.notFound s!"WAL group {applyIndex}")
      | some existing => return (state, existing)
  else if applyIndex ≠ state.appliedIndex + 1 then
    .fail (.invariant
      s!"serialized apply expected index {state.appliedIndex + 1}, got {applyIndex}")
  else if nextPageId < state.nextPageId ∨ pages.any (fun page => nextPageId ≤ page.id) then
    .fail (.invariant "invalid next-page high-water mark")
  else
    let group ← WriteAheadLog.appendApplyWithMetadata applyIndex stateHash nextPageId
      rootDirectory pages
    let _ ← replayGroup group.pages {}
    Io.syncDisk
    -- a checkpoint marker is bound to one apply index; advancing the state gives it up
    let state ← publishSuperblock state applyIndex stateHash 0 nextPageId rootDirectory
    return (state, group)

/-- Two neighbours have one identifier. -/
def hasDuplicate : List Page → Bool
  | first :: second :: pages => first.id = second.id || hasDuplicate (second :: pages)
  | _ => false

def writeSnapshotPages (applyIndex : Nat) : List Page → Io Unit
  | [] => return ()
  | page :: pages => do
    if page.id < 2 then .fail (.invariant "snapshot may not overwrite superblocks")
    else
      let page := (page.setLsn 0).setPageEpoch applyIndex
      Io.ofExcept page.validate
      Io.writePage page.id page.array
      writeSnapshotPages applyIndex pages

def installSnapshot (state : Superblock) (applyIndex : Nat) (stateHash : Digest)
    (pages : List Page) (nextPageId : Nat) (rootDirectory : Nat) : Io Superblock := do
  if applyIndex = state.appliedIndex then
    if stateHash ≠ state.stateHash ∨ state.rootDirectory ≠ some rootDirectory then
      .fail (.invariant "duplicate snapshot index disagrees with durable state")
    else return state
  else if applyIndex < state.appliedIndex then
    .fail (.invariant
      s!"snapshot index {applyIndex} is behind durable index {state.appliedIndex}")
  else if nextPageId ≤ state.nextPageId ∨ pages.isEmpty ∨
      pages.any (fun page => page.id < state.nextPageId ∨ nextPageId ≤ page.id) ∨
      ¬pages.any (fun page => page.id = rootDirectory) then
    .fail (.invariant "snapshot pages are not a fresh, bounded allocation range")
  else
    let pages := pages.insertionSort fun a b => a.id ≤ b.id
    if hasDuplicate pages then
      .fail (.invariant "snapshot contains duplicate page ids")
    else
      writeSnapshotPages applyIndex pages
      Io.syncDisk
      publishSuperblock state applyIndex stateHash 0 nextPageId (some rootDirectory)

def checkpoint (state : Superblock) : Io (Superblock × Checkpoint) := do
  Io.syncDisk
  let scan ← WriteAheadLog.scan
  let throughLsn := (scan.groups.getLast?.map (·.endLsn)).getD 0
  let marker ← WriteAheadLog.appendCheckpoint throughLsn state.appliedIndex state.stateHash
  let state ← publishSuperblock state state.appliedIndex state.stateHash marker.endLsn
    state.nextPageId state.rootDirectory
  return (state, marker)

end DurablePager

end AsterStorage
