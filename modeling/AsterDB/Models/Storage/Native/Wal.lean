import AsterDB.Models.Storage.Native.Store
import Mathlib.Data.List.Sort

/-!
# The write-ahead log

Frames and their byte format, the scan that separates committed apply groups
and checkpoints from a torn tail, and the two appends.
-/

namespace AsterStorage

open AsterRaft (Bytes Digest Sha256 u64Max)
open ByteString

def frameMagic : Bytes := [0x41, 0x53, 0x57, 0x4c]
def walVersion : Nat := 1
def frameFixed : Nat := 40
def maxFrame : Nat := pageSize + 256

inductive FrameKind where
  | beginApply
  | pageImage
  | commitApply
  | checkpoint
  deriving DecidableEq, Repr

namespace FrameKind

def toByte : FrameKind → UInt8
  | .beginApply => 1
  | .pageImage => 2
  | .commitApply => 3
  | .checkpoint => 4

def ofByte (value : UInt8) : Except String FrameKind :=
  match value.toNat with
  | 1 => .ok .beginApply
  | 2 => .ok .pageImage
  | 3 => .ok .commitApply
  | 4 => .ok .checkpoint
  | value => .error s!"unknown WAL frame kind {value}"

end FrameKind

structure Frame where
  kind : FrameKind
  lsn : Nat
  applyIndex : Nat
  payload : Bytes
  endLsn : Nat
  deriving DecidableEq

/-- One committed apply group. -/
structure CommittedApply where
  applyIndex : Nat
  stateHash : Digest
  nextPageId : Nat
  rootDirectory : Option Nat
  pages : List Page
  beginLsn : Nat
  commitLsn : Nat
  endLsn : Nat
  digest : Digest
  deriving DecidableEq

structure Checkpoint where
  frameLsn : Nat
  throughLsn : Nat
  appliedIndex : Nat
  stateHash : Digest
  endLsn : Nat
  deriving DecidableEq

structure WalScan where
  groups : List CommittedApply
  checkpoints : List Checkpoint
  /-- Last byte that is safe to retain before appending. -/
  safeAppendOffset : Nat
  tornTailAt : Option Nat
  deriving DecidableEq

/-- Bytes of a frame up to its checksum. -/
def frameBody (kind : FrameKind) (lsn : Nat) (applyIndex : Nat) (payload : Bytes) : Bytes :=
  frameMagic ++ leBytes 2 walVersion ++ [kind.toByte, 0] ++ leBytes 8 lsn ++
    leBytes 8 applyIndex ++ leBytes 4 payload.length ++ payload

def encodeFrame (kind : FrameKind) (lsn : Nat) (applyIndex : Nat) (payload : Bytes) :
    Result Bytes :=
  let totalLen := frameFixed + payload.length
  if maxFrame < totalLen then
    .error (.corruptWal lsn s!"frame length {totalLen} exceeds limit {maxFrame}")
  else
    let body := frameBody kind lsn applyIndex payload
    .ok (leBytes 4 totalLen ++ body ++ leBytes 4 (crc32 body) ++ leBytes 4 totalLen)

/-- The frame at `offset`, where `bytes` is the log from there on, or nothing if the log is torn
there. -/
def decodeFrame (offset : Nat) (bytes : Bytes) : Result (Option Frame) :=
  if bytes.length < 4 then .ok none
  else
    let length := leNat (slice bytes 0 4)
    if ¬(frameFixed ≤ length ∧ length ≤ maxFrame) then
      if bytes.length = 4 then .ok none
      else .error (.corruptWal offset s!"invalid frame length {length}")
    else if bytes.length < length then .ok none
    else
      let frame := bytes.take length
      if slice frame 4 4 ≠ frameMagic then .error (.corruptWal offset "bad frame magic")
      else
        let version := leNat (slice frame 8 2)
        if version ≠ walVersion then
          .error (.corruptWal offset s!"unsupported WAL version {version}")
        else if frame.getD 11 0 ≠ 0 then
          .error (.corruptWal offset "nonzero reserved frame flags")
        else
          match FrameKind.ofByte (frame.getD 10 0) with
          | .error reason => .error (.corruptWal offset reason)
          | .ok kind =>
            let lsn := leNat (slice frame 12 8)
            if lsn ≠ offset then
              .error (.corruptWal offset s!"frame encodes LSN {lsn}, expected {offset}")
            else
              let applyIndex := leNat (slice frame 20 8)
              let payloadLen := leNat (slice frame 28 4)
              if payloadLen + frameFixed ≠ length then
                .error (.corruptWal offset "payload length disagrees with frame")
              else
                let checksumAt := 32 + payloadLen
                let expected := leNat (slice frame checksumAt 4)
                let actual := crc32 (slice frame 4 (checksumAt - 4))
                let footer := leNat (slice frame (checksumAt + 4) 4)
                if expected ≠ actual ∨ footer ≠ length then
                  if length = bytes.length then .ok none
                  else .error (.corruptWal offset "checksum or trailing-length mismatch")
                else .ok (some {
                  kind
                  lsn
                  applyIndex
                  payload := slice frame 32 payloadLen
                  endLsn := offset + length })

/-- Frames one after the other; `bytes` is the log from `offset` on. -/
def decodeFramesFrom : Nat → Nat → Bytes → List Frame →
    Result (List Frame × Option Nat)
  | 0, _, _, frames => .ok (frames, none)
  | fuel + 1, offset, bytes, frames =>
    if bytes = [] then .ok (frames, none)
    else
      match decodeFrame offset bytes with
      | .error e => .error e
      | .ok none => .ok (frames, some offset)
      | .ok (some frame) =>
        decodeFramesFrom fuel frame.endLsn (bytes.drop (frame.endLsn - offset)) (frames ++ [frame])

/-- The frames of a log and where it is torn. A frame has bytes, so the length bounds the rounds. -/
def decodeFrames (bytes : Bytes) : Result (List Frame × Option Nat) :=
  decodeFramesFrom bytes.length 0 bytes []

/-- An apply group whose commit has not been seen. -/
structure PendingApply where
  index : Nat
  stateHash : Digest
  nextPageId : Nat
  rootDirectory : Option Nat
  beginLsn : Nat
  pages : List Page
  material : Bytes

/-- A page identifier as it is written where there may be none. -/
def rootNumber (root : Option Nat) : Nat := root.getD u64Max

/-- The root a written number stands for. -/
def rootOf (number : Nat) : Option Nat := if number = u64Max then none else some number

section Scan

/-- Whether an optional root lies outside the allocated pages. -/
def rootOutside (root : Option Nat) (nextPageId : Nat) : Bool :=
  root.any fun root => decide (nextPageId ≤ root)

/-- What a frame makes of a scan and its open group; nothing means that the scan stops before it. -/
abbrev ScanStep := Result (Option (WalScan × Option PendingApply))

variable (scan : WalScan) (pending : Option PendingApply) (frame : Frame)

/-- A BEGIN frame opens a group. -/
def scanBegin : ScanStep :=
  if frame.payload.length ≠ 48 then
    .error (.corruptWal frame.lsn "BEGIN payload must be 48 bytes")
  -- a complete group without commit before another one is a crash tail
  else if pending.isSome then .ok none
  else
    let stateHash := digestOf (slice frame.payload 0 32)
    let nextPageId := leNat (slice frame.payload 32 8)
    let rootDirectory := rootOf (leNat (slice frame.payload 40 8))
    if nextPageId < 2 ∨ rootOutside rootDirectory nextPageId then
      .error (.corruptWal frame.lsn "invalid BEGIN allocator/root metadata")
    else .ok (some (scan, some {
      index := frame.applyIndex
      stateHash
      nextPageId
      rootDirectory
      beginLsn := frame.lsn
      pages := []
      material := leBytes 8 frame.applyIndex ++ frame.payload }))

/-- A page image is added to the open group. -/
def scanPageImage : ScanStep :=
  match pending with
  | none => .error (.corruptWal frame.lsn "PAGE_IMAGE outside apply group")
  | some group =>
    if hsize : frame.payload.length = 8 + pageSize then
      if group.index ≠ frame.applyIndex then
        .error (.corruptWal frame.lsn "invalid PAGE_IMAGE group or length")
      else
        let pageId := leNat (slice frame.payload 0 8)
        if group.nextPageId ≤ pageId then
          .error (.corruptWal frame.lsn "PAGE_IMAGE exceeds group allocator high-water mark")
        else
          match Page.decode ⟨frame.payload.drop 8, by simp [hsize]⟩ with
          | .error e => .error e
          | .ok page =>
            if page.id ≠ pageId ∨ page.lsn ≠ frame.lsn then
              .error (.corruptWal frame.lsn "PAGE_IMAGE id or page LSN mismatch")
            else if group.pages.any fun existing => existing.id = pageId then
              .error (.corruptWal frame.lsn "duplicate PAGE_IMAGE")
            else .ok (some (scan, some { group with
              pages := group.pages ++ [page]
              material := group.material ++ frame.payload }))
    else .error (.corruptWal frame.lsn "invalid PAGE_IMAGE group or length")

/-- A checkpoint stands between groups. -/
def scanCheckpoint : ScanStep :=
  if pending.isSome then .ok none
  else if frame.payload.length ≠ 48 then
    .error (.corruptWal frame.lsn "checkpoint payload must be 48 bytes")
  else .ok (some ({ scan with
    checkpoints := scan.checkpoints ++ [{
      frameLsn := frame.lsn
      throughLsn := leNat (slice frame.payload 0 8)
      appliedIndex := leNat (slice frame.payload 8 8)
      stateHash := digestOf (slice frame.payload 16 32)
      endLsn := frame.endLsn }]
    safeAppendOffset := frame.endLsn }, none))

variable [Sha256]

/-- A COMMIT frame closes the open group. -/
def scanCommit : ScanStep :=
  match pending with
  | none => .error (.corruptWal frame.lsn "COMMIT outside apply group")
  | some group =>
    if group.index ≠ frame.applyIndex ∨ frame.payload.length ≠ 36 then
      .error (.corruptWal frame.lsn "invalid COMMIT group or length")
    else
      let count := leNat (slice frame.payload 0 4)
      let digest := digestOf (slice frame.payload 4 32)
      if count ≠ group.pages.length ∨ digest ≠ Sha256.digest group.material then
        .error (.corruptWal frame.lsn "COMMIT count or digest mismatch")
      else if scan.groups.getLast?.any fun last => decide (group.index ≤ last.applyIndex) then
        .error (.corruptWal frame.lsn "non-monotonic apply index")
      else .ok (some ({ scan with
        groups := scan.groups ++ [{
          applyIndex := group.index
          stateHash := group.stateHash
          nextPageId := group.nextPageId
          rootDirectory := group.rootDirectory
          pages := group.pages
          beginLsn := group.beginLsn
          commitLsn := frame.lsn
          endLsn := frame.endLsn
          digest }]
        safeAppendOffset := frame.endLsn }, none))

/-- One frame of the scan. -/
def scanFrame : ScanStep :=
  match frame.kind with
  | .beginApply => scanBegin scan pending frame
  | .pageImage => scanPageImage scan pending frame
  | .commitApply => scanCommit scan pending frame
  | .checkpoint => scanCheckpoint scan pending frame

/-- The scan of the frames up to where it stops. -/
def scanFrames : List Frame → WalScan → Option PendingApply → Result WalScan
  | [], scan, _ => .ok scan
  | frame :: frames, scan, pending =>
    match scanFrame scan pending frame with
    | .error e => .error e
    | .ok none => .ok scan
    | .ok (some (scan, pending)) => scanFrames frames scan pending

/-- The groups and checkpoints of a log. -/
def scanBytes (bytes : Bytes) : Result WalScan :=
  match decodeFrames bytes with
  | .error e => .error e
  | .ok (frames, tornTailAt) =>
    scanFrames frames { groups := [], checkpoints := [], safeAppendOffset := 0, tornTailAt } none

end Scan

namespace WriteAheadLog

variable [Sha256]

def scan : Io WalScan := do
  let bytes ← Io.walReadAll
  Io.ofExcept (scanBytes bytes)

/-- Scan the log and cut what is not safe to append after. -/
def scanAndTruncate : Io WalScan := do
  let scan ← scan
  let length ← Io.walLen
  if length ≠ scan.safeAppendOffset then Io.walTruncate scan.safeAppendOffset
  return scan

/-- Open the log. The end of the durable bytes, which only flushing reads, is left out. -/
def openLog : Io Unit := do
  let _ ← scanAndTruncate

/-- Every page is valid and no two have one identifier. -/
def checkPages : List Page → List Nat → Result Unit
  | [], _ => .ok ()
  | page :: pages, ids =>
    match page.validate with
    | .error e => .error e
    | .ok () =>
      if page.id ∈ ids then .error (.invariant s!"duplicate page {page.id} in WAL group")
      else checkPages pages (page.id :: ids)

def beginPayload (stateHash : Digest) (nextPageId : Nat) (rootDirectory : Option Nat) : Bytes :=
  stateHash.toList ++ leBytes 8 nextPageId ++ leBytes 8 (rootNumber rootDirectory)

/-- Encode and append one frame, and say how long it is. -/
def appendFrame (kind : FrameKind) (lsn : Nat) (applyIndex : Nat) (payload : Bytes) : Io Nat := do
  let frame ← Io.ofExcept (encodeFrame kind lsn applyIndex payload)
  Io.walAppend frame
  return frame.length

def pagePayload (page : Page) : Bytes := leBytes 8 page.id ++ page.asBytes

/-- A page as it is logged and written. -/
def stampPage (page : Page) (lsn : Nat) (applyIndex : Nat) : Page :=
  ((page.setLsn lsn).setPageEpoch applyIndex).seal

/-- Append an image of every page; returns the pages as logged, the digest material and the end
of the log. -/
def appendPages (applyIndex : Nat) : List Page → List Page → Bytes → Nat →
    Io (List Page × Bytes × Nat)
  | [], durablePages, digestMaterial, offset => return (durablePages, digestMaterial, offset)
  | page :: pages, durablePages, digestMaterial, offset => do
    let page := stampPage page offset applyIndex
    let payload := pagePayload page
    let length ← appendFrame .pageImage offset applyIndex payload
    appendPages applyIndex pages (durablePages ++ [page]) (digestMaterial ++ payload)
      (offset + length)

/-- Append the frames of a group and sync the log. -/
def writeGroup (applyIndex : Nat) (stateHash : Digest) (nextPageId : Nat)
    (rootDirectory : Option Nat) (pages : List Page) : Io CommittedApply := do
  let beginLsn ← Io.walLen
  let beginPayload := beginPayload stateHash nextPageId rootDirectory
  let length ← appendFrame .beginApply beginLsn applyIndex beginPayload
  let (durablePages, digestMaterial, commitLsn) ←
    appendPages applyIndex pages [] (leBytes 8 applyIndex ++ beginPayload) (beginLsn + length)
  let digest := Sha256.digest digestMaterial
  if 2 ^ 32 ≤ durablePages.length then
    .fail (.corruptWal commitLsn "apply group page count exceeds u32")
  else
    let length ← appendFrame .commitApply commitLsn applyIndex
      (leBytes 4 durablePages.length ++ digest.toList)
    Io.walSync
    return {
      applyIndex
      stateHash
      nextPageId
      rootDirectory
      pages := durablePages
      beginLsn
      commitLsn
      endLsn := commitLsn + length
      digest }

/-- Check the pages of a new group and write it. -/
def appendGroup (applyIndex : Nat) (stateHash : Digest) (nextPageId : Nat)
    (rootDirectory : Option Nat) (pages : List Page) : Io CommittedApply := do
  let pages := pages.insertionSort fun a b => a.id ≤ b.id
  if nextPageId < 2 ∨ pages.any (fun page => nextPageId ≤ page.id) ∨
      rootOutside rootDirectory nextPageId then
    .fail (.invariant "WAL group has invalid allocator/root metadata")
  else
    Io.ofExcept (checkPages pages [])
    writeGroup applyIndex stateHash nextPageId rootDirectory pages

/-- Append and durably commit one apply. Repeating the same index and hash returns the group of
the log. -/
def appendApplyWithMetadata (applyIndex : Nat) (stateHash : Digest) (nextPageId : Nat)
    (rootDirectory : Option Nat) (pages : List Page) : Io CommittedApply := do
  let scan ← scanAndTruncate
  match scan.groups.find? fun group => group.applyIndex = applyIndex with
  | some existing =>
    if existing.stateHash = stateHash then return existing
    else
      .fail (.invariant
        s!"Raft apply index {applyIndex} already committed with a different state hash")
  | none =>
    match scan.groups.getLast?.filter fun last => decide (applyIndex ≤ last.applyIndex) with
    | some last =>
      .fail (.invariant
        s!"apply index {applyIndex} does not advance committed index {last.applyIndex}")
    | none => appendGroup applyIndex stateHash nextPageId rootDirectory pages

/-- Append a checkpoint marker for data pages synced through an LSN. -/
def appendCheckpoint (throughLsn : Nat) (appliedIndex : Nat) (stateHash : Digest) :
    Io Checkpoint := do
  let scan ← scanAndTruncate
  if scan.safeAppendOffset < throughLsn then
    .fail (.invariant
      s!"checkpoint LSN {throughLsn} exceeds WAL end {scan.safeAppendOffset}")
  else if scan.groups.getLast?.any fun group =>
      decide (appliedIndex ≠ group.applyIndex ∨ stateHash ≠ group.stateHash) then
    .fail (.invariant "checkpoint applied index/hash does not match WAL prefix")
  else
    let frameLsn ← Io.walLen
    let length ← appendFrame .checkpoint frameLsn appliedIndex
      (leBytes 8 throughLsn ++ leBytes 8 appliedIndex ++ stateHash.toList)
    Io.walSync
    return {
      frameLsn
      throughLsn
      appliedIndex
      stateHash
      endLsn := frameLsn + length }

end WriteAheadLog

end AsterStorage
