import AsterDB.Models.Storage.Interpretation.Disk

/-!
# Versions of a database and the files that hold them

A version says what the calls so far made of the database: its superblock values
and the last image of every page. The files hold a version when the newest
superblock describes it, its pages are there, and at most one committed group of
the log goes beyond it.
-/

namespace AsterStorage

open AsterRaft (Digest Sha256 u64Max)

/-- A database, as the calls that took effect made it. -/
structure Version where
  appliedIndex : Nat
  stateHash : Digest
  nextPageId : Nat
  rootDirectory : Option Nat
  /-- The last page written under an identifier and the apply index it was written at. -/
  pages : Nat → Option (Page × Nat)

namespace Version

def genesis : Version where
  appliedIndex := 0
  stateHash := Vector.replicate 32 0
  nextPageId := 2
  rootDirectory := none
  pages _ := none

/-- Put pages of one apply over older ones. -/
def overlay (old : Nat → Option (Page × Nat)) (pages : List Page) (epoch id : Nat) :
    Option (Page × Nat) :=
  match pages.find? fun page => page.id = id with
  | some page => some (page, epoch)
  | none => old id

/-- What a call that takes effect makes of a version. A call at the applied index repeats the
call that led there. -/
def after (v : Version) : Operation → Version
  | .apply applyIndex stateHash pages nextPageId rootDirectory =>
    if applyIndex = v.appliedIndex then v
    else { appliedIndex := applyIndex, stateHash, nextPageId, rootDirectory
           pages := overlay v.pages pages applyIndex }
  | .installSnapshot applyIndex stateHash pages nextPageId rootDirectory =>
    if applyIndex = v.appliedIndex then v
    else { appliedIndex := applyIndex, stateHash, nextPageId
           rootDirectory := some rootDirectory
           pages := overlay v.pages pages applyIndex }
  | .checkpoint => v

/-- The version that calls lead to. -/
def run (operations : List Operation) : Version := operations.foldl after genesis

/-- A superblock describes a version. -/
structure DescribedBy (v : Version) (sb : Superblock) : Prop where
  appliedIndex : sb.appliedIndex = v.appliedIndex
  stateHash : sb.stateHash = v.stateHash
  nextPageId : sb.nextPageId = v.nextPageId
  rootDirectory : sb.rootDirectory = v.rootDirectory

/-- The values of a version are in their range. -/
structure Ok (v : Version) : Prop where
  appliedIndex : v.appliedIndex ≤ u64Max
  nextPageId : v.nextPageId ≤ u64Max
  two_le : 2 ≤ v.nextPageId
  rootDirectory : ∀ root, v.rootDirectory = some root → root < v.nextPageId
  allocated : ∀ id, v.pages id ≠ none → 2 ≤ id ∧ id < v.nextPageId

/-- A group of the log that leads from one version to the next. -/
structure Advance (v : Version) (g : CommittedApply) (v' : Version) : Prop where
  appliedIndex : v'.appliedIndex = g.applyIndex
  stateHash : v'.stateHash = g.stateHash
  nextPageId : v'.nextPageId = g.nextPageId
  rootDirectory : v'.rootDirectory = g.rootDirectory
  same : ∀ id, id ∉ g.pages.map Page.id → v'.pages id = v.pages id
  image : ∀ image ∈ g.pages, ∃ page lsn epoch,
    v'.pages image.id = some (page, epoch) ∧ image = page.stamp lsn epoch

end Version

/-- What the content of a page must be, where `pending` is a committed group not in the
superblock yet, `old` and `written` are the pages written up to the version and up to now, and
`logEnd` bounds every LSN. -/
structure PageOk (v : Version) (pending : Option CommittedApply) (logEnd : Nat)
    (old written : Page → Prop) (id : Nat) (content : Option PageArray) : Prop where
  /-- A page that decodes stands at its place and was written before. -/
  found : ∀ page : Page, content = some page.array → page.Valid →
    page.id = id ∧ page.lsn ≤ logEnd ∧ written page ∧
      (id < v.nextPageId → old page ∨ ∃ g ∈ pending, page ∈ g.pages)
  /-- A page the pending group does not write is the last one written. -/
  held : ∀ page epoch, v.pages id = some (page, epoch) →
    (∀ g ∈ pending, id ∉ g.pages.map Page.id) → ∃ lsn, content = some (page.stamp lsn epoch).array
  /-- A page the pending group writes is written already or older. -/
  redo : ∀ g ∈ pending, ∀ image ∈ g.pages, image.id = id → ∀ page : Page,
    content = some page.array → page.Valid → page = image ∨ page.lsn < image.lsn

variable [Sha256]

/-- The files, the superblock slots aside, hold a version. -/
structure Body (store : Store) (v : Version) (log : List Record)
    (pending : Option CommittedApply) (old written : Page → Prop) : Prop where
  version : v.Ok
  wal : WalOk store.wal (log ++ pending.toList.map .group)
  pages : ∀ id content, 2 ≤ id → store.disk.Possible id content →
    PageOk v pending (logBytes (log ++ pending.toList.map .group)).length old written id content
  applied : ∀ g ∈ logGroups log, g.applyIndex ≤ v.appliedIndex ∧
    (g.applyIndex = v.appliedIndex → g.stateHash = v.stateHash)
  next : ∀ g ∈ pending, g.applyIndex = v.appliedIndex + 1 ∧ v.nextPageId ≤ g.nextPageId ∧
    ∀ page ∈ g.pages, 2 ≤ page.id ∧ written page
  /-- Between calls an allocated page is as it is, whatever a crash does. -/
  steady : pending = none → ∀ id content content', 2 ≤ id → id < v.nextPageId →
    store.disk.Possible id content → store.disk.Possible id content' → content = content'

omit [Sha256] in
/-- The slot of a superblock holds it, and the other slot nothing as new. -/
structure Slots (disk : Disk) (sb : Superblock) : Prop where
  fits : sb.Fits
  current : ∀ content, disk.Possible sb.slot content → content = some sb.encodePage.array
  other : ∀ content, disk.Possible (1 - sb.slot) content → OlderSlot sb content

/-- The files hold a version, with its superblock. -/
structure Sound (store : Store) (sb : Superblock) (v : Version) (log : List Record)
    (pending : Option CommittedApply) (old written : Page → Prop) : Prop where
  slots : Slots store.disk sb
  described : v.DescribedBy sb
  body : Body store v log pending old written

/-- The checkpoint a superblock refers to is one of the log and has its index and hash. -/
def CheckpointOk (sb : Superblock) (log : List Record) : Prop :=
  sb.checkpointLsn = 0 ∨ (∃ c ∈ logCheckpoints log, c.endLsn = sb.checkpointLsn) ∧
    ∀ c ∈ logCheckpoints log, c.endLsn = sb.checkpointLsn →
      c.appliedIndex = sb.appliedIndex ∧ c.stateHash = sb.stateHash

end AsterStorage
