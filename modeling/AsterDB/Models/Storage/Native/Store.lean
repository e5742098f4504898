import AsterDB.Core.Crash.Program
import AsterDB.Models.Storage.Native.Page

/-!
# The data disk and the WAL file

Writes become durable when their file is synced. A crash leaves every page
write that was not synced yet kept, lost or torn, and any prefix of the WAL
bytes that were not synced yet; what it leaves is durable from then on.
-/

namespace AsterStorage

open AsterRaft (Bytes u64Max)
open Crash

/-- The data disk: its durable pages and the page writes since the last sync, oldest first. -/
structure Disk where
  durable : Nat → Option PageArray
  pending : List (Nat × PageArray)

/-- Bytes that `Page.decode` rejects. -/
abbrev TornPage := { bytes : PageArray // ∀ page, Page.decode bytes ≠ .ok page }

/-- What a crash makes of a page write that was not synced. -/
inductive Fate where
  | kept
  | lost
  | torn (bytes : TornPage)

namespace Disk

def empty : Disk where
  durable _ := none
  pending := []

/-- Pages after one write that ends as its fate says. -/
def settleWrite (pages : Nat → Option PageArray) (write : Nat × PageArray) :
    Fate → Nat → Option PageArray
  | .kept => Function.update pages write.1 (some write.2)
  | .lost => pages
  | .torn bytes => Function.update pages write.1 (some bytes.1)

/-- Pages after writes that end as their fates say; a write without a fate is lost. -/
def settle (pages : Nat → Option PageArray) :
    List (Nat × PageArray) → List Fate → Nat → Option PageArray
  | [], _ => pages
  | _ :: _, [] => pages
  | write :: writes, fate :: fates => settle (settleWrite pages write fate) writes fates

/-- Pages as reads see them, with every write so far. -/
def pages (disk : Disk) : Nat → Option PageArray :=
  disk.pending.foldl (fun pages write => Function.update pages write.1 (some write.2)) disk.durable

def readPage (disk : Disk) (pageId : Nat) : Result PageArray :=
  match disk.pages pageId with
  | some bytes => .ok bytes
  | none => .error (.notFound s!"page {pageId}")

def writePage (disk : Disk) (pageId : Nat) (bytes : PageArray) : Disk :=
  { disk with pending := disk.pending ++ [(pageId, bytes)] }

def sync (disk : Disk) : Disk where
  durable := disk.pages
  pending := []

def crash (disk : Disk) (fates : List Fate) : Disk where
  durable := settle disk.durable disk.pending fates
  pending := []

end Disk

/-- The WAL file and how many of its bytes are durable. -/
structure WalFile where
  bytes : Bytes
  synced : Nat

namespace WalFile

def empty : WalFile where
  bytes := []
  synced := 0

def append (wal : WalFile) (bytes : Bytes) : WalFile := { wal with bytes := wal.bytes ++ bytes }

def sync (wal : WalFile) : WalFile := { wal with synced := wal.bytes.length }

def truncate (wal : WalFile) (length : Nat) : WalFile where
  bytes := wal.bytes.take length
  synced := min wal.synced length

/-- Keep the durable bytes and the first `count` of the others. -/
def crash (wal : WalFile) (count : Nat) : WalFile where
  bytes := wal.bytes.take (wal.synced + count)
  synced := (wal.bytes.take (wal.synced + count)).length

end WalFile

structure Store where
  disk : Disk
  wal : WalFile

/-- One I/O step that changes a file. -/
inductive Effect where
  | writePage (pageId : Nat) (bytes : PageArray)
  | syncDisk
  | append (bytes : Bytes)
  | syncWal
  | truncate (length : Nat)

namespace Store

def empty : Store where
  disk := .empty
  wal := .empty

def perform (store : Store) : Effect → Store
  | .writePage pageId bytes => { store with disk := store.disk.writePage pageId bytes }
  | .syncDisk => { store with disk := store.disk.sync }
  | .append bytes => { store with wal := store.wal.append bytes }
  | .syncWal => { store with wal := store.wal.sync }
  | .truncate length => { store with wal := store.wal.truncate length }

instance : Device Store Effect where
  perform := perform

def crash (store : Store) (fates : List Fate) (count : Nat) : Store where
  disk := store.disk.crash fates
  wal := store.wal.crash count

end Store

/-- Storage code: I/O on the two files that may fail. -/
abbrev Io := Program Store Effect StorageError

namespace Io

def ofExcept {α : Type} (result : Result α) : Io α := .query fun _ => result

def writePage (pageId : Nat) (bytes : PageArray) : Io Unit := .perform (.writePage pageId bytes)

def syncDisk : Io Unit := .perform .syncDisk

def walLen : Io Nat := .query fun store => .ok store.wal.bytes.length

def walReadAll : Io Bytes := .query fun store => .ok store.wal.bytes

/-- Append to the WAL, whose length the file system counts in 64 bits. -/
def walAppend (bytes : Bytes) : Io Unit := do
  let length ← walLen
  if u64Max < length + bytes.length then .fail (.io "file too large")
  else .perform (.append bytes)

def walSync : Io Unit := .perform .syncWal

def walTruncate (length : Nat) : Io Unit := .perform (.truncate length)

end Io

end AsterStorage
