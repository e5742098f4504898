import AsterDB.Models.Storage.Native.Run

/-!
# Runs with I/O errors

Any append, sync, truncate or page write may fail and end the call it belongs
to. Bytes that no sync made durable stay readable, also when the process is
killed and the files are opened again; only a crash of the machine may lose them.
-/

namespace AsterStorage

open AsterRaft (Digest Sha256 u64Max)
open Crash

/-- What a failed effect leaves behind: the first bytes of an append, and some content, or
nothing, where a page was to be written. -/
structure Remains where
  appended : Nat
  page : Option PageArray

/-- A store after an effect that failed. -/
def Store.performFailed (store : Store) (remains : Remains) : Effect → Store
  | .writePage pageId _ =>
    match remains.page with
    | none => store
    | some bytes => { store with disk := store.disk.writePage pageId bytes }
  | .append bytes => { store with wal := store.wal.append (bytes.take remains.appended) }
  | .syncDisk | .syncWal | .truncate _ => store

/-- How a call ends. -/
inductive Ending where
  | done
  /-- The effect after `count` ones fails. -/
  | failed (count : Nat) (remains : Remains)
  /-- The process is killed after `count` effects. -/
  | killed (count : Nat)

/-- The files after a program that ends this way. -/
def Ending.store {α : Type} (program : Io α) (store : Store) : Ending → Option Store
  | .done => some (program.final store)
  | .failed count remains =>
    match (program store).effects[count]? with
    | none => none
    | some effect => some ((program.cut store count).performFailed remains effect)
  | .killed count => some (program.cut store count)

/-- Calls on the log itself. -/
inductive LogRequest where
  | openLog
  | appendApplyWithMetadata (applyIndex : Nat) (stateHash : Digest) (nextPageId : Nat)
    (rootDirectory : Option Nat) (pages : List Page)
  | appendCheckpoint (throughLsn appliedIndex : Nat) (stateHash : Digest)
  /-- Flush beyond what the log takes to be durable. -/
  | flushThrough

namespace LogRequest

/-- The arguments are 64-bit values. -/
def fits : LogRequest → Bool
  | .appendApplyWithMetadata applyIndex _ nextPageId rootDirectory _ =>
    decide (applyIndex ≤ u64Max) && decide (nextPageId ≤ u64Max) &&
      rootDirectory.all fun root => decide (root ≤ u64Max)
  | .appendCheckpoint throughLsn appliedIndex _ =>
    decide (throughLsn ≤ u64Max) && decide (appliedIndex ≤ u64Max)
  | .openLog | .flushThrough => true

def run [Sha256] : LogRequest → Io Unit
  | .openLog => WriteAheadLog.openLog
  | .appendApplyWithMetadata applyIndex stateHash nextPageId rootDirectory pages => do
    let _ ← WriteAheadLog.appendApplyWithMetadata applyIndex stateHash nextPageId rootDirectory
      pages
  | .appendCheckpoint throughLsn appliedIndex stateHash => do
    let _ ← WriteAheadLog.appendCheckpoint throughLsn appliedIndex stateHash
  | .flushThrough => Io.walSync

end LogRequest

/-- The files and the open pager. -/
structure Machine where
  store : Store
  pager : Option Superblock

namespace Machine

def init : Machine where
  store := .empty
  pager := none

inductive Label where
  | openPager (ending : Ending)
  | call (operation : Operation) (ending : Ending)
  | log (request : LogRequest) (ending : Ending)
  /-- The process is killed between calls. -/
  | kill
  /-- The machine loses what is not durable. -/
  | crash (fates : List Fate) (kept : Nat)

variable [Sha256]

/-- The successor of a machine, if the transition is enabled. A call that fails leaves the pager
as it was. -/
def next (w : Machine) : Label → Option Machine
  | .openPager ending =>
    if w.pager.isNone then
      (ending.store DurablePager.openPager w.store).map fun store => {
        store
        pager := match ending, (DurablePager.openPager w.store).result with
          | .done, .ok (state, _) => some state
          | _, _ => none }
    else none
  | .call operation ending =>
    match w.pager with
    | none => none
    | some state =>
      if operation.fits then
        (ending.store (operation.run state) w.store).map fun store => {
          store
          pager := match ending, (operation.run state w.store).result with
            | .done, .ok state' => some state'
            | .killed _, _ => none
            | _, _ => some state }
      else none
  | .log request ending =>
    if request.fits then
      (ending.store request.run w.store).map fun store => {
        store
        pager := match ending with
          | .killed _ => none
          | _ => w.pager }
    else none
  | .kill => some { w with pager := none }
  | .crash fates kept => some { store := w.store.crash fates kept, pager := none }

/-- Machines reached by transitions that all meet a condition. -/
abbrev ReachableIf : (Machine → Label → Prop) → Machine → Prop := Runs.ReachableIf init next

/-- Machines reached by any transitions. -/
abbrev Reachable : Machine → Prop := ReachableIf fun _ _ => True

end Machine

end AsterStorage
