import AsterDB.Core.Runs
import AsterDB.Models.Storage.Native.Pager

/-!
# Runs of a durable pager

A pager is opened on its two files, called, closed and opened again. A crash may
cut an open or a call after any number of its I/O steps, or come between calls.
Runs in which a call returns an I/O error are not considered.
-/

namespace AsterStorage

open AsterRaft (Digest Sha256 u64Max)

/-- The calls that change a database. -/
inductive Operation where
  | apply (applyIndex : Nat) (stateHash : Digest) (pages : List Page) (nextPageId : Nat)
    (rootDirectory : Option Nat)
  | installSnapshot (applyIndex : Nat) (stateHash : Digest) (pages : List Page)
    (nextPageId : Nat) (rootDirectory : Nat)
  | checkpoint
  deriving DecidableEq

namespace Operation

/-- The arguments are 64-bit values. -/
def fits : Operation → Bool
  | .apply applyIndex _ _ nextPageId rootDirectory =>
    decide (applyIndex ≤ u64Max) && decide (nextPageId ≤ u64Max) &&
      rootDirectory.all fun root => decide (root ≤ u64Max)
  | .installSnapshot applyIndex _ _ nextPageId rootDirectory =>
    decide (applyIndex ≤ u64Max) && decide (nextPageId ≤ u64Max) &&
      decide (rootDirectory ≤ u64Max)
  | .checkpoint => true

/-- The pages a call is given and the epoch it writes them with. -/
def images : Operation → List Page × Nat
  | .apply applyIndex _ pages _ _ => (pages, applyIndex)
  | .installSnapshot applyIndex _ pages _ _ => (pages, applyIndex)
  | .checkpoint => ([], 0)

variable [Sha256]

/-- Run a call on the pager with superblock `state`. -/
def run (state : Superblock) : Operation → Io Superblock
  | .apply applyIndex stateHash pages nextPageId rootDirectory => do
    let (state, _) ←
      DurablePager.apply state applyIndex stateHash pages nextPageId rootDirectory
    return state
  | .installSnapshot applyIndex stateHash pages nextPageId rootDirectory =>
    DurablePager.installSnapshot state applyIndex stateHash pages nextPageId rootDirectory
  | .checkpoint => do
    let (state, _) ← DurablePager.checkpoint state
    return state

end Operation

/-- How a call ended. -/
inductive Status where
  | ok
  | failed
  /-- A crash cut it. -/
  | cut
  deriving DecidableEq, Repr

structure Call where
  operation : Operation
  status : Status
  deriving DecidableEq

/-- The files, the open pager and the calls so far. -/
structure World where
  store : Store
  pager : Option Superblock
  /-- Whether an open has succeeded. -/
  opened : Bool
  calls : List Call

namespace World

def init : World where
  store := .empty
  pager := none
  opened := false
  calls := []

/-- One transition. A crash names the fates of the page writes and how many WAL bytes survive
beyond the durable ones. -/
inductive Label where
  | openPager
  /-- Crash after `count` steps of an open. -/
  | openCrash (count : Nat) (fates : List Fate) (kept : Nat)
  | call (operation : Operation)
  /-- Crash after `count` steps of a call. -/
  | callCrash (operation : Operation) (count : Nat) (fates : List Fate) (kept : Nat)
  | crash (fates : List Fate) (kept : Nat)
  | close

variable [Sha256]

/-- Open a pager on the files. -/
def openPager (w : World) : Option World :=
  match (DurablePager.openPager w.store).result with
  | .error (.io _) => none
  | .error _ => some { w with store := DurablePager.openPager.final w.store }
  | .ok (state, _) => some { w with
    store := DurablePager.openPager.final w.store
    pager := some state
    opened := true }

/-- Run a call to its end on the pager with superblock `state`. -/
def call (w : World) (state : Superblock) (operation : Operation) : Option World :=
  match (operation.run state w.store).result with
  | .error (.io _) => none
  | .error _ => some { w with
    store := (operation.run state).final w.store
    calls := w.calls ++ [{ operation, status := .failed }] }
  | .ok state' => some { w with
    store := (operation.run state).final w.store
    pager := some state'
    calls := w.calls ++ [{ operation, status := .ok }] }

/-- The successor of a world, if the transition is enabled. -/
def next (w : World) : Label → Option World
  | .openPager => if w.pager.isNone then w.openPager else none
  | .openCrash count fates kept =>
    if w.pager.isNone then some { w with
      store := (DurablePager.openPager.cut w.store count).crash fates kept }
    else none
  | .call operation =>
    match w.pager with
    | none => none
    | some state => if operation.fits then w.call state operation else none
  | .callCrash operation count fates kept =>
    match w.pager with
    | none => none
    | some state =>
      if operation.fits then some { w with
        store := ((operation.run state).cut w.store count).crash fates kept
        pager := none
        calls := w.calls ++ [{ operation, status := .cut }] }
      else none
  | .crash fates kept => some { w with store := w.store.crash fates kept, pager := none }
  | .close => some { w with pager := none }

/-- Worlds reached by transitions that all meet a condition. -/
abbrev ReachableIf : (World → Label → Prop) → World → Prop := Runs.ReachableIf init next

/-- Worlds reached by any transitions. -/
abbrev Reachable : World → Prop := ReachableIf fun _ _ => True

end World

end AsterStorage
