import AsterDB.Models.Storage.Interpretation.Frame
import AsterDB.Models.Storage.Interpretation.Superblock
import Mathlib.Data.List.Induction

/-!
# Scanning a log of records

A log is a sequence of committed groups and checkpoints followed by a tail that
no scan sees: the first frames of a group without its commit, and a cut frame.
-/

namespace AsterStorage

open AsterRaft (Bytes Digest Sha256 u64Max)
open ByteString WriteAheadLog

namespace CommittedApply

variable (g : CommittedApply)

def beginFrame : Frame where
  kind := .beginApply
  lsn := g.beginLsn
  applyIndex := g.applyIndex
  payload := beginPayload g.stateHash g.nextPageId g.rootDirectory
  endLsn := g.beginLsn + 88

def pageFrame (page : Page) : Frame where
  kind := .pageImage
  lsn := page.lsn
  applyIndex := g.applyIndex
  payload := pagePayload page
  endLsn := page.lsn + (frameFixed + 8 + pageSize)

def commitFrame : Frame where
  kind := .commitApply
  lsn := g.commitLsn
  applyIndex := g.applyIndex
  payload := leBytes 4 g.pages.length ++ g.digest.toList
  endLsn := g.endLsn

/-- Begin and page images of a group. -/
def openFrames : List Frame := g.beginFrame :: g.pages.map g.pageFrame

def frames : List Frame := g.openFrames ++ [g.commitFrame]

/-- What the digest of a group is made from. -/
def material (pages : List Page) : Bytes :=
  leBytes 8 g.applyIndex ++ beginPayload g.stateHash g.nextPageId g.rootDirectory ++
    pages.flatMap pagePayload

/-- A group whose commit may be missing. -/
structure OpenOk : Prop where
  two_le : 2 ≤ g.nextPageId
  nextPageId : g.nextPageId ≤ u64Max
  rootDirectory : ∀ root, g.rootDirectory = some root → root < g.nextPageId
  valid : ∀ page ∈ g.pages, page.Valid
  id_lt : ∀ page ∈ g.pages, page.id < g.nextPageId
  nodup : (g.pages.map Page.id).Nodup

/-- A group with its commit. -/
structure Ok [Sha256] : Prop extends g.OpenOk where
  count : g.pages.length < 2 ^ 32
  digest : g.digest = Sha256.digest (g.material g.pages)

/-- The group after some of its page images. -/
def pendingWith (pages : List Page) : PendingApply where
  index := g.applyIndex
  stateHash := g.stateHash
  nextPageId := g.nextPageId
  rootDirectory := g.rootDirectory
  beginLsn := g.beginLsn
  pages := pages
  material := g.material pages

end CommittedApply

open CommittedApply

section ScanSteps

variable {g : CommittedApply} {scan : WalScan} {frame : Frame}

theorem scanBegin_eq {hash : Digest} {next : Nat} {root : Option Nat}
    (hpayload : frame.payload = beginPayload hash next root) (htwo : 2 ≤ next)
    (hnext : next ≤ u64Max) (hroot : ∀ r, root = some r → r < next) :
    scanBegin scan none frame = .ok (some (scan, some {
      index := frame.applyIndex
      stateHash := hash
      nextPageId := next
      rootDirectory := root
      beginLsn := frame.lsn
      pages := []
      material := leBytes 8 frame.applyIndex ++ beginPayload hash next root })) := by
  have hmax : ∀ r, root = some r → r < u64Max := fun r hr => lt_of_lt_of_le (hroot r hr) hnext
  have hparts : beginPayload hash next root =
      [hash.toList, leBytes 8 next, leBytes 8 (rootNumber root)].flatten := by
    simp [beginPayload]
  have hlen : frame.payload.length = 48 := by simp [hpayload, beginPayload]
  have hhash : digestOf (slice frame.payload 0 32) = hash := by
    rw [hpayload, hparts, slice_flatten 0 rfl (by simp) Vector.length_toList,
      digestOf_toList]
  have hnumber : leNat (slice frame.payload 32 8) = next := by
    rw [hpayload, hparts, slice_flatten 1 rfl (by simp) (length_leBytes ..),
      leNat_leBytes_of_lt (lt_of_le_of_lt hnext u64Max_lt)]
  have hroot' : rootOf (leNat (slice frame.payload 40 8)) = root := by
    rw [hpayload, hparts, slice_flatten 2 rfl (by simp) (length_leBytes ..),
      leNat_leBytes_of_lt (Superblock.rootNumber_lt hmax), Superblock.rootOf_rootNumber hmax]
  have hinside : ¬(next < 2 ∨ rootOutside root next) := by
    cases root with
    | none => exact not_or.mpr ⟨Nat.not_lt.mpr htwo, by simp [rootOutside]⟩
    | some r => simpa [rootOutside] using ⟨htwo, hroot r rfl⟩
  unfold scanBegin
  rw [if_neg (not_not.mpr hlen), if_neg (by simp)]
  rw [hnumber, hroot', if_neg hinside, hhash, hpayload]

variable {group : PendingApply}

theorem scanPageImage_eq {page : Page}
    (hpayload : frame.payload = pagePayload page) (hindex : group.index = frame.applyIndex)
    (hlt : page.id < group.nextPageId) (hvalid : page.Valid) (hlsn : page.lsn = frame.lsn)
    (hfresh : page.id ∉ group.pages.map Page.id) :
    scanPageImage scan (some group) frame = .ok (some (scan, some { group with
      pages := group.pages ++ [page]
      material := group.material ++ pagePayload page })) := by
  have hlen : frame.payload.length = 8 + pageSize := by simp [hpayload, pagePayload]
  have hid : leNat (slice frame.payload 0 8) = page.id := by
    have hslice : slice frame.payload 0 8 = leBytes 8 page.id := by
      rw [hpayload, slice, List.drop_zero, pagePayload, List.take_left' (length_leBytes ..)]
    rw [hslice, leNat_leBytes_of_lt page.id_lt]
  have hdrop : frame.payload.drop 8 = page.asBytes := by
    rw [hpayload, pagePayload, List.drop_left' (length_leBytes ..)]
  have harray : ∀ hsize, (⟨frame.payload.drop 8, hsize⟩ : PageArray) = page.array := by
    intro hsize
    exact Subtype.ext hdrop
  have hnone : ¬(group.pages.any fun existing => decide (existing.id = page.id)) := by
    simpa using hfresh
  unfold scanPageImage
  dsimp only
  rw [dif_pos hlen, if_neg (not_not.mpr hindex), hid, if_neg (Nat.not_le.mpr hlt), harray,
    Page.decode_array hvalid]
  dsimp only
  rw [if_neg (by simp [hlsn]), if_neg hnone, hpayload]

theorem scanCheckpoint_eq {c : Checkpoint} (hpayload : frame.payload =
      leBytes 8 c.throughLsn ++ leBytes 8 c.appliedIndex ++ c.stateHash.toList)
    (hlsn : frame.lsn = c.frameLsn) (hend : frame.endLsn = c.endLsn)
    (hthrough : c.throughLsn ≤ u64Max) (happlied : c.appliedIndex ≤ u64Max) :
    scanCheckpoint scan none frame = .ok (some ({ scan with
      checkpoints := scan.checkpoints ++ [c]
      safeAppendOffset := c.endLsn }, none)) := by
  have hparts : frame.payload =
      [leBytes 8 c.throughLsn, leBytes 8 c.appliedIndex, c.stateHash.toList].flatten := by
    simp [hpayload]
  have hlen : frame.payload.length = 48 := by simp [hpayload]
  have hslice₁ : leNat (slice frame.payload 0 8) = c.throughLsn := by
    rw [hparts, slice_flatten 0 rfl (by simp) (length_leBytes ..),
      leNat_leBytes_of_lt (lt_of_le_of_lt hthrough u64Max_lt)]
  have hslice₂ : leNat (slice frame.payload 8 8) = c.appliedIndex := by
    rw [hparts, slice_flatten 1 rfl (by simp) (length_leBytes ..),
      leNat_leBytes_of_lt (lt_of_le_of_lt happlied u64Max_lt)]
  have hslice₃ : digestOf (slice frame.payload 16 32) = c.stateHash := by
    rw [hparts, slice_flatten 2 rfl (by simp) Vector.length_toList, digestOf_toList]
  unfold scanCheckpoint
  rw [if_neg (by simp), if_neg (not_not.mpr hlen), hslice₁, hslice₂, hslice₃, hlsn, hend]

variable [Sha256]

theorem scanCommit_eq {digest : Digest}
    (hpayload : frame.payload = leBytes 4 group.pages.length ++ digest.toList)
    (hindex : group.index = frame.applyIndex) (hcount : group.pages.length < 2 ^ 32)
    (hdigest : digest = Sha256.digest group.material)
    (hlast : ∀ last ∈ scan.groups.getLast?, last.applyIndex < group.index) :
    scanCommit scan (some group) frame = .ok (some ({ scan with
      groups := scan.groups ++ [{
        applyIndex := group.index
        stateHash := group.stateHash
        nextPageId := group.nextPageId
        rootDirectory := group.rootDirectory
        pages := group.pages
        beginLsn := group.beginLsn
        commitLsn := frame.lsn
        endLsn := frame.endLsn
        digest }]
      safeAppendOffset := frame.endLsn }, none)) := by
  have hlen : frame.payload.length = 36 := by simp [hpayload]
  have hnumber : leNat (slice frame.payload 0 4) = group.pages.length := by
    have hslice : slice frame.payload 0 4 = leBytes 4 group.pages.length := by
      rw [hpayload, slice, List.drop_zero, List.take_left' (length_leBytes ..)]
    rw [hslice, leNat_leBytes_of_lt (by simpa using hcount)]
  have hdigest' : digestOf (slice frame.payload 4 32) = digest := by
    have hslice : slice frame.payload 4 32 = digest.toList := by
      rw [hpayload, slice, List.drop_left' (length_leBytes ..),
        List.take_of_length_le (by simp)]
    rw [hslice, digestOf_toList]
  have hmono : ¬(scan.groups.getLast?.any fun last =>
      decide (group.index ≤ last.applyIndex)) := by
    cases hl : scan.groups.getLast? with
    | none => simp
    | some last => simpa using hlast last hl
  unfold scanCommit
  dsimp only
  rw [if_neg (by simp [hindex, hlen]), hnumber, hdigest', if_neg (by simp [hdigest]),
    if_neg hmono]

theorem scanFrame_begin (h : g.OpenOk) :
    scanFrame scan none g.beginFrame = .ok (some (scan, some (g.pendingWith []))) := by
  have hframe : g.beginFrame.payload =
      beginPayload g.stateHash g.nextPageId g.rootDirectory := rfl
  have hstep : scanFrame scan none g.beginFrame = _ :=
    scanBegin_eq hframe h.two_le h.nextPageId h.rootDirectory
  rw [hstep]
  simp [beginFrame, pendingWith, material]

variable {done : List Page} {todo : List Page}

theorem scanFrame_page (h : g.OpenOk) {page : Page} (hpages : g.pages = done ++ page :: todo) :
    scanFrame scan (some (g.pendingWith done)) (g.pageFrame page) =
      .ok (some (scan, some (g.pendingWith (done ++ [page])))) := by
  have hmem : page ∈ g.pages := by simp [hpages]
  have hfresh : page.id ∉ done.map Page.id := by
    have hnodup := h.nodup
    rw [hpages, List.map_append] at hnodup
    intro hin
    exact (List.nodup_append.mp hnodup).2.2 page.id hin page.id List.mem_cons_self rfl
  have hframe : (g.pageFrame page).payload = pagePayload page := rfl
  have hstep : scanFrame scan (some (g.pendingWith done)) (g.pageFrame page) = _ :=
    scanPageImage_eq hframe rfl (h.id_lt page hmem) (h.valid page hmem) rfl hfresh
  rw [hstep]
  simp [pendingWith, material]

theorem scanFrame_commit (h : g.Ok)
    (hlast : ∀ last ∈ scan.groups.getLast?, last.applyIndex < g.applyIndex) :
    scanFrame scan (some (g.pendingWith g.pages)) g.commitFrame =
      .ok (some ({ scan with groups := scan.groups ++ [g], safeAppendOffset := g.endLsn },
        none)) := by
  have hframe : g.commitFrame.payload =
      leBytes 4 (g.pendingWith g.pages).pages.length ++ g.digest.toList := rfl
  exact scanCommit_eq hframe rfl h.count h.digest hlast

variable {later : List Page}

theorem scanFrames_pages (h : g.OpenOk) (rest : List Frame)
    (hpages : g.pages = done ++ (todo ++ later)) :
    scanFrames (todo.map g.pageFrame ++ rest) scan (some (g.pendingWith done)) =
      scanFrames rest scan (some (g.pendingWith (done ++ todo))) := by
  induction todo generalizing done with
  | nil => simp
  | cons page todo ih =>
    rw [List.map_cons, List.cons_append, scanFrames, scanFrame_page h hpages]
    dsimp only
    rw [ih (by simpa using hpages)]
    simp

/-- The frames of a group up to some page leave the group pending. -/
theorem scanFrames_open (h : g.OpenOk) (rest : List Frame) (hpages : g.pages = done ++ later) :
    scanFrames (g.beginFrame :: done.map g.pageFrame ++ rest) scan none =
      scanFrames rest scan (some (g.pendingWith done)) := by
  rw [List.cons_append, scanFrames, scanFrame_begin h]
  dsimp only
  rw [scanFrames_pages h rest hpages, List.nil_append]

/-- A group without its commit is not seen. -/
theorem scanFrames_take_open (h : g.OpenOk) (k : Nat) :
    scanFrames (g.openFrames.take k) scan none = .ok scan := by
  cases k with
  | zero => rfl
  | succ k =>
    have hpages : g.pages = g.pages.take k ++ g.pages.drop k := (List.take_append_drop ..).symm
    have hopen : scanFrames (g.beginFrame :: (g.pages.take k).map g.pageFrame ++ []) scan none =
        _ := scanFrames_open h [] hpages
    rw [List.append_nil] at hopen
    rw [openFrames, List.take_succ_cons, ← List.map_take, hopen]
    rfl

/-- A committed group is added to the scan. -/
theorem scanFrames_group (h : g.Ok) (rest : List Frame)
    (hlast : ∀ last ∈ scan.groups.getLast?, last.applyIndex < g.applyIndex) :
    scanFrames (g.frames ++ rest) scan none =
      scanFrames rest { scan with groups := scan.groups ++ [g], safeAppendOffset := g.endLsn }
        none := by
  have hpages : g.pages = g.pages ++ [] := by simp
  rw [frames, openFrames, List.append_assoc, scanFrames_open h.toOpenOk _ hpages,
    List.singleton_append, scanFrames, scanFrame_commit h hlast]

end ScanSteps

/-! ## Logs -/

namespace Checkpoint

def frame (c : Checkpoint) : Frame where
  kind := .checkpoint
  lsn := c.frameLsn
  applyIndex := c.appliedIndex
  payload := leBytes 8 c.throughLsn ++ leBytes 8 c.appliedIndex ++ c.stateHash.toList
  endLsn := c.endLsn

end Checkpoint

/-- What a log is made of. -/
inductive Record where
  | group (g : CommittedApply)
  | checkpoint (c : Checkpoint)

namespace Record

def frames : Record → List Frame
  | .group g => g.frames
  | .checkpoint c => [c.frame]

def group? : Record → Option CommittedApply
  | .group g => some g
  | .checkpoint _ => none

def checkpoint? : Record → Option Checkpoint
  | .group _ => none
  | .checkpoint c => some c

def Ok [Sha256] : Record → Prop
  | .group g => g.Ok
  | .checkpoint c => c.throughLsn ≤ u64Max

end Record

def logFrames (log : List Record) : List Frame := log.flatMap Record.frames

def logBytes (log : List Record) : Bytes := framesBytes (logFrames log)

def logGroups (log : List Record) : List CommittedApply := log.filterMap Record.group?

def logCheckpoints (log : List Record) : List Checkpoint := log.filterMap Record.checkpoint?

@[simp]
theorem logBytes_nil : logBytes [] = [] := rfl

variable (first second : List Record)

@[simp]
theorem logFrames_append :
    logFrames (first ++ second) = logFrames first ++ logFrames second := List.flatMap_append ..

@[simp]
theorem logBytes_append : logBytes (first ++ second) = logBytes first ++ logBytes second := by
  simp [logBytes]

@[simp]
theorem logGroups_append :
    logGroups (first ++ second) = logGroups first ++ logGroups second := List.filterMap_append ..

@[simp]
theorem logCheckpoints_append :
    logCheckpoints (first ++ second) = logCheckpoints first ++ logCheckpoints second :=
  List.filterMap_append ..

@[simp]
theorem logGroups_group (g : CommittedApply) : logGroups [.group g] = [g] := rfl

@[simp]
theorem logGroups_checkpoint (c : Checkpoint) : logGroups [.checkpoint c] = [] := rfl

@[simp]
theorem logCheckpoints_group (g : CommittedApply) : logCheckpoints [.group g] = [] := rfl

@[simp]
theorem logCheckpoints_checkpoint (c : Checkpoint) : logCheckpoints [.checkpoint c] = [c] := rfl

variable {g : CommittedApply}

theorem mem_logGroups {log : List Record} : g ∈ logGroups log ↔ .group g ∈ log := by
  refine List.mem_filterMap.trans ⟨?_, fun h => ⟨_, h, rfl⟩⟩
  rintro ⟨record, hrecord, hsome⟩
  cases record with
  | group other => exact Option.some.inj hsome ▸ hrecord
  | checkpoint c => cases hsome

theorem mem_logCheckpoints {log : List Record} {c : Checkpoint} :
    c ∈ logCheckpoints log ↔ .checkpoint c ∈ log := by
  refine List.mem_filterMap.trans ⟨?_, fun h => ⟨_, h, rfl⟩⟩
  rintro ⟨record, hrecord, hsome⟩
  cases record with
  | group g => cases hsome
  | checkpoint other => exact Option.some.inj hsome ▸ hrecord

/-! ## Tails -/

/-- Bytes after a log at `offset` that no scan sees. -/
def Tail (offset : Nat) (tail : Bytes) : Prop :=
  ∃ (g : CommittedApply) (k : Nat) (cut : Bytes), g.OpenOk ∧ Chain offset (g.openFrames.take k) ∧
    Cut cut ∧ tail = framesBytes (g.openFrames.take k) ++ cut

variable {tail : Bytes}

theorem Cut.take (h : Cut tail) (count : Nat) : Cut (tail.take count) := by
  obtain ⟨frame, length, hsize, hlength, rfl⟩ := h
  exact ⟨frame, min count length, hsize, by omega, by rw [List.take_take]⟩

variable {offset : Nat}

theorem Chain.take {frames : List Frame} (h : Chain offset frames) (k : Nat) :
    Chain offset (frames.take k) := by
  rw [← List.take_append_drop k frames] at h
  exact (Chain.append.mp h).1

/-- A group without pages. -/
def emptyGroup : CommittedApply where
  applyIndex := 0
  stateHash := Vector.replicate 32 0
  nextPageId := 2
  rootDirectory := none
  pages := []
  beginLsn := 0
  commitLsn := 0
  endLsn := 0
  digest := Vector.replicate 32 0

theorem openOk_emptyGroup : emptyGroup.OpenOk where
  two_le := by decide
  nextPageId := by decide
  rootDirectory := by simp [emptyGroup]
  valid := by simp [emptyGroup]
  id_lt := by simp [emptyGroup]
  nodup := by simp [emptyGroup]

theorem tail_of_cut (offset : Nat) (h : Cut tail) : Tail offset tail :=
  ⟨emptyGroup, 0, tail, openOk_emptyGroup, trivial, h, by simp⟩

theorem tail_nil (offset : Nat) : Tail offset [] := tail_of_cut offset cut_nil

/-- Open frames, cut anywhere, are a tail. -/
theorem tail_take_open (h : g.OpenOk) {k : Nat} (hchain : Chain offset (g.openFrames.take k))
    (count : Nat) : Tail offset ((framesBytes (g.openFrames.take k)).take count) := by
  obtain ⟨j, cut, hcut, htake, -⟩ := take_framesBytes hchain count
  refine ⟨g, min j k, cut, h, ?_, hcut, ?_⟩
  · rw [← List.take_take]
    exact hchain.take j
  · rw [htake, List.take_take]

theorem Tail.take (h : Tail offset tail) (count : Nat) : Tail offset (tail.take count) := by
  obtain ⟨g, k, cut, hopen, hchain, hcut, rfl⟩ := h
  by_cases hcount : count ≤ (framesBytes (g.openFrames.take k)).length
  · rw [List.take_append_of_le_length hcount]
    exact tail_take_open hopen hchain count
  · rw [List.take_append, List.take_of_length_le (by omega)]
    exact ⟨g, k, _, hopen, hchain, hcut.take _, rfl⟩

/-- A group cut anywhere but at its end is a tail. -/
theorem tail_take_group (h : g.OpenOk)
    (hchain : Chain offset g.frames) {count : Nat}
    (hcount : count < (framesBytes g.frames).length) :
    Tail offset ((framesBytes g.frames).take count) := by
  obtain ⟨k, cut, hcut, htake, hk⟩ := take_framesBytes hchain count
  have hlen : k < g.frames.length := by
    rcases hk with hk | rfl
    · exact hk
    · by_contra hle
      have hall : g.frames.take k = g.frames := List.take_of_length_le (by omega)
      rw [hall, List.append_nil] at htake
      have hlength := congrArg List.length htake
      rw [List.length_take] at hlength
      omega
  have hframes : g.frames.take k = g.openFrames.take k := by
    have hle : k ≤ g.openFrames.length := by
      simp only [CommittedApply.frames, List.length_append, List.length_singleton] at hlen
      omega
    rw [CommittedApply.frames, List.take_append_of_le_length hle]
  rw [htake, hframes]
  exact ⟨g, k, cut, h, hframes ▸ hchain.take k, hcut, rfl⟩

section Logs

variable [Sha256]

/-- A well-formed log. -/
structure LogOk (log : List Record) : Prop where
  chain : Chain 0 (logFrames log)
  ok : ∀ record ∈ log, record.Ok
  ascending : (logGroups log).Pairwise fun a b => a.applyIndex < b.applyIndex

variable {log : List Record} {record : Record}

/-- A record may follow a log. -/
theorem LogOk.append (h : LogOk log) (hok : record.Ok)
    (hchain : Chain (logBytes log).length record.frames)
    (hlt : ∀ g ∈ record.group?, ∀ last ∈ logGroups log, last.applyIndex < g.applyIndex) :
    LogOk (log ++ [record]) where
  chain := by
    rw [logFrames_append]
    refine Chain.append.mpr ⟨h.chain, ?_⟩
    simpa [logBytes, logFrames] using hchain
  ok other hother := by
    rcases List.mem_append.mp hother with hother | hother
    · exact h.ok other hother
    · rw [List.mem_singleton.mp hother]
      exact hok
  ascending := by
    rw [logGroups_append]
    refine List.pairwise_append.mpr ⟨h.ascending, ?_, fun last hlast g hg => ?_⟩
    · cases record with
      | group g => exact List.pairwise_singleton ..
      | checkpoint c => exact List.Pairwise.nil
    · cases record with
      | group g' => exact List.mem_singleton.mp hg ▸ hlt g' rfl last hlast
      | checkpoint c => cases hg

/-- A log is well-formed at each of its records. -/
theorem LogOk.front (h : LogOk (log ++ [record])) :
    LogOk log ∧ record.Ok ∧ Chain (logBytes log).length record.frames := by
  have hchain := h.chain
  rw [logFrames_append] at hchain
  obtain ⟨hfront, hlast⟩ := Chain.append.mp hchain
  have hasc := h.ascending
  rw [logGroups_append] at hasc
  refine ⟨⟨hfront, fun other hother => h.ok other (List.mem_append_left _ hother),
    (List.pairwise_append.mp hasc).1⟩, h.ok record (by simp), ?_⟩
  simpa [logBytes, logFrames] using hlast

variable {offset : Nat}

/-- A record cut anywhere but at its end is a tail. -/
theorem tail_take_record (hok : record.Ok) {count : Nat} (hchain : Chain offset record.frames)
    (hcount : count < (framesBytes record.frames).length) :
    Tail offset ((framesBytes record.frames).take count) := by
  cases record with
  | group g =>
    have hg : g.Ok := hok
    exact tail_take_group hg.toOpenOk hchain hcount
  | checkpoint c =>
    have hbytes : framesBytes (Record.checkpoint c).frames = c.frame.bytes := by
      simp [Record.frames]
    rw [hbytes] at hcount ⊢
    rw [Frame.length_bytes] at hcount
    exact tail_of_cut offset ⟨c.frame, count, hchain.1.size_le, hcount, rfl⟩

/-- The end of the last frame of a record. -/
def Record.endLsn : Record → Nat
  | .group g => g.endLsn
  | .checkpoint c => c.endLsn

omit [Sha256] in
theorem Record.endLsn_eq (h : Chain offset record.frames) :
    record.endLsn = offset + (framesBytes record.frames).length := by
  cases record with
  | group g =>
    have hlast := (Chain.append.mp h).2.1
    have hend := hlast.endLsn
    simp only [Record.endLsn, Record.frames, CommittedApply.frames, framesBytes_append,
      framesBytes_cons, framesBytes_nil, List.append_nil, List.length_append, Frame.length_bytes]
    rw [← Nat.add_assoc]
    exact hend
  | checkpoint c =>
    have hend : c.endLsn = offset + c.frame.size := h.1.endLsn
    simpa [Record.endLsn, Record.frames] using hend

omit [Sha256] in
/-- A record ends inside the log. -/
theorem Record.endLsn_le (h : Chain 0 (logFrames log))
    (hrecord : record ∈ log) : 0 < record.endLsn ∧ record.endLsn ≤ (logBytes log).length := by
  obtain ⟨frame, hmem, hend⟩ : ∃ frame ∈ record.frames, frame.endLsn = record.endLsn := by
    cases record with
    | group g => exact ⟨g.commitFrame, List.mem_append_right _ (List.mem_singleton_self _), rfl⟩
    | checkpoint c => exact ⟨c.frame, List.mem_singleton_self _, rfl⟩
  have hframe : frame ∈ logFrames log := List.mem_flatMap.mpr ⟨record, hrecord, hmem⟩
  have hbounds := h.bounds hframe
  have hsize : 0 < frame.size := by simp only [Frame.size, frameFixed]; omega
  rw [← hend, h.endLsn hframe, logBytes]
  omega

/-- The log of the records that end at or before a byte. -/
def logUpTo (log : List Record) (count : Nat) : List Record :=
  log.filter fun record => record.endLsn ≤ count

omit [Sha256] in
/-- A log ends where its last record does. -/
theorem length_logBytes (h : Chain 0 (logFrames log)) :
    (logBytes log).length = (log.getLast?.map Record.endLsn).getD 0 := by
  induction log using List.reverseRecOn with
  | nil => rfl
  | append_singleton log record _ =>
    rw [logFrames_append] at h
    have hlast : Chain (logBytes log).length record.frames := by
      simpa [logBytes, logFrames] using (Chain.append.mp h).2
    rw [List.getLast?_concat, Option.map_some, Record.endLsn_eq hlast]
    simp [logBytes, logFrames]

omit [Sha256] in
theorem logUpTo_concat (log : List Record) (record : Record) (count : Nat) :
    logUpTo (log ++ [record]) count =
      if record.endLsn ≤ count then logUpTo log count ++ [record] else logUpTo log count := by
  by_cases h : record.endLsn ≤ count <;> simp [logUpTo, List.filter_append, h]

omit [Sha256] in
theorem Record.size_pos (record : Record) : 0 < (framesBytes record.frames).length := by
  refine lt_of_lt_of_le ?_ (length_le_framesBytes record.frames)
  cases record <;> simp [Record.frames, CommittedApply.frames]

omit [Sha256] in
theorem logUpTo_eq_self (h : Chain 0 (logFrames log)) {count : Nat}
    (hcount : (logBytes log).length ≤ count) : logUpTo log count = log :=
  List.filter_eq_self.mpr fun _ hrecord =>
    decide_eq_true ((Record.endLsn_le h hrecord).2.trans hcount)

/-- A log cut anywhere is the log of the records that are complete, and a tail. -/
theorem LogOk.take (h : LogOk log) (count : Nat) :
    LogOk (logUpTo log count) ∧ ∃ tail, Tail (logBytes (logUpTo log count)).length tail ∧
    (logBytes log).take count = logBytes (logUpTo log count) ++ tail := by
  induction log using List.reverseRecOn with
  | nil => exact ⟨h, [], tail_nil _, by simp [logUpTo]⟩
  | append_singleton log record ih =>
    obtain ⟨hfront, hok, hchain⟩ := h.front
    have hbytes : logBytes (log ++ [record]) = logBytes log ++ framesBytes record.frames := by
      simp [logBytes, logFrames]
    have hend := Record.endLsn_eq hchain
    have hsize := record.size_pos
    by_cases hcount : count ≤ (logBytes log).length
    · rw [logUpTo_concat, if_neg (by omega), hbytes, List.take_append_of_le_length hcount]
      exact ih hfront
    have hall := logUpTo_eq_self hfront.chain (Nat.le_of_not_le hcount)
    by_cases hcut : count - (logBytes log).length < (framesBytes record.frames).length
    · rw [logUpTo_concat, if_neg (by omega), hall]
      refine ⟨hfront, _, tail_take_record hok hchain hcut, ?_⟩
      rw [hbytes, List.take_append, List.take_of_length_le (by omega)]
    · rw [logUpTo_concat, if_pos (by omega), hall]
      refine ⟨h, [], tail_nil _, ?_⟩
      rw [List.append_nil, List.take_of_length_le]
      rw [hbytes, List.length_append]
      omega

/-- Scanning a record adds it. -/
theorem scanFrames_record {scan : WalScan} (hok : record.Ok) (hchain : Chain offset record.frames)
    (hlast : ∀ last ∈ scan.groups.getLast?, ∀ g ∈ record.group?, last.applyIndex < g.applyIndex)
    (rest : List Frame) :
    scanFrames (record.frames ++ rest) scan none = scanFrames rest { scan with
      groups := scan.groups ++ record.group?.toList
      checkpoints := scan.checkpoints ++ record.checkpoint?.toList
      safeAppendOffset := offset + (framesBytes record.frames).length } none := by
  rw [← Record.endLsn_eq hchain]
  cases record with
  | group g =>
    rw [Record.frames, scanFrames_group hok rest fun last hl => hlast last hl g rfl]
    simp [Record.group?, Record.checkpoint?, Record.endLsn]
  | checkpoint c =>
    have happlied : c.appliedIndex ≤ u64Max := hchain.1.applyIndex
    have hpayload : c.frame.payload =
        leBytes 8 c.throughLsn ++ leBytes 8 c.appliedIndex ++ c.stateHash.toList := rfl
    have hstep : scanFrame scan none c.frame = _ :=
      scanCheckpoint_eq hpayload rfl rfl hok happlied
    rw [Record.frames, List.singleton_append, scanFrames, hstep]
    simp [Record.group?, Record.checkpoint?, Record.endLsn]

theorem scanFrames_log {scan : WalScan} (rest : List Frame)
    (hchain : Chain offset (logFrames log)) (hok : ∀ record ∈ log, record.Ok)
    (hasc : (scan.groups ++ logGroups log).Pairwise fun a b => a.applyIndex < b.applyIndex)
    (hsafe : scan.safeAppendOffset = offset) :
    scanFrames (logFrames log ++ rest) scan none = scanFrames rest { scan with
      groups := scan.groups ++ logGroups log
      checkpoints := scan.checkpoints ++ logCheckpoints log
      safeAppendOffset := offset + (logBytes log).length } none := by
  induction log generalizing offset scan with
  | nil => simp [logFrames, logGroups, logCheckpoints, logBytes, ← hsafe]
  | cons record log ih =>
    have hframes : logFrames (record :: log) = record.frames ++ logFrames log := rfl
    have hgroups : logGroups (record :: log) = record.group?.toList ++ logGroups log := by
      cases record <;> rfl
    have hcheckpoints : logCheckpoints (record :: log) =
        record.checkpoint?.toList ++ logCheckpoints log := by
      cases record <;> rfl
    obtain ⟨hfirst, hrest⟩ := Chain.append.mp hchain
    rw [hgroups] at hasc
    have hlast : ∀ last ∈ scan.groups.getLast?, ∀ g ∈ record.group?,
        last.applyIndex < g.applyIndex := by
      intro last hl g hg
      refine (List.pairwise_append.mp hasc).2.2 last (List.mem_of_getLast? hl) g ?_
      exact List.mem_append_left _ (by simpa using hg)
    rw [hframes, List.append_assoc,
      scanFrames_record (hok record List.mem_cons_self) hfirst hlast]
    rw [ih hrest (fun r hr => hok r (List.mem_cons_of_mem _ hr)) (by simpa using hasc) rfl]
    simp [hgroups, hcheckpoints, logBytes, hframes, Nat.add_assoc]

/-- A scan of a log finds its groups and checkpoints and the end of the log. -/
theorem scanBytes_log (h : LogOk log) {tail : Bytes} (htail : Tail (logBytes log).length tail) :
    ∃ torn, scanBytes (logBytes log ++ tail) = .ok {
      groups := logGroups log
      checkpoints := logCheckpoints log
      safeAppendOffset := (logBytes log).length
      tornTailAt := torn } := by
  obtain ⟨g, k, cut, hopen, hchain, hcut, rfl⟩ := htail
  have hall : Chain 0 (logFrames log ++ g.openFrames.take k) :=
    Chain.append.mpr ⟨h.chain, by simpa [logBytes] using hchain⟩
  obtain ⟨torn, hdecode⟩ := decodeFrames_eq hall hcut
  refine ⟨torn, ?_⟩
  rw [framesBytes_append, List.append_assoc] at hdecode
  unfold scanBytes logBytes
  rw [hdecode]
  dsimp only
  rw [scanFrames_log _ h.chain h.ok (by simpa using h.ascending) rfl, scanFrames_take_open hopen]
  simp [logBytes]

end Logs

end AsterStorage
