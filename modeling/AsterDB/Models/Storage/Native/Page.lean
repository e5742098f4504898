import AsterDB.Core.Bytes
import AsterDB.Models.Raft.Native.Types

/-!
# Pages

The common page format: a 64-byte header with identifier, LSN, epoch and
free-space bounds, a CRC-32 over the page, and the payload. Page identifiers,
LSNs and counters are natural numbers; what is written to bytes is written in
the width of the source.
-/

namespace AsterStorage

open AsterRaft (Bytes Digest)
open ByteString

inductive StorageError where
  | io (reason : String)
  | invalidPage (reason : String)
  | checksumMismatch (expected actual : Nat)
  | corruptWal (offset : Nat) (reason : String)
  | notFound (value : String)
  | invariant (reason : String)
  deriving DecidableEq, Repr

/-- The results of the crate. -/
abbrev Result : Type → Type := Except StorageError

/-- Eight hexadecimal digits. -/
def hex32 (value : Nat) : String :=
  "0x" ++ String.ofList ((List.range 8).reverse.map fun i => Nat.digitChar (value / 16 ^ i % 16))

/-- Text of an error. -/
def StorageError.display : StorageError → String
  | .io error => s!"storage I/O error: {error}"
  | .invalidPage reason => s!"invalid page: {reason}"
  | .checksumMismatch expected actual =>
    s!"checksum mismatch: expected {hex32 expected}, got {hex32 actual}"
  | .corruptWal offset reason => s!"corrupt WAL at byte {offset}: {reason}"
  | .notFound value => s!"not found: {value}"
  | .invariant reason => s!"storage invariant failed: {reason}"

/-- One byte of IEEE CRC-32, bit by bit. -/
def crc32Byte (crc : UInt32) (byte : UInt8) : UInt32 :=
  (List.range 8).foldl (fun crc _ => (crc >>> 1) ^^^ (0xedb88320 &&& (0 - (crc &&& 1))))
    (crc ^^^ byte.toUInt32)

/-- IEEE CRC-32, polynomial `0xedb88320`. -/
def crc32 (bytes : Bytes) : Nat := (~~~(bytes.foldl crc32Byte (~~~0))).toNat

theorem crc32_lt (bytes : Bytes) : crc32 bytes < 256 ^ 4 := UInt32.toNat_lt _

/-- The digest a string of 32 bytes stands for. -/
def digestOf (bytes : Bytes) : Digest := Vector.ofFn fun i => bytes.getD i 0

@[simp]
theorem digestOf_toList (digest : Digest) : digestOf digest.toList = digest := by
  ext i hi
  simp [digestOf]

def pageSize : Nat := 4096
def pageHeaderSize : Nat := 64
def pageMagic : Bytes := [0x41, 0x53, 0x54, 0x50]
def pageFormatVersion : Nat := 1
def checksumOffset : Nat := 44

inductive PageKind where
  | uninitialized
  | superblock
  | heap
  | bTreeLeaf
  | bTreeInternal
  | treeDirectory
  | freeList
  deriving DecidableEq, Repr

namespace PageKind

def toByte : PageKind → UInt8
  | .uninitialized => 0
  | .superblock => 1
  | .heap => 2
  | .bTreeLeaf => 3
  | .bTreeInternal => 4
  | .treeDirectory => 5
  | .freeList => 6

def ofByte (value : UInt8) : Result PageKind :=
  match value.toNat with
  | 0 => .ok .uninitialized
  | 1 => .ok .superblock
  | 2 => .ok .heap
  | 3 => .ok .bTreeLeaf
  | 4 => .ok .bTreeInternal
  | 5 => .ok .treeDirectory
  | 6 => .ok .freeList
  | value => .error (.invalidPage s!"unknown page kind {value}")

end PageKind

/-- The bytes of one page, whatever they are. -/
abbrev PageArray := { bytes : Bytes // bytes.length = pageSize }

/-- A page; nothing but `decode` looks at whether its bytes make sense. -/
structure Page where
  array : PageArray
  deriving DecidableEq

namespace Page

def asBytes (page : Page) : Bytes := page.array.1

@[simp]
theorem length_asBytes (page : Page) : page.asBytes.length = pageSize := page.array.2

/-- The bytes of a range, which the source checks to lie inside the page. -/
def get (page : Page) (offset count : Nat) : Bytes := slice page.asBytes offset count

/-- Copy bytes into the page. -/
def put (page : Page) (offset : Nat) (data : Bytes) : Page :=
  ⟨⟨overwrite page.asBytes offset data, by simp [pageSize]⟩⟩

def getNat (page : Page) (offset width : Nat) : Nat := leNat (page.get offset width)

def putNat (page : Page) (offset width value : Nat) : Page :=
  page.put offset (leBytes width value)

def byteAt (page : Page) (offset : Nat) : UInt8 := page.asBytes.getD offset 0

def id (page : Page) : Nat := page.getNat 8 8

def lsn (page : Page) : Nat := page.getNat 16 8

def kind (page : Page) : PageKind :=
  match PageKind.ofByte (page.byteAt 6) with
  | .ok kind => kind
  | .error _ => .uninitialized

def payload (page : Page) : Bytes := page.asBytes.drop pageHeaderSize

def computedChecksum (page : Page) : Nat :=
  crc32 (page.put checksumOffset (List.replicate 4 0)).asBytes

/-- Store the checksum of the page. -/
def «seal» (page : Page) : Page :=
  (page.put checksumOffset (List.replicate 4 0)).putNat checksumOffset 4 page.computedChecksum

def setLsn (page : Page) (lsn : Nat) : Page := (page.putNat 16 8 lsn).seal

def setPageEpoch (page : Page) (pageEpoch : Nat) : Page := (page.putNat 24 8 pageEpoch).seal

def setLayout (page : Page) (lower upper slotCount : Nat) : Page :=
  ((page.putNat 32 2 lower).putNat 34 2 upper).putNat 36 2 slotCount

/-- An empty page. -/
def new (pageId : Nat) (kind : PageKind) : Page :=
  let page : Page := ⟨⟨List.replicate pageSize 0, by simp⟩⟩
  (((((page.put 0 pageMagic).putNat 4 2 pageFormatVersion).put 6 [kind.toByte]).putNat 8 8
    pageId).putNat 32 2 pageHeaderSize).putNat 34 2 pageSize |>.seal

def validate (page : Page) : Result Unit :=
  if page.get 0 4 ≠ pageMagic then .error (.invalidPage "bad page magic")
  else
    let version := page.getNat 4 2
    if version ≠ pageFormatVersion then
      .error (.invalidPage s!"unsupported page version {version}")
    else
      match PageKind.ofByte (page.byteAt 6) with
      | .error e => .error e
      | .ok _ =>
        if (page.get 38 6).any (· ≠ 0) ∨ (page.get 48 (pageHeaderSize - 48)).any (· ≠ 0) then
          .error (.invalidPage "nonzero reserved page-header bytes")
        else
          let lower := page.getNat 32 2
          let upper := page.getNat 34 2
          if ¬(pageHeaderSize ≤ lower ∧ lower ≤ upper) ∨ pageSize < upper then
            .error (.invalidPage s!"invalid free-space bounds {lower}..{upper}")
          else
            let expected := page.getNat checksumOffset 4
            let actual := page.computedChecksum
            if expected ≠ actual then .error (.checksumMismatch expected actual)
            else .ok ()

def decode (bytes : PageArray) : Result Page :=
  let page : Page := ⟨bytes⟩
  match page.validate with
  | .error e => .error e
  | .ok () => .ok page

end Page

end AsterStorage
