import AsterDB.Models.Storage.Interpretation.Page

/-!
# Superblocks on disk

An encoded superblock decodes to itself, and the newest slot is the one read.
-/

namespace AsterStorage

open AsterRaft (Bytes u64Max)
open ByteString

namespace Superblock

variable {sb : Superblock} {start count : Nat}

/-- The values of a superblock have the width they are written in. -/
structure Fits (sb : Superblock) : Prop where
  slot : sb.slot ≤ 1
  generation : sb.generation ≤ u64Max
  appliedIndex : sb.appliedIndex ≤ u64Max
  checkpointLsn : sb.checkpointLsn ≤ u64Max
  nextPageId : sb.nextPageId ≤ u64Max
  two_le : 2 ≤ sb.nextPageId
  rootDirectory : ∀ root, sb.rootDirectory = some root → root < u64Max

variable {root : Option Nat}

theorem rootOf_rootNumber (h : ∀ r, root = some r → r < u64Max) :
    rootOf (rootNumber root) = root := by
  cases root with
  | none => simp [rootNumber, rootOf]
  | some r => simp [rootNumber, rootOf, (h r rfl).ne]

theorem rootNumber_lt (h : ∀ r, root = some r → r < u64Max) : rootNumber root < 256 ^ 8 := by
  cases root with
  | none => decide
  | some r => exact (h r rfl).trans u64Max_lt

variable {page : Page}

/-- Page layout, epoch and checksum leave the payload alone. -/
theorem get_layout {lower upper slotCount epoch : Nat} (h : 48 ≤ start) :
    (((page.setLayout lower upper slotCount).setPageEpoch epoch).seal).get start count =
      page.get start count := by
  unfold Page.setPageEpoch Page.setLayout Page.putNat
  rw [Page.seal_seal, Page.get_seal (by simp [checksumOffset]; omega)]
  repeat rw [Page.get_put_of_disjoint (by simp; omega)]

variable {fields : List (Nat × Bytes)}

/-- Copies outside a range leave it alone. -/
theorem get_foldl_of_disjoint (page : Page)
    (h : ∀ field ∈ fields, start + count ≤ pageHeaderSize + field.1) :
    (fields.foldl (fun page field => page.put (pageHeaderSize + field.1) field.2) page).get
      start count = page.get start count := by
  induction fields generalizing page with
  | nil => rfl
  | cons field fields ih =>
    rw [List.foldl_cons, ih _ fun other hother => h other (List.mem_cons_of_mem _ hother)]
    exact Page.get_put_of_disjoint (.inl (h field List.mem_cons_self))

variable {offset : Nat}

/-- Copies to ascending places are all read back. -/
theorem get_foldl_of_mem (page : Page)
    (hfields : fields.Pairwise fun a b => a.1 + a.2.length ≤ b.1) {data : Bytes}
    (hmem : (offset, data) ∈ fields) (h : pageHeaderSize + offset + data.length ≤ pageSize) :
    (fields.foldl (fun page field => page.put (pageHeaderSize + field.1) field.2) page).get
      (pageHeaderSize + offset) data.length = data := by
  induction fields generalizing page with
  | nil => cases hmem
  | cons field fields ih =>
    obtain ⟨hfirst, hrest⟩ := List.pairwise_cons.mp hfields
    rw [List.foldl_cons]
    rcases List.mem_cons.mp hmem with rfl | hmem
    · rw [get_foldl_of_disjoint]
      · exact Page.get_put_self rfl h
      · intro other hother
        have hle := hfirst other hother
        dsimp only at hle
        omega
    · exact ih _ hrest hmem

theorem pairwise_fields (sb : Superblock) :
    sb.fields.Pairwise fun a b => a.1 + a.2.length ≤ b.1 := by
  simp [fields, superMagic]

/-- A field of the payload is read back. -/
theorem get_encodePage {data : Bytes} (hmem : (offset, data) ∈ sb.fields)
    (hcount : data.length = count) (h : pageHeaderSize + offset + count ≤ pageSize) :
    sb.encodePage.get (pageHeaderSize + offset) count = data := by
  subst hcount
  unfold encodePage
  rw [get_layout (by simp [pageHeaderSize]; omega)]
  exact get_foldl_of_mem _ (pairwise_fields sb) hmem h

/-- The header of a superblock page before its layout is set. -/
theorem get_fields (sb : Superblock) (page : Page) (h : start + count ≤ pageHeaderSize) :
    (sb.fields.foldl (fun page field => page.put (pageHeaderSize + field.1) field.2) page).get
      start count = page.get start count :=
  get_foldl_of_disjoint page fun _ _ => by omega

variable (id : Nat)

section

variable (kind : PageKind)
include kind

theorem get_new_magic : (Page.new id kind).get 0 4 = pageMagic := by
  unfold Page.new Page.putNat
  rw [Page.get_seal (by decide)]
  iterate 5 rw [Page.get_put_of_disjoint (by simp)]
  exact Page.get_put_self rfl (by decide)

theorem get_new_version : (Page.new id kind).get 4 2 = leBytes 2 pageFormatVersion := by
  unfold Page.new Page.putNat
  rw [Page.get_seal (by decide)]
  iterate 4 rw [Page.get_put_of_disjoint (by simp)]
  exact Page.get_put_self (by simp) (by decide)

theorem get_new_kind : (Page.new id kind).get 6 1 = [kind.toByte] := by
  unfold Page.new Page.putNat
  rw [Page.get_seal (by decide)]
  iterate 3 rw [Page.get_put_of_disjoint (by simp)]
  exact Page.get_put_self (by simp) (by decide)

theorem get_new_id : (Page.new id kind).get 8 8 = leBytes 8 id := by
  unfold Page.new Page.putNat
  rw [Page.get_seal (by decide)]
  iterate 2 rw [Page.get_put_of_disjoint (by simp)]
  exact Page.get_put_self (by simp) (by decide)

/-- What `new` does not write is zero. -/
theorem get_new_zero (h : 36 ≤ start ∧ start + count ≤ 44 ∨ 48 ≤ start ∧ start + count ≤ pageSize) :
    (Page.new id kind).get start count = List.replicate count 0 := by
  unfold Page.new Page.putNat
  rw [Page.get_seal (by simp [checksumOffset]; omega)]
  iterate 6 rw [Page.get_put_of_disjoint (by simp [pageMagic]; omega)]
  simp only [pageSize] at h
  simp only [Page.get, slice, Page.asBytes, List.drop_replicate, List.take_replicate, pageSize]
  congr 1
  omega

theorem getNat_new_bounds : (Page.new id kind).getNat 32 2 = pageHeaderSize ∧
      (Page.new id kind).getNat 34 2 = pageSize := by
  unfold Page.new Page.getNat Page.putNat
  rw [Page.get_seal (by decide), Page.get_seal (by decide)]
  rw [Page.get_put_of_disjoint (by simp), Page.get_put_self (by simp) (by decide),
    Page.get_put_self (by simp) (by decide)]
  exact ⟨by decide, by decide⟩

/-- A new page is valid. -/
theorem valid_new : (Page.new id kind).Valid where
  header := {
    magic := get_new_magic id kind
    version := by
      rw [Page.getNat, get_new_version]
      decide
    kind := by
      rw [Page.byteAt_eq, get_new_kind]
      cases kind <;> exact ⟨_, rfl⟩
    reserved := by
      rw [get_new_zero _ _ (by decide), get_new_zero _ _ (by decide)]
      decide
    bounds := by
      obtain ⟨hlower, hupper⟩ := getNat_new_bounds id kind
      rw [hlower, hupper]
      decide }
  checksum := by
    unfold Page.new
    rw [Page.getNat_seal_checksum, Page.computedChecksum_seal]

end

theorem id_new {id : Nat} (h : id < 256 ^ 8) (kind : PageKind) : (Page.new id kind).id = id := by
  rw [Page.id, Page.getNat, get_new_id, leNat_leBytes_of_lt h]

/-- A range of the header that neither the payload nor the layout touches. -/
theorem get_encodePage_header (h : start + count ≤ 24 ∨
    38 ≤ start ∧ start + count ≤ 44 ∨ 48 ≤ start ∧ start + count ≤ pageHeaderSize) :
    sb.encodePage.get start count = (Page.new sb.slot .superblock).get start count := by
  have hsize : pageHeaderSize = 64 := rfl
  unfold encodePage Page.setPageEpoch Page.setLayout Page.putNat
  rw [Page.seal_seal, Page.get_seal (by simp [checksumOffset]; omega)]
  iterate 4 rw [Page.get_put_of_disjoint (by simp; omega)]
  exact get_fields sb _ (by omega)

theorem getNat_encodePage_bounds (sb : Superblock) :
    sb.encodePage.getNat 32 2 = 152 ∧ sb.encodePage.getNat 34 2 = pageSize := by
  unfold encodePage Page.setPageEpoch Page.setLayout Page.getNat Page.putNat
  rw [Page.seal_seal, Page.get_seal (by decide), Page.get_seal (by decide)]
  rw [Page.get_put_of_disjoint (by simp), Page.get_put_of_disjoint (by simp),
    Page.get_put_of_disjoint (by simp), Page.get_put_self (by simp) (by decide)]
  rw [Page.get_put_of_disjoint (by simp), Page.get_put_of_disjoint (by simp),
    Page.get_put_self (by simp) (by decide)]
  exact ⟨by decide, by decide⟩

theorem byteAt_encodePage (sb : Superblock) :
    sb.encodePage.byteAt 6 = PageKind.toByte .superblock := by
  rw [Page.byteAt_eq, get_encodePage_header (by decide), get_new_kind]
  rfl

theorem headerOk_encodePage (sb : Superblock) : sb.encodePage.HeaderOk where
  magic := by rw [get_encodePage_header (by decide), get_new_magic]
  version := by
    rw [Page.getNat, get_encodePage_header (by decide), get_new_version]
    decide
  kind := by
    rw [byteAt_encodePage]
    exact ⟨.superblock, rfl⟩
  reserved := by
    rw [get_encodePage_header (by decide), get_encodePage_header (by decide),
      get_new_zero _ _ (by decide), get_new_zero _ _ (by decide)]
    decide
  bounds := by
    obtain ⟨hlower, hupper⟩ := getNat_encodePage_bounds sb
    rw [hlower, hupper]
    decide

theorem valid_encodePage (sb : Superblock) : sb.encodePage.Valid where
  header := headerOk_encodePage sb
  checksum := by
    unfold encodePage
    rw [Page.getNat_seal_checksum, Page.computedChecksum_seal]

theorem id_encodePage (h : sb.slot ≤ 1) : sb.encodePage.id = sb.slot := by
  rw [Page.id, Page.getNat, get_encodePage_header (by decide), get_new_id,
    leNat_leBytes_of_lt (by omega)]

/-- A number among the fields of the payload. -/
theorem leNat_encodePage {width value : Nat} (hmem : (offset, leBytes width value) ∈ sb.fields)
    (hvalue : value < 256 ^ width) (h : pageHeaderSize + offset + width ≤ pageSize) :
    leNat (slice sb.encodePage.payload offset width) = value := by
  rw [Page.slice_payload, get_encodePage hmem (by simp) h, leNat_leBytes_of_lt hvalue]

/-- What a page must hold to decode to a superblock. -/
theorem decode_eq_ok (hvalid : page.Valid) (hkind : page.kind = .superblock)
    (hid : page.id = sb.slot) (hslot : sb.slot ≤ 1) (hmagic : slice page.payload 0 8 = superMagic)
    (hversion : leNat (slice page.payload 8 2) = superVersion)
    (hnumber : leNat (slice page.payload 10 1) = sb.slot)
    (hzero : slice page.payload 11 5 = List.replicate 5 0)
    (hgeneration : leNat (slice page.payload 16 8) = sb.generation)
    (happlied : leNat (slice page.payload 24 8) = sb.appliedIndex)
    (hhash : digestOf (slice page.payload 32 32) = sb.stateHash)
    (hcheckpoint : leNat (slice page.payload 64 8) = sb.checkpointLsn)
    (hnext : leNat (slice page.payload 72 8) = sb.nextPageId) (htwo : 2 ≤ sb.nextPageId)
    (hroot : rootOf (leNat (slice page.payload 80 8)) = sb.rootDirectory) :
    decode page = .ok sb := by
  have hpage : ¬(page.kind ≠ .superblock ∨ 1 < page.id) := by
    rintro (hne | hlt)
    · exact hne hkind
    · omega
  have hreserved : ¬(sb.slot ≠ page.id ∨ (slice page.payload 11 5).any (· ≠ 0)) := by
    rw [hid, hzero]
    simp
  unfold decode
  rw [Page.validate_eq_ok.mpr hvalid]
  rw [if_neg hpage, if_neg (not_not.mpr hmagic), if_neg (not_not.mpr hversion), hnumber,
    if_neg hreserved, hnext, if_neg (not_lt.mpr htwo), hgeneration, happlied, hhash,
    hcheckpoint, hroot]

theorem decode_encodePage (h : sb.Fits) : decode sb.encodePage = .ok sb := by
  have hlt : ∀ {value : Nat}, value ≤ u64Max → value < 256 ^ 8 := fun hle =>
    lt_of_le_of_lt hle u64Max_lt
  have hslot := h.slot
  refine decode_eq_ok (valid_encodePage sb) ?_ (id_encodePage h.slot) hslot ?_ ?_ ?_ ?_ ?_ ?_ ?_ ?_
    ?_ h.two_le ?_
  · rw [Page.kind, byteAt_encodePage]
    rfl
  · rw [Page.slice_payload]
    exact get_encodePage (by simp [fields]) rfl (by decide)
  · exact leNat_encodePage (by simp [fields]) (by decide) (by decide)
  · have hget : sb.encodePage.get (pageHeaderSize + 10) 1 = [UInt8.ofNat sb.slot] :=
      get_encodePage (by simp [fields]) rfl (by decide)
    rw [Page.slice_payload, hget]
    simp only [leNat, UInt8.toNat_ofNat']
    omega
  · rw [Page.slice_payload]
    exact get_encodePage (by simp [fields]) rfl (by decide)
  · exact leNat_encodePage (by simp [fields]) (hlt h.generation) (by decide)
  · exact leNat_encodePage (by simp [fields]) (hlt h.appliedIndex) (by decide)
  · have hget : sb.encodePage.get (pageHeaderSize + 32) 32 = sb.stateHash.toList :=
      get_encodePage (by simp [fields]) (by simp) (by decide)
    rw [Page.slice_payload, hget, digestOf_toList]
  · exact leNat_encodePage (by simp [fields]) (hlt h.checkpointLsn) (by decide)
  · exact leNat_encodePage (by simp [fields]) (hlt h.nextPageId) (by decide)
  · have hread : leNat (slice sb.encodePage.payload 80 8) = rootNumber sb.rootDirectory :=
      leNat_encodePage (by simp [fields]) (rootNumber_lt h.rootDirectory) (by decide)
    rw [hread, rootOf_rootNumber h.rootDirectory]

/-- What a page decodes to holds 64-bit values. -/
theorem appliedIndex_decode (h : decode page = .ok sb) : sb.appliedIndex ≤ u64Max := by
  unfold decode at h
  split at h
  · cases h
  split at h
  · cases h
  dsimp only at h
  split at h
  · cases h
  split at h
  · cases h
  split at h
  · cases h
  split at h
  · cases h
  cases h
  have hlt := leNat_lt (slice page.payload 24 8)
  have hlen : (slice page.payload 24 8).length ≤ 8 := by simp [slice]
  have hpow := Nat.pow_le_pow_right (show 0 < 256 by decide) hlen
  have hmax : 256 ^ 8 = u64Max + 1 := by decide
  dsimp only
  omega

theorem encode_eq (h : sb.slot ≤ 1) : sb.encode = .ok sb.encodePage := by
  unfold encode
  rw [if_neg (by omega)]

theorem id_of_encode (h : sb.encode = .ok page) : page.id < 2 := by
  unfold encode at h
  split at h
  · cases h
  · rename_i hslot
    rw [← Except.ok.inj h, id_encodePage (by omega)]
    omega

end Superblock

/-! ## The newest slot -/

/-- A slot that holds no superblock as new as `sb`. -/
def OlderSlot (sb : Superblock) (content : Option PageArray) : Prop :=
  ∀ bytes page other, content = some bytes → Page.decode bytes = .ok page →
    Superblock.decode page = .ok other → other.generation < sb.generation

variable {disk : Disk} {sb : Superblock} {slot : Nat}

theorem readSlot_eq_ok {page : Page} (h : disk.pages slot = some page.array) (hvalid : page.Valid)
    (hdecode : Superblock.decode page = .ok sb) : readSlot disk slot = .ok sb := by
  unfold readSlot Disk.readPage
  rw [h]
  dsimp only
  rw [Page.decode_array hvalid]
  exact hdecode

theorem readSlot_of_pages (hfits : sb.Fits)
    (h : disk.pages slot = some sb.encodePage.array) : readSlot disk slot = .ok sb :=
  readSlot_eq_ok h (Superblock.valid_encodePage sb) (Superblock.decode_encodePage hfits)

theorem OlderSlot.readSlot {other : Superblock} (h : OlderSlot sb (disk.pages slot))
    (hread : readSlot disk slot = .ok other) : other.generation < sb.generation := by
  unfold AsterStorage.readSlot Disk.readPage at hread
  cases hpage : disk.pages slot with
  | none =>
    rw [hpage] at hread
    cases hread
  | some bytes =>
    rw [hpage] at hread
    dsimp only at hread
    cases hdecode : Page.decode bytes with
    | error e =>
      rw [hdecode] at hread
      cases hread
    | ok page =>
      rw [hdecode] at hread
      exact h bytes page other hpage hdecode hread

/-- What one slot adds to the valid superblocks. -/
def validSlot (disk : Disk) (slot : Nat) : List Superblock := (readSlot disk slot).toOption.toList

theorem mem_validSlot : sb ∈ validSlot disk slot ↔ readSlot disk slot = .ok sb := by
  unfold validSlot
  cases readSlot disk slot with
  | error e => simp [Except.toOption]
  | ok other => simp [Except.toOption, eq_comm]

theorem readSlots_fst (disk : Disk) :
    (readSlots disk).1 = validSlot disk 0 ++ validSlot disk 1 := by
  unfold readSlots validSlot
  simp only [List.foldl_cons, List.foldl_nil]
  rcases readSlot disk 0 with ((_ | _ | _ | _ | _ | _) | _) <;>
    rcases readSlot disk 1 with ((_ | _ | _ | _ | _ | _) | _) <;> rfl

theorem readSuperblock_of_valid (h : ((validSlot disk 0 ++ validSlot disk 1).insertionSort
      fun a b => a.generation ≤ b.generation).getLast? = some sb) :
    readSuperblock disk = .ok (some sb) := by
  unfold readSuperblock
  rw [← readSlots_fst] at h
  dsimp only
  rw [h]

/-- A superblock that is read stands in a slot. -/
theorem readSlot_of_readSuperblock
    (h : readSuperblock disk = .ok (some sb)) : ∃ slot, readSlot disk slot = .ok sb := by
  unfold readSuperblock at h
  dsimp only at h
  split at h
  · rename_i latest hlatest
    cases h
    have hmem := (List.perm_insertionSort _ _).mem_iff.mp (List.mem_of_getLast? hlatest)
    rw [readSlots_fst] at hmem
    rcases List.mem_append.mp hmem with hmem | hmem
    · exact ⟨0, mem_validSlot.mp hmem⟩
    · exact ⟨1, mem_validSlot.mp hmem⟩
  · split at h <;> cases h

theorem appliedIndex_readSuperblock
    (h : readSuperblock disk = .ok (some sb)) : sb.appliedIndex ≤ u64Max := by
  obtain ⟨slot, hslot⟩ := readSlot_of_readSuperblock h
  unfold readSlot at hslot
  split at hslot
  · cases hslot
  split at hslot
  · cases hslot
  exact Superblock.appliedIndex_decode hslot

/-- The superblock read is the one in the slot no other is as new as. -/
theorem readSuperblock_eq (hfits : sb.Fits) (hslot : disk.pages sb.slot = some sb.encodePage.array)
    (hother : OlderSlot sb (disk.pages (1 - sb.slot))) : readSuperblock disk = .ok (some sb) := by
  have hread := readSlot_of_pages hfits hslot
  have hvalid : validSlot disk sb.slot = [sb] := by simp [validSlot, hread, Except.toOption]
  have hold : validSlot disk (1 - sb.slot) = [] ∨
      ∃ other, validSlot disk (1 - sb.slot) = [other] ∧ other.generation < sb.generation := by
    cases h : readSlot disk (1 - sb.slot) with
    | error e => exact .inl (by simp [validSlot, h, Except.toOption])
    | ok other =>
      exact .inr ⟨other, by simp [validSlot, h, Except.toOption], hother.readSlot h⟩
  apply readSuperblock_of_valid
  have hcases : sb.slot = 0 ∨ sb.slot = 1 := by
    have hle := hfits.slot
    omega
  rcases hcases with hzero | hone
  · rw [hzero] at hvalid hold
    rcases hold with hnone | ⟨other, hsome, hlt⟩
    · simp [hvalid, hnone]
    · simp [hvalid, hsome, Nat.not_le.mpr hlt]
  · rw [hone] at hvalid hold
    rcases hold with hnone | ⟨other, hsome, hlt⟩
    · simp [hvalid, hnone]
    · simp [hvalid, hsome, hlt.le]

end AsterStorage
