import AsterDB.Models.Storage.Native.Run

/-!
# What page operations keep

Reading back what was written, what makes a page valid, and that stamped pages
and encoded superblocks are valid and mean what they were made from.
-/

namespace AsterStorage

open AsterRaft (Bytes u64Max)
open ByteString

theorem u64Max_lt : u64Max < 256 ^ 8 := by decide

namespace Page

variable {page : Page} {offset start count : Nat} {data : Bytes}

theorem get_put_self (hcount : data.length = count) (h : offset + count ≤ pageSize) :
    (page.put offset data).get offset count = data :=
  slice_overwrite_self hcount (by simpa using h)

theorem get_put_of_disjoint (h : start + count ≤ offset ∨ offset + data.length ≤ start) :
    (page.put offset data).get start count = page.get start count :=
  slice_overwrite_of_disjoint h

theorem put_put {second : Bytes} (h : data.length = second.length) :
    (page.put offset data).put offset second = page.put offset second := by
  simp only [put, asBytes, overwrite_overwrite h]

theorem byteAt_eq (page : Page) (offset : Nat) :
    page.byteAt offset = ((page.get offset 1).head?).getD 0 := getD_eq_slice ..

theorem byteAt_congr {other : Page} (h : page.get offset 1 = other.get offset 1) :
    page.byteAt offset = other.byteAt offset := by
  rw [byteAt_eq, byteAt_eq, h]

theorem getNat_lt (h : offset + count ≤ pageSize) : page.getNat offset count < 256 ^ count := by
  have hlen : (page.get offset count).length = count := length_slice (by simpa using h)
  have hlt := leNat_lt (page.get offset count)
  rwa [hlen] at hlt

theorem id_lt (page : Page) : page.id < 256 ^ 8 := getNat_lt (by decide)

theorem slice_payload (page : Page) (start count : Nat) :
    slice page.payload start count = page.get (pageHeaderSize + start) count := by
  simp only [payload, get, slice, List.drop_drop]

/-! ## The checksum -/

theorem seal_eq (page : Page) :
    page.seal = page.put checksumOffset (leBytes 4 page.computedChecksum) :=
  put_put (by simp)

theorem computedChecksum_put (h : data.length = 4) :
    (page.put checksumOffset data).computedChecksum = page.computedChecksum := by
  rw [computedChecksum, put_put (by simpa using h), computedChecksum]

@[simp]
theorem computedChecksum_seal (page : Page) :
    page.seal.computedChecksum = page.computedChecksum := by
  rw [seal_eq, computedChecksum_put (by simp)]

@[simp]
theorem seal_seal (page : Page) : page.seal.seal = page.seal := by
  rw [seal_eq page.seal, computedChecksum_seal, seal_eq, put_put (by simp)]

theorem getNat_seal_checksum (page : Page) :
    page.seal.getNat checksumOffset 4 = page.computedChecksum := by
  have hlt : page.computedChecksum < 256 ^ 4 := crc32_lt _
  rw [seal_eq, getNat, get_put_self (by simp) (by decide), leNat_leBytes_of_lt hlt]

theorem get_seal (h : start + count ≤ checksumOffset ∨ checksumOffset + 4 ≤ start) :
    page.seal.get start count = page.get start count := by
  rw [seal_eq, get_put_of_disjoint (by simpa using h)]

/-! ## Valid pages -/

/-- The header checks of `validate`, all but the checksum. -/
structure HeaderOk (page : Page) : Prop where
  magic : page.get 0 4 = pageMagic
  version : page.getNat 4 2 = pageFormatVersion
  kind : ∃ kind, PageKind.ofByte (page.byteAt 6) = .ok kind
  reserved : ¬((page.get 38 6).any (· ≠ 0) ∨ (page.get 48 (pageHeaderSize - 48)).any (· ≠ 0))
  bounds : ¬(¬(pageHeaderSize ≤ page.getNat 32 2 ∧ page.getNat 32 2 ≤ page.getNat 34 2) ∨
    pageSize < page.getNat 34 2)

/-- A page that decodes. -/
structure Valid (page : Page) : Prop where
  header : page.HeaderOk
  checksum : page.getNat checksumOffset 4 = page.computedChecksum

theorem validate_eq_ok : page.validate = .ok () ↔ page.Valid := by
  unfold validate
  constructor
  · intro h
    split at h
    · cases h
    rename_i hmagic
    dsimp only at h
    split at h
    · cases h
    rename_i hversion
    split at h
    · cases h
    rename_i kind hkind
    split at h
    · cases h
    rename_i hreserved
    split at h
    · cases h
    rename_i hbounds
    split at h
    · cases h
    rename_i hchecksum
    exact ⟨⟨not_not.mp hmagic, not_not.mp hversion, ⟨kind, hkind⟩, hreserved, hbounds⟩,
      not_not.mp hchecksum⟩
  · rintro ⟨⟨hmagic, hversion, ⟨kind, hkind⟩, hreserved, hbounds⟩, hchecksum⟩
    rw [if_neg (not_not.mpr hmagic), if_neg (not_not.mpr hversion), hkind, if_neg hreserved,
      if_neg hbounds, if_neg (not_not.mpr hchecksum)]

theorem decode_eq_ok {bytes : PageArray} :
    decode bytes = .ok page ↔ page = ⟨bytes⟩ ∧ page.Valid := by
  unfold decode
  dsimp only
  constructor
  · intro h
    split at h
    · cases h
    · rename_i hvalidate
      cases h
      exact ⟨rfl, validate_eq_ok.mp hvalidate⟩
  · rintro ⟨rfl, hvalid⟩
    rw [validate_eq_ok.mpr hvalid]

theorem decode_array (h : page.Valid) : decode page.array = .ok page :=
  decode_eq_ok.mpr ⟨rfl, h⟩

/-- The header checks look at four ranges of the page. -/
theorem HeaderOk.congr {other : Page} (h : page.HeaderOk) (hfirst : other.get 0 4 = page.get 0 4)
    (hversion : other.get 4 2 = page.get 4 2) (hkind : other.get 6 1 = page.get 6 1)
    (hlower : other.get 32 2 = page.get 32 2) (hupper : other.get 34 2 = page.get 34 2)
    (hreserved : other.get 38 6 = page.get 38 6)
    (hreserved' : other.get 48 (pageHeaderSize - 48) = page.get 48 (pageHeaderSize - 48)) :
    other.HeaderOk := by
  obtain ⟨h₁, h₂, h₃, h₄, h₅⟩ := h
  refine ⟨hfirst.trans h₁, ?_, ?_, ?_, ?_⟩
  · rwa [getNat, hversion]
  · rwa [byteAt_congr hkind]
  · rwa [hreserved, hreserved']
  · rwa [getNat, getNat, hlower, hupper]

theorem HeaderOk.putNat (h : page.HeaderOk) {value : Nat} (hstart : 8 ≤ offset)
    (hend : offset + 8 ≤ 32) : (page.putNat offset 8 value).HeaderOk := by
  apply h.congr <;> exact get_put_of_disjoint (by simp [pageHeaderSize]; omega)

theorem HeaderOk.seal (h : page.HeaderOk) : page.seal.HeaderOk := by
  apply h.congr <;> exact get_seal (by decide)

theorem HeaderOk.valid_seal (h : page.HeaderOk) : page.seal.Valid :=
  ⟨h.seal, by rw [getNat_seal_checksum, computedChecksum_seal]⟩

/-- A page as a call stores it. -/
def stamp (page : Page) (lsn : Nat) (epoch : Nat) : Page := (page.setLsn lsn).setPageEpoch epoch

theorem stampPage_eq (page : Page) (lsn : Nat) (epoch : Nat) :
    WriteAheadLog.stampPage page lsn epoch = page.stamp lsn epoch := by
  simp [WriteAheadLog.stampPage, stamp, setPageEpoch]

theorem HeaderOk.valid_stamp (h : page.HeaderOk) (lsn : Nat) (epoch : Nat) :
    (page.stamp lsn epoch).Valid :=
  (((h.putNat (by decide) (by decide)).seal).putNat (by decide) (by decide)).valid_seal

theorem Valid.stamp (h : page.Valid) (lsn : Nat) (epoch : Nat) : (page.stamp lsn epoch).Valid :=
  h.header.valid_stamp lsn epoch

/-- Stamping keeps a range outside LSN, epoch and checksum. -/
theorem get_stamp {lsn : Nat} {epoch : Nat}
    (h : start + count ≤ 16 ∨ 32 ≤ start ∧ start + count ≤ 44 ∨ 48 ≤ start) :
    (page.stamp lsn epoch).get start count = page.get start count := by
  unfold Page.stamp setPageEpoch setLsn Page.putNat
  rw [get_seal (by simp [checksumOffset]; omega), get_put_of_disjoint (by simp; omega),
    get_seal (by simp [checksumOffset]; omega), get_put_of_disjoint (by simp; omega)]

@[simp]
theorem id_stamp (page : Page) (lsn : Nat) (epoch : Nat) : (page.stamp lsn epoch).id = page.id := by
  rw [id, getNat, get_stamp (by decide)]
  rfl

theorem lsn_stamp {lsn : Nat} (h : lsn ≤ u64Max) (page : Page) (epoch : Nat) :
    (page.stamp lsn epoch).lsn = lsn := by
  have hget : (page.stamp lsn epoch).get 16 8 = leBytes 8 lsn := by
    unfold Page.stamp setPageEpoch setLsn Page.putNat
    rw [get_seal (by decide), get_put_of_disjoint (by simp), get_seal (by decide),
      get_put_self (by simp) (by decide)]
  rw [Page.lsn, getNat, hget, leNat_leBytes_of_lt (lt_of_le_of_lt h u64Max_lt)]

end Page

end AsterStorage
