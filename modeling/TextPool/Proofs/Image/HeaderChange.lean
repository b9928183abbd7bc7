import Mathlib.Data.List.Infix
import TextPool.Proofs.Image.Reading

/-!
# One changed byte in the header

A byte of the header belongs to one number of it or is reserved, so a change of it changes that
number and no other (`Header.DifferAt`). A changed magic number, version or checksum is found out,
and a change of a reserved byte is not seen. The check does not cover the four numbers that say
where the table stands, and a file in which one of them was changed may be read as another table; of
the table that was written, that one still has all that the changed number does not say
(`StringTable.Kept`, `Image.parse_of_changed_header`).
-/

namespace TextPool

/-! ### The numbers of a header -/

namespace Header

/-- The two headers differ in the number that holds the byte at `position`, if there is one, and in
no other. -/
structure DifferAt (position : Nat) (header changed : Header) : Prop where
  magic_eq_iff : changed.magic = header.magic ↔ 4 ≤ position
  version_eq_iff : changed.version = header.version ↔ position < 4 ∨ 8 ≤ position
  checksum_eq_iff : changed.checksum = header.checksum ↔ position < 8 ∨ 12 ≤ position
  entries_eq_iff : changed.sections.entries = header.sections.entries ↔
    position < 16 ∨ 24 ≤ position
  offsetsStart_eq_iff : changed.sections.offsetsStart = header.sections.offsetsStart ↔
    position < 24 ∨ 32 ≤ position
  blobStart_eq_iff : changed.sections.blobStart = header.sections.blobStart ↔
    position < 32 ∨ 40 ≤ position
  blobLength_eq_iff : changed.sections.blobLength = header.sections.blobLength ↔
    position < 40 ∨ 48 ≤ position

namespace DifferAt

variable {position : Nat} {header changed : Header} (hdiffer : header.DifferAt position changed)

include hdiffer

theorem eq_of_le (hposition : 12 ≤ position) :
    changed = { header with sections := changed.sections } := by
  have hmagic := hdiffer.magic_eq_iff.mpr (by omega)
  have hversion := hdiffer.version_eq_iff.mpr (by omega)
  have hchecksum := hdiffer.checksum_eq_iff.mpr (by omega)
  rw [← hmagic, ← hversion, ← hchecksum]

theorem eq_of_reserved (hposition : 12 ≤ position) (hreserved : position < 16 ∨ 48 ≤ position) :
    changed = header := by
  have hentries := hdiffer.entries_eq_iff.mpr (by omega)
  have hoffsetsStart := hdiffer.offsetsStart_eq_iff.mpr (by omega)
  have hblobStart := hdiffer.blobStart_eq_iff.mpr (by omega)
  have hblobLength := hdiffer.blobLength_eq_iff.mpr (by omega)
  have hsections : changed.sections = ⟨header.sections.entries, header.sections.offsetsStart,
      header.sections.blobStart, header.sections.blobLength⟩ := by
    rw [← hentries, ← hoffsetsStart, ← hblobStart, ← hblobLength]
  rw [hdiffer.eq_of_le hposition, hsections]

end DifferAt

section OneByte

variable {file : Bytes} {position : Nat} {byte : UInt8} (hchanged : file[position]? ≠ some byte)

include hchanged

theorem numberAt_set_eq_iff {start width : Nat} (hfits : start + width ≤ file.length) :
    numberAt (file.set position byte) start width = numberAt file start width ↔
      position < start ∨ start + width ≤ position := by
  constructor
  · intro hnumber
    by_contra hinside
    have hlength : (((file.set position byte).drop start).take width).length
        = ((file.drop start).take width).length := by
      simp only [List.length_take, List.length_drop, List.length_set]
    have hbytes := congrArg (fun bytes : Bytes => bytes[position - start]?)
      (LittleEndian.decode_injective hlength hnumber)
    have hbefore : start + (position - start) = position := by omega
    rw [List.getElem?_take_of_lt (by omega), List.getElem?_take_of_lt (by omega),
      List.getElem?_drop, List.getElem?_drop, hbefore, List.getElem?_set_self (by omega)] at hbytes
    exact hchanged hbytes.symm
  · rintro (hbefore | hbehind)
    · rw [numberAt, numberAt, List.drop_set_of_lt hbefore]
    · have hshort : ((file.drop start).take width).length ≤ position - start := by
        rw [List.length_take]
        omega
      rw [numberAt, numberAt, List.drop_set, if_neg (by omega), List.take_set,
        List.set_eq_of_length_le hshort]

theorem ofNat_four_bytes_set_eq_iff {start : Nat} (hfits : start + 4 ≤ file.length) :
    UInt32.ofNat (numberAt (file.set position byte) start 4) = UInt32.ofNat (numberAt file start 4) ↔
      position < start ∨ start + 4 ≤ position := by
  have hword (bytes : Bytes) : numberAt bytes start 4 < UInt32.size := numberAt_lt bytes start 4
  rw [← UInt32.toNat_inj, UInt32.toNat_ofNat_of_lt' (hword _), UInt32.toNat_ofNat_of_lt' (hword _)]
  exact numberAt_set_eq_iff hchanged hfits

theorem ofNat_eight_bytes_set_eq_iff {start : Nat} (hfits : start + 8 ≤ file.length) :
    UInt64.ofNat (numberAt (file.set position byte) start 8) = UInt64.ofNat (numberAt file start 8) ↔
      position < start ∨ start + 8 ≤ position := by
  have hword (bytes : Bytes) : numberAt bytes start 8 < UInt64.size := numberAt_lt bytes start 8
  rw [← UInt64.toNat_inj, UInt64.toNat_ofNat_of_lt' (hword _), UInt64.toNat_ofNat_of_lt' (hword _)]
  exact numberAt_set_eq_iff hchanged hfits

theorem exists_decode_set {header : Header} (hheader : decode file = .ok header) :
    ∃ changed, decode (file.set position byte) = .ok changed ∧ header.DifferAt position changed := by
  have hlength := length_le_of_decode hheader
  have hfits {stop : Nat} (hstop : stop ≤ length) : stop ≤ file.length := Nat.le_trans hstop hlength
  rw [decode, if_neg (Nat.not_lt_of_le hlength)] at hheader
  obtain rfl := Except.ok.inj hheader
  refine ⟨_, if_neg (by rwa [List.length_set, Nat.not_lt]), ?_⟩
  exact {
    magic_eq_iff :=
      (ofNat_four_bytes_set_eq_iff hchanged (hfits (by decide))).trans (by omega)
    version_eq_iff := ofNat_four_bytes_set_eq_iff hchanged (hfits (by decide))
    checksum_eq_iff := ofNat_four_bytes_set_eq_iff hchanged (hfits (by decide))
    entries_eq_iff := ofNat_eight_bytes_set_eq_iff hchanged (hfits (by decide))
    offsetsStart_eq_iff := ofNat_eight_bytes_set_eq_iff hchanged (hfits (by decide))
    blobStart_eq_iff := ofNat_eight_bytes_set_eq_iff hchanged (hfits (by decide))
    blobLength_eq_iff := ofNat_eight_bytes_set_eq_iff hchanged (hfits (by decide)) }

end OneByte

end Header

/-! ### The table -/

namespace StringTable

/-- What a table that was found with the header byte at `position` changed has in common with the
table that was written. -/
structure Kept (position : Nat) (table found : StringTable) : Prop where
  size_eq : position < 16 ∨ 24 ≤ position → found.size = table.size
  /-- The entries that both tables have start at the same offsets. -/
  offsets_eq : position < 24 ∨ 32 ≤ position →
    found.offsets.take table.size = table.offsets.take found.size
  isPrefix_blob : position < 32 ∨ 40 ≤ position → found.blob <+: table.blob
  length_blob : position < 40 ∨ 48 ≤ position → found.blob.length = table.blob.length
  /-- The entries that both tables have are the same strings. -/
  texts_eq : position < 24 ∨ 40 ≤ position →
    found.texts.take table.size = table.texts.take found.size

variable {table found : StringTable}

theorem texts_take_eq (htable : table.WellFormed) (hfound : found.WellFormed)
    (hblob : found.blob <+: table.blob)
    (hoffsets : found.offsets.take table.size = table.offsets.take found.size) :
    found.texts.take table.size = table.texts.take found.size := by
  have hsame : found.texts
      = found.offsets.map fun offset => Bytes.upToZero (table.blob.drop offset) := by
    obtain ⟨more, hmore⟩ := hblob
    rw [hfound.texts_eq, offsets, List.map_map, List.map_map, ← hmore]
    exact List.map_congr_left fun span hspan =>
      ((hfound.terminated hspan).upToZero_append more).symm
  rw [hsame, htable.texts_eq, ← List.map_take, ← List.map_take, hoffsets]

/-- Offsets that are read from the start of the stored ones are the first of them. -/
theorem offsets_take_eq (htable : table.WellFormed) (hfound : found.WellFormed)
    (hblob : table.blob.length < Word.limit) (hother : found.blob.length < Word.limit)
    {rest : Bytes}
    (hstored : (table.storedOffsets ++ rest).take (8 * found.size) = found.storedOffsets) :
    found.offsets.take table.size = table.offsets.take found.size := by
  have hlength (given : StringTable) : given.offsets.length = given.size := List.length_map _
  have hfits {given : StringTable} (hgiven : given.WellFormed)
      (hgivenBlob : given.blob.length < Word.limit) (count : Nat) :
      ∀ offset ∈ given.offsets.take count, offset < Word.limit := fun offset hoffset =>
    Nat.lt_trans (hgiven.offset_lt (List.mem_of_mem_take hoffset)) hgivenBlob
  have hcommon : found.storedOffsets.take (8 * table.size)
      = table.storedOffsets.take (8 * found.size) := by
    rw [← hstored, List.take_take, Nat.min_comm, ← List.take_take,
      List.take_left' table.length_storedOffsets]
  rw [storedOffsets, storedOffsets, take_flatMap_encode, take_flatMap_encode] at hcommon
  refine eq_of_flatMap_encode_eq ?_ (hfits hfound hother _) (hfits htable hblob _) hcommon
  rw [List.length_take, List.length_take, hlength, hlength, Nat.min_comm]

/-- What is found in a file with the content of a table has in common with it what the sections have
in common with those that were written. -/
theorem kept_of_storedAt (htable : table.WellFormed) (hfound : found.WellFormed) {file : Bytes}
    {sections : Sections} {position : Nat}
    (hrest : file.drop Header.length = table.storedOffsets ++ table.blob)
    (hblob : table.blob.length < Word.limit) (hstored : found.StoredAt file sections)
    (hentries : position < 16 ∨ 24 ≤ position → sections.entries.toNat = table.size)
    (hoffsetsStart : position < 24 ∨ 32 ≤ position →
      sections.offsetsStart.toNat = Header.length)
    (hblobStart : position < 32 ∨ 40 ≤ position →
      sections.blobStart.toNat = Header.length + 8 * table.size)
    (hblobLength : position < 40 ∨ 48 ≤ position →
      sections.blobLength.toNat = table.blob.length) : Kept position table found := by
  have hother : found.blob.length < Word.limit := hstored.length_blob ▸ UInt64.toNat_lt _
  have hoffsets (houtside : position < 24 ∨ 32 ≤ position) :
      found.offsets.take table.size = table.offsets.take found.size := by
    have hbytes := (Bytes.stretch?_eq_some_iff.mp hstored.offsets).2
    rw [hoffsetsStart houtside, hrest] at hbytes
    exact offsets_take_eq htable hfound hblob hother hbytes
  have hfront (houtside : position < 32 ∨ 40 ≤ position) : found.blob <+: table.blob := by
    have hbytes := (Bytes.stretch?_eq_some_iff.mp hstored.blob).2
    rw [hblobStart houtside, ← List.drop_drop, hrest,
      List.drop_left' table.length_storedOffsets] at hbytes
    exact hbytes ▸ List.take_prefix _ _
  constructor
  case size_eq => exact fun houtside => hstored.entries_eq.symm.trans (hentries houtside)
  case offsets_eq => exact hoffsets
  case isPrefix_blob => exact hfront
  case length_blob => exact fun houtside => hstored.length_blob.trans (hblobLength houtside)
  case texts_eq =>
    intro houtside
    exact texts_take_eq htable hfound (hfront (by omega)) (hoffsets (by omega))

end StringTable

/-! ### The file -/

namespace Image

variable {table : StringTable} {position : Nat} {byte : UInt8}

section Changed

variable (hchanged : (ofTable table).encode[position]? ≠ some byte)

include hchanged

theorem parse_of_changed_number (hposition : position < 12) :
    ∃ fault, parse ((ofTable table).encode.set position byte) = .error fault := by
  obtain ⟨changed, hheader, hdiffer⟩ :=
    Header.exists_decode_set hchanged (decode_encode (ofTable table))
  by_cases hmagic : changed.magic = Header.tableMagic
  · by_cases hversion : changed.version = Header.currentVersion
    · -- Only the checksum is left for the byte to be in, and the content is as it was.
      have hfour : 4 ≤ position := hdiffer.magic_eq_iff.mp hmagic
      have height := hdiffer.version_eq_iff.mp hversion
      have hchecksum : changed.checksum ≠ (ofTable table).header.checksum := by
        intro hsame
        have htwelve := hdiffer.checksum_eq_iff.mp hsame
        omega
      have hvalid : changed.validate = .ok () := by
        rw [Header.validate, if_neg (not_not_intro hmagic), if_neg (not_not_intro hversion)]
      refine ⟨_, parse_of_wrongChecksum hheader hvalid ?_⟩
      rw [List.drop_set_of_lt (Nat.lt_trans hposition (by decide)), drop_encode_ofTable,
        checksum_ofTable]
      exact hchecksum.symm
    · exact ⟨_, parse_of_invalid hheader
        (by rw [Header.validate, if_neg (not_not_intro hmagic), if_pos hversion])⟩
  · exact ⟨_, parse_of_invalid hheader (by rw [Header.validate, if_pos hmagic])⟩

theorem parse_of_changed_reserved (htable : table.WellFormed)
    (hsize : (ofTable table).encode.length < Word.limit) (hposition : 12 ≤ position)
    (hreserved : position < 16 ∨ 48 ≤ position) (hlength : position < Header.length) :
    parse ((ofTable table).encode.set position byte) = .ok (ofTable table) := by
  obtain ⟨changed, hheader, hdiffer⟩ :=
    Header.exists_decode_set hchanged (decode_encode (ofTable table))
  obtain rfl := hdiffer.eq_of_reserved hposition hreserved
  refine parse_of_drop htable hsize hheader ?_
  rw [List.drop_set_of_lt hlength, drop_encode_ofTable]

theorem kept_of_changed_section (htable : table.WellFormed)
    (hsize : (ofTable table).encode.length < Word.limit) (hposition : 16 ≤ position)
    (hsection : position < 48) {image : Image}
    (hparse : parse ((ofTable table).encode.set position byte) = .ok image) :
    image.header = { (ofTable table).header with sections := image.header.sections }
      ∧ StringTable.Kept position table image.table := by
  obtain ⟨changed, hheader, hdiffer⟩ :=
    Header.exists_decode_set hchanged (decode_encode (ofTable table))
  obtain ⟨hread, _, _, hfound⟩ := parse_eq_ok_iff.mp hparse
  obtain rfl : changed = image.header := Except.ok.inj (hheader.symm.trans hread)
  obtain ⟨hfound, hstored⟩ := StringTable.ofSections_eq_ok_iff.mp hfound
  rw [length_encode_ofTable] at hsize
  obtain ⟨hentries, hoffsetsStart, hblobStart, hblobLength⟩ := toNat_sectionsOf hsize
  have hrest : ((ofTable table).encode.set position byte).drop Header.length
      = table.storedOffsets ++ table.blob := by
    rw [List.drop_set_of_lt (Nat.lt_trans hsection (by decide)), drop_encode_ofTable]
  refine ⟨hdiffer.eq_of_le (by omega),
    StringTable.kept_of_storedAt htable hfound hrest (by omega) hstored ?_ ?_ ?_ ?_⟩
  · exact fun houtside => (congrArg _ (hdiffer.entries_eq_iff.mpr houtside)).trans hentries
  · exact fun houtside =>
      (congrArg _ (hdiffer.offsetsStart_eq_iff.mpr houtside)).trans hoffsetsStart
  · exact fun houtside => (congrArg _ (hdiffer.blobStart_eq_iff.mpr houtside)).trans hblobStart
  · exact fun houtside => (congrArg _ (hdiffer.blobLength_eq_iff.mpr houtside)).trans hblobLength

end Changed

/-- A written file with one byte of its header changed is refused, or read with what the changed
number does not say. -/
theorem parse_of_changed_header (hobtained : table.Obtained)
    (hsize : (ofTable table).encode.length < Word.limit) (hposition : position < Header.length)
    (hchanged : (ofTable table).encode[position]? ≠ some byte) :
    (position < 12 →
      ∃ fault, parse ((ofTable table).encode.set position byte) = .error fault)
    ∧ (12 ≤ position → position < 16 ∨ 48 ≤ position →
      parse ((ofTable table).encode.set position byte) = .ok (ofTable table))
    ∧ (16 ≤ position → position < 48 → ∀ image,
      parse ((ofTable table).encode.set position byte) = .ok image →
        image.header = { (ofTable table).header with sections := image.header.sections }
          ∧ StringTable.Kept position table image.table) := by
  have htable := hobtained.wellFormed
  refine ⟨parse_of_changed_number hchanged, ?_, ?_⟩
  · exact fun hbehind hreserved =>
      parse_of_changed_reserved hchanged htable hsize hbehind hreserved hposition
  · exact fun hbehind hsection image =>
      kept_of_changed_section hchanged htable hsize hbehind hsection

/-- The length of the blob, lowered by the one byte that belongs to no entry. -/
theorem parse_of_lowered_length :
    let table : StringTable := ⟨[⟨0, 1⟩], [97, 0, 120]⟩
    let changed := (ofTable table).encode.set 40 2
    let found : Image := ⟨{ (ofTable table).header with sections := ⟨1, 64, 72, 2⟩ },
      ⟨[⟨0, 1⟩], [97, 0]⟩⟩
    parse changed = .ok found
      ∧ found.header = { (ofTable table).header with sections := found.header.sections }
      ∧ StringTable.Kept 40 table found.table := by
  intro table changed found
  have htable : StringTable.ofOffsets [0] table.blob = .ok table := by decide
  have hsize : (ofTable table).encode.length < Word.limit := by
    rw [length_encode_ofTable]
    decide
  have hparse : parse changed = .ok found := by decide +kernel
  have hchanged : (ofTable table).encode[40]? ≠ some 2 := by decide +kernel
  obtain ⟨_, _, hread⟩ :=
    parse_of_changed_header (.fromOffsets htable) hsize (by decide : 40 < Header.length) hchanged
  exact ⟨hparse, hread (by decide) (by decide) found hparse⟩

/-- With the count of its entries lowered, a file is read as a shorter table. -/
theorem exists_changed_header_read :
    ¬∀ (table : StringTable) (position : Nat) (byte : UInt8), table.Obtained →
      (ofTable table).encode.length < Word.limit → position < Header.length →
      (ofTable table).encode[position]? ≠ some byte →
      (∃ fault, parse ((ofTable table).encode.set position byte) = .error fault)
        ∨ parse ((ofTable table).encode.set position byte) = .ok (ofTable table) := by
  intro hclaim
  let table : StringTable := ⟨[⟨0, 1⟩, ⟨2, 3⟩], [97, 0, 98, 0]⟩
  let found : Image := ⟨{ (ofTable table).header with sections := ⟨1, 64, 80, 4⟩ },
    ⟨[⟨0, 1⟩], [97, 0, 98, 0]⟩⟩
  have htable : StringTable.ofOffsets [0, 2] table.blob = .ok table := by decide
  have hsize : (ofTable table).encode.length < Word.limit := by
    rw [length_encode_ofTable]
    decide
  have hparse : parse ((ofTable table).encode.set 16 1) = .ok found := by decide +kernel
  have hchanged : (ofTable table).encode[16]? ≠ some 1 := by decide +kernel
  rcases hclaim table 16 1 (.fromOffsets htable) hsize (by decide) hchanged with
    ⟨fault, hfault⟩ | hsame
  · exact nomatch hfault.symm.trans hparse
  · exact absurd (congrArg (Image.table ·) (Except.ok.inj (hparse.symm.trans hsame))) (by decide)

end Image

end TextPool
