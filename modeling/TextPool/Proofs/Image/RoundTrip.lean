import TextPool.Image.Basic
import TextPool.Proofs.Image.Header
import TextPool.Proofs.Table.Builder
import TextPool.Proofs.Table.Stored

/-!
# A written table is read back

Writing and reading share no code: writing feeds the check with two pieces and stores only where a
text starts; reading checks the content in one piece and looks for the end of each text. They agree
on every table there is a way to (`Image.parse_encode_ofTable`), in whatever order its offsets stand
and whatever else its blob holds, as long as the positions in the file are numbers of 64 bits.
-/

namespace TextPool.Image

variable {table : StringTable}

/-- A file is accepted if its header, its content as a whole and its table are, in this order. -/
theorem parse_eq_ok_iff {file : Bytes} {image : Image} :
    parse file = .ok image ↔
      Header.decode file = .ok image.header ∧ image.header.validate = .ok ()
        ∧ Crc32.checksum (file.drop Header.length) = image.header.checksum
        ∧ StringTable.ofSections file image.header.sections = .ok image.table := by
  simp only [parse, bind_eq_ok_iff]
  constructor
  · rintro ⟨header, hheader, ⟨⟩, hvalid, hrest⟩
    by_cases hchecksum : Crc32.checksum (file.drop Header.length) = header.checksum
    · rw [if_neg (not_not_intro hchecksum)] at hrest
      obtain ⟨table, htable, himage⟩ := bind_eq_ok_iff.mp hrest
      obtain rfl := pure_eq_ok_iff.mp himage
      exact ⟨hheader, hvalid, hchecksum, htable⟩
    · rw [if_pos hchecksum] at hrest
      exact nomatch hrest
  · rintro ⟨hheader, hvalid, hchecksum, htable⟩
    refine ⟨image.header, hheader, (), hvalid, ?_⟩
    rw [if_neg (not_not_intro hchecksum)]
    exact bind_eq_ok_iff.mpr ⟨image.table, htable, rfl⟩

/-! ### The layout of the file -/

theorem length_encode (image : Image) :
    image.encode.length = Header.length + 8 * image.table.size + image.table.blob.length := by
  simp only [encode, List.length_append, Header.length_encode, StringTable.length_storedOffsets]

theorem decode_encode (image : Image) : Header.decode image.encode = .ok image.header := by
  rw [encode, List.append_assoc]
  exact Header.decode_encode_append _ _

theorem drop_encode (image : Image) :
    image.encode.drop Header.length = image.table.storedOffsets ++ image.table.blob := by
  rw [encode, List.append_assoc]
  exact List.drop_left' (Header.length_encode _)

theorem length_encode_ofTable (table : StringTable) :
    (ofTable table).encode.length = Header.length + 8 * table.size + table.blob.length :=
  length_encode (ofTable table)

theorem drop_encode_ofTable (table : StringTable) :
    (ofTable table).encode.drop Header.length = table.storedOffsets ++ table.blob :=
  drop_encode (ofTable table)

theorem toNat_sectionsOf
    (hfits : Header.length + 8 * table.size + table.blob.length < Word.limit) :
    (sectionsOf table).entries.toNat = table.size
      ∧ (sectionsOf table).offsetsStart.toNat = Header.length
      ∧ (sectionsOf table).blobStart.toNat = Header.length + 8 * table.size
      ∧ (sectionsOf table).blobLength.toNat = table.blob.length := by
  have hnumber {number : Nat} (hnumber : number < Word.limit) :
      (UInt64.ofNat number).toNat = number := UInt64.toNat_ofNat_of_lt' hnumber
  exact ⟨hnumber (by omega), rfl, hnumber (by omega), hnumber (by omega)⟩

/-! ### Reading it -/

/-- Checking the two parts one after the other is checking the content of the file. -/
theorem checksum_ofTable (table : StringTable) :
    Crc32.checksum (table.storedOffsets ++ table.blob) = (ofTable table).header.checksum := by
  rw [Crc32.checksum, Crc32.feed_append]
  rfl

theorem ofSections_encode_ofTable (htable : table.WellFormed)
    (hfits : Header.length + 8 * table.size + table.blob.length < Word.limit) :
    StringTable.ofSections (ofTable table).encode (sectionsOf table) = .ok table := by
  obtain ⟨hentries, hoffsetsStart, hblobStart, hblobLength⟩ := toNat_sectionsOf hfits
  have hfront := Header.length_encode (ofTable table).header
  have hstored := table.length_storedOffsets
  refine htable.ofSections_of_stretches hentries (by omega) (by omega) ?_ ?_
  · have hstretch := Bytes.stretch?_append_append (ofTable table).header.encode
      table.storedOffsets table.blob
    rw [hfront, hstored] at hstretch
    rw [hoffsetsStart]
    exact hstretch
  · have hstretch := Bytes.stretch?_append_append
      ((ofTable table).header.encode ++ table.storedOffsets) table.blob []
    rw [List.length_append, hfront, hstored, List.append_nil] at hstretch
    rw [hblobStart, hblobLength]
    exact hstretch

theorem parse_encode_ofTable (hobtained : table.Obtained)
    (hsize : (ofTable table).encode.length < Word.limit) :
    parse (ofTable table).encode = .ok (ofTable table) := by
  rw [length_encode_ofTable] at hsize
  have hheader : Header.decode (ofTable table).encode = .ok (ofTable table).header := by
    rw [encode, List.append_assoc]
    exact Header.decode_encode_append _ _
  have hchecksum : Crc32.checksum ((ofTable table).encode.drop Header.length)
      = (ofTable table).header.checksum := by
    rw [drop_encode_ofTable, checksum_ofTable]
  exact parse_eq_ok_iff.mpr ⟨hheader, rfl, hchecksum,
    ofSections_encode_ofTable hobtained.wellFormed hsize⟩

/-- Offsets out of order, one twice, one inside another text, and a byte of no entry at the end. -/
theorem parse_encode_overlapping :
    let overlapping : StringTable :=
      ⟨[⟨4, 5⟩, ⟨1, 3⟩, ⟨1, 3⟩, ⟨0, 3⟩], [97, 98, 99, 0, 98, 0, 120]⟩
    StringTable.ofOffsets [4, 1, 1, 0] overlapping.blob = .ok overlapping
      ∧ (ofTable overlapping).encode.length < Word.limit
      ∧ parse (ofTable overlapping).encode = .ok (ofTable overlapping) := by
  intro overlapping
  have htable : StringTable.ofOffsets [4, 1, 1, 0] overlapping.blob = .ok overlapping := by decide
  have hsize : (ofTable overlapping).encode.length < Word.limit := by
    rw [length_encode_ofTable]
    decide
  exact ⟨htable, hsize, parse_encode_ofTable (.fromOffsets htable) hsize⟩

end TextPool.Image
