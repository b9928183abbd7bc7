import TextPool.Proofs.Image.Reading

/-!
# A file that was read, written again

Reading follows the header to wherever the parts of the table stand, and keeps that header; writing
puts it before the offsets and the blob, in this order and with nothing between them. So the new
file is read as the same image exactly if its content has the same check as the old one had, and the
two parts stand in it where they stood in the old one (`parse_encode_of_parse`). That is so for
every file in which the offsets follow the header, the blob follows the offsets, and nothing follows
the blob.
-/

namespace TextPool.Image

variable {file : Bytes} {image : Image}

/-- What was read is well formed and stands in the file. -/
theorem storedAt_of_parse (hparse : parse file = .ok image) :
    image.table.WellFormed ∧ image.table.StoredAt file image.header.sections :=
  StringTable.ofSections_eq_ok_iff.mp (parse_eq_ok_iff.mp hparse).2.2.2

/-- In a file laid out as files are written, the content is the offsets and the blob. -/
theorem drop_of_parse (hparse : parse file = .ok image)
    (hoffsetsStart : image.header.sections.offsetsStart.toNat = Header.length)
    (hblobStart : image.header.sections.blobStart.toNat = Header.length + 8 * image.table.size)
    (hlength : file.length = image.encode.length) :
    file.drop Header.length = image.table.storedOffsets ++ image.table.blob := by
  have hstored := (storedAt_of_parse hparse).2
  obtain ⟨_, hoffsets⟩ := Bytes.stretch?_eq_some_iff.mp hstored.offsets
  obtain ⟨_, hblob⟩ := Bytes.stretch?_eq_some_iff.mp hstored.blob
  have hrest : (file.drop (Header.length + 8 * image.table.size)).length
      = image.table.blob.length := by
    rw [List.length_drop, hlength, length_encode]
    omega
  rw [hoffsetsStart] at hoffsets
  rw [hblobStart, ← hstored.length_blob, ← hrest, List.take_length] at hblob
  rw [← hoffsets, ← hblob, ← List.drop_drop, List.take_append_drop]

/-- The new file is read as the same image exactly if its content has the same check and the table
stands in it where it stood. -/
theorem parse_encode_of_parse (hparse : parse file = .ok image) :
    (parse image.encode = .ok image ↔
      Crc32.checksum (image.table.storedOffsets ++ image.table.blob)
          = Crc32.checksum (file.drop Header.length)
        ∧ image.table.StoredAt image.encode image.header.sections)
      ∧ (image.header.sections.offsetsStart.toNat = Header.length →
        image.header.sections.blobStart.toNat = Header.length + 8 * image.table.size →
        file.length = image.encode.length → parse image.encode = .ok image) := by
  obtain ⟨_, hvalid, hchecksum, _⟩ := parse_eq_ok_iff.mp hparse
  obtain ⟨htable, hstored⟩ := storedAt_of_parse hparse
  have hagain : parse image.encode = .ok image ↔
      Crc32.checksum (image.table.storedOffsets ++ image.table.blob)
          = Crc32.checksum (file.drop Header.length)
        ∧ image.table.StoredAt image.encode image.header.sections := by
    rw [parse_eq_ok_iff, drop_encode, StringTable.ofSections_eq_ok_iff, hchecksum]
    exact ⟨fun hread => ⟨hread.2.2.1, hread.2.2.2.2⟩,
      fun hsame => ⟨decode_encode image, hvalid, hsame.1, htable, hsame.2⟩⟩
  refine ⟨hagain, fun hoffsetsStart hblobStart hlength => hagain.mpr ⟨?_, ?_⟩⟩
  · rw [drop_of_parse hparse hoffsetsStart hblobStart hlength]
  · have hfront : Header.length ≤ image.encode.length := by
      rw [length_encode, Nat.add_assoc]
      exact Nat.le_add_right _ _
    exact storedAt_of_drop hfront (drop_encode image) hstored.entries_eq hoffsetsStart hblobStart
      hstored.length_blob.symm hstored.length_lt

/-- Reserved bytes that are not zero are lost, and nothing else. -/
theorem parse_encode_of_reserved :
    let image := ofTable ⟨[⟨0, 1⟩, ⟨1, 1⟩], [97, 0]⟩
    let file := (image.encode.set 12 7).set 63 9
    file ≠ image.encode ∧ parse file = .ok image ∧
      (parse image.encode = .ok image ↔
        Crc32.checksum (image.table.storedOffsets ++ image.table.blob)
            = Crc32.checksum (file.drop Header.length)
          ∧ image.table.StoredAt image.encode image.header.sections)
        ∧ (image.header.sections.offsetsStart.toNat = Header.length →
          image.header.sections.blobStart.toNat = Header.length + 8 * image.table.size →
          file.length = image.encode.length → parse image.encode = .ok image) := by
  intro image file
  have hparse : parse file = .ok image := by decide +kernel
  exact ⟨by decide +kernel, hparse, parse_encode_of_parse hparse⟩

/-- A file with one more byte behind the blob is read, and not read again. -/
theorem exists_parse_encode_ne :
    ¬∀ (file : Bytes) (image : Image), parse file = .ok image → parse image.encode = .ok image := by
  intro hclaim
  let header : Header := ⟨Header.tableMagic, Header.currentVersion, 0x229210FB, ⟨1, 64, 72, 2⟩⟩
  let image : Image := ⟨header, ⟨[⟨0, 1⟩], [97, 0]⟩⟩
  have hparse : parse (image.encode ++ [0]) = .ok image := by decide +kernel
  exact absurd (hclaim _ image hparse) (by decide +kernel)

end TextPool.Image
