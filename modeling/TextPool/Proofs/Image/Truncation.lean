import TextPool.Proofs.Image.Reading
import TextPool.Proofs.Table.Verdict

/-!
# Files cut short

The check does not always tell that the end of a file is missing: what is left may by chance have
the check of the whole. What always tells is the header, if it is there, for it says how long the
two parts are, and the last of them ends where the file does. So whatever is cut off a written file,
it is refused (`parse_of_truncated`), and `Truncation` says with which fault.
-/

namespace TextPool.Image

variable {table : StringTable} {file : Bytes}

/-- What is found wrong with a written file that was cut short. -/
inductive Truncation (table : StringTable) (file : Bytes) : FormatError → Prop
  | header (hcut : file.length < Header.length) :
      Truncation table file (.tooShort 0 Header.length file.length)
  | content (hheader : Header.length ≤ file.length)
      (hchecksum : Crc32.checksum (file.drop Header.length) ≠ (ofTable table).header.checksum) :
      Truncation table file (.wrongChecksum (ofTable table).header.checksum
        (Crc32.checksum (file.drop Header.length)))
  | offsets (hheader : Header.length ≤ file.length)
      (hchecksum : Crc32.checksum (file.drop Header.length) = (ofTable table).header.checksum)
      (hcut : file.length < Header.length + 8 * table.size) :
      Truncation table file (.tooShort Header.length (8 * table.size) file.length)
  | blob (hoffsets : Header.length + 8 * table.size ≤ file.length)
      (hchecksum : Crc32.checksum (file.drop Header.length) = (ofTable table).header.checksum)
      (hcut : file.length < Header.length + 8 * table.size + table.blob.length) :
      Truncation table file
        (.tooShort (Header.length + 8 * table.size) table.blob.length file.length)

/-- As long as the header is whole, it is read as it was written. -/
theorem decode_of_prefix (hstart : file <+: (ofTable table).encode)
    (hlength : Header.length ≤ file.length) :
    Header.decode file = .ok (ofTable table).header := by
  have hfront : file.take Header.length = (ofTable table).header.encode := by
    rw [List.prefix_iff_eq_take.mp hstart, List.take_take, Nat.min_eq_left hlength, encode,
      List.append_assoc]
    exact List.take_left' (Header.length_encode _)
  rw [← List.take_append_drop Header.length file, hfront]
  exact Header.decode_encode_append _ _

/-- A file that ends before its offsets or its blob do is not read. -/
theorem ofSections_of_short
    (hsize : (ofTable table).encode.length < Word.limit)
    (hshort : file.length < (ofTable table).encode.length) :
    StringTable.ofSections file (sectionsOf table)
      = .error (if file.length < Header.length + 8 * table.size
          then .tooShort Header.length (8 * table.size) file.length
          else .tooShort (Header.length + 8 * table.size) table.blob.length file.length) := by
  rw [length_encode_ofTable] at hsize hshort
  obtain ⟨hentries, hoffsetsStart, hblobStart, hblobLength⟩ := toNat_sectionsOf hsize
  have hcountable : 8 * (sectionsOf table).entries.toNat < Word.limit := by omega
  by_cases hcut : file.length < Header.length + 8 * table.size
  · rw [← hoffsetsStart, ← hentries] at hcut
    rw [(Sections.Verdict.offsetsCut hcountable hcut).ofSections_eq, ← hoffsetsStart, ← hentries,
      if_pos hcut]
  · have hoffsets := Nat.le_of_not_lt hcut
    rw [← hoffsetsStart, ← hentries] at hoffsets
    rw [← hblobStart, ← hblobLength] at hshort
    rw [(Sections.Verdict.blobCut hcountable hoffsets hshort).ofSections_eq, if_neg hcut, hblobStart,
      hblobLength]

/-- A written file of which any count of bytes is cut off is refused, whatever the check of the rest
happens to be. -/
theorem parse_of_truncated (hsize : (ofTable table).encode.length < Word.limit)
    (hstart : file <+: (ofTable table).encode) (hcut : file ≠ (ofTable table).encode) :
    ∃ fault, parse file = .error fault ∧ Truncation table file fault := by
  have hshort : file.length < (ofTable table).encode.length :=
    Nat.lt_of_le_of_ne hstart.length_le fun hlength => hcut (hstart.eq_of_length hlength)
  by_cases hlength : file.length < Header.length
  · have hheader : Header.decode file = .error (.tooShort 0 Header.length file.length) :=
      if_pos hlength
    exact ⟨_, parse_of_undecoded hheader, .header hlength⟩
  have hlength := Nat.le_of_not_lt hlength
  have hheader := decode_of_prefix hstart hlength
  by_cases hchecksum : Crc32.checksum (file.drop Header.length) = (ofTable table).header.checksum
  swap
  · exact ⟨_, parse_of_wrongChecksum hheader rfl hchecksum, .content hlength hchecksum⟩
  refine ⟨_, parse_of_unread hheader rfl hchecksum (ofSections_of_short hsize hshort), ?_⟩
  split
  · next hoffsets => exact .offsets hlength hchecksum hoffsets
  · next hoffsets =>
    rw [length_encode_ofTable] at hshort
    exact .blob (Nat.le_of_not_lt hoffsets) hchecksum hshort

/-- A table without entries, of which only the header is left, and a blob that has the check of
nothing at all. -/
theorem parse_of_truncated_blob :
    let table : StringTable := ⟨[], [0x9D, 0x0A, 0xD9, 0x6D]⟩
    let file := (ofTable table).encode.take 64
    table.Obtained ∧ (ofTable table).encode.length < Word.limit ∧ file <+: (ofTable table).encode ∧
      file ≠ (ofTable table).encode ∧ parse file = .error (.tooShort 64 4 64) := by
  intro table file
  have hsize : (ofTable table).encode.length < Word.limit := by
    rw [length_encode_ofTable]
    decide
  have hstart : file <+: (ofTable table).encode := List.take_prefix 64 _
  have hcut : file ≠ (ofTable table).encode := by decide +kernel
  have hchecksum : Crc32.checksum (file.drop Header.length) = (ofTable table).header.checksum := by
    decide +kernel
  have hlength : file.length = 64 := by decide +kernel
  have htable : StringTable.ofOffsets [] [0x9D, 0x0A, 0xD9, 0x6D] = .ok table := rfl
  obtain ⟨fault, hparse, htruncation⟩ := parse_of_truncated hsize hstart hcut
  refine ⟨.fromOffsets htable, hsize, hstart, hcut, ?_⟩
  rw [hparse]
  cases htruncation with
  | header hshort => exact absurd hshort (by rw [hlength]; decide)
  | content _ hother => exact absurd hchecksum hother
  | offsets _ _ hshort => exact absurd hshort (by rw [hlength]; decide)
  | blob _ _ _ => rw [hlength]; rfl

end TextPool.Image
