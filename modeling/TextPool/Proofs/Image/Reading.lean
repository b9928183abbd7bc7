import TextPool.Proofs.Image.RoundTrip

/-!
# What a file is read as

The content of a written file is its offsets followed by its blob. A file with that content is read
as the table if its header is the written one (`parse_of_drop`), whatever the reserved bytes hold,
and a table is where the sections say as soon as they give the written places (`storedAt_of_drop`).
Of the faults, those of the header come first and then that of the content as a whole.
-/

namespace TextPool

namespace Image

variable {file : Bytes} {header : Header} {table : StringTable}

/-! ### Faults -/

theorem parse_of_undecoded {fault : FormatError} (hheader : Header.decode file = .error fault) :
    parse file = .error fault := by
  rw [parse, hheader]
  rfl

theorem parse_of_invalid {fault : FormatError} (hheader : Header.decode file = .ok header)
    (hfault : header.validate = .error fault) : parse file = .error fault := by
  rw [parse, hheader]
  change (header.validate >>= _) = _
  rw [hfault]
  rfl

theorem parse_of_wrongChecksum (hheader : Header.decode file = .ok header)
    (hvalid : header.validate = .ok ())
    (hchecksum : Crc32.checksum (file.drop Header.length) ≠ header.checksum) :
    parse file
      = .error (.wrongChecksum header.checksum (Crc32.checksum (file.drop Header.length))) := by
  rw [parse, hheader]
  change (header.validate >>= _) = _
  rw [hvalid]
  change ite _ _ _ = _
  rw [if_pos hchecksum]
  rfl

theorem parse_of_unread {fault : FormatError} (hheader : Header.decode file = .ok header)
    (hvalid : header.validate = .ok ())
    (hchecksum : Crc32.checksum (file.drop Header.length) = header.checksum)
    (hfault : StringTable.ofSections file header.sections = .error fault) :
    parse file = .error fault := by
  rw [parse, hheader]
  change (header.validate >>= _) = _
  rw [hvalid]
  change ite _ _ _ = _
  rw [if_neg (not_not_intro hchecksum), hfault]
  rfl

/-! ### The table -/

theorem storedAt_of_drop {sections : Sections} (hlength : Header.length ≤ file.length)
    (hrest : file.drop Header.length = table.storedOffsets ++ table.blob)
    (hentries : sections.entries.toNat = table.size)
    (hoffsetsStart : sections.offsetsStart.toNat = Header.length)
    (hblobStart : sections.blobStart.toNat = Header.length + 8 * table.size)
    (hblobLength : sections.blobLength.toNat = table.blob.length)
    (hsize : 8 * table.size < Word.limit) : table.StoredAt file sections := by
  have hstored := table.length_storedOffsets
  have hwhole : file.length = Header.length + (8 * table.size + table.blob.length) := by
    have hdrop := congrArg List.length hrest
    rw [List.length_drop, List.length_append, hstored] at hdrop
    omega
  refine ⟨hentries, hsize, ?_, ?_⟩
  · rw [Bytes.stretch?_eq_some_iff, hoffsetsStart, hrest, List.take_left' hstored]
    exact ⟨by omega, rfl⟩
  · rw [Bytes.stretch?_eq_some_iff, hblobStart, hblobLength, ← List.drop_drop, hrest,
      List.drop_left' hstored, List.take_length]
    exact ⟨by omega, rfl⟩

/-- A file with the header and the content of a table is read as that table. -/
theorem parse_of_drop (htable : table.WellFormed)
    (hsize : (ofTable table).encode.length < Word.limit)
    (hheader : Header.decode file = .ok (ofTable table).header)
    (hrest : file.drop Header.length = table.storedOffsets ++ table.blob) :
    parse file = .ok (ofTable table) := by
  rw [length_encode_ofTable] at hsize
  obtain ⟨hentries, hoffsetsStart, hblobStart, hblobLength⟩ := toNat_sectionsOf hsize
  have hstored : table.StoredAt file (sectionsOf table) :=
    storedAt_of_drop (Header.length_le_of_decode hheader) hrest hentries hoffsetsStart hblobStart
      hblobLength (by omega)
  refine parse_eq_ok_iff.mpr ⟨hheader, rfl, ?_, ?_⟩
  · rw [hrest]
    exact checksum_ofTable table
  · exact StringTable.ofSections_eq_ok_iff.mpr ⟨htable, hstored⟩

end Image

end TextPool
