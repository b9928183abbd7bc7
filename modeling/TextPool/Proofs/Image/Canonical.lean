import TextPool.Proofs.Image.Rewriting

/-!
# Files laid out as they are written

A file may hold its table anywhere, have gaps, and go on behind it. It is canonical if the offsets
follow the header, the blob follows the offsets, nothing follows the blob, and the reserved bytes
are zeros. Every file that is written is canonical (`canonical_encode_ofTable`), and a canonical
file is the one that is written for the table that it is read as: no number of its header says more
than the table does, so nothing of it is lost by reading it (`encode_of_parse_canonical`).
-/

namespace TextPool

theorem Header.validate_eq_ok_iff {header : Header} :
    header.validate = .ok () ↔ header.magic = tableMagic ∧ header.version = currentVersion := by
  rw [validate]
  split_ifs with hmagic hversion
  · exact iff_of_false nofun fun hboth => hmagic hboth.1
  · exact iff_of_false nofun fun hboth => hversion hboth.2
  · exact iff_of_true rfl ⟨not_not.mp hmagic, not_not.mp hversion⟩

namespace Image

/-- The table stands in the file where it stands in the files that are written, nothing follows it,
and the reserved bytes are zeros. -/
structure Canonical (file : Bytes) (sections : Sections) : Prop where
  offsetsStart_eq : sections.offsetsStart.toNat = Header.length
  blobStart_eq : sections.blobStart.toNat = Header.length + 8 * sections.entries.toNat
  length_eq : file.length = sections.blobStart.toNat + sections.blobLength.toNat
  reserved_eq : ∀ position, Header.IsReserved position → file[position]? = some 0

theorem canonical_encode_ofTable {table : StringTable}
    (hsize : (ofTable table).encode.length < Word.limit) :
    Canonical (ofTable table).encode (sectionsOf table) := by
  have hlength := length_encode_ofTable table
  obtain ⟨hentries, hoffsetsStart, hblobStart, hblobLength⟩ := toNat_sectionsOf (hlength ▸ hsize)
  refine ⟨hoffsetsStart, by rw [hblobStart, hentries], by rw [hlength, hblobStart, hblobLength], ?_⟩
  rw [← Header.encode_eq_take_iff (decode_encode (ofTable table)), encode, List.append_assoc,
    List.take_left' (Header.length_encode _)]

section Read

variable {file : Bytes} {image : Image} (hparse : parse file = .ok image)
  (hcanonical : Canonical file image.header.sections)

include hparse hcanonical

theorem drop_of_canonical :
    file.drop Header.length = image.table.storedOffsets ++ image.table.blob := by
  have hstored := (storedAt_of_parse hparse).2
  have hblobStart := hcanonical.blobStart_eq
  rw [hstored.entries_eq] at hblobStart
  refine drop_of_parse hparse hcanonical.offsetsStart_eq hblobStart ?_
  rw [hcanonical.length_eq, hblobStart, length_encode, hstored.length_blob]

theorem encode_of_canonical : image.encode = file := by
  have hheader := (parse_eq_ok_iff.mp hparse).1
  rw [encode, List.append_assoc, (Header.encode_eq_take_iff hheader).mpr hcanonical.reserved_eq,
    ← drop_of_canonical hparse hcanonical, List.take_append_drop]

theorem sections_of_canonical : image.header.sections = sectionsOf image.table := by
  have hstored := (storedAt_of_parse hparse).2
  have hblobStart := hcanonical.blobStart_eq
  rw [hstored.entries_eq] at hblobStart
  calc image.header.sections
    _ = ⟨UInt64.ofNat image.header.sections.entries.toNat,
          UInt64.ofNat image.header.sections.offsetsStart.toNat,
          UInt64.ofNat image.header.sections.blobStart.toNat,
          UInt64.ofNat image.header.sections.blobLength.toNat⟩ := by
        simp only [UInt64.ofNat_toNat]
    _ = sectionsOf image.table := by
        rw [hstored.entries_eq, hcanonical.offsetsStart_eq, hblobStart, ← hstored.length_blob]
        rfl

/-- The header says of the table what is written for it, and no more. -/
theorem eq_ofTable_of_canonical : image = ofTable image.table := by
  obtain ⟨_, hvalid, hchecksum, _⟩ := parse_eq_ok_iff.mp hparse
  obtain ⟨hmagic, hversion⟩ := Header.validate_eq_ok_iff.mp hvalid
  rw [drop_of_canonical hparse hcanonical, checksum_ofTable] at hchecksum
  calc image
    _ = ⟨⟨image.header.magic, image.header.version, image.header.checksum,
          image.header.sections⟩, image.table⟩ := rfl
    _ = ofTable image.table := by
        rw [hmagic, hversion, ← hchecksum, sections_of_canonical hparse hcanonical]
        rfl

end Read

/-- A canonical file that is read is the one that is written for what was read. -/
theorem encode_of_parse_canonical {file : Bytes} {image : Image} (hparse : parse file = .ok image) :
    (Canonical file image.header.sections → image.encode = file ∧ image = ofTable image.table) ∧
      ∀ table, file = (ofTable table).encode → file.length < Word.limit →
        Canonical file image.header.sections := by
  constructor
  · exact fun hcanonical =>
      ⟨encode_of_canonical hparse hcanonical, eq_ofTable_of_canonical hparse hcanonical⟩
  · rintro table rfl hsize
    have hread := (parse_eq_ok_iff.mp hparse).1
    have hheader := Except.ok.inj ((decode_encode (ofTable table)).symm.trans hread)
    rw [← hheader]
    exact canonical_encode_ofTable hsize

/-- Three entries out of order, of which one comes twice and one lies inside another, and a byte of
no entry behind them. -/
theorem encode_of_parse_unsorted :
    let file : Bytes :=
      [0x56, 0x53, 0x54, 0x42, 1, 0, 0, 0, 0xBD, 0xB0, 0x77, 0x8C, 0, 0, 0, 0,
        3, 0, 0, 0, 0, 0, 0, 0, 64, 0, 0, 0, 0, 0, 0, 0,
        88, 0, 0, 0, 0, 0, 0, 0, 4, 0, 0, 0, 0, 0, 0, 0,
        0, 0, 0, 0, 0, 0, 0, 0, 0, 0, 0, 0, 0, 0, 0, 0,
        1, 0, 0, 0, 0, 0, 0, 0, 0, 0, 0, 0, 0, 0, 0, 0, 1, 0, 0, 0, 0, 0, 0, 0,
        97, 98, 0, 120]
    let image : Image :=
      ⟨⟨Header.tableMagic, Header.currentVersion, 0x8C77B0BD, ⟨3, 64, 88, 4⟩⟩,
        ⟨[⟨1, 2⟩, ⟨0, 2⟩, ⟨1, 2⟩], [97, 98, 0, 120]⟩⟩
    parse file = .ok image ∧ image.encode = file ∧ image = ofTable image.table := by
  intro file image
  have hparse : parse file = .ok image := by decide +kernel
  have hreserved : ∀ position < Header.length, Header.IsReserved position →
      file[position]? = some 0 := by decide +kernel
  have hcanonical : Canonical file image.header.sections :=
    ⟨by decide, by decide, by decide, fun position hposition =>
      hreserved position hposition.lt_length hposition⟩
  exact ⟨hparse, (encode_of_parse_canonical hparse).1 hcanonical⟩

end Image

end TextPool
