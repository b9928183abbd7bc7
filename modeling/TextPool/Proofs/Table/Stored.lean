import TextPool.Proofs.LittleEndian
import TextPool.Proofs.Table.WellFormed

/-!
# Stored tables are read back

The offsets of a table are stored as numbers of eight bytes. An offset lies inside the blob, so it
fits as soon as the length of the blob does, and the stored offsets are read back as they were. A
file that holds the stored offsets and the blob of a well-formed table where its sections say so is
read as that table (`ofSections_of_stretches`), wherever the two parts stand, and no file is read as
a table that does not stand there (`ofSections_eq_ok_iff`).
-/

namespace TextPool

theorem Bytes.stretch?_append_append (front part rest : Bytes) :
    (front ++ part ++ rest).stretch? front.length part.length = some part := by
  have hfits : front.length + part.length ≤ (front ++ part ++ rest).length := by
    rw [List.length_append, List.length_append]
    omega
  rw [stretch?, if_pos hfits, between, List.append_assoc, List.drop_left, Nat.add_sub_cancel_left,
    List.take_left]

theorem Bytes.stretch?_eq_some_iff {file part : Bytes} {position length : Nat} :
    file.stretch? position length = some part ↔
      position + length ≤ file.length ∧ (file.drop position).take length = part := by
  rw [stretch?, between, Nat.add_sub_cancel_left]
  split
  · next hfits => simp [hfits]
  · next hfits => simp [hfits]

theorem Bytes.length_of_stretch? {file part : Bytes} {position length : Nat}
    (hpart : file.stretch? position length = some part) : part.length = length := by
  obtain ⟨hfits, rfl⟩ := stretch?_eq_some_iff.mp hpart
  rw [List.length_take, List.length_drop]
  omega

namespace StringTable

/-! ### Offsets -/

theorem length_storedOffsets (table : StringTable) :
    table.storedOffsets.length = 8 * table.size := by
  have hwidth : (fun offset : Nat => (LittleEndian.encode 8 offset).length) = fun _ => 8 :=
    funext (LittleEndian.length_encode 8)
  rw [storedOffsets, List.length_flatMap, hwidth, List.map_const',
    List.sum_replicate_nat, offsets, List.length_map, Nat.mul_comm, size]

theorem readOffsets_flatMap_encode {offsets : List Nat}
    (hoffsets : ∀ offset ∈ offsets, offset < Word.limit) :
    readOffsets offsets.length (offsets.flatMap (LittleEndian.encode 8)) = offsets := by
  induction offsets with
  | nil => rfl
  | cons offset rest ih =>
    obtain ⟨hoffset, hrest⟩ := List.forall_mem_cons.mp hoffsets
    have hwidth : (LittleEndian.encode 8 offset).length = 8 := LittleEndian.length_encode 8 offset
    rw [List.length_cons, List.flatMap_cons, readOffsets, List.take_left' hwidth,
      List.drop_left' hwidth, ih hrest, LittleEndian.decode_encode]
    exact congrArg (· :: rest) (Nat.mod_eq_of_lt hoffset)

theorem eq_of_flatMap_encode_eq {left right : List Nat} (hlength : left.length = right.length)
    (hleft : ∀ offset ∈ left, offset < Word.limit) (hright : ∀ offset ∈ right, offset < Word.limit)
    (hstored : left.flatMap (LittleEndian.encode 8) = right.flatMap (LittleEndian.encode 8)) :
    left = right := by
  rw [← readOffsets_flatMap_encode hleft, ← readOffsets_flatMap_encode hright, hlength, hstored]

theorem length_readOffsets (count : Nat) (bytes : Bytes) :
    (readOffsets count bytes).length = count := by
  induction count generalizing bytes with
  | zero => rfl
  | succ count ih => rw [readOffsets, List.length_cons, ih]

theorem flatMap_encode_readOffsets {count : Nat} {bytes : Bytes} (hlength : bytes.length = 8 * count) :
    (readOffsets count bytes).flatMap (LittleEndian.encode 8) = bytes := by
  induction count generalizing bytes with
  | zero => exact (List.eq_nil_of_length_eq_zero hlength).symm
  | succ count ih =>
    have hfirst : (bytes.take 8).length = 8 := by
      rw [List.length_take]
      omega
    have hrest : (bytes.drop 8).length = 8 * count := by
      rw [List.length_drop]
      omega
    have hencode := LittleEndian.encode_decode (bytes.take 8)
    rw [hfirst] at hencode
    rw [readOffsets, List.flatMap_cons, ih hrest, hencode, List.take_append_drop]

theorem take_flatMap_encode (offsets : List Nat) (count : Nat) :
    (offsets.flatMap (LittleEndian.encode 8)).take (8 * count)
      = (offsets.take count).flatMap (LittleEndian.encode 8) := by
  induction count generalizing offsets with
  | zero => rfl
  | succ count ih =>
    cases offsets with
    | nil => rfl
    | cons offset rest =>
      have hwidth : (LittleEndian.encode 8 offset).length = 8 := LittleEndian.length_encode 8 offset
      have hpast : 8 * (count + 1) = (LittleEndian.encode 8 offset).length + 8 * count := by omega
      rw [List.flatMap_cons, hpast, List.take_length_add_append, ih, List.take_succ_cons,
        List.flatMap_cons]

theorem WellFormed.offset_lt {table : StringTable} (htable : table.WellFormed) {offset : Nat}
    (hoffset : offset ∈ table.offsets) : offset < table.blob.length := by
  obtain ⟨span, hspan, rfl⟩ := List.mem_map.mp hoffset
  exact Nat.lt_of_le_of_lt (htable.terminated hspan).start_le (htable.terminated hspan).stop_lt

theorem WellFormed.readOffsets_storedOffsets {table : StringTable} (htable : table.WellFormed)
    (hblob : table.blob.length < Word.limit) :
    readOffsets table.size table.storedOffsets = table.offsets := by
  have hsize : table.size = table.offsets.length := (List.length_map Span.start).symm
  rw [hsize, storedOffsets]
  exact readOffsets_flatMap_encode fun offset hoffset =>
    Nat.lt_trans (htable.offset_lt hoffset) hblob

/-! ### Tables -/

theorem WellFormed.ofSections_of_stretches {table : StringTable} (htable : table.WellFormed)
    {file : Bytes} {sections : Sections} (hentries : sections.entries.toNat = table.size)
    (hsize : 8 * table.size < Word.limit) (hblob : table.blob.length < Word.limit)
    (hstored : file.stretch? sections.offsetsStart.toNat (8 * table.size)
      = some table.storedOffsets)
    (htexts : file.stretch? sections.blobStart.toNat sections.blobLength.toNat
      = some table.blob) :
    ofSections file sections = .ok table := by
  simp only [ofSections, hentries, if_neg (Nat.not_le_of_lt hsize), partAt, hstored, htexts]
  change ofOffsets (readOffsets table.size table.storedOffsets) table.blob = .ok table
  rw [htable.readOffsets_storedOffsets hblob]
  exact htable

/-- The offsets and the blob of the table stand in the file where the sections say. -/
structure StoredAt (table : StringTable) (file : Bytes) (sections : Sections) : Prop where
  entries_eq : sections.entries.toNat = table.size
  length_lt : 8 * table.size < Word.limit
  offsets : file.stretch? sections.offsetsStart.toNat (8 * table.size) = some table.storedOffsets
  blob : file.stretch? sections.blobStart.toNat sections.blobLength.toNat = some table.blob

theorem StoredAt.length_blob {table : StringTable} {file : Bytes} {sections : Sections}
    (hstored : table.StoredAt file sections) : table.blob.length = sections.blobLength.toNat :=
  Bytes.length_of_stretch? hstored.blob

theorem partAt_eq_ok_iff {file part : Bytes} {position length : Nat} :
    partAt file position length = .ok part ↔ file.stretch? position length = some part := by
  rw [partAt]
  cases file.stretch? position length with
  | none => simp
  | some found => simp

theorem storedAt_of_ofSections {table : StringTable} {file : Bytes} {sections : Sections}
    (htable : ofSections file sections = .ok table) : table.StoredAt file sections := by
  simp only [ofSections] at htable
  split at htable
  · cases htable
  · next hlength =>
    simp only [bind_eq_ok_iff, partAt_eq_ok_iff] at htable
    obtain ⟨stored, hstored, blob, hblob, htable⟩ := htable
    obtain ⟨hoffsets, rfl, _⟩ := ofOffsets_eq_ok htable
    have hsize : table.size = sections.entries.toNat := by
      rw [← length_readOffsets sections.entries.toNat stored, ← hoffsets, offsets, List.length_map,
        size]
    have hencode : table.storedOffsets = stored := by
      rw [storedOffsets, hoffsets]
      exact flatMap_encode_readOffsets (Bytes.length_of_stretch? hstored)
    refine ⟨hsize.symm, ?_, ?_, hblob⟩
    · rw [hsize]
      exact Nat.lt_of_not_le hlength
    · rw [hsize, hencode]
      exact hstored

/-- A file is read as a table at its sections exactly if the table stands there. -/
theorem ofSections_eq_ok_iff {table : StringTable} {file : Bytes} {sections : Sections} :
    ofSections file sections = .ok table ↔ table.WellFormed ∧ table.StoredAt file sections := by
  constructor
  · exact fun htable => ⟨wellFormed_of_ofSections htable, storedAt_of_ofSections htable⟩
  · rintro ⟨htable, hstored⟩
    have hblob : table.blob.length < Word.limit := hstored.length_blob ▸ UInt64.toNat_lt _
    exact htable.ofSections_of_stretches hstored.entries_eq hstored.length_lt hblob
      hstored.offsets hstored.blob

end StringTable

end TextPool
