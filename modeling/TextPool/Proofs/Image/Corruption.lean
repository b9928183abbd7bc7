import TextPool.Proofs.Image.Crc32
import TextPool.Proofs.Image.Reading

/-!
# Damage behind the header

The check covers every byte behind the header, and it does not miss a change within four bytes in a
row. So a written file that is damaged there, in no more than four bytes in a row, is refused for
its checksum (`parse_of_damaged`), however long it is and whatever part of the table the damage hit.
-/

namespace TextPool

/-- The second sequence has the length of the first and differs from it at most in the `count`
bytes from `start` on. -/
structure Bytes.DifferWithin (start count : Nat) (first second : Bytes) : Prop where
  length_eq : second.length = first.length
  take_eq : second.take start = first.take start
  drop_eq : second.drop (start + count) = first.drop (start + count)

namespace Bytes.DifferWithin

variable {start count : Nat} {first second : Bytes} (hdiffer : DifferWithin start count first second)

include hdiffer

theorem take_of_le {length : Nat} (hlength : length ≤ start) :
    second.take length = first.take length := by
  have htake := congrArg (List.take length) hdiffer.take_eq
  rwa [List.take_take, List.take_take, Nat.min_eq_left hlength] at htake

theorem drop_of_le {length : Nat} (hlength : length ≤ start) :
    DifferWithin (start - length) count (first.drop length) (second.drop length) := by
  refine ⟨?_, ?_, ?_⟩
  · rw [List.length_drop, List.length_drop, hdiffer.length_eq]
  · rw [List.take_drop, List.take_drop, Nat.add_sub_cancel' hlength, hdiffer.take_eq]
  · rw [List.drop_drop, List.drop_drop, ← Nat.add_assoc, Nat.add_sub_cancel' hlength]
    exact hdiffer.drop_eq

/-- The bytes before, within and behind the stretch, which alone may differ. -/
theorem exists_split : ∃ front left right back : Bytes, first = front ++ left ++ back ∧
    second = front ++ right ++ back ∧ left.length = right.length ∧ left.length ≤ count := by
  refine ⟨first.take start, (first.drop start).take count, (second.drop start).take count,
    first.drop (start + count), ?_, ?_, ?_, List.length_take_le _ _⟩
  · rw [← List.drop_drop, List.append_assoc, List.take_append_drop, List.take_append_drop]
  · rw [← hdiffer.take_eq, ← hdiffer.drop_eq, ← List.drop_drop, List.append_assoc,
      List.take_append_drop, List.take_append_drop]
  · rw [List.length_take, List.length_take, List.length_drop, List.length_drop, hdiffer.length_eq]

theorem checksum_ne (hcount : count ≤ 4) (hne : second ≠ first) :
    Crc32.checksum second ≠ Crc32.checksum first := by
  obtain ⟨front, left, right, back, rfl, rfl, hlength, hshort⟩ := hdiffer.exists_split
  have hstretch : left ≠ right := fun heq => hne (by rw [heq])
  exact (Crc32.checksum_ne_of_stretch front back hlength (Nat.le_trans hshort hcount) hstretch).symm

end Bytes.DifferWithin

namespace Image

/-- A written file that is changed behind the header, in up to four bytes in a row, is refused for
its checksum. -/
theorem parse_of_damaged (table : StringTable) {file : Bytes} {start : Nat}
    (hdiffer : Bytes.DifferWithin start 4 (ofTable table).encode file)
    (hstart : Header.length ≤ start) (hne : file ≠ (ofTable table).encode) :
    parse file = .error (.wrongChecksum (ofTable table).header.checksum
      (Crc32.checksum (file.drop Header.length))) := by
  have hfront : file.take Header.length = (ofTable table).header.encode := by
    rw [hdiffer.take_of_le hstart, encode, List.append_assoc]
    exact List.take_left' (Header.length_encode _)
  have hheader : Header.decode file = .ok (ofTable table).header := by
    rw [← List.take_append_drop Header.length file, hfront]
    exact Header.decode_encode_append _ _
  have hcontent : file.drop Header.length ≠ (ofTable table).encode.drop Header.length := by
    intro hdrop
    apply hne
    rw [← List.take_append_drop Header.length file, hdrop, hdiffer.take_of_le hstart,
      List.take_append_drop]
  have hchecksum := (hdiffer.drop_of_le hstart).checksum_ne (Nat.le_refl 4) hcontent
  rw [drop_encode_ofTable, checksum_ofTable] at hchecksum
  exact parse_of_wrongChecksum hheader rfl hchecksum

/-- The last byte of the offsets and the first three of the blob, all of them changed. -/
theorem parse_of_damaged_stretch :
    let table : StringTable := ⟨[⟨0, 4⟩, ⟨2, 4⟩], [97, 98, 99, 100, 0]⟩
    let file := (ofTable table).encode.take 79 ++ [1, 0, 0, 0] ++ [100, 0]
    Bytes.DifferWithin 79 4 (ofTable table).encode file ∧ file ≠ (ofTable table).encode ∧
      parse file = .error (.wrongChecksum (ofTable table).header.checksum
        (Crc32.checksum (file.drop Header.length))) := by
  intro table file
  have hdiffer : Bytes.DifferWithin 79 4 (ofTable table).encode file :=
    ⟨by decide +kernel, by decide +kernel, by decide +kernel⟩
  have hne : file ≠ (ofTable table).encode := by decide +kernel
  exact ⟨hdiffer, hne, parse_of_damaged table hdiffer (by decide) hne⟩

end Image

end TextPool
