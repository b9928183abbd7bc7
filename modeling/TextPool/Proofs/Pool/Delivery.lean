import TextPool.Proofs.Image.Reading
import TextPool.Proofs.Pool.Invariant
import TextPool.Proofs.Pool.Loaded

/-!
# From strings to handles

Strings are put into a table, the table is written to a file, the file is read, and the table in it
is loaded into a new pool. Nothing is lost on the way: the handles from 1 on give the strings back,
in their order and each up to its first zero byte, and the pool is the one that the table itself
would have been loaded into (`perform_loadSections_ofStrings`).
-/

namespace TextPool.Pool

/-- Strings that are put into a table, written, read and loaded into a new pool are found at the
handles from 1 on. -/
theorem perform_loadSections_ofStrings (strings : List Bytes) (memory : Nat)
    (hsize : (Image.ofTable (.ofStrings strings)).encode.length < Word.limit)
    (hmemory : Word.next (1 + strings.length) + 1024 ≤ memory) :
    ∃ image left,
      Image.parse (Image.ofTable (.ofStrings strings)).encode = .ok image
      ∧ (ofConfig { memory }).perform
          (.loadSections (Image.ofTable (.ofStrings strings)).encode image.header.sections)
        = (.ok (.range ⟨⟨1⟩, ⟨1 + strings.length⟩⟩), left)
      ∧ (ofConfig { memory }).perform (.load (.ofStrings strings))
        = (.ok (.range ⟨⟨1⟩, ⟨1 + strings.length⟩⟩), left)
      ∧ ∀ index string, strings[index]? = some string →
        left.text ⟨1 + index⟩ = .ok string.upToZero := by
  have htable := StringTable.wellFormed_ofStrings strings
  have hcount := StringTable.size_ofStrings strings
  have hparse := Image.parse_of_drop htable hsize (Image.decode_encode _) (Image.drop_encode _)
  have hread := (Image.parse_eq_ok_iff.mp hparse).2.2.2
  have hboundary : (ofConfig { memory }).boundaryAfter (.ofStrings strings)
      = Word.next (1 + strings.length) := by
    rw [boundaryAfter, hcount]
    rfl
  have hlimit : Word.next (1 + strings.length) + 1024 < Word.limit := by
    have hnext := Word.next_le (1 + strings.length)
    rw [Image.length_encode_ofTable, hcount, Header.length] at hsize
    simp only [Word.width, Word.limit] at *
    omega
  have hblock : Word.ceil? (max 1024 1) = some 1024 := by decide
  obtain ⟨left, hload, htexts⟩ := (sound_ofConfig { memory }).exists_load htable rfl hblock
    (hboundary ▸ hlimit) (hboundary ▸ hmemory) fun index hindex _ => contains_ofConfig _ hindex
  rw [hcount] at hload
  refine ⟨_, left, hparse, ?_, hload, fun index string hstring => htexts index _ ?_⟩
  · exact (perform_loadSections _ hread).trans hload
  · rw [StringTable.texts_ofStrings, List.getElem?_map, hstring]
    rfl

/-- Four strings of which one comes twice, one is empty and one has a zero byte in it. -/
theorem perform_loadSections_repeated :
    let strings : List Bytes := [[104, 105], [], [97, 0, 98], [104, 105]]
    (Image.ofTable (.ofStrings strings)).encode.length < Word.limit
      ∧ Word.next (1 + strings.length) + 1024 ≤ 0x1000000000000
      ∧ ∃ image left,
        Image.parse (Image.ofTable (.ofStrings strings)).encode = .ok image
        ∧ (ofConfig {}).perform
            (.loadSections (Image.ofTable (.ofStrings strings)).encode image.header.sections)
          = (.ok (.range ⟨⟨1⟩, ⟨1 + strings.length⟩⟩), left)
        ∧ (ofConfig {}).perform (.load (.ofStrings strings))
          = (.ok (.range ⟨⟨1⟩, ⟨1 + strings.length⟩⟩), left)
        ∧ ∀ index string, strings[index]? = some string →
          left.text ⟨1 + index⟩ = .ok string.upToZero := by
  intro strings
  have hsize : (Image.ofTable (.ofStrings strings)).encode.length < Word.limit := by
    rw [Image.length_encode_ofTable]
    decide +kernel
  have hmemory : Word.next (1 + strings.length) + 1024 ≤ 0x1000000000000 := by decide
  exact ⟨hsize, hmemory, perform_loadSections_ofStrings strings 0x1000000000000 hsize hmemory⟩

end TextPool.Pool
