import TextPool.Proofs.Pool.Sound

/-!
# Loading up to the last step

A load makes room for the entries of a table and puts them into vacant slots; only then does it make
room up to the new boundary. `Places` says what the pool holds when the entries are in their slots.
It is what a load that succeeds goes on from, and what one that fails at the last step leaves.

Room is made in whole blocks, as many as are needed (`le_blocks`) and no more (`blocks_le`).
-/

namespace TextPool

instance : (operation : Operation) → Decidable operation.WellFormed
  | .load table => inferInstanceAs (Decidable table.WellFormed)
  | .allocate _ | .allocateText _ | .allocateUpTo _ _ | .retain _ | .release _ | .sweep | .grow _
  | .text _ | .display _ | .owners _ | .kind _ | .contains _ | .handle _ | .config | .append _ _
  | .appendFrom _ _ | .concat _ _ | .length _ | .substring _ _ _ | .charAt _ _ | .byteAt _ _
  | .find _ _ _ | .findBytes _ _ _ | .upper _ | .lower _ | .strip _ | .pad _ _ _ | .order _ _
  | .orderIgnoringCase _ _ | .ofSigned _ | .ofUnsigned _ | .ofWord _ | .ofDouble _
  | .ofFormatted _ _ | .readHexadecimal _ | .loadSections _ _ | .listing | .dump =>
    isTrue trivial

theorem Operation.wellFormed_of_table?_eq_none {operation : Operation}
    (htable : operation.table? = none) : operation.WellFormed := by
  cases operation with
  | load => cases htable
  | _ => trivial

theorem Operation.wellFormed_of_table? {operation : Operation} {table : StringTable}
    (hoperation : operation.WellFormed) (htable : operation.table? = some (.ok table)) :
    table.WellFormed := by
  cases operation with
  | load given =>
    obtain rfl : given = table := Except.ok.inj (Option.some.inj htable)
    exact hoperation
  | loadSections file sections =>
    exact StringTable.wellFormed_of_ofSections (Option.some.inj htable)
  | _ => exact absurd htable.symm (Option.some_ne_none _)

namespace Pool

theorem blockSize_pos (pool : Pool) {missing : Nat} (hmissing : 0 < missing) :
    0 < pool.blockSize missing := by
  unfold blockSize
  cases hblock : Word.ceil? (max pool.config.block 1) with
  | none => exact hmissing
  | some block =>
    have hle := (Word.ceil?_eq_some hblock).2.1
    rw [Option.getD_some]
    omega

theorem blockSize_of_ceil? {pool : Pool} {block : Nat}
    (hblock : Word.ceil? (max pool.config.block 1) = some block) (missing : Nat) :
    pool.blockSize missing = block := by
  rw [blockSize, hblock]
  rfl

/-- Whole blocks are at least what is missing. -/
theorem le_blocks (missing : Nat) {block : Nat} (hpos : 0 < block) :
    missing ≤ (missing + (block - 1)) / block * block := by
  have hmore : missing + (block - 1) < (missing + (block - 1)) / block * block + block :=
    Nat.lt_div_mul_add hpos
  omega

/-- No fewer blocks are enough. -/
theorem blocks_le {block missing enough : Nat} (hpos : 0 < block) (hwhole : block ∣ enough)
    (henough : missing ≤ enough) : (missing + (block - 1)) / block * block ≤ enough := by
  obtain ⟨count, rfl⟩ := hwhole
  have hcount : (missing + (block - 1)) / block < count + 1 := by
    rw [Nat.div_lt_iff_lt_mul hpos, Nat.succ_mul, Nat.mul_comm count block]
    omega
  rw [Nat.mul_comm block count]
  exact Nat.mul_le_mul_right block (Nat.le_of_lt_succ hcount)

theorem extends_of_roomFor? {pool room : Pool} {wanted : Nat}
    (hroom : pool.roomFor? wanted = some room) :
    pool.Extends room ∧ wanted ≤ room.capacity := by
  unfold roomFor? at hroom
  split_ifs at hroom with henough
  · obtain rfl := Option.some.inj hroom
    exact ⟨.refl pool, henough⟩
  · dsimp only at hroom
    split_ifs at hroom
    obtain ⟨hextends, hmore⟩ := extends_of_grown? hroom
    refine ⟨hextends, ?_⟩
    have hpos := pool.blockSize_pos (Nat.sub_pos_of_lt (Nat.lt_of_not_le henough))
    have hblocks := le_blocks (wanted - pool.capacity) hpos
    omega

theorem roomFor?_of_le {pool : Pool} {wanted : Nat} (henough : wanted ≤ pool.capacity) :
    pool.roomFor? wanted = some pool := if_pos henough

theorem contains_of_firstOccupied? {pool : Pool} {first count index : Nat}
    (hfound : pool.firstOccupied? first count = some index) :
    first ≤ index ∧ index < first + count ∧ pool.occupied.contains index = true := by
  have hrange := List.mem_range'_1.mp (List.mem_of_find?_eq_some hfound)
  exact ⟨hrange.1, hrange.2, List.find?_some hfound⟩

theorem contains_eq_false_of_firstOccupied? {pool : Pool} {first count : Nat}
    (hnone : pool.firstOccupied? first count = none) {index : Nat} (hfirst : first ≤ index)
    (hcount : index < first + count) : pool.occupied.contains index = false := by
  have habsent := List.find?_eq_none.mp hnone index (List.mem_range'_1.mpr ⟨hfirst, hcount⟩)
  simpa using habsent

theorem placed?_eq_some {pool placed : Pool} {table : StringTable}
    (hplaced : pool.placed? table = some placed) :
    ∃ room, pool.roomFor? (pool.cursor + table.size) = some room ∧
      room.firstOccupied? pool.cursor table.size = none ∧
      placed = room.placeTable pool.cursor table := by
  obtain ⟨room, hroom, hvacant⟩ := Option.bind_eq_some_iff.mp hplaced
  cases hnone : room.firstOccupied? pool.cursor table.size with
  | some index => simp [hnone] at hvacant
  | none =>
    rw [hnone] at hvacant
    exact ⟨room, hroom, hnone, (Option.some.inj hvacant).symm⟩

/-- The entries of a table stand in the slots from the cursor on, which were vacant, and nothing
else has changed but that slots may have been added. -/
structure Places (pool : Pool) (table : StringTable) (placed : Pool) : Prop where
  sound : placed.Sound
  config_eq : placed.config = pool.config
  boundary_eq : placed.boundary = pool.boundary
  bytesOf_eq : ∀ text : StoredText, text.SoundIn pool → placed.bytesOf text = pool.bytesOf text
  room : ∃ room, pool.roomFor? (pool.cursor + table.size) = some room ∧
    pool.capacity ≤ room.capacity ∧ pool.cursor + table.size ≤ room.capacity ∧
    placed.capacity = room.capacity
  entryAt?_eq : ∀ index, placed.entryAt? index =
    if hindex : pool.cursor ≤ index ∧ index < pool.cursor + table.size then
      some (.ofText (.static pool.blobs.size
        (table.spans.get ⟨index - pool.cursor, by rw [StringTable.size] at hindex; omega⟩)))
    else pool.entryAt? index
  vacant : ∀ index, pool.cursor ≤ index → index < pool.cursor + table.size →
    pool.entryAt? index = none

theorem Sound.places {pool placed : Pool} {table : StringTable} (hsound : pool.Sound)
    (htable : table.WellFormed) (hplaced : pool.placed? table = some placed) :
    pool.Places table placed := by
  obtain ⟨room, hroom, hnone, rfl⟩ := placed?_eq_some hplaced
  obtain ⟨hextends, henough⟩ := extends_of_roomFor? hroom
  have hroomSound := hsound.roomFor hroom
  have hpushed := hroomSound.push_blob table.blob
  have hblob : (room.blobs.push table.blob)[room.blobs.size]? = some table.blob := by
    rw [Array.getElem?_push, if_pos rfl]
  have hframe := sameFrame_placeSpans room.blobs.size pool.cursor table.spans
    { room with blobs := room.blobs.push table.blob }
  have hcursor : pool.cursor ≠ 0 := by
    have hpos := hsound.boundary_pos
    have hle := hsound.boundary_le_cursor
    omega
  constructor
  case sound =>
    exact hpushed.placeSpans hblob (fun span hspan => htable.terminated hspan) hcursor henough
  case config_eq => exact hframe.config_eq.trans hextends.config_eq
  case boundary_eq => exact hframe.boundary_eq.trans hextends.boundary_eq
  case bytesOf_eq =>
    intro text htext
    refine (htext.of_blobs fun index bytes hbytes => ?_).2
    have hindex : index < pool.blobs.size := (Array.getElem?_eq_some_iff.mp hbytes).1
    rw [show (room.placeTable pool.cursor table).blobs = _ from hframe.blobs_eq,
      hextends.blobs_eq, Array.getElem?_push, if_neg (Nat.ne_of_lt hindex)]
    exact hbytes
  case room => exact ⟨room, hroom, hextends.capacity_le, henough, hframe.capacity_eq⟩
  case entryAt?_eq =>
    intro index
    have hentry := entryAt?_placeSpans room.blobs.size pool.cursor table.spans
      { room with blobs := room.blobs.push table.blob } index henough
    rw [← hextends.entryAt?_eq index, ← hextends.blobs_eq]
    exact hentry
  case vacant =>
    intro index hfirst hcount
    rw [← hextends.entryAt?_eq index]
    exact hroomSound.entryAt?_eq_none
      (contains_eq_false_of_firstOccupied? hnone hfirst hcount)

end Pool

end TextPool
