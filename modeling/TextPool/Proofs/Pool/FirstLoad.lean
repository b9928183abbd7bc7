import TextPool.Proofs.Pool.Loaded

/-!
# The first table of a pool

A pool grows by whole blocks and by no more of them than are needed, so its capacity after a load is
the least one that will do (`Places.isLeast_capacity_room`). With the default settings a new pool
has room for any table whose entries there is memory for, and what it holds afterwards is known to
the last byte: the empty string and behind it the texts of the table, none with an owner
(`exists_first_load`).
-/

namespace TextPool

/-- The entries of a pool that holds just the given loaded texts, behind the empty string. -/
def Listing.resident (texts : List Bytes) : List ListingEntry :=
  ([] :: texts).zipIdx.map fun (text, index) => ⟨⟨index⟩, 0, .static, Utf8.display text⟩

theorem Word.isLeast_next (count : Nat) : IsLeast {bound | 64 ∣ bound ∧ count < bound} (next count) := by
  refine ⟨⟨width_dvd_next count, lt_next count⟩, ?_⟩
  rintro bound ⟨⟨words, rfl⟩, hbound⟩
  simp only [next, width]
  omega

namespace Pool

/-! ### Capacity -/

/-- A pool that consists of whole blocks consists of as few of them as will do when the fewest are
added. -/
theorem isLeast_capacity_of_blocks {capacity block wanted blocks : Nat} (hwhole : block ∣ capacity)
    (hblocks : IsLeast {count | wanted ≤ capacity + count * block} blocks) :
    IsLeast {count | block ∣ count ∧ capacity ≤ count ∧ wanted ≤ count}
      (capacity + blocks * block) := by
  refine ⟨⟨Nat.dvd_add hwhole (Nat.dvd_mul_left block blocks), Nat.le_add_right _ _, hblocks.1⟩, ?_⟩
  rintro count ⟨hcount, hcapacity, hwanted⟩
  obtain ⟨more, hmore⟩ := Nat.dvd_sub hcount hwhole
  rw [Nat.mul_comm] at hmore
  have hsum : count = capacity + more * block := by omega
  rw [hsum]
  exact Nat.add_le_add_left (Nat.mul_le_mul_right block (hblocks.2 (hwanted.trans_eq hsum))) capacity

section Places

variable {pool placed : Pool} {table : StringTable} {block : Nat}
  (hplaces : pool.Places table placed) (hblock : Word.ceil? (max pool.config.block 1) = some block)
  (hwhole : block ∣ pool.capacity)

include hplaces hblock hwhole

theorem Places.isLeast_capacity :
    IsLeast {count | block ∣ count ∧ pool.capacity ≤ count ∧ pool.cursor + table.size ≤ count}
      placed.capacity := by
  obtain ⟨room, hroom, _, _, hplaced⟩ := hplaces.room
  obtain ⟨blocks, hblocks, hcapacity⟩ := isLeast_blocks_of_roomFor? hblock hroom
  rw [hplaced, hcapacity]
  exact isLeast_capacity_of_blocks hwhole hblocks

theorem Places.isLeast_capacity_room {room : Pool}
    (hroom : placed.roomFor? (pool.boundaryAfter table) = some room) :
    IsLeast {count | block ∣ count ∧ pool.capacity ≤ count ∧ pool.boundaryAfter table ≤ count}
      room.capacity := by
  obtain ⟨blocks, hblocks, hcapacity⟩ := hplaces.isLeast_blocks hblock hroom
  rw [hcapacity]
  exact isLeast_capacity_of_blocks hwhole hblocks

end Places

/-! ### Listing -/

theorem listing_eq_of_entries {pool : Pool} (hsound : pool.Sound) {texts : List Bytes}
    (hentries : ∀ index text, ([] :: texts)[index]? = some text → ∃ stored,
      pool.entryAt? index = some (.ofText stored) ∧ stored.kind = .static ∧
        pool.bytesOf stored = text)
    (hnone : ∀ index, texts.length < index → pool.entryAt? index = none) :
    pool.listing = Listing.resident texts := by
  have hoccupied : pool.occupied.toList = List.range (texts.length + 1) := by
    refine Bitset.toList_eq_range fun index => ?_
    rw [hsound.contains_iff]
    constructor
    · rintro ⟨entry, hentry⟩
      by_contra hindex
      exact nomatch (hnone index (by omega)).symm.trans hentry
    · intro hindex
      obtain ⟨stored, hentry, _⟩ := hentries index _ (List.getElem?_eq_getElem hindex)
      exact ⟨_, hentry⟩
  have hlisted : pool.listing = (List.range (texts.length + 1)).map fun index =>
      ⟨⟨index⟩, 0, .static, Utf8.display (([] :: texts).getD index [])⟩ := by
    rw [listing, hoccupied]
    refine List.filterMap_eq_map_iff_forall_eq_some.mpr fun index hindex => ?_
    have hlength : index < ([] :: texts).length := List.mem_range.mp hindex
    obtain ⟨stored, hentry, hkind, hbytes⟩ :=
      hentries index _ (List.getElem?_eq_getElem hlength)
    simp only [hentry, Entry.ofText, hkind, hbytes, List.getD_eq_getElem?_getD,
      List.getElem?_eq_getElem hlength, Option.getD_some]
  rw [hlisted, Listing.resident]
  refine List.ext_getElem ?_ fun index hleft hright => ?_
  · rw [List.length_map, List.length_map, List.length_range, List.length_zipIdx, List.length_cons]
  · rw [List.length_map, List.length_zipIdx] at hright
    simp only [List.getElem_map, List.getElem_range, List.getElem_zipIdx, Nat.zero_add,
      List.getD_eq_getElem?_getD, List.getElem?_eq_getElem hright, Option.getD_some]

/-- A new pool with a table placed in it holds the empty string, the texts of the table and nothing
else. -/
theorem listing_of_placed? {config : Config} {placed room : Pool} {table : StringTable}
    (htable : table.WellFormed) (hplaced : (ofConfig config).placed? table = some placed)
    (hextends : placed.Extends room) (hroom : room.Sound) :
    room.listing = Listing.resident table.texts := by
  have hsound := sound_ofConfig config
  have hplaces := hsound.places htable hplaced
  have hother {index : Nat} (hindex : index < 1 ∨ 1 + table.size ≤ index) :
      room.entryAt? index = (ofConfig config).entryAt? index := by
    rw [hextends.entryAt?_eq, hplaces.entryAt?_eq, dif_neg]
    rintro ⟨hfirst, hstop⟩
    have hfirst : 1 ≤ index := hfirst
    have hstop : index < 1 + table.size := hstop
    omega
  refine listing_eq_of_entries hroom (fun index text htext => ?_) fun index hindex => ?_
  · cases index with
    | zero =>
      obtain rfl : [] = text := Option.some.inj htext
      refine ⟨.static 0 ⟨0, 0⟩, ?_, rfl, rfl⟩
      rw [hother (.inl Nat.one_pos), entryAt?_ofConfig, if_pos rfl]
    | succ index =>
      obtain ⟨span, hentry, hbytes⟩ := hsound.entryAt?_of_placed? htable hplaced hextends htext
      exact ⟨_, Nat.add_comm 1 index ▸ hentry, rfl, hbytes⟩
  · rw [StringTable.texts, List.length_map] at hindex
    have hbehind : 1 + table.size ≤ index := by
      rw [StringTable.size]
      omega
    rw [hother (.inr hbehind), entryAt?_ofConfig, if_neg (by omega)]

/-! ### The load -/

structure Resident (table : StringTable) (left : Pool) : Prop where
  boundary_eq : left.boundary = Word.next (1 + table.size)
  isLeast_capacity : IsLeast {count | 1024 ∣ count ∧ left.boundary ≤ count} left.capacity
  listing_eq : left.listing = Listing.resident table.texts

section Default

variable {table : StringTable}

theorem ceil?_default_block : Word.ceil? (max 1024 1) = some 1024 := by decide

theorem capacity_default : (ofConfig {}).capacity = 1024 := capacity_ofConfig {}

theorem dvd_capacity_default : 1024 ∣ (ofConfig {}).capacity :=
  ⟨1, capacity_default.trans (Nat.mul_one 1024).symm⟩

/-- As many blocks as there is memory for are enough for the entries. -/
theorem exists_default_placed? (hsize : table.size < 0x1000000000000) :
    ∃ placed, (ofConfig {}).placed? table = some placed := by
  have hmost : 1024 ∣ 0x1000000000000 - 1024 := by decide
  have hentries : 1 + table.size ≤ (ofConfig {}).capacity + (0x1000000000000 - 1024) := by
    rw [capacity_default]
    omega
  have hlimit : (ofConfig {}).capacity + (0x1000000000000 - 1024) < Word.limit := by
    rw [capacity_default]
    decide
  obtain ⟨room, hroom⟩ := (sound_ofConfig {}).exists_roomFor?_of_dvd rfl ceil?_default_block hmost
    hentries hlimit (by decide)
  exact exists_placed? hroom fun index hindex _ => contains_ofConfig {} hindex

/-- One block more is enough up to the boundary. -/
theorem Places.exists_default_roomFor? {placed : Pool} (hplaces : (ofConfig {}).Places table placed)
    (hsize : table.size < 0x1000000000000) :
    ∃ room, placed.roomFor? (Word.next (1 + table.size)) = some room := by
  obtain ⟨⟨_, _, henough⟩, hleast⟩ :=
    hplaces.isLeast_capacity ceil?_default_block dvd_capacity_default
  have hentries : (ofConfig {}).cursor + table.size ≤ 0x1000000000000 := by
    change 1 + table.size ≤ _
    omega
  have hmost : placed.capacity ≤ 0x1000000000000 :=
    hleast ⟨by decide, by rw [capacity_default]; decide, hentries⟩
  have hnext : Word.next (1 + table.size) ≤ placed.capacity + 1024 :=
    calc Word.next (1 + table.size)
        ≤ (1 + table.size) + Word.width := Word.next_le _
      _ ≤ placed.capacity + 1024 := Nat.add_le_add henough (by decide)
  have hlimit : placed.capacity + 1024 < Word.limit :=
    Nat.lt_of_le_of_lt (Nat.add_le_add_right hmost 1024) (by decide)
  have hconfig : placed.config = {} := hplaces.config_eq
  exact hplaces.sound.exists_roomFor?_of_dvd (hconfig ▸ rfl) (hconfig ▸ ceil?_default_block)
    (Nat.dvd_refl 1024) hnext hlimit (by rw [hconfig]; decide)

/-- With the default settings a new pool takes any table whose entries there is memory for. -/
theorem exists_first_load (htable : table.WellFormed)
    (hmemory : ({} : Config).grants table.size = true) :
    ∃ left, (ofConfig {}).perform (.load table) = (.ok (.range ⟨⟨1⟩, ⟨1 + table.size⟩⟩), left)
      ∧ Resident table left := by
  have hsize : table.size < 0x1000000000000 := of_decide_eq_true hmemory
  obtain ⟨placed, hplaced⟩ := exists_default_placed? hsize
  have hplaces := (sound_ofConfig {}).places htable hplaced
  obtain ⟨room, hroom⟩ := hplaces.exists_default_roomFor? hsize
  refine ⟨_, perform_load_of_placed? hplaced hroom, rfl, ?_, ?_⟩
  · obtain ⟨⟨hblocks, _, henough⟩, hleast⟩ :=
      hplaces.isLeast_capacity_room ceil?_default_block dvd_capacity_default hroom
    refine ⟨⟨hblocks, henough⟩, ?_⟩
    rintro count ⟨hcount, hboundary⟩
    -- A whole block is as much as the pool starts with.
    have hpos : 0 < count :=
      calc 0 < Word.next (1 + table.size) := Nat.lt_of_le_of_lt (Nat.zero_le _) (Word.lt_next _)
        _ ≤ count := hboundary
    have hstart : (ofConfig {}).capacity ≤ count := by
      rw [capacity_default]
      exact Nat.le_of_dvd hpos hcount
    exact hleast ⟨hcount, hstart, hboundary⟩
  · have hlisting : room.listing = Listing.resident table.texts :=
      listing_of_placed? htable hplaced (extends_of_roomFor? hroom).1 (hplaces.sound.roomFor hroom)
    exact hlisting

end Default

end Pool

end TextPool
