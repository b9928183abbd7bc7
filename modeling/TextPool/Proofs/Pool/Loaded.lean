import Mathlib.Order.Bounds.Basic
import TextPool.Proofs.Pool.FailedLoad
import TextPool.Proofs.Pool.Growth

/-!
# Loads that succeed

Room is made in whole blocks, and in the end a load has added as few of them as will do, though it
makes room twice (`Places.isLeast_blocks`). Without a maximum and with enough memory there is room
for any count of slots that can be expressed (`Sound.exists_roomFor?_of_dvd`). So where the slots
from the cursor on are vacant, a load of a table succeeds, and its texts stand at consecutive
handles (`Sound.exists_load`). Loading a table from a file is loading the table that is read there
(`perform_loadSections`).
-/

namespace TextPool.Pool

/-! ### Room -/

/-- Whole blocks are added, and no more than are needed. -/
theorem isLeast_blocks_of_roomFor? {pool room : Pool} {block wanted : Nat}
    (hblock : Word.ceil? (max pool.config.block 1) = some block)
    (hroom : pool.roomFor? wanted = some room) :
    ∃ blocks, IsLeast {count | wanted ≤ pool.capacity + count * block} blocks ∧
      room.capacity = pool.capacity + blocks * block := by
  have henough := (extends_of_roomFor? hroom).2
  unfold roomFor? at hroom
  split_ifs at hroom with hsome
  · obtain rfl := Option.some.inj hroom
    rw [← Nat.add_zero pool.capacity, ← Nat.zero_mul block] at hsome
    exact ⟨0, ⟨hsome, fun count _ => Nat.zero_le count⟩, by rw [Nat.zero_mul, Nat.add_zero]⟩
  · obtain ⟨hwords, hsize, _⟩ := Word.ceil?_eq_some hblock
    have hpos : 0 < block := by omega
    simp only [blockSize_of_ceil? hblock] at hroom
    split_ifs at hroom with hlimit
    obtain ⟨added, hadded, hcapacity⟩ := capacity_of_grown? hroom
    have hmore := le_blocks (wanted - pool.capacity) hpos
    rw [Nat.max_eq_left (by omega),
      Word.ceil?_of_dvd (Nat.dvd_mul_left_of_dvd hwords _) hlimit] at hadded
    obtain rfl := Option.some.inj hadded
    refine ⟨_, ⟨henough.trans_eq hcapacity, fun count hcount => ?_⟩, hcapacity⟩
    have hmissing : wanted - pool.capacity ≤ count * block := Nat.sub_le_iff_le_add'.mpr hcount
    exact Nat.le_of_mul_le_mul_right (blocks_le hpos (Nat.dvd_mul_left block count) hmissing) hpos

theorem exists_grown? {pool : Pool} {additional added : Nat}
    (hsize : pool.occupied.size = pool.capacity)
    (hadded : Word.ceil? (max additional 1) = some added)
    (hlimit : pool.capacity + added < Word.limit)
    (hadmits : pool.config.admits (pool.capacity + added) = true)
    (hmemory : added < pool.config.memory) : ∃ grown, pool.grown? additional = some grown := by
  have hgrants : pool.config.grants added = true := decide_eq_true hmemory
  have hsum : Stepwise.sum pool.capacity added = some (pool.capacity + added) :=
    Stepwise.adds_sum _ _ hlimit
  refine ⟨pool.widened added, ?_⟩
  simp only [grown?_eq_map hsize, Stepwise.SlotTable.extent?, hadded, hsum, hadmits, hgrants,
    Option.bind_eq_bind, Option.bind_some, guard_true, Option.pure_def, Option.map_some]

/-- There is room for what some whole blocks more can hold, if there is memory for the blocks. -/
theorem Sound.exists_roomFor?_of_dvd {pool : Pool} (hsound : pool.Sound)
    {block wanted enough : Nat} (hmaximum : pool.config.maximum = none)
    (hblock : Word.ceil? (max pool.config.block 1) = some block) (hwhole : block ∣ enough)
    (henough : wanted ≤ pool.capacity + enough) (hlimit : pool.capacity + enough < Word.limit)
    (hmemory : enough < pool.config.memory) : ∃ room, pool.roomFor? wanted = some room := by
  by_cases hsome : wanted ≤ pool.capacity
  · exact ⟨pool, roomFor?_of_le hsome⟩
  · obtain ⟨hwords, hsize, _⟩ := Word.ceil?_eq_some hblock
    have hpos : 0 < block := by omega
    have hmore := le_blocks (wanted - pool.capacity) hpos
    have hle := blocks_le hpos hwhole (Nat.sub_le_iff_le_add'.mpr henough)
    rw [roomFor?, if_neg hsome]
    simp only [blockSize_of_ceil? hblock]
    generalize hadded : (wanted - pool.capacity + (block - 1)) / block * block = added at *
    have hdvd : Word.width ∣ added := hadded ▸ Nat.dvd_mul_left_of_dvd hwords _
    rw [if_pos (by omega)]
    have hrounded : Word.ceil? (max added 1) = some added := by
      rw [Nat.max_eq_left (by omega)]
      exact Word.ceil?_of_dvd hdvd (by omega)
    have hadmits : pool.config.admits (pool.capacity + added) = true := by
      rw [Config.admits, hmaximum]
    exact exists_grown? hsound.occupied_size hrounded (by omega) hadmits (by omega)

theorem Sound.exists_roomFor? {pool : Pool} (hsound : pool.Sound) {block wanted : Nat}
    (hmaximum : pool.config.maximum = none)
    (hblock : Word.ceil? (max pool.config.block 1) = some block)
    (hlimit : wanted + block < Word.limit) (hmemory : wanted + block ≤ pool.config.memory) :
    ∃ room, pool.roomFor? wanted = some room := by
  by_cases hsome : wanted ≤ pool.capacity
  · exact ⟨pool, roomFor?_of_le hsome⟩
  · have hsize := (Word.ceil?_eq_some hblock).2.1
    have hpos : 0 < block := by omega
    have hmore := le_blocks (wanted - pool.capacity) hpos
    have hle := Nat.div_mul_le_self (wanted - pool.capacity + (block - 1)) block
    have hwhole := Nat.dvd_mul_left block ((wanted - pool.capacity + (block - 1)) / block)
    exact hsound.exists_roomFor?_of_dvd hmaximum hblock hwhole (by omega) (by omega) (by omega)

/-! ### The load -/

theorem perform_load_of_placed? {pool placed room : Pool} {table : StringTable}
    (hplaced : pool.placed? table = some placed)
    (hroom : placed.roomFor? (pool.boundaryAfter table) = some room) :
    pool.perform (.load table)
      = (.ok (.range ⟨⟨pool.cursor⟩, ⟨pool.cursor + table.size⟩⟩),
        { room with boundary := pool.boundaryAfter table, cursor := pool.boundaryAfter table }) := by
  have hend := (pool.perform_effect (.load table)).loadEnd rfl
  generalize pool.perform (.load table) = result at hend ⊢
  obtain ⟨outcome, left⟩ := result
  cases hend with
  | crowded hnone => exact nomatch (placed?_eq_none_of_crowded hnone).symm.trans hplaced
  | blocked hsome htaken =>
    exact nomatch (placed?_eq_none_of_taken hsome htaken).symm.trans hplaced
  | halfway hsame hnone =>
    obtain rfl := Option.some.inj (hplaced.symm.trans hsame)
    exact nomatch hnone.symm.trans hroom
  | loaded hsame hfinal =>
    obtain rfl := Option.some.inj (hplaced.symm.trans hsame)
    obtain rfl := Option.some.inj (hroom.symm.trans hfinal)
    rfl

theorem perform_loadSections (pool : Pool) {file : Bytes} {sections : Sections} {table : StringTable}
    (htable : StringTable.ofSections file sections = .ok table) :
    pool.perform (.loadSections file sections) = pool.perform (.load table) := by
  rw [perform, perform, act, act, loadSections, htable]

theorem exists_placed? {pool room : Pool} {table : StringTable}
    (hroom : pool.roomFor? (pool.cursor + table.size) = some room)
    (hvacant : ∀ index, pool.cursor ≤ index → index < pool.cursor + table.size →
      pool.occupied.contains index = false) : ∃ placed, pool.placed? table = some placed := by
  have hextends := (extends_of_roomFor? hroom).1
  cases htaken : room.firstOccupied? pool.cursor table.size with
  | none =>
    refine ⟨room.placeTable pool.cursor table, ?_⟩
    simp only [placed?, hroom, Option.bind_eq_bind, Option.bind_some, htaken]
  | some index =>
    obtain ⟨hfirst, hstop, hcontains⟩ := contains_of_firstOccupied? htaken
    rw [hextends.contains_eq, hvacant index hfirst hstop] at hcontains
    exact absurd hcontains Bool.false_ne_true

/-- A load makes room twice, for the entries and then up to the new boundary. What it adds is no
more than if it made room up to the boundary at once. -/
theorem Places.isLeast_blocks {pool placed room : Pool} {table : StringTable} {block : Nat}
    (hplaces : pool.Places table placed)
    (hblock : Word.ceil? (max pool.config.block 1) = some block)
    (hroom : placed.roomFor? (pool.boundaryAfter table) = some room) :
    ∃ blocks,
      IsLeast {count | pool.boundaryAfter table ≤ pool.capacity + count * block} blocks ∧
        room.capacity = pool.capacity + blocks * block := by
  have hbelow : pool.cursor + table.size < pool.boundaryAfter table := Word.lt_next _
  obtain ⟨entries, hentries, _, _, hplaced⟩ := hplaces.room
  obtain ⟨first, ⟨_, hfirst⟩, hcapacity⟩ := isLeast_blocks_of_roomFor? hblock hentries
  obtain ⟨more, ⟨henough, hmore⟩, hlast⟩ :=
    isLeast_blocks_of_roomFor? (hplaces.config_eq ▸ hblock) hroom
  have hsum (count : Nat) :
      placed.capacity + count * block = pool.capacity + (first + count) * block := by
    rw [hplaced, hcapacity, Nat.add_assoc, ← Nat.add_mul]
  refine ⟨first + more, ⟨henough.trans_eq (hsum more), fun count hcount => ?_⟩,
    hlast.trans (hsum more)⟩
  obtain ⟨rest, rfl⟩ := Nat.exists_eq_add_of_le (hfirst (hbelow.le.trans hcount))
  exact Nat.add_le_add_left (hmore (hcount.trans_eq (hsum rest).symm)) first

theorem blobs_of_placed? {pool placed : Pool} {table : StringTable}
    (hplaced : pool.placed? table = some placed) :
    placed.blobs = pool.blobs.push table.blob := by
  obtain ⟨room, hroom, _, rfl⟩ := placed?_eq_some hplaced
  rw [← (extends_of_roomFor? hroom).1.blobs_eq]
  exact (sameFrame_placeSpans room.blobs.size pool.cursor table.spans
    { room with blobs := room.blobs.push table.blob }).blobs_eq

/-- The texts of a placed table stand at its handles, also when the table of slots has grown. -/
theorem Sound.entryAt?_of_placed? {pool placed room : Pool} {table : StringTable}
    (hsound : pool.Sound) (htable : table.WellFormed) (hplaced : pool.placed? table = some placed)
    (hroom : placed.Extends room) {index : Nat} {text : Bytes}
    (htext : table.texts[index]? = some text) :
    ∃ span, room.entryAt? (pool.cursor + index) = some (.ofText (.static pool.blobs.size span)) ∧
      room.bytesOf (.static pool.blobs.size span) = text := by
  rw [StringTable.texts, List.getElem?_map, Option.map_eq_some_iff] at htext
  obtain ⟨span, hspan, rfl⟩ := htext
  obtain ⟨hindex, hspan⟩ := List.getElem?_eq_some_iff.mp hspan
  have hentry := (hsound.places htable hplaced).entryAt?_eq (pool.cursor + index)
  rw [dif_pos ⟨Nat.le_add_right _ _, Nat.add_lt_add_left hindex _⟩] at hentry
  simp only [Nat.add_sub_cancel_left, List.get_eq_getElem, hspan] at hentry
  refine ⟨span, (hroom.entryAt?_eq _).trans hentry, ?_⟩
  have hblob : room.blobs[pool.blobs.size]? = some table.blob := by
    rw [hroom.blobs_eq, blobs_of_placed? hplaced, Array.getElem?_push, if_pos rfl]
  simp only [bytesOf, Array.getD_eq_getD_getElem?, hblob, Option.getD_some]

theorem Sound.text_of_placed? {pool placed room : Pool} {table : StringTable} (hsound : pool.Sound)
    (htable : table.WellFormed) (hplaced : pool.placed? table = some placed)
    (hroom : placed.Extends room) {index : Nat} {text : Bytes}
    (htext : table.texts[index]? = some text) : room.text ⟨pool.cursor + index⟩ = .ok text := by
  obtain ⟨span, hentry, hbytes⟩ := hsound.entryAt?_of_placed? htable hplaced hroom htext
  exact text_eq_ok_iff.mpr ⟨_, hentry, hbytes⟩

/-- With room for it and its slots vacant, a table is loaded at the cursor. -/
theorem Sound.exists_load {pool : Pool} {table : StringTable} (hsound : pool.Sound)
    (htable : table.WellFormed) {block : Nat} (hmaximum : pool.config.maximum = none)
    (hblock : Word.ceil? (max pool.config.block 1) = some block)
    (hlimit : pool.boundaryAfter table + block < Word.limit)
    (hmemory : pool.boundaryAfter table + block ≤ pool.config.memory)
    (hvacant : ∀ index, pool.cursor ≤ index → index < pool.cursor + table.size →
      pool.occupied.contains index = false) :
    ∃ left, pool.perform (.load table)
        = (.ok (.range ⟨⟨pool.cursor⟩, ⟨pool.cursor + table.size⟩⟩), left)
      ∧ ∀ index text, table.texts[index]? = some text →
        left.text ⟨pool.cursor + index⟩ = .ok text := by
  have hbelow : pool.cursor + table.size < pool.boundaryAfter table := Word.lt_next _
  have hentries : ∃ room, pool.roomFor? (pool.cursor + table.size) = some room :=
    hsound.exists_roomFor? hmaximum hblock (by omega) (by omega)
  obtain ⟨_, hfirst⟩ := hentries
  obtain ⟨placed, hplaced⟩ := exists_placed? hfirst hvacant
  have hplaces := hsound.places htable hplaced
  have hconfig := hplaces.config_eq
  have hword : ∃ room, placed.roomFor? (pool.boundaryAfter table) = some room :=
    hplaces.sound.exists_roomFor? (hconfig ▸ hmaximum) (hconfig ▸ hblock) hlimit
      (hconfig ▸ hmemory)
  obtain ⟨room, hroom⟩ := hword
  refine ⟨_, perform_load_of_placed? hplaced hroom, fun index text htext => ?_⟩
  exact hsound.text_of_placed? htable hplaced (extends_of_roomFor? hroom).1 htext

end TextPool.Pool
