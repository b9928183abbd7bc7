import TextPool.Proofs.Bitset.Listing
import TextPool.Proofs.Bitset.Search
import TextPool.Proofs.Pool.Effect
import TextPool.Proofs.Pool.Slots
import TextPool.Proofs.Table.WellFormed

/-!
# What holds of a pool at every moment

`Sound` collects what every operation relies on and leaves behind. A new pool is sound, and a change
of one slot, a growth, and a move of the boundary each keep a pool sound; so does, therefore, each
of the effects that a request can have, also where it fails halfway. By induction over the requests
every reachable pool is sound (`sound_of_reachable`).
-/

namespace TextPool

/-- The text can be read from the blobs of the pool, and holds no zero byte. -/
structure StoredText.SoundIn (pool : Pool) (text : StoredText) : Prop where
  inside : ∀ blob span, text = .static blob span →
    ∃ bytes, pool.blobs[blob]? = some bytes ∧ span.start ≤ span.stop ∧ span.stop ≤ bytes.length
  zero_notMem : 0 ∉ pool.bytesOf text

theorem StoredText.SoundIn.of_blobs {pool other : Pool} {text : StoredText}
    (hsound : text.SoundIn pool)
    (hblobs : ∀ (index : Nat) (bytes : Bytes), pool.blobs[index]? = some bytes →
      other.blobs[index]? = some bytes) : text.SoundIn other ∧ other.bytesOf text = pool.bytesOf text := by
  have hbytes : other.bytesOf text = pool.bytesOf text := by
    cases text with
    | dynamic bytes => rfl
    | static blob span =>
      obtain ⟨bytes, hblob, _⟩ := hsound.inside blob span rfl
      simp only [Pool.bytesOf, Array.getD_eq_getD_getElem?, hblob, hblobs blob bytes hblob]
  refine ⟨⟨fun blob span htext => ?_, hbytes ▸ hsound.zero_notMem⟩, hbytes⟩
  obtain ⟨bytes, hblob, hinside⟩ := hsound.inside blob span htext
  exact ⟨bytes, hblobs blob bytes hblob, hinside⟩

theorem StoredText.SoundIn.congr {pool other : Pool} {text : StoredText}
    (hsound : text.SoundIn pool) (hblobs : other.blobs = pool.blobs) : text.SoundIn other :=
  (hsound.of_blobs fun _ _ hblob => hblobs ▸ hblob).1

theorem StoredText.soundIn_dynamic (pool : Pool) {bytes : Bytes} (hzero : 0 ∉ bytes) :
    (StoredText.dynamic bytes).SoundIn pool :=
  ⟨fun _ _ htext => StoredText.noConfusion htext, hzero⟩

namespace Pool

/-- What holds of a pool at every moment. -/
structure Sound (pool : Pool) : Prop where
  /-- The set of occupied slots has a position for each slot. -/
  occupied_size : pool.occupied.size = pool.capacity
  width_dvd_capacity : Word.width ∣ pool.capacity
  width_le_capacity : Word.width ≤ pool.capacity
  capacity_le_maximum : ∀ maximum, pool.config.maximum = some maximum →
    pool.capacity ≤ max Word.width (Word.floor maximum)
  /-- A position is in the set exactly if its slot is there and holds a text. -/
  contains_eq : ∀ index, pool.occupied.contains index = (pool.slots[index]?.bind Slot.text).isSome
  unowned : ∀ slot ∈ pool.slots, slot.text = none → slot.owners = 0
  texts : ∀ slot ∈ pool.slots, ∀ text, slot.text = some text → text.SoundIn pool
  /-- The first slot holds the empty string. -/
  first : pool.slots[0]?.bind Slot.text = some (.static 0 ⟨0, 0⟩)
  boundary_pos : 1 ≤ pool.boundary
  boundary_le_cursor : pool.boundary ≤ pool.cursor
  cursor_le_capacity : pool.cursor ≤ pool.capacity

/-! ### Reading a sound pool -/

theorem exists_slot_of_entryAt? {pool : Pool} {index : Nat} {entry : Entry}
    (hentry : pool.entryAt? index = some entry) :
    ∃ slot, pool.slots[index]? = some slot ∧ slot.text = some entry.text := by
  obtain ⟨slot, hslot, hoccupant⟩ := Option.bind_eq_some_iff.mp hentry
  obtain ⟨text, htext, rfl⟩ := Option.map_eq_some_iff.mp hoccupant
  exact ⟨slot, hslot, htext⟩

theorem isSome_entryAt? (pool : Pool) (index : Nat) :
    (pool.entryAt? index).isSome = (pool.slots[index]?.bind Slot.text).isSome := by
  rw [entryAt?]
  cases pool.slots[index]? with
  | none => rfl
  | some slot => simp [Slot.occupant?]

namespace Sound

variable {pool : Pool} (hsound : pool.Sound)

include hsound

theorem contains_iff (index : Nat) :
    pool.occupied.contains index = true ↔ ∃ entry, pool.entryAt? index = some entry := by
  rw [hsound.contains_eq, ← isSome_entryAt?, Option.isSome_iff_exists]

theorem entryAt?_eq_none {index : Nat} (habsent : pool.occupied.contains index = false) :
    pool.entryAt? index = none := by
  rw [hsound.contains_eq, ← isSome_entryAt?] at habsent
  simpa using habsent

theorem text {index : Nat} {entry : Entry} (hentry : pool.entryAt? index = some entry) :
    entry.text.SoundIn pool := by
  obtain ⟨slot, hslot, htext⟩ := exists_slot_of_entryAt? hentry
  exact hsound.texts slot (Array.mem_of_getElem? hslot) _ htext

theorem text_zero {entry : Entry} (hentry : pool.entryAt? 0 = some entry) :
    entry.text = .static 0 ⟨0, 0⟩ := by
  obtain ⟨slot, hslot, htext⟩ := exists_slot_of_entryAt? hentry
  have hfirst := hsound.first
  rw [hslot, Option.bind_some, htext] at hfirst
  exact Option.some.inj hfirst

theorem contains_empty : pool.contains .empty = true := by
  rw [contains, hsound.contains_eq]
  exact congrArg Option.isSome hsound.first

theorem ne_zero_of_dynamic {index : Nat} {entry : Entry}
    (hentry : pool.entryAt? index = some entry) (hkind : entry.text.kind = .dynamic) :
    index ≠ 0 := by
  rintro rfl
  rw [hsound.text_zero hentry] at hkind
  exact Kind.noConfusion hkind

/-! ### Changes of one slot -/

/-- Whatever is put into a slot keeps a pool sound if it may stand there and the set of occupied
slots says so. -/
private theorem set_slot {index : Nat} {slot : Slot} {occupied : Bitset}
    (hindex : index < pool.capacity) (hsize : occupied.size = pool.occupied.size)
    (hcontains : ∀ other, occupied.contains other
      = if index = other then slot.text.isSome else pool.occupied.contains other)
    (hunowned : slot.text = none → slot.owners = 0)
    (htext : ∀ text, slot.text = some text → text.SoundIn pool)
    (hfirst : index = 0 → slot.text = some (.static 0 ⟨0, 0⟩)) :
    Sound { pool with slots := pool.slots.setIfInBounds index slot, occupied } := by
  have hslots : index < pool.slots.size := hindex
  have hcapacity : capacity { pool with slots := pool.slots.setIfInBounds index slot, occupied }
      = pool.capacity := Array.size_setIfInBounds
  constructor
  case occupied_size => exact (hsize.trans hsound.occupied_size).trans hcapacity.symm
  case width_dvd_capacity =>
    rw [hcapacity]
    exact hsound.width_dvd_capacity
  case width_le_capacity =>
    rw [hcapacity]
    exact hsound.width_le_capacity
  case capacity_le_maximum =>
    rw [hcapacity]
    exact hsound.capacity_le_maximum
  case contains_eq =>
    intro other
    rw [hcontains, Array.getElem?_setIfInBounds, if_pos hslots]
    split
    · rfl
    · exact hsound.contains_eq other
  case unowned =>
    intro other hother
    rcases Array.mem_or_eq_of_mem_setIfInBounds hother with hother | rfl
    · exact hsound.unowned other hother
    · exact hunowned
  case texts =>
    intro other hother text hstored
    rcases Array.mem_or_eq_of_mem_setIfInBounds hother with hother | rfl
    · exact (hsound.texts other hother text hstored).congr rfl
    · exact (htext text hstored).congr rfl
  case first =>
    rw [Array.getElem?_setIfInBounds, if_pos hslots]
    by_cases hzero : index = 0
    · rw [if_pos hzero]
      exact hfirst hzero
    · rw [if_neg hzero]
      exact hsound.first
  case boundary_pos => exact hsound.boundary_pos
  case boundary_le_cursor => exact hsound.boundary_le_cursor
  case cursor_le_capacity =>
    rw [hcapacity]
    exact hsound.cursor_le_capacity

theorem place {index : Nat} {text : StoredText} (hindex : index < pool.capacity)
    (hnonzero : index ≠ 0) (htext : text.SoundIn pool) : (pool.place index text).Sound := by
  refine hsound.set_slot hindex (pool.occupied.size_insert index) (fun other => ?_) ?_ ?_ ?_
  · rw [Bitset.contains_insert, hsound.occupied_size]
    by_cases hother : index = other
    · simp [hother, hother ▸ hindex, Slot.ofEntry]
    · simp [hother]
  · exact fun hvacant => absurd hvacant (Option.some_ne_none text)
  · intro other hother
    exact Option.some.inj hother ▸ htext
  · exact fun hzero => absurd hzero hnonzero

theorem update {index : Nat} {old entry : Entry} (hold : pool.entryAt? index = some old)
    (htext : entry.text.SoundIn pool) (hzero : index = 0 → entry.text = old.text) :
    (pool.update index entry).Sound := by
  refine hsound.set_slot (pool.lt_capacity_of_entryAt? index hold) rfl (fun other => ?_) ?_ ?_ ?_
  · by_cases hother : index = other
    · rw [if_pos hother, ← hother, (hsound.contains_iff index).mpr ⟨old, hold⟩]
      rfl
    · rw [if_neg hother]
  · exact fun hvacant => absurd hvacant (Option.some_ne_none entry.text)
  · intro other hother
    exact Option.some.inj hother ▸ htext
  · rintro rfl
    rw [Slot.ofEntry, hzero rfl, hsound.text_zero hold]

theorem vacate {index : Nat} (hindex : index < pool.capacity) (hnonzero : index ≠ 0) :
    (pool.vacate index).Sound := by
  refine hsound.set_slot hindex (pool.occupied.size_erase index) (fun other => ?_) ?_ ?_ ?_
  · rw [Bitset.contains_erase, hsound.occupied_size]
    by_cases hother : index = other
    · simp [hother, hother ▸ hindex, Slot.vacant]
    · simp [hother]
  · exact fun _ => rfl
  · exact fun other hother => absurd hother.symm (Option.some_ne_none other)
  · exact fun hzero => absurd hzero hnonzero

/-! ### Growth, and moves of the boundary and the cursor -/

theorem grown {additional : Nat} {grown : Pool} (hgrown : pool.grown? additional = some grown) :
    grown.Sound := by
  have hextends := (extends_of_grown? hgrown).1
  obtain ⟨added, hadded, hadmits, rfl⟩ := grown?_eq_some hgrown
  obtain ⟨hwords, _, _⟩ := Word.ceil?_eq_some hadded
  have hcapacity : capacity { pool with
      slots := pool.slots ++ Array.replicate added .vacant
      occupied := pool.occupied.grow added } = pool.capacity + added := by
    simp only [capacity, Array.size_append, Array.size_replicate]
  have hdvd := Nat.dvd_add hsound.width_dvd_capacity hwords
  constructor
  case occupied_size => exact (congrArg (· + added) hsound.occupied_size).trans hcapacity.symm
  case width_dvd_capacity => rwa [hcapacity]
  case width_le_capacity => exact Nat.le_trans hsound.width_le_capacity hextends.capacity_le
  case capacity_le_maximum =>
    intro maximum hmaximum
    have hmaximum : pool.config.maximum = some maximum := hmaximum
    rw [hcapacity]
    simp only [Config.admits, hmaximum, decide_eq_true_eq] at hadmits
    exact Nat.le_trans (Word.le_floor hdvd hadmits) (Nat.le_max_right _ _)
  case contains_eq =>
    intro index
    rw [hextends.contains_eq, hsound.contains_eq, ← isSome_entryAt?, ← isSome_entryAt?,
      hextends.entryAt?_eq]
  case unowned =>
    intro slot hslot
    rcases Array.mem_append.mp hslot with hslot | hslot
    · exact hsound.unowned slot hslot
    · obtain ⟨_, rfl⟩ := Array.mem_replicate.mp hslot
      exact fun _ => rfl
  case texts =>
    intro slot hslot text htext
    rcases Array.mem_append.mp hslot with hslot | hslot
    · exact (hsound.texts slot hslot text htext).congr rfl
    · obtain ⟨_, rfl⟩ := Array.mem_replicate.mp hslot
      exact absurd htext.symm (Option.some_ne_none text)
  case first =>
    have hzero : 0 < pool.slots.size := Nat.lt_of_lt_of_le (by decide) hsound.width_le_capacity
    rw [Array.getElem?_append, if_pos hzero]
    exact hsound.first
  case boundary_pos => exact hsound.boundary_pos
  case boundary_le_cursor => exact hsound.boundary_le_cursor
  case cursor_le_capacity => exact Nat.le_trans hsound.cursor_le_capacity hextends.capacity_le

theorem move {boundary cursor : Nat} (hboundary : 1 ≤ boundary) (hcursor : boundary ≤ cursor)
    (hcapacity : cursor ≤ pool.capacity) : Sound { pool with boundary, cursor } where
  occupied_size := hsound.occupied_size
  width_dvd_capacity := hsound.width_dvd_capacity
  width_le_capacity := hsound.width_le_capacity
  capacity_le_maximum := hsound.capacity_le_maximum
  contains_eq := hsound.contains_eq
  unowned := hsound.unowned
  texts slot hslot text htext := (hsound.texts slot hslot text htext).congr rfl
  first := hsound.first
  boundary_pos := hboundary
  boundary_le_cursor := hcursor
  cursor_le_capacity := hcapacity

theorem roomFor {wanted : Nat} {room : Pool} (hroom : pool.roomFor? wanted = some room) :
    room.Sound := by
  unfold roomFor? at hroom
  split_ifs at hroom
  · exact Option.some.inj hroom ▸ hsound
  · dsimp only at hroom
    split_ifs at hroom
    exact hsound.grown hroom

/-! ### Many slots -/

theorem foldl_vacate {indices : List Nat}
    (hindices : ∀ index ∈ indices, index < pool.capacity ∧ index ≠ 0) :
    (indices.foldl Pool.vacate pool).Sound := by
  induction indices generalizing pool with
  | nil => exact hsound
  | cons index rest ih =>
    obtain ⟨⟨hindex, hnonzero⟩, hrest⟩ := List.forall_mem_cons.mp hindices
    refine ih (hsound.vacate hindex hnonzero) fun other hother => ?_
    rw [capacity_vacate]
    exact hrest other hother

theorem push_blob (blob : Bytes) : Sound { pool with blobs := pool.blobs.push blob } where
  occupied_size := hsound.occupied_size
  width_dvd_capacity := hsound.width_dvd_capacity
  width_le_capacity := hsound.width_le_capacity
  capacity_le_maximum := hsound.capacity_le_maximum
  contains_eq := hsound.contains_eq
  unowned := hsound.unowned
  texts slot hslot text htext := by
    refine ((hsound.texts slot hslot text htext).of_blobs fun index bytes hblob => ?_).1
    have hindex : index < pool.blobs.size := (Array.getElem?_eq_some_iff.mp hblob).1
    rw [Array.getElem?_push, if_neg (Nat.ne_of_lt hindex)]
    exact hblob
  first := hsound.first
  boundary_pos := hsound.boundary_pos
  boundary_le_cursor := hsound.boundary_le_cursor
  cursor_le_capacity := hsound.cursor_le_capacity

theorem placeSpans {blob first : Nat} {bytes : Bytes} {spans : List Span}
    (hblob : pool.blobs[blob]? = some bytes) (hspans : ∀ span ∈ spans, span.Terminated bytes)
    (hfirst : first ≠ 0) (hroom : first + spans.length ≤ pool.capacity) :
    (Pool.placeSpans blob first spans pool).Sound := by
  induction spans generalizing first pool with
  | nil => exact hsound
  | cons span rest ih =>
    obtain ⟨hspan, hrest⟩ := List.forall_mem_cons.mp hspans
    rw [List.length_cons] at hroom
    have htext : (StoredText.static blob span).SoundIn pool := by
      constructor
      · intro other otherSpan heq
        obtain ⟨rfl, rfl⟩ := StoredText.static.inj heq
        exact ⟨bytes, hblob, hspan.start_le, Nat.le_of_lt hspan.stop_lt⟩
      · rw [bytesOf, Array.getD_eq_getD_getElem?, hblob]
        exact hspan.zero_notMem
    refine ih (hsound.place (by omega) hfirst htext) hblob hrest (by omega) ?_
    rw [capacity_place]
    omega

end Sound

end Pool

end TextPool
