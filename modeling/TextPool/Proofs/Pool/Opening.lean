import TextPool.Proofs.Pool.Sound

/-!
# The slot that the next string takes

The slot is vacant and no lower than the boundary, and the table grows for it only when every slot
from the boundary on holds a string. Nothing more is needed of the order in which slots are tried by
whoever asks what happens to the strings that are there.
-/

namespace TextPool.Pool

theorem boundary_le_searchStart (pool : Pool) : pool.boundary ≤ pool.searchStart := by
  unfold searchStart
  split
  · exact Nat.le_max_right _ _
  · exact Nat.le_refl _

theorem Sound.vacantIndex?_eq_some {pool : Pool} (hsound : pool.Sound) {index : Nat}
    (hfound : pool.vacantIndex? = some index) :
    pool.boundary ≤ index ∧ index < pool.capacity ∧ pool.occupied.contains index = false := by
  have hstart := pool.boundary_le_searchStart
  unfold vacantIndex? at hfound
  split at hfound
  · next hcursor =>
    obtain rfl := Option.some.inj hfound
    exact ⟨hsound.boundary_le_cursor, hcursor⟩
  · split at hfound
    · next found hsearch =>
      obtain rfl := Option.some.inj hfound
      obtain ⟨hlow, hhigh, _, habsent, _⟩ := Bitset.firstAbsent?_eq_some hsearch
      exact ⟨Nat.le_trans hstart hlow, hhigh, habsent⟩
    · split at hfound
      · obtain ⟨hlow, _, hsize, habsent, _⟩ := Bitset.firstAbsent?_eq_some hfound
        exact ⟨hlow, hsound.occupied_size ▸ hsize, habsent⟩
      · simp at hfound

theorem Sound.vacantIndex?_eq_none {pool : Pool} (hsound : pool.Sound)
    (hnone : pool.vacantIndex? = none) (index : Nat) (hboundary : pool.boundary ≤ index)
    (hcapacity : index < pool.capacity) : pool.occupied.contains index = true := by
  have hsize : index < pool.occupied.size := hsound.occupied_size ▸ hcapacity
  unfold vacantIndex? at hnone
  split at hnone
  · simp at hnone
  · split at hnone
    · simp at hnone
    · next hsearch =>
      by_cases hstart : pool.searchStart ≤ index
      · exact Bitset.firstAbsent?_eq_none hsearch index hstart hcapacity hsize
      · rw [if_pos (by omega)] at hnone
        exact Bitset.firstAbsent?_eq_none hnone index hboundary (by omega) hsize

/-- What is known of the slot that the next string takes, and of the pool with that slot in it. -/
structure Opens (pool : Pool) (index : Nat) (room : Pool) : Prop where
  sound : room.Sound
  extension : pool.Extends room
  boundary_le : pool.boundary ≤ index
  lt_capacity : index < room.capacity
  vacant : pool.entryAt? index = none
  /-- The table has grown only if no slot from the boundary on was vacant. -/
  full_or_eq : room.capacity = pool.capacity ∨
    (∀ other, pool.boundary ≤ other → other < pool.capacity →
      ∃ entry, pool.entryAt? other = some entry) ∧
    ∃ added, Word.ceil? (max pool.config.block 1) = some added ∧
      room.capacity = pool.capacity + added

theorem Sound.opens {pool : Pool} (hsound : pool.Sound) {index : Nat} {room : Pool}
    (hopening : pool.opening? = some (index, room)) : pool.Opens index room := by
  unfold opening? at hopening
  cases hvacant : pool.vacantIndex? with
  | some found =>
    rw [hvacant] at hopening
    obtain ⟨rfl, rfl⟩ := Prod.mk.inj (Option.some.inj hopening)
    obtain ⟨hboundary, hcapacity, habsent⟩ := hsound.vacantIndex?_eq_some hvacant
    exact ⟨hsound, .refl pool, hboundary, hcapacity, hsound.entryAt?_eq_none habsent, .inl rfl⟩
  | none =>
    rw [hvacant] at hopening
    obtain ⟨grown, hgrown, heq⟩ := Option.map_eq_some_iff.mp hopening
    obtain ⟨rfl, rfl⟩ := Prod.mk.inj heq
    obtain ⟨hextends, hmore⟩ := extends_of_grown? hgrown
    refine ⟨hsound.grown hgrown, hextends, ?_, by omega, ?_, .inr ⟨?_, capacity_of_grown? hgrown⟩⟩
    · exact Nat.le_trans hsound.boundary_le_cursor hsound.cursor_le_capacity
    · cases hentry : pool.entryAt? pool.capacity with
      | none => rfl
      | some entry => exact absurd (pool.lt_capacity_of_entryAt? _ hentry) (Nat.lt_irrefl _)
    · intro other hboundary hcapacity
      exact (hsound.contains_iff other).mp
        (hsound.vacantIndex?_eq_none hvacant other hboundary hcapacity)

namespace Opens

variable {pool room : Pool} {index : Nat} (hopens : pool.Opens index room)

include hopens

theorem contains_eq_false (hsound : pool.Sound) : pool.contains ⟨index⟩ = false := by
  rw [← Bool.not_eq_true, contains, hsound.contains_iff]
  rintro ⟨entry, hentry⟩
  cases hopens.vacant.symm.trans hentry

theorem sound_placeDynamic (hsound : pool.Sound) {text : Bytes} (hzero : 0 ∉ text) :
    (room.placeDynamic index text).Sound := by
  have hboundary := hopens.boundary_le
  have hpos := hsound.boundary_pos
  have hplaced := hopens.sound.place hopens.lt_capacity (by omega)
    (StoredText.soundIn_dynamic room hzero)
  refine hplaced.move hopens.sound.boundary_pos ?_ ?_
  · have hsame := hopens.extension.boundary_eq
    dsimp only [place]
    omega
  · rw [capacity_place]
    exact hopens.lt_capacity

theorem entryAt?_placeDynamic (text : Bytes) (other : Nat) :
    (room.placeDynamic index text).entryAt? other
      = if index = other then some (.ofText (.dynamic text)) else pool.entryAt? other := by
  rw [← hopens.extension.entryAt?_eq other]
  exact room.entryAt?_place index other (.dynamic text) hopens.lt_capacity

end Opens

end TextPool.Pool
