import TextPool.Proofs.Pool.Invariant
import TextPool.Proofs.Pool.View

/-!
# What a load that fails leaves

A load can fail at four points. Where the table cannot be read, or there is no room for its entries,
the pool is as it was. Where room was made and a slot then turned out to be taken, the new slots
stay (`GrowsIntoTaken`). Where there is room for the entries but not up to the new boundary, the
entries stay, at handles that nobody was told, above a boundary that was not moved (`StopsHalfway`).
Those two are the only ways in which a failed load is seen afterwards (`view_of_failed_load`).
-/

namespace TextPool

theorem Operation.forall_table?_iff {operation : Operation} {given : StringTable}
    (hgiven : operation.table? = some (.ok given)) {holds : StringTable → Prop} :
    (∀ table, operation.table? = some (.ok table) → holds table) ↔ holds given := by
  constructor
  · exact fun hall => hall given hgiven
  · intro hholds table htable
    obtain rfl := Except.ok.inj (Option.some.inj (hgiven.symm.trans htable))
    exact hholds

namespace Pool

/-- A load of the table would place its entries and then fail. -/
def StopsHalfway (pool : Pool) (table : StringTable) : Prop :=
  0 < table.size ∧
    ∃ placed, pool.placed? table = some placed ∧ placed.roomFor? (pool.boundaryAfter table) = none

/-- A load of the table would add slots and then fail, since one that it needs is taken. -/
def GrowsIntoTaken (pool : Pool) (table : StringTable) : Prop :=
  pool.capacity < pool.cursor + table.size ∧ ∃ room index,
    pool.roomFor? (pool.cursor + table.size) = some room ∧
      room.firstOccupied? pool.cursor table.size = some index

/-! ### Placed entries -/

theorem placed?_eq_none_of_crowded {pool : Pool} {table : StringTable}
    (hroom : pool.roomFor? (pool.cursor + table.size) = none) : pool.placed? table = none := by
  simp only [placed?, hroom, Option.bind_eq_bind, Option.bind_none]

theorem placed?_eq_none_of_taken {pool room : Pool} {table : StringTable} {index : Nat}
    (hroom : pool.roomFor? (pool.cursor + table.size) = some room)
    (htaken : room.firstOccupied? pool.cursor table.size = some index) :
    pool.placed? table = none := by
  simp only [placed?, hroom, Option.bind_eq_bind, Option.bind_some, htaken]

theorem not_stopsHalfway {pool : Pool} {table : StringTable} (hplaced : pool.placed? table = none) :
    ¬pool.StopsHalfway table := by
  rintro ⟨_, placed, hsome, _⟩
  exact Option.some_ne_none placed (hsome.symm.trans hplaced)

namespace Places

variable {pool placed : Pool} {table : StringTable} (hplaces : pool.Places table placed)

include hplaces

/-- At the handles of the entries there was nothing, and there are static strings now. -/
theorem strings_view_entry (handle : Handle) (hfirst : pool.cursor ≤ handle.index)
    (hstop : handle.index < pool.cursor + table.size) :
    (∃ text, placed.view.strings handle = some ⟨.static, text, 0⟩) ∧
      pool.view.strings handle = none := by
  have hentry := hplaces.entryAt?_eq handle.index
  rw [dif_pos ⟨hfirst, hstop⟩] at hentry
  have hfree := hplaces.vacant handle.index hfirst hstop
  exact ⟨⟨_, view_eq_some_iff.mpr ⟨_, hentry, rfl⟩⟩, congrArg (Option.map pool.held) hfree⟩

/-- The strings that were there are seen as they were. -/
theorem strings_view_other (hsound : pool.Sound) {handle : Handle}
    (hother : ¬(pool.cursor ≤ handle.index ∧ handle.index < pool.cursor + table.size)) :
    placed.view.strings handle = pool.view.strings handle := by
  have hentry := hplaces.entryAt?_eq handle.index
  rw [dif_neg hother] at hentry
  simp only [view, hentry]
  cases hbefore : pool.entryAt? handle.index with
  | none => rfl
  | some entry =>
    have hbytes := hplaces.bytesOf_eq entry.text (hsound.text hbefore)
    simp only [Option.map_some, held, hbytes]

theorem view_eq_iff (hsound : pool.Sound) : placed.view = pool.view ↔ table.size = 0 := by
  constructor
  · intro hview
    by_contra hsize
    obtain ⟨⟨text, hplaced⟩, hfree⟩ := hplaces.strings_view_entry ⟨pool.cursor⟩
      (Nat.le_refl _) (Nat.lt_add_of_pos_right (Nat.pos_of_ne_zero hsize))
    rw [hview, hfree] at hplaced
    exact Option.some_ne_none _ hplaced.symm
  · intro hsize
    obtain ⟨room, hroom, _, _, hcapacity⟩ := hplaces.room
    have henough : pool.cursor + table.size ≤ pool.capacity := by
      rw [hsize]
      exact hsound.cursor_le_capacity
    rw [roomFor?_of_le henough] at hroom
    apply View.ext
    · funext handle
      exact hplaces.strings_view_other hsound (by omega)
    · exact hcapacity.trans (congrArg capacity (Option.some.inj hroom)).symm
    · exact hplaces.boundary_eq

end Places

/-! ### Room that was made -/

theorem view_of_roomFor?_iff {pool room : Pool} {wanted : Nat}
    (hroom : pool.roomFor? wanted = some room) :
    room.view = pool.view ↔ wanted ≤ pool.capacity := by
  constructor
  · intro hview
    have hcapacity : room.capacity = pool.capacity := congrArg View.capacity hview
    exact hcapacity ▸ (extends_of_roomFor? hroom).2
  · intro henough
    rw [roomFor?_of_le henough] at hroom
    exact congrArg view (Option.some.inj hroom).symm

/-! ### The load -/

theorem Sound.view_of_failed_effect {pool left : Pool} {operation : Operation}
    {failure : PoolError} (hsound : pool.Sound) (hoperation : operation.WellFormed)
    (hload : operation.table? ≠ none) (heffect : Effect pool operation (.error failure) left) :
    left.view = pool.view ↔ ∀ table, operation.table? = some (.ok table) →
      ¬pool.StopsHalfway table ∧ ¬pool.GrowsIntoTaken table := by
  obtain ⟨read, hgiven⟩ := Option.ne_none_iff_exists'.mp hload
  cases heffect.loadEnd hgiven with
  | faulty => exact iff_of_true rfl fun table htable => nomatch hgiven.symm.trans htable
  | crowded hroom =>
    rw [Operation.forall_table?_iff hgiven]
    refine iff_of_true rfl ⟨not_stopsHalfway (placed?_eq_none_of_crowded hroom), ?_⟩
    rintro ⟨_, room, _, hsome, _⟩
    exact Option.some_ne_none room (hsome.symm.trans hroom)
  | blocked hroom htaken =>
    rw [Operation.forall_table?_iff hgiven, view_of_roomFor?_iff hroom]
    constructor
    · intro henough
      exact ⟨not_stopsHalfway (placed?_eq_none_of_taken hroom htaken),
        fun hgrows => Nat.not_lt.mpr henough hgrows.1⟩
    · rintro ⟨_, hfits⟩
      by_contra henough
      exact hfits ⟨Nat.lt_of_not_le henough, _, _, hroom, htaken⟩
  | halfway hplaced hroom =>
    have htable := Operation.wellFormed_of_table? hoperation hgiven
    rw [Operation.forall_table?_iff hgiven, (hsound.places htable hplaced).view_eq_iff hsound]
    constructor
    · intro hsize
      refine ⟨fun hhalfway => Nat.ne_of_gt hhalfway.1 hsize, ?_⟩
      rintro ⟨_, made, index, hmade, htaken⟩
      rw [placed?_eq_none_of_taken hmade htaken] at hplaced
      exact Option.some_ne_none left hplaced.symm
    · rintro ⟨hwhole, _⟩
      by_contra hsize
      exact hwhole ⟨Nat.pos_of_ne_zero hsize, left, hplaced, hroom⟩

/-- A load that fails is not seen afterwards, unless it stops halfway or grows into a slot that is
taken. -/
theorem view_of_failed_load {config : Config} {pool : Pool} {operation : Operation}
    {failure : PoolError} (hreachable : Reachable config pool) (hoperation : operation.WellFormed)
    (hload : operation.table? ≠ none) (hfailure : (pool.perform operation).1 = .error failure) :
    (pool.perform operation).2.view = pool.view ↔
      ∀ table, operation.table? = some (.ok table) →
        ¬pool.StopsHalfway table ∧ ¬pool.GrowsIntoTaken table := by
  have heffect := pool.perform_effect operation
  rw [hfailure] at heffect
  exact (sound_of_reachable hreachable).1.view_of_failed_effect hoperation hload heffect

/-- Sixty-four entries find no room behind the empty string, and change nothing. -/
theorem view_of_crowded_load :
    let pool := ofConfig { initial := 64, block := 64, maximum := some 64 }
    let table : StringTable := ⟨List.replicate 64 ⟨0, 1⟩, [97, 0]⟩
    (pool.perform (.load table)).2.view = pool.view ↔
      ∀ other, (Operation.load table).table? = some (.ok other) →
        ¬pool.StopsHalfway other ∧ ¬pool.GrowsIntoTaken other := by
  intro pool table
  have hreachable : Reachable pool.config pool :=
    ⟨[], fun _ hmem => absurd hmem List.not_mem_nil, rfl⟩
  have htable : (Operation.load table).WellFormed := rfl
  have hfailure : (pool.perform (.load table)).1 = .error (.exhausted 64) := by decide +kernel
  exact view_of_failed_load hreachable htable (Option.some_ne_none _) hfailure

/-- Sixty-three entries find room, and stay when there is none up to the new boundary. -/
theorem exists_failed_load_seen :
    ¬∀ (config : Config) (pool : Pool) (operation : Operation) (failure : PoolError),
      Reachable config pool → operation.WellFormed → operation.table? ≠ none →
      (pool.perform operation).1 = .error failure →
      (pool.perform operation).2.view = pool.view := by
  intro hclaim
  let pool := ofConfig { initial := 64, block := 64, maximum := some 64 }
  let table : StringTable := ⟨List.replicate 63 ⟨0, 1⟩, [97, 0]⟩
  have hreachable : Reachable pool.config pool :=
    ⟨[], fun _ hmem => absurd hmem List.not_mem_nil, rfl⟩
  have htable : (Operation.load table).WellFormed := rfl
  have hfailure : (pool.perform (.load table)).1 = .error (.exhausted 64) := by decide +kernel
  have hview := hclaim _ pool _ _ hreachable htable (Option.some_ne_none _) hfailure
  have hseen := congrArg (fun view => (view.strings ⟨1⟩).isSome) hview
  exact absurd hseen (by decide +kernel)

end Pool

end TextPool
