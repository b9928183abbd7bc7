import Mathlib.Tactic.Common
import Mathlib.Data.Option.Basic
import TextPool.Pool.Loading
import TextPool.Pool.Ownership

/-!
# What a change of one slot does to every slot

Each change of a slot is one equation on `entryAt?`, which says what stands in every slot
afterwards, and adding slots is none: the slots that were there keep what they hold, and the new
ones hold nothing. A sweep and a load change many slots, one after another, so their equations come
from those by induction over the list of slots.
-/

namespace TextPool.Pool

/-! ### Single slots -/

section Changes

variable (pool : Pool) (index other : Nat)

@[simp] theorem capacity_place (text : StoredText) :
    (pool.place index text).capacity = pool.capacity := by
  simp only [capacity, place, Array.size_setIfInBounds]

@[simp] theorem capacity_update (entry : Entry) :
    (pool.update index entry).capacity = pool.capacity := by
  simp only [capacity, update, Array.size_setIfInBounds]

@[simp] theorem capacity_vacate : (pool.vacate index).capacity = pool.capacity := by
  simp only [capacity, vacate, Array.size_setIfInBounds]

theorem lt_capacity_of_entryAt? {entry : Entry} (hentry : pool.entryAt? index = some entry) :
    index < pool.capacity := by
  by_contra hindex
  rw [entryAt?, Array.getElem?_eq_none (by rw [capacity] at hindex; omega)] at hentry
  simp at hentry

theorem entryAt?_place (text : StoredText) (hindex : index < pool.capacity) :
    (pool.place index text).entryAt? other
      = if index = other then some (.ofText text) else pool.entryAt? other := by
  rw [capacity] at hindex
  simp only [entryAt?, place, Array.getElem?_setIfInBounds, if_pos hindex]
  split <;> rfl

theorem entryAt?_update (entry : Entry) (hindex : index < pool.capacity) :
    (pool.update index entry).entryAt? other
      = if index = other then some entry else pool.entryAt? other := by
  rw [capacity] at hindex
  simp only [entryAt?, update, Array.getElem?_setIfInBounds, if_pos hindex]
  split <;> rfl

theorem entryAt?_vacate :
    (pool.vacate index).entryAt? other = if index = other then none else pool.entryAt? other := by
  simp only [entryAt?, vacate, Array.getElem?_setIfInBounds]
  split
  · split <;> rfl
  · rfl

end Changes

/-! ### Growth -/

theorem grown?_eq_some {pool grown : Pool} {additional : Nat}
    (hgrown : pool.grown? additional = some grown) :
    ∃ added, Word.ceil? (max additional 1) = some added ∧
      pool.config.admits (pool.capacity + added) = true ∧
      grown = { pool with
        slots := pool.slots ++ Array.replicate added .vacant
        occupied := pool.occupied.grow added } := by
  simp only [grown?, Option.bind_eq_bind, Option.bind_eq_some_iff, Option.guard_eq_some'] at hgrown
  obtain ⟨added, hadded, _, _, _, hadmits, _, _, hwords⟩ := hgrown
  refine ⟨added, hadded, hadmits, ?_⟩
  unfold Bitset.growWithin at hwords
  split_ifs at hwords
  exact (Option.some.inj hwords).symm

theorem capacity_of_grown? {pool grown : Pool} {additional : Nat}
    (hgrown : pool.grown? additional = some grown) :
    ∃ added, Word.ceil? (max additional 1) = some added ∧
      grown.capacity = pool.capacity + added := by
  obtain ⟨added, hadded, _, rfl⟩ := grown?_eq_some hgrown
  refine ⟨added, hadded, ?_⟩
  simp only [capacity, Array.size_append, Array.size_replicate]

/-- The one pool is the other with vacant slots added behind those it has. -/
structure Extends (pool grown : Pool) : Prop where
  config_eq : grown.config = pool.config
  blobs_eq : grown.blobs = pool.blobs
  boundary_eq : grown.boundary = pool.boundary
  cursor_eq : grown.cursor = pool.cursor
  capacity_le : pool.capacity ≤ grown.capacity
  entryAt?_eq : ∀ index, grown.entryAt? index = pool.entryAt? index
  contains_eq : ∀ index, grown.occupied.contains index = pool.occupied.contains index

theorem Extends.refl (pool : Pool) : pool.Extends pool :=
  ⟨rfl, rfl, rfl, rfl, Nat.le_refl _, fun _ => rfl, fun _ => rfl⟩

theorem extends_of_grown? {pool grown : Pool} {additional : Nat}
    (hgrown : pool.grown? additional = some grown) :
    pool.Extends grown ∧ max additional 1 ≤ grown.capacity - pool.capacity := by
  obtain ⟨added, hadded, _, rfl⟩ := grown?_eq_some hgrown
  obtain ⟨_, hle, _⟩ := Word.ceil?_eq_some hadded
  have hcapacity : (pool.slots ++ Array.replicate added Slot.vacant).size = pool.capacity + added := by
    rw [Array.size_append, Array.size_replicate, capacity]
  refine ⟨⟨rfl, rfl, rfl, rfl, ?_, fun index => ?_, fun index => ?_⟩, ?_⟩
  · rw [capacity, capacity, hcapacity]
    exact Nat.le_add_right _ _
  · simp only [entryAt?, Array.getElem?_append, Array.getElem?_replicate]
    split
    · rfl
    · next hindex =>
      rw [Array.getElem?_eq_none (by omega)]
      split <;> rfl
  · exact pool.occupied.contains_grow added index
  · rw [capacity, hcapacity]
    omega

/-! ### Many slots -/

/-- The two pools differ at most in what stands in their slots. -/
structure SameFrame (pool other : Pool) : Prop where
  config_eq : other.config = pool.config
  blobs_eq : other.blobs = pool.blobs
  boundary_eq : other.boundary = pool.boundary
  cursor_eq : other.cursor = pool.cursor
  capacity_eq : other.capacity = pool.capacity

theorem sameFrame_foldl_vacate (indices : List Nat) (pool : Pool) :
    pool.SameFrame (indices.foldl vacate pool) := by
  induction indices generalizing pool with
  | nil => exact ⟨rfl, rfl, rfl, rfl, rfl⟩
  | cons index rest ih =>
    obtain ⟨hconfig, hblobs, hboundary, hcursor, hcapacity⟩ := ih (pool.vacate index)
    exact ⟨hconfig, hblobs, hboundary, hcursor, hcapacity.trans (pool.capacity_vacate index)⟩

theorem entryAt?_foldl_vacate (indices : List Nat) (pool : Pool) (other : Nat) :
    (indices.foldl vacate pool).entryAt? other
      = if other ∈ indices then none else pool.entryAt? other := by
  induction indices generalizing pool with
  | nil => simp
  | cons index rest ih =>
    rw [List.foldl_cons, ih, entryAt?_vacate]
    by_cases hrest : other ∈ rest
    · simp [hrest]
    · by_cases hindex : index = other
      · simp [hindex]
      · simp [hrest, hindex, Ne.symm hindex]

theorem sameFrame_placeSpans (blob first : Nat) (spans : List Span) (pool : Pool) :
    pool.SameFrame (placeSpans blob first spans pool) := by
  induction spans generalizing first pool with
  | nil => exact ⟨rfl, rfl, rfl, rfl, rfl⟩
  | cons span rest ih =>
    obtain ⟨hconfig, hblobs, hboundary, hcursor, hcapacity⟩ :=
      ih (first + 1) (pool.place first (.static blob span))
    exact ⟨hconfig, hblobs, hboundary, hcursor, hcapacity.trans (pool.capacity_place first _)⟩

theorem entryAt?_placeSpans (blob first : Nat) (spans : List Span) (pool : Pool) (other : Nat)
    (hroom : first + spans.length ≤ pool.capacity) :
    (placeSpans blob first spans pool).entryAt? other =
      if hother : first ≤ other ∧ other < first + spans.length then
        some (.ofText (.static blob (spans.get ⟨other - first, by omega⟩)))
      else pool.entryAt? other := by
  induction spans generalizing first pool with
  | nil => simp [placeSpans]
  | cons span rest ih =>
    rw [List.length_cons] at hroom
    rw [placeSpans, ih (first + 1) _ (by rw [capacity_place]; omega),
      entryAt?_place _ _ _ _ (by omega)]
    by_cases hfirst : first = other
    · subst hfirst
      simp
    · by_cases hlater : first + 1 ≤ other ∧ other < first + 1 + rest.length
      · have hsplit : other - first = (other - (first + 1)) + 1 := by omega
        rw [dif_pos hlater, dif_pos (by rw [List.length_cons]; omega)]
        simp only [hsplit]
        rfl
      · rw [dif_neg hlater, if_neg hfirst, dif_neg (by rw [List.length_cons]; omega)]

end TextPool.Pool
