import TextPool.Proofs.Bitset.Growth
import TextPool.Proofs.Pool.Invariant

/-!
# Growing a table, all or nothing

A machine that makes a table larger rounds what is asked for up to whole words and adds it to the
capacity, and it looks whether either still is a word before it asks for memory and makes the set of
the occupied slots larger by as much (`Stepwise.SlotTable.grow?`). The set of a sound pool is as
large as its table, so the sum that the set forms without looking is the one that was looked at. The
set and the table are thus of one size afterwards, whatever is asked for and whatever memory there
is.

A set by itself becomes larger by just as many positions as are asked for, all of them absent, or
stays as it is for want of memory, if the new size is a word, and then it makes no difference how
the machine adds where sums do not fit. If the new size is no word, a machine that looks gets stuck,
and one that does not look answers that it was done and leaves fewer positions than there were
(`growth_past_greatest`).
-/

namespace TextPool

namespace Pool

def widened (pool : Pool) (added : Nat) : Pool :=
  { pool with
    slots := pool.slots ++ Array.replicate added .vacant
    occupied := pool.occupied.grow added }

end Pool

namespace Stepwise

/-- The slots of a pool and the set of those that are occupied, as a machine keeps them. -/
structure SlotTable where
  slots : Array Slot
  occupied : Packed
  deriving DecidableEq

namespace SlotTable

def ofPool (pool : Pool) : SlotTable :=
  ⟨pool.slots, Packed.ofBitset pool.occupied⟩

section Steps

variable (add : Nat → Nat → Option Nat) (slotMemory wordMemory : Nat → Bool) (config : Config)

/-- How many slots are added and how many there are then, if there may be that many. -/
def extent? (capacity additional : Nat) : Option (Nat × Nat) := do
  let added ← Word.ceil? (max additional 1)
  let total ← sum capacity added
  guard (config.admits total)
  guard (slotMemory added)
  return (added, total)

/-- Tells whether anything was done. -/
def grow? (table : SlotTable) (additional : Nat) : Option (Bool × SlotTable) :=
  match extent? slotMemory config table.slots.size additional with
  | none => return (false, table)
  | some (added, total) => do
    let (done, occupied) ← table.occupied.growWithin? add wordMemory added
    if done then
      return (true, ⟨table.slots ++ Array.replicate (total - table.slots.size) .vacant, occupied⟩)
    else return (false, ⟨table.slots, occupied⟩)

end Steps

theorem extent?_eq_some {slotMemory : Nat → Bool} {config : Config}
    {capacity additional added total : Nat}
    (hextent : extent? slotMemory config capacity additional = some (added, total)) :
    Word.ceil? (max additional 1) = some added ∧ total = capacity + added ∧ total < Word.limit ∧
      slotMemory added = true := by
  simp only [extent?, Option.bind_eq_bind, Option.bind_eq_some_iff, Option.guard_eq_some',
    Option.pure_def, Option.some.injEq, Prod.mk.injEq] at hextent
  obtain ⟨added, hadded, total, htotal, _, _, _, hmemory, rfl, rfl⟩ := hextent
  rw [sum] at htotal
  split at htotal
  · next hlimit =>
    obtain rfl := Option.some.inj htotal
    exact ⟨hadded, rfl, hlimit, hmemory⟩
  · cases htotal

inductive Grows (pool : Pool) (additional : Nat) : Bool × SlotTable → Prop
  | grown {added : Nat} (hadded : Word.ceil? (max additional 1) = some added)
      (hlimit : pool.capacity + added < Word.limit) :
      Grows pool additional (true, ofPool (pool.widened added))
  | refused : Grows pool additional (false, ofPool pool)

section OfPool

variable {pool : Pool} (hsize : pool.occupied.size = pool.capacity)

include hsize

theorem Grows.size_eq {additional : Nat} {done : Bool × SlotTable}
    (hgrows : Grows pool additional done) : done.2.occupied.size = done.2.slots.size := by
  cases hgrows with
  | refused => exact hsize
  | grown =>
    rename_i added _ _
    have hslots : (pool.widened added).slots.size = pool.capacity + added := by
      rw [Pool.widened, Array.size_append, Array.size_replicate, Pool.capacity]
    exact (congrArg (· + added) hsize).trans hslots.symm

variable {add : Nat → Nat → Option Nat} (hadd : Adds add) (slotMemory wordMemory : Nat → Bool)
  (additional : Nat)

include hadd

/-- The sum that is formed without a look fits a word, for it is the one that was looked at. -/
theorem grow?_ofPool : (ofPool pool).grow? add slotMemory wordMemory pool.config additional
    = some (match extent? slotMemory pool.config pool.capacity additional with
      | none => (false, ofPool pool)
      | some (added, _) =>
        if 0 < pool.occupied.lacking added ∧ wordMemory (pool.occupied.lacking added) = false
          then (false, ofPool pool)
          else (true, ofPool (pool.widened added))) := by
  have hcapacity : (ofPool pool).slots.size = pool.capacity := rfl
  rw [grow?, hcapacity]
  cases hextent : extent? slotMemory pool.config pool.capacity additional with
  | none => rfl
  | some extent =>
    obtain ⟨added, total⟩ := extent
    obtain ⟨_, rfl, hlimit, _⟩ := extent?_eq_some hextent
    have hmore : pool.capacity + added - pool.capacity = added := Nat.add_sub_cancel_left _ _
    have hset := Bitset.growWithin?_eq (hsize ▸ hlimit) hadd wordMemory
    dsimp only [ofPool]
    rw [hset, Option.bind_eq_bind, Option.bind_some]
    split
    · rfl
    · rw [if_pos rfl, hmore]
      rfl

theorem exists_grow? : ∃ done,
    (ofPool pool).grow? add slotMemory wordMemory pool.config additional = some done ∧
      Grows pool additional done := by
  refine ⟨_, grow?_ofPool hsize hadd slotMemory wordMemory additional, ?_⟩
  split
  · exact .refused
  · next added total hextent =>
    obtain ⟨hadded, rfl, hlimit, _⟩ := extent?_eq_some hextent
    split
    · exact .refused
    · exact .grown hadded hlimit

end OfPool

end SlotTable

end Stepwise

namespace Pool

open Stepwise (Adds SlotTable)

/-- The memory that there is for the slots will do for the words. -/
theorem grants_lacking {pool : Pool} {added : Nat} (hmemory : pool.config.grants added = true) :
    pool.config.grants (pool.occupied.lacking added) = true := by
  have hlacking := pool.occupied.lacking_le added
  have hmore : added < pool.config.memory := of_decide_eq_true hmemory
  exact decide_eq_true (by omega)

section Sized

variable {pool : Pool} (hsize : pool.occupied.size = pool.capacity) (additional : Nat)

include hsize

theorem grown?_eq_map : pool.grown? additional
    = (SlotTable.extent? pool.config.grants pool.config pool.capacity additional).map
        fun extent => pool.widened extent.1 := by
  simp only [grown?, SlotTable.extent?]
  cases Word.ceil? (max additional 1) with
  | none => rfl
  | some added =>
    by_cases hlimit : pool.capacity + added < Word.limit
    · have hsum : Stepwise.sum pool.capacity added = some (pool.capacity + added) :=
        Stepwise.adds_sum _ _ hlimit
      have hset := Bitset.growWithin_of_fits (hsize ▸ hlimit) pool.config.memory
      simp only [Option.bind_eq_bind, Option.bind_some, hsum, hlimit, hset, guard_true, Option.pure_def]
      cases pool.config.admits (pool.capacity + added) with
      | false => rfl
      | true =>
        cases hmemory : pool.config.grants added with
        | false => rfl
        | true =>
          have hwords := of_decide_eq_true (grants_lacking hmemory)
          rw [if_neg fun hrefused => absurd hrefused.2 (Nat.not_le_of_lt hwords)]
          rfl
    · have hsum : Stepwise.sum pool.capacity added = none := if_neg hlimit
      simp only [Option.bind_eq_bind, Option.bind_some, hsum, hlimit, guard_false]
      rfl

/-- Slots are added if their count and the capacity then are words, the capacity is admitted, and
there is memory. -/
theorem perform_grow_of_size : pool.perform (.grow additional)
    = match SlotTable.extent? pool.config.grants pool.config pool.capacity additional with
      | some (added, _) => (.ok .done, pool.widened added)
      | none => (.error (.exhausted additional), pool) := by
  rw [perform_grow, grown?_eq_map hsize]
  cases SlotTable.extent? pool.config.grants pool.config pool.capacity additional <;> rfl

theorem grow?_eq_perform {add : Nat → Nat → Option Nat} (hadd : Adds add) :
    (SlotTable.ofPool pool).grow? add pool.config.grants pool.config.grants pool.config additional
      = some ((pool.perform (.grow additional)).1.isOk,
          SlotTable.ofPool (pool.perform (.grow additional)).2) := by
  rw [SlotTable.grow?_ofPool hsize hadd, perform_grow_of_size hsize]
  cases hextent : SlotTable.extent? pool.config.grants pool.config pool.capacity additional with
  | none => rfl
  | some extent =>
    obtain ⟨added, total⟩ := extent
    obtain ⟨_, _, _, hmemory⟩ := SlotTable.extent?_eq_some hextent
    dsimp only
    rw [if_neg fun hrefused => Bool.false_ne_true (hrefused.2.symm.trans (grants_lacking hmemory))]
    rfl

end Sized

/-- A set grows as a whole or not at all exactly if its new size is a word, and a table of slots
always does. -/
theorem growth_whole {size : Nat} (hsize : size < Word.limit) {run : List Bitset.Change}
    (hrun : (Bitset.ofSize size).Admits run) {config : Config} {pool : Pool}
    (hreachable : Reachable config pool) {additional : Nat} (hadditional : additional < Word.limit) :
    let bits := (Bitset.ofSize size).after run
    let done := pool.perform (.grow additional)
    (bits.GrowsWhole (Bitset.membersAfter run) additional ↔ bits.size + additional < Word.limit) ∧
      (Word.limit ≤ bits.size + additional → bits.Overflows additional) ∧
      done.2.occupied.size = done.2.slots.size ∧
      done = (match SlotTable.extent? config.grants config pool.capacity additional with
        | some (added, _) => (.ok .done, pool.widened added)
        | none => (.error (.exhausted additional), pool)) ∧
      ∀ add, Adds add →
        (SlotTable.ofPool pool).grow? add config.grants config.grants config additional
          = some (done.1.isOk, SlotTable.ofPool done.2) ∧
        ∀ slotMemory wordMemory : Nat → Bool, ∃ left,
          (SlotTable.ofPool pool).grow? add slotMemory wordMemory config additional = some left ∧
            SlotTable.Grows pool additional left ∧ left.2.occupied.size = left.2.slots.size := by
  intro bits done
  obtain ⟨hsound, rfl⟩ := sound_of_reachable hreachable
  have hoccupied := hsound.occupied_size
  have hbits : bits.size < Word.limit :=
    Bitset.size_after_lt_limit ((Nat.zero_add size).trans_lt hsize) hrun
  have hoperation : (Operation.grow additional).WellFormed := trivial
  have hleft : done.2.Sound := (hsound.perform hoperation).1
  refine ⟨((Bitset.represents_ofSize size).after hrun).growsWhole_iff additional,
    Bitset.overflows hbits hadditional, hleft.occupied_size,
    perform_grow_of_size hoccupied additional, fun add hadd =>
      ⟨grow?_eq_perform hoccupied additional hadd, fun slotMemory wordMemory => ?_⟩⟩
  obtain ⟨left, hdone, hgrows⟩ :=
    SlotTable.exists_grow? hoccupied hadd slotMemory wordMemory additional
  exact ⟨left, hdone, hgrows, hgrows.size_eq hoccupied⟩

/-- A set is grown up to the greatest size and past it, and a pool by one word, with memory for
slots but none for the set. -/
theorem growth_whole_greatest :
    let bits := (Bitset.ofSize 3).after [.insert 2, .growWithin 1 59]
    let pool := (ofConfig {}).after [.allocate [97]]
    bits.GrowsWhole {2} 0xFFFFFFFFFFFFFFC1 ∧ bits.Overflows 0xFFFFFFFFFFFFFFC2 ∧
      (pool.perform (.grow 0xFFFFFFFFFFFFFFC2)).2.occupied.size
        = (pool.perform (.grow 0xFFFFFFFFFFFFFFC2)).2.slots.size ∧
      ∃ left,
        (SlotTable.ofPool pool).grow? Stepwise.wrapped (fun _ => true) (fun _ => false) {} 64
          = some left ∧ left.2.occupied.size = left.2.slots.size := by
  intro bits pool
  have hlimit : Word.limit = 0x10000000000000000 := rfl
  have hrun : (Bitset.ofSize 3).Admits [.insert 2, .growWithin 1 59] := by
    simp only [Bitset.Admits, Bitset.Change.FitsIn]
    decide +kernel
  have hsize : bits.size = 62 := by decide +kernel
  have hmembers : Bitset.membersAfter [.insert 2, .growWithin 1 59] = {2} := by decide
  have hstart : 3 < Word.limit := by omega
  have hreachable : Reachable {} pool := ⟨_, by decide, rfl⟩
  have hfits : bits.size + 0xFFFFFFFFFFFFFFC1 < Word.limit := by omega
  have hpast : Word.limit ≤ bits.size + 0xFFFFFFFFFFFFFFC2 := by omega
  obtain ⟨hwhole, _⟩ := growth_whole hstart hrun hreachable (by omega : 0xFFFFFFFFFFFFFFC1 < Word.limit)
  obtain ⟨_, hover, hsame, _⟩ :=
    growth_whole hstart hrun hreachable (by omega : 0xFFFFFFFFFFFFFFC2 < Word.limit)
  obtain ⟨_, _, _, _, hmachine⟩ := growth_whole hstart hrun hreachable (by omega : 64 < Word.limit)
  obtain ⟨left, hdone, _, hleft⟩ :=
    (hmachine _ Stepwise.adds_wrapped).2 (fun _ => true) fun _ => false
  rw [hmembers] at hwhole
  exact ⟨hwhole.mpr hfits, hover hpast, hsame, left, hdone, hleft⟩

/-- A set of one position is to have as many more as a word can tell, which has no outcome. -/
theorem growth_past_greatest :
    let bits := (Bitset.ofSize 1).after [.insert 0]
    (Bitset.ofSize 1).Admits [.insert 0] ∧ bits.size = 1 ∧ 0xFFFFFFFFFFFFFFFF < Word.limit ∧
      (∀ memory, bits.growWithin memory 0xFFFFFFFFFFFFFFFF = .overflow) ∧
      (∀ reserves, (Stepwise.Packed.ofBitset bits).growWithin? Stepwise.sum reserves
        0xFFFFFFFFFFFFFFFF = none) ∧
      ∀ reserves, (Stepwise.Packed.ofBitset bits).growWithin? Stepwise.wrapped reserves
        0xFFFFFFFFFFFFFFFF = some (true, ⟨#[1], 0⟩) := by
  intro bits
  have hrun : (Bitset.ofSize 1).Admits [.insert 0] := by
    simp only [Bitset.Admits, Bitset.Change.FitsIn]
    decide +kernel
  have hsize : bits.size = 1 := by decide +kernel
  have hwords : bits.words = #[1] := by decide +kernel
  have hpast : Word.limit ≤ bits.size + 0xFFFFFFFFFFFFFFFF := hsize ▸ (by decide)
  refine ⟨hrun, hsize, by decide, fun memory => ?_, Bitset.growWithin?_sum hpast, fun reserves => ?_⟩
  · exact (bits.growWithin_eq_overflow_iff memory _).mpr hpast
  · rw [Bitset.growWithin?_wrapped hpast reserves (hsize ▸ by decide) (by decide), hsize, hwords]
    rfl

end Pool

end TextPool
