import TextPool.Proofs.Pool.Invariant

/-!
# Slots are used again

A pool that is asked for strings only, and neither for slots nor for tables, adds slots when every
slot it has holds a string, and at no other time (`Sound.capacity_of_sparing`): the search for a
vacant slot misses none, wherever the cursor stands and however the vacant slots are scattered. So
the capacity never gets further above the greatest count of strings there has been than one block,
unless it started there (`capacity_le_peak`).
-/

namespace TextPool

/-- The request neither adds slots by itself nor loads a table. -/
def Operation.sparing : Operation → Bool
  | .grow _ | .load _ | .loadSections _ _ => false
  | _ => true

theorem Operation.table?_of_sparing {operation : Operation} (hsparing : operation.sparing = true) :
    operation.table? = none := by
  cases operation with
  | load | loadSections => exact Bool.noConfusion hsparing
  | _ => rfl

theorem Operation.wellFormed_of_sparing {operation : Operation}
    (hsparing : operation.sparing = true) : operation.WellFormed :=
  wellFormed_of_table?_eq_none (table?_of_sparing hsparing)

/-- How many slots a pool adds when it needs one, in whole words. -/
def Config.increment (config : Config) : Nat :=
  Word.needed (max config.block 1) * Word.width

theorem Config.increment_eq_of_ceil? {config : Config} {added : Nat}
    (hadded : Word.ceil? (max config.block 1) = some added) : config.increment = added := by
  simp only [Word.ceil?] at hadded
  split at hadded
  · exact Option.some.inj hadded
  · cases hadded

namespace Pool

/-- The greatest count of strings on a run, from the pool that it starts on to the one it leaves. -/
def peak : Pool → List Operation → Nat
  | pool, [] => pool.count
  | pool, operation :: rest => max pool.count ((pool.perform operation).2.peak rest)

theorem count_le_peak (pool : Pool) (run : List Operation) : pool.count ≤ pool.peak run := by
  cases run with
  | nil => exact Nat.le_refl _
  | cons operation rest => exact Nat.le_max_left _ _

/-! ### One request -/

theorem Sound.count_eq_capacity {pool : Pool} (hsound : pool.Sound)
    (hfull : ∀ index, index < pool.capacity → pool.occupied.contains index = true) :
    pool.count = pool.capacity := by
  have hrange : pool.occupied.toList = List.range pool.capacity := by
    refine Bitset.toList_eq_range fun index => ⟨fun hcontains => ?_, hfull index⟩
    obtain ⟨entry, hentry⟩ := (hsound.contains_iff index).mp hcontains
    exact pool.lt_capacity_of_entryAt? index hentry
  rw [count, ← Bitset.length_toList, hrange, List.length_range]

/-- The table grew by a block, and before that every slot held a string. -/
structure Expanded (pool left : Pool) : Prop where
  full : ∀ index, index < pool.capacity → pool.occupied.contains index = true
  capacity_eq : left.capacity = pool.capacity + pool.config.increment

theorem Sound.expanded_of_opens {pool room : Pool} {index : Nat} (hsound : pool.Sound)
    (hboundary : pool.boundary = 1) (hopens : pool.Opens index room)
    (hgrown : room.capacity ≠ pool.capacity) : pool.Expanded room := by
  obtain heq | ⟨hfull, added, hadded, hcapacity⟩ := hopens.full_or_eq
  · exact absurd heq hgrown
  · refine ⟨fun other hother => (hsound.contains_iff other).mpr ?_, ?_⟩
    · -- The first slot is below the boundary, and always holds the empty string.
      cases other with
      | zero =>
        rw [← Option.isSome_iff_exists, isSome_entryAt?, hsound.first]
        rfl
      | succ other => exact hfull _ (by omega) hother
    · rw [hcapacity, Config.increment_eq_of_ceil? hadded]

theorem Sound.capacity_of_sparing {pool : Pool} (hsound : pool.Sound)
    (hboundary : pool.boundary = 1) {operation : Operation} (hsparing : operation.sparing = true) :
    (pool.perform operation).2.boundary = 1 ∧
      ((pool.perform operation).2.capacity = pool.capacity ∨
        pool.Expanded (pool.perform operation).2) := by
  have heffect := pool.perform_effect operation
  have hnone := Operation.table?_of_sparing hsparing
  generalize (pool.perform operation).1 = outcome at heffect
  generalize (pool.perform operation).2 = left at heffect ⊢
  cases heffect with
  | looked | refused | absent | unowned | faulty | crowded => exact ⟨hboundary, .inl rfl⟩
  | @made operation product index room _ _ hopening =>
    have hopens := hsound.opens hopening
    have hcapacity : (room.placeDynamic index product.upToZero).capacity = room.capacity :=
      room.capacity_place index _
    refine ⟨hopens.extension.boundary_eq.trans hboundary, ?_⟩
    by_cases hgrown : room.capacity = pool.capacity
    · exact .inl (hcapacity.trans hgrown)
    · obtain ⟨hfull, hadded⟩ := hsound.expanded_of_opens hboundary hopens hgrown
      exact .inr ⟨hfull, hcapacity.trans hadded⟩
  | lengthened | retained | released => exact ⟨hboundary, .inl (pool.capacity_update _ _)⟩
  | removed => exact ⟨hboundary, .inl (pool.capacity_vacate _)⟩
  | swept =>
    have hframe := sameFrame_foldl_vacate pool.idle pool
    exact ⟨hframe.boundary_eq.trans hboundary, .inl hframe.capacity_eq⟩
  | grown => exact Bool.noConfusion hsparing
  | blocked htable | halfway htable | loaded htable => exact nomatch hnone.symm.trans htable

/-! ### Runs -/

theorem Sound.capacity_after_le {pool : Pool} (hsound : pool.Sound) (hboundary : pool.boundary = 1)
    {run : List Operation} (hrun : ∀ operation ∈ run, operation.sparing = true) :
    (pool.after run).Sound ∧ (pool.after run).boundary = 1 ∧
      (pool.after run).capacity ≤ max pool.capacity (pool.peak run + pool.config.increment) := by
  induction run generalizing pool with
  | nil => exact ⟨hsound, hboundary, Nat.le_max_left _ _⟩
  | cons operation rest ih =>
    obtain ⟨hsparing, hrest⟩ := List.forall_mem_cons.mp hrun
    obtain ⟨hleft, hprecedes⟩ := hsound.perform (Operation.wellFormed_of_sparing hsparing)
    obtain ⟨hstays, hcapacity⟩ := hsound.capacity_of_sparing hboundary hsparing
    obtain ⟨hlast, hend, hbound⟩ := ih hleft hstays hrest
    refine ⟨hlast, hend, Nat.le_trans hbound (Nat.max_le.mpr ⟨?_, ?_⟩)⟩
    · obtain hsame | hexpanded := hcapacity
      · exact Nat.le_trans (Nat.le_of_eq hsame) (Nat.le_max_left _ _)
      · refine Nat.le_trans (Nat.le_of_eq hexpanded.capacity_eq) (Nat.le_trans ?_ (Nat.le_max_right _ _))
        rw [← hsound.count_eq_capacity hexpanded.full]
        exact Nat.add_le_add_right (pool.count_le_peak (operation :: rest)) _
    · rw [hprecedes.config_eq]
      exact Nat.le_trans (Nat.add_le_add_right (Nat.le_max_right _ _) _) (Nat.le_max_right _ _)

/-- A new pool that is asked for strings only has at most one block more than the greatest count of
strings there has been. -/
theorem capacity_le_peak (config : Config) (run : List Operation)
    (hrun : ∀ operation ∈ run, operation.sparing = true) :
    ((ofConfig config).after run).capacity
        ≤ max (ofConfig config).capacity ((ofConfig config).peak run + config.increment) ∧
      ∀ operation : Operation, operation.sparing = true →
        (((ofConfig config).after run).perform operation).2.capacity
          ≠ ((ofConfig config).after run).capacity →
        ((ofConfig config).after run).count = ((ofConfig config).after run).capacity ∧
        ∀ handle : Handle, handle.index < ((ofConfig config).after run).capacity →
          ((ofConfig config).after run).contains handle = true := by
  obtain ⟨hsound, hboundary, hbound⟩ := (sound_ofConfig config).capacity_after_le rfl hrun
  refine ⟨hbound, fun operation hsparing hchange => ?_⟩
  obtain hsame | hexpanded := (hsound.capacity_of_sparing hboundary hsparing).2
  · exact absurd hsame hchange
  · exact ⟨hsound.count_eq_capacity hexpanded.full, fun handle => hexpanded.full handle.index⟩

/-- A pool of one word is filled, a string in the middle goes, and the next one takes its slot. The
one after that finds every slot taken. -/
theorem capacity_le_peak_refilled :
    let config : Config := { initial := 64, block := 1 }
    let run := List.replicate 63 (.allocate [97]) ++ [.retain ⟨5⟩, .release ⟨5⟩, .allocate [98]]
    let pool := (ofConfig config).after run
    pool.text ⟨5⟩ = .ok [98] ∧ pool.capacity ≤ max 64 (64 + 64) ∧
      (pool.perform (.allocate [99])).2.capacity = 128 ∧ pool.count = pool.capacity := by
  intro config run pool
  have hrun : ∀ operation ∈ run, operation.sparing = true := by decide +kernel
  obtain ⟨hbound, hfull⟩ := capacity_le_peak config run hrun
  have hstart : (ofConfig config).capacity = 64 := by decide +kernel
  have hpeak : (ofConfig config).peak run = 64 := by decide +kernel
  have hincrement : config.increment = 64 := by decide
  have hlater : (pool.perform (.allocate [99])).2.capacity = 128 := by decide +kernel
  have hchange : (pool.perform (.allocate [99])).2.capacity ≠ pool.capacity := by decide +kernel
  rw [hstart, hpeak, hincrement] at hbound
  exact ⟨by decide +kernel, hbound, hlater, (hfull (.allocate [99]) rfl hchange).1⟩

end Pool

end TextPool
