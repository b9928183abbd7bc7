import TextPool.Proofs.Bitset.LinearSearch
import TextPool.Proofs.Pool.Content

/-!
# The order in which slots are given out

Which slot a new string takes is settled by the boundary, the capacity, the cursor, and which slots
hold strings (`Chooses`): that at the cursor, else the least free one from the cursor's word on,
else the least free one from the boundary on, and a new one only where all of these are taken. It is
the slot that the search finds (`Sound.opening?_eq_some_iff`), and every request that makes a string
takes it (`Sound.perform_eq_store`). A string finds no slot only where all from the boundary on are
taken and there can be no more, and then nothing changes.

The cursor itself can be told from the answers along a run (`cursorAlong`): it stands behind the
slot taken last, or at the boundary if a table has been loaded since.
-/

namespace TextPool

theorem Word.isLeast_ceil? {count rounded : Nat} (hceil : ceil? count = some rounded) :
    IsLeast {size | 64 ∣ size ∧ count ≤ size} rounded := by
  obtain ⟨hwords, hle, hlt, _⟩ := ceil?_eq_some hceil
  refine ⟨⟨hwords, hle⟩, fun size ⟨hsize, hcount⟩ => ?_⟩
  simp only [width] at *
  omega

namespace Pool

/-! ### The cursor -/

/-- Where the cursor stands after a request. A handle that is answered and was free before is that
of a new string. -/
def cursorAfter (pool : Pool) (cursor : Nat) (operation : Operation) : Nat :=
  match pool.perform operation with
  | (.ok (.made handle), _) => if pool.contains handle then cursor else handle.index + 1
  | (.ok (.range _), left) => left.boundary
  | _ => cursor

def cursorAlong : Pool → Nat → List Operation → Nat
  | _, cursor, [] => cursor
  | pool, cursor, operation :: rest =>
    (pool.perform operation).2.cursorAlong (pool.cursorAfter cursor operation) rest

private theorem cursorAfter_of_answer {α : Type} {action : Action α} {answer : α → Answer}
    (pool : Pool) (cursor : Nat) {operation : Operation}
    (hact : act operation = do return answer (← action))
    (hmade : ∀ value handle, answer value ≠ .made handle)
    (hrange : ∀ value handles, answer value ≠ .range handles) :
    pool.cursorAfter cursor operation = cursor := by
  rw [cursorAfter, perform, hact, runOn_answer]
  split
  · next handle left heq =>
    obtain ⟨value, _, hvalue⟩ := map_eq_ok_iff.mp (Prod.mk.inj heq).1
    exact absurd hvalue (hmade value handle)
  · next handles left heq =>
    obtain ⟨value, _, hvalue⟩ := map_eq_ok_iff.mp (Prod.mk.inj heq).1
    exact absurd hvalue (hrange value handles)
  · rfl

theorem cursorAfter_of_looks (pool : Pool) (cursor : Nat) {operation : Operation}
    (hlooks : operation.looks = true) : pool.cursorAfter cursor operation = cursor := by
  cases operation with
  | contains | config | listing | dump => rfl
  | text | display | owners | kind | handle | length | byteAt | find | findBytes | order
  | orderIgnoringCase | readHexadecimal =>
    exact cursorAfter_of_answer pool cursor rfl (fun _ _ => nofun) fun _ _ => nofun
  | _ => exact Bool.noConfusion hlooks

theorem cursor_of_placed? {pool placed : Pool} {table : StringTable}
    (hplaced : pool.placed? table = some placed) : placed.cursor = pool.cursor := by
  obtain ⟨room, hroom, _, rfl⟩ := placed?_eq_some hplaced
  have hframe := sameFrame_placeSpans room.blobs.size pool.cursor table.spans
    { room with blobs := room.blobs.push table.blob }
  exact hframe.cursor_eq.trans (extends_of_roomFor? hroom).1.cursor_eq

theorem Sound.cursor_perform {pool : Pool} (hsound : pool.Sound) (operation : Operation) :
    (pool.perform operation).2.cursor = pool.cursorAfter pool.cursor operation := by
  by_cases hlooks : operation.looks = true
  · rw [cursorAfter_of_looks pool _ hlooks, perform_of_looks pool hlooks]
  have hlive {index : Nat} {entry : Entry} (hentry : pool.entryAt? index = some entry) :
      pool.contains ⟨index⟩ = true := (hsound.contains_iff index).mpr ⟨entry, hentry⟩
  have heffect := pool.perform_effect operation
  rw [cursorAfter]
  generalize pool.perform operation = done at heffect ⊢
  obtain ⟨outcome, left⟩ := done
  dsimp only at heffect ⊢
  cases heffect with
  | looked hlooked => exact absurd hlooked hlooks
  | refused | retained | unowned | released | removed | faulty | crowded => rfl
  | @made _ product index room _ _ hopening =>
    dsimp only
    rw [(hsound.opens hopening).contains_eq_false hsound]
    rfl
  | absent => exact (if_pos hsound.contains_empty).symm
  | lengthened _ _ hentry => exact (if_pos (hlive hentry)).symm
  | swept => exact (sameFrame_foldl_vacate pool.idle pool).cursor_eq
  | grown hgrown => exact (extends_of_grown? hgrown).1.cursor_eq
  | blocked _ hroom _ => exact (extends_of_roomFor? hroom).1.cursor_eq
  | halfway _ hplaced _ => exact cursor_of_placed? hplaced
  | loaded => rfl

theorem Sound.cursor_after {pool : Pool} (hsound : pool.Sound) {run : List Operation}
    (hrun : ∀ operation ∈ run, operation.WellFormed) :
    (pool.after run).cursor = pool.cursorAlong pool.cursor run := by
  induction run generalizing pool with
  | nil => rfl
  | cons operation rest ih =>
    obtain ⟨hoperation, hrest⟩ := List.forall_mem_cons.mp hrun
    rw [cursorAlong, ← hsound.cursor_perform operation]
    exact ih (hsound.perform hoperation).1 hrest

/-! ### The slot to take -/

def free (pool : Pool) (start stop : Nat) : Set Nat :=
  {index | start ≤ index ∧ index < stop ∧ pool.contains ⟨index⟩ = false}

/-- The slot that a new string is to take, and the pool with that slot in it, where the search that
follows a look at the cursor's slot is to begin at `start`. -/
inductive Chooses (pool : Pool) (start : Nat) : Nat → Pool → Prop
  | cursor (hcursor : pool.cursor < pool.capacity) (hfree : pool.contains ⟨pool.cursor⟩ = false) :
      Chooses pool start pool.cursor pool
  | ahead {index : Nat}
      (htaken : ¬(pool.cursor < pool.capacity ∧ pool.contains ⟨pool.cursor⟩ = false))
      (hleast : IsLeast (pool.free start pool.capacity) index) : Chooses pool start index pool
  | around {index : Nat}
      (htaken : ¬(pool.cursor < pool.capacity ∧ pool.contains ⟨pool.cursor⟩ = false))
      (hahead : pool.free start pool.capacity = ∅)
      (hleast : IsLeast (pool.free pool.boundary start) index) : Chooses pool start index pool
  /-- Every slot from the boundary on is taken, and there can be another block of them. -/
  | grown {room : Pool} {added : Nat} (hfull : pool.free pool.boundary pool.capacity = ∅)
      (hgrown : (grow pool.config.block).runOn pool = (.ok (), room))
      (hadded : IsLeast {size | 64 ∣ size ∧ max pool.config.block 1 ≤ size} added)
      (hcapacity : room.capacity = pool.capacity + added) : Chooses pool start pool.capacity room

def Stuck (pool : Pool) : Prop :=
  pool.free pool.boundary pool.capacity = ∅ ∧
    (grow pool.config.block).runOn pool = (.error (.exhausted pool.config.block), pool)

theorem vacantIndex?_of_taken {pool : Pool}
    (htaken : ¬(pool.cursor < pool.capacity ∧ pool.contains ⟨pool.cursor⟩ = false)) :
    pool.vacantIndex? =
      match pool.occupied.firstAbsent? pool.searchStart pool.capacity with
      | some index => some index
      | none =>
        if pool.boundary < pool.searchStart then
          pool.occupied.firstAbsent? pool.boundary pool.searchStart
        else none :=
  if_neg htaken

namespace Sound

variable {pool : Pool} (hsound : pool.Sound)

include hsound

theorem absentBetween_eq (start : Nat) {stop : Nat} (hstop : stop ≤ pool.capacity) :
    pool.occupied.absentBetween start stop = pool.free start stop := by
  rw [Bitset.absentBetween, hsound.occupied_size, Nat.min_eq_left hstop]
  rfl

theorem firstAbsent?_eq_some_iff {start stop index : Nat} (hstop : stop ≤ pool.capacity) :
    pool.occupied.firstAbsent? start stop = some index ↔ IsLeast (pool.free start stop) index := by
  rw [Bitset.firstAbsent?_eq_some_iff, hsound.absentBetween_eq start hstop]

theorem firstAbsent?_eq_none_iff {start stop : Nat} (hstop : stop ≤ pool.capacity) :
    pool.occupied.firstAbsent? start stop = none ↔ pool.free start stop = ∅ := by
  rw [Bitset.firstAbsent?_eq_none_iff, hsound.absentBetween_eq start hstop]

theorem searchStart_le_capacity : pool.searchStart ≤ pool.capacity := by
  have hboundary := hsound.boundary_le_cursor
  have hcapacity := hsound.cursor_le_capacity
  have hfloor := Word.floor_le pool.cursor
  unfold searchStart
  split <;> omega

theorem vacantIndex?_eq_none_iff :
    pool.vacantIndex? = none ↔ pool.free pool.boundary pool.capacity = ∅ := by
  rw [Set.eq_empty_iff_forall_notMem]
  constructor
  · intro hnone index ⟨hboundary, hcapacity, hfree⟩
    have hfull := hsound.vacantIndex?_eq_none hnone index hboundary hcapacity
    rw [contains, hfull] at hfree
    exact Bool.noConfusion hfree
  · intro hfull
    rw [Option.eq_none_iff_forall_ne_some]
    intro index hfound
    exact hfull index (hsound.vacantIndex?_eq_some hfound)

/-- Each of the cases is found by the part of the search that is for it. -/
theorem opening?_of_chooses {index : Nat} {room : Pool}
    (hchooses : pool.Chooses pool.searchStart index room) :
    pool.opening? = some (index, room) := by
  cases hchooses with
  | cursor hcursor hfree => rw [opening?, vacantIndex?, if_pos ⟨hcursor, hfree⟩]
  | ahead htaken hleast =>
    rw [opening?, vacantIndex?_of_taken htaken,
      (hsound.firstAbsent?_eq_some_iff (Nat.le_refl _)).mpr hleast]
  | around htaken hahead hleast =>
    have hstart : pool.boundary < pool.searchStart := Nat.lt_of_le_of_lt hleast.1.1 hleast.1.2.1
    rw [opening?, vacantIndex?_of_taken htaken,
      (hsound.firstAbsent?_eq_none_iff (Nat.le_refl _)).mpr hahead]
    dsimp only
    rw [if_pos hstart, (hsound.firstAbsent?_eq_some_iff hsound.searchStart_le_capacity).mpr hleast]
  | grown hfull hgrown _ _ =>
    rw [opening?, hsound.vacantIndex?_eq_none_iff.mpr hfull]
    rw [runOn_grow] at hgrown
    cases hsome : pool.grown? pool.config.block with
    | none => simp [hsome] at hgrown
    | some grown =>
      rw [hsome] at hgrown
      rw [← (Prod.mk.inj hgrown).2]
      rfl

theorem chooses_of_opening? {index : Nat} {room : Pool}
    (hopening : pool.opening? = some (index, room)) :
    pool.Chooses pool.searchStart index room := by
  unfold opening? at hopening
  cases hvacant : pool.vacantIndex? with
  | none =>
    rw [hvacant] at hopening
    obtain ⟨grown, hgrown, heq⟩ := Option.map_eq_some_iff.mp hopening
    obtain ⟨rfl, rfl⟩ := Prod.mk.inj heq
    obtain ⟨added, hadded, hcapacity⟩ := capacity_of_grown? hgrown
    refine .grown (hsound.vacantIndex?_eq_none_iff.mp hvacant) ?_ (Word.isLeast_ceil? hadded) hcapacity
    rw [runOn_grow, hgrown]
  | some found =>
    rw [hvacant] at hopening
    obtain ⟨rfl, rfl⟩ := Prod.mk.inj (Option.some.inj hopening)
    unfold vacantIndex? at hvacant
    split at hvacant
    · next hcursor =>
      obtain rfl := Option.some.inj hvacant
      exact .cursor hcursor.1 hcursor.2
    · next htaken =>
      split at hvacant
      · next other hsearch =>
        obtain rfl := Option.some.inj hvacant
        exact .ahead htaken ((hsound.firstAbsent?_eq_some_iff (Nat.le_refl _)).mp hsearch)
      · next hahead =>
        split at hvacant
        · exact .around htaken ((hsound.firstAbsent?_eq_none_iff (Nat.le_refl _)).mp hahead)
            ((hsound.firstAbsent?_eq_some_iff hsound.searchStart_le_capacity).mp hvacant)
        · cases hvacant

theorem opening?_eq_some_iff {index : Nat} {room : Pool} :
    pool.opening? = some (index, room) ↔ pool.Chooses pool.searchStart index room :=
  ⟨hsound.chooses_of_opening?, hsound.opening?_of_chooses⟩

theorem opening?_eq_none_iff : pool.opening? = none ↔ pool.Stuck := by
  rw [Stuck, ← hsound.vacantIndex?_eq_none_iff, opening?, runOn_grow]
  cases pool.vacantIndex? with
  | some index => simp
  | none => cases pool.grown? pool.config.block <;> simp

theorem chooses_or_stuck :
    (∃ index room, pool.Chooses pool.searchStart index room) ∨ pool.Stuck := by
  cases hopening : pool.opening? with
  | none => exact .inr (hsound.opening?_eq_none_iff.mp hopening)
  | some opening => exact .inl ⟨_, _, hsound.opening?_eq_some_iff.mp hopening⟩

/-! ### Storing -/

theorem runOn_store_of_chooses {index : Nat} {room : Pool}
    (hchooses : pool.Chooses pool.searchStart index room) (bytes : Bytes) :
    (store bytes).runOn pool = (.ok ⟨index⟩, room.placeDynamic index bytes.upToZero) := by
  rw [runOn_store, hsound.opening?_eq_some_iff.mpr hchooses]

theorem runOn_store_eq_error_iff {bytes : Bytes} {failure : PoolError} {left : Pool} :
    (store bytes).runOn pool = (.error failure, left) ↔
      failure = .exhausted pool.config.block ∧ left = pool ∧ pool.Stuck := by
  rw [← hsound.opening?_eq_none_iff, runOn_store]
  cases pool.opening? with
  | none => simp [eq_comm]
  | some opening => simp

/-- Every request that makes a string of bytes for which there is memory stores them. -/
theorem perform_eq_store {operation : Operation} {product : Bytes}
    (hcheck : pool.check operation.checked = .ok ())
    (hproduct : operation.product? pool.textAt = some product)
    (hmemory : pool.config.grants product.upToZero.length = true) :
    pool.perform operation = (do return .made (← store product) : Action Answer).runOn pool :=
  (hsound.perform_of_product hcheck hproduct hmemory).trans (runOn_store_made product pool).symm

end Sound

/-- The next string takes the slot that the cursor leads to, and every request that makes a string
stores it in this way. -/
theorem store_order (config : Config) (run : List Operation)
    (hrun : ∀ operation ∈ run, operation.WellFormed) :
    let pool := (ofConfig config).after run
    let start := if pool.cursor < pool.capacity then max pool.boundary (pool.cursor / 64 * 64)
      else pool.boundary
    pool.config = config ∧ pool.cursor = (ofConfig config).cursorAlong 1 run ∧
      pool.boundary ≤ pool.cursor ∧ pool.cursor ≤ pool.capacity ∧
      ((∃ index room, pool.Chooses start index room) ∨ pool.Stuck) ∧
      (∀ index room, pool.Chooses start index room → ∀ bytes : Bytes,
        let left := room.placeDynamic index bytes.upToZero
        (store bytes).runOn pool = (.ok ⟨index⟩, left) ∧
          pool.contains ⟨index⟩ = false ∧ pool.boundary ≤ index ∧
          left.capacity = room.capacity ∧ index < left.capacity ∧ left.cursor = index + 1) ∧
      (∀ bytes failure left, (store bytes).runOn pool = (.error failure, left) ↔
        failure = .exhausted config.block ∧ left = pool ∧ pool.Stuck) ∧
      ∀ operation product, pool.check operation.checked = .ok () →
        operation.product? pool.textAt = some product →
        config.grants product.upToZero.length = true →
        pool.perform operation
          = (do return .made (← store product) : Action Answer).runOn pool := by
  intro pool start
  obtain ⟨hsound, hconfig⟩ : pool.Sound ∧ pool.config = config :=
    sound_of_reachable ⟨run, hrun, rfl⟩
  have hcursor : pool.cursor = (ofConfig config).cursorAlong 1 run :=
    (sound_ofConfig config).cursor_after hrun
  have hstart : start = pool.searchStart := by
    dsimp only [start]
    rw [searchStart, Nat.max_comm]
    rfl
  rw [hstart]
  refine ⟨hconfig, hcursor, hsound.boundary_le_cursor, hsound.cursor_le_capacity,
    hsound.chooses_or_stuck, fun index room hchooses bytes => ?_, fun bytes failure left => ?_,
    fun operation product hcheck hproduct hmemory => ?_⟩
  · have hopens := hsound.opens (hsound.opening?_eq_some_iff.mpr hchooses)
    have hcapacity := room.capacity_place index (.dynamic bytes.upToZero)
    exact ⟨hsound.runOn_store_of_chooses hchooses bytes, hopens.contains_eq_false hsound,
      hopens.boundary_le, hcapacity, Nat.lt_of_lt_of_eq hopens.lt_capacity hcapacity.symm, rfl⟩
  · rw [← hconfig]
    exact hsound.runOn_store_eq_error_iff
  · rw [← hconfig] at hmemory
    exact hsound.perform_eq_store hcheck hproduct hmemory

/-- All slots are taken, slot 100 becomes free and is taken again, and then slot 30, before the word
of the cursor, is found. -/
theorem store_order_around :
    let config : Config := { initial := 128, block := 64 }
    let run := List.replicate 127 (Operation.allocate [97]) ++
      [.retain ⟨100⟩, .release ⟨100⟩, .allocate [98], .retain ⟨30⟩, .release ⟨30⟩]
    let pool := (ofConfig config).after run
    pool.cursor = 101 ∧ pool.free 64 128 = ∅ ∧ IsLeast (pool.free 1 64) 30 ∧
      ∃ left, (store [99]).runOn pool = (.ok ⟨30⟩, left) ∧ left.capacity = 128 ∧ left.cursor = 31 := by
  intro config run pool
  have hrun : ∀ operation ∈ run, operation.WellFormed := by decide +kernel
  obtain ⟨hboundary, hcursor, hcapacity, hslots⟩ : pool.boundary = 1 ∧ pool.cursor = 101 ∧
      pool.capacity = 128 ∧ ∀ index < 128, 1 ≤ index → pool.contains ⟨index⟩ = !(index == 30) := by
    decide +kernel
  have hahead : pool.free 64 128 = ∅ := by
    rw [Set.eq_empty_iff_forall_notMem]
    intro index ⟨hlow, hhigh, hfree⟩
    rw [hslots index hhigh (by omega), Bool.not_eq_false', beq_iff_eq] at hfree
    omega
  have hleast : IsLeast (pool.free 1 64) 30 := by
    refine ⟨⟨by decide, by decide, hslots 30 (by decide) (by decide)⟩, ?_⟩
    intro index ⟨hlow, hhigh, hfree⟩
    rw [hslots index (by omega) hlow, Bool.not_eq_false', beq_iff_eq] at hfree
    exact Nat.le_of_eq hfree.symm
  have hchooses : pool.Chooses 64 30 pool := by
    refine .around ?_ (hcapacity ▸ hahead) (hboundary ▸ hleast)
    rintro ⟨_, hfree⟩
    rw [hcursor, hslots 101 (by decide) (by decide)] at hfree
    exact Bool.noConfusion hfree
  obtain ⟨_, _, _, _, _, hchosen, _⟩ := store_order config run hrun
  have hstart : (if pool.cursor < pool.capacity then max pool.boundary (pool.cursor / 64 * 64)
      else pool.boundary) = 64 := by
    rw [hboundary, hcursor, hcapacity]
    rfl
  rw [hstart] at hchosen
  obtain ⟨hstore, _, _, hsame, _, hmoved⟩ := hchosen 30 pool hchooses [99]
  exact ⟨hcursor, hahead, hleast, _, hstore, hsame.trans hcapacity, hmoved⟩

end Pool

end TextPool
