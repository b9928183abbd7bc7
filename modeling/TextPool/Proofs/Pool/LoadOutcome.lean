import TextPool.Proofs.Pool.FirstLoad
import TextPool.Proofs.Pool.Life

/-!
# What a load does on any pool

A load that is answered fills the slots from the cursor on, which held no strings, with the texts of
the table and changes no other string (`Installs`). The boundary then stands at the least whole word
above them, the table of slots has grown by as few blocks as will do, and no later string goes below
the boundary. Where there is room for the entries, but a string stands in the way, the load names
the first such handle and changes no string (`load_outcome`).
-/

namespace TextPool

/-- A new string goes to a handle from the boundary on. -/
theorem View.Step.boundary_le {block : Nat} {before after : View} {operation : Operation}
    {handle : Handle} (hstep : Step block before operation (.made handle) after) {product : Bytes}
    (hproduct : operation.product? before.textAt = some product) :
    before.boundary ≤ handle.index := by
  cases hstep with
  | looked hlooks => cases (Operation.product?_of_looks hlooks).symm.trans hproduct
  | made _ _ _ hboundary => exact hboundary
  | absent _ hnone => cases hproduct.symm.trans hnone
  | lengthened htail => cases (Operation.product?_of_tail? htail).symm.trans hproduct

namespace Pool

def Allots (pool : Pool) (table : StringTable) (handle : Handle) : Prop :=
  pool.cursor ≤ handle.index ∧ handle.index < pool.cursor + table.size

/-- What a load of the table that is answered leaves, where slots are added in blocks of the given
size. -/
structure Installs (pool : Pool) (table : StringTable) (block : Nat) (left : Pool) : Prop where
  free : ∀ handle, pool.Allots table handle → pool.contains handle = false
  entry : ∀ index < table.size, ∃ text, table.get? index = some text ∧
    left.Holds ⟨pool.cursor + index⟩ ⟨.static, text, 0⟩
  /-- Strings that were there are seen as they were. -/
  kept : ∀ handle held, pool.Holds handle held → left.Holds handle held
  contains_iff : ∀ handle, left.contains handle = true ↔
    pool.contains handle = true ∨ pool.Allots table handle
  isLeast_boundary : IsLeast {bound | 64 ∣ bound ∧ pool.cursor + table.size < bound} left.boundary
  capacity_eq : ∃ blocks, IsLeast {count | left.boundary ≤ pool.capacity + count * block} blocks ∧
    left.capacity = pool.capacity + blocks * block
  /-- Strings that are made next, or at any time later, go to handles from the boundary on. -/
  boundary_le : ∀ run : List Operation, (∀ operation ∈ run, operation.WellFormed) →
    ∀ (operation : Operation) (product : Bytes) (handle : Handle),
      operation.product? (left.after run).textAt = some product →
      ((left.after run).perform operation).1 = .ok (.made handle) →
      left.boundary ≤ handle.index

theorem Sound.boundary_le_of_made {pool : Pool} (hsound : pool.Sound) {operation : Operation}
    {product : Bytes} {handle : Handle}
    (hproduct : operation.product? pool.textAt = some product)
    (hanswer : (pool.perform operation).1 = .ok (.made handle)) :
    pool.boundary ≤ handle.index := by
  have heffect := pool.perform_effect operation
  rw [hanswer] at heffect
  have hstep := hsound.step_view (Operation.table?_of_product? hproduct) heffect
  exact hstep.boundary_le (pool.textAt_view ▸ hproduct)

theorem Places.contains_iff {pool placed room : Pool} {table : StringTable}
    (hplaces : pool.Places table placed) (hsound : pool.Sound) (hextends : placed.Extends room)
    (hroom : room.Sound) (handle : Handle) :
    room.contains handle = true ↔ pool.contains handle = true ∨ pool.Allots table handle := by
  have hentry := (hextends.entryAt?_eq handle.index).trans (hplaces.entryAt?_eq handle.index)
  rw [hroom.contains_iff_live, hsound.contains_iff_live, Allots]
  by_cases hallots : pool.cursor ≤ handle.index ∧ handle.index < pool.cursor + table.size
  · rw [dif_pos hallots] at hentry
    exact iff_of_true ⟨_, hentry⟩ (.inr hallots)
  · rw [dif_neg hallots] at hentry
    rw [or_iff_left hallots, Live, Live, hentry]

theorem Sound.installs {pool placed room : Pool} {table : StringTable} {block : Nat}
    (hsound : pool.Sound) (htable : table.WellFormed)
    (hblock : Word.ceil? (max pool.config.block 1) = some block)
    (hplaced : pool.placed? table = some placed)
    (hroom : placed.roomFor? (pool.boundaryAfter table) = some room)
    (hleft : Sound { room with
      boundary := pool.boundaryAfter table, cursor := pool.boundaryAfter table }) :
    pool.Installs table block
      { room with boundary := pool.boundaryAfter table, cursor := pool.boundaryAfter table } := by
  have hplaces := hsound.places htable hplaced
  have hextends := (extends_of_roomFor? hroom).1
  constructor
  case free =>
    intro handle ⟨hfirst, hstop⟩
    have hfree := (hplaces.strings_view_entry handle hfirst hstop).2
    exact hsound.contains_eq_false (not_live_of_strings hfree)
  case entry =>
    intro index hindex
    have hlength : index < table.texts.length := by rwa [StringTable.texts, List.length_map]
    have htext : table.texts[index]? = some table.texts[index] := List.getElem?_eq_getElem hlength
    obtain ⟨span, hentry, hbytes⟩ := hsound.entryAt?_of_placed? htable hplaced hextends htext
    refine ⟨table.texts[index], ?_, hleft.holds_iff.mpr (view_eq_some_iff.mpr ⟨_, hentry, ?_⟩)⟩
    · rw [← htext, StringTable.texts, List.getElem?_map]
      rfl
    · exact congrArg (Held.mk .static · 0) hbytes
  case kept =>
    intro handle held hholds
    rw [hsound.holds_iff] at hholds
    rw [hleft.holds_iff]
    exact hextends.strings_view ▸ hplaces.strings_view_of_held hsound hholds
  case contains_iff =>
    have hcontains := hplaces.contains_iff hsound hextends (hplaces.sound.roomFor hroom)
    exact hcontains
  case isLeast_boundary => exact Word.isLeast_next _
  case capacity_eq =>
    have hcapacity := hplaces.isLeast_blocks hblock hroom
    exact hcapacity
  case boundary_le =>
    intro run hrun operation product handle hproduct hanswer
    obtain ⟨hlater, hprecedes⟩ := hleft.after hrun
    exact hprecedes.boundary_le.trans (hlater.boundary_le_of_made hproduct hanswer)

/-! ### A string in the way -/

theorem isLeast_of_firstOccupied? {pool : Pool} {first count index : Nat}
    (hfound : pool.firstOccupied? first count = some index) :
    IsLeast {taken | first ≤ taken ∧ taken < first + count ∧ pool.contains ⟨taken⟩ = true} index := by
  refine ⟨contains_of_firstOccupied? hfound, fun other ⟨hfirst, hstop, hcontains⟩ => ?_⟩
  obtain ⟨_, _, hbefore⟩ := List.find?_range'_eq_some.mp hfound
  by_contra hlt
  have habsent := hbefore other hfirst (Nat.lt_of_not_le hlt)
  rw [contains] at hcontains
  simp [hcontains] at habsent

theorem perform_of_taken {pool room : Pool} {operation : Operation} {table : StringTable}
    {index : Nat} (htable : operation.table? = some (.ok table))
    (hroom : pool.roomFor? (pool.cursor + table.size) = some room)
    (htaken : room.firstOccupied? pool.cursor table.size = some index) :
    pool.perform operation = (.error (.slotTaken ⟨index⟩), room) := by
  have hend := (pool.perform_effect operation).loadEnd htable
  generalize pool.perform operation = result at hend ⊢
  obtain ⟨outcome, left⟩ := result
  have hnone := placed?_eq_none_of_taken hroom htaken
  cases hend with
  | crowded hnoroom => exact nomatch hnoroom.symm.trans hroom
  | blocked hsome hfound =>
    obtain rfl := Option.some.inj (hroom.symm.trans hsome)
    obtain rfl := Option.some.inj (htaken.symm.trans hfound)
    rfl
  | halfway hplaced _ => exact nomatch hnone.symm.trans hplaced
  | loaded hplaced _ => exact nomatch hnone.symm.trans hplaced

theorem Extends.holds_iff {pool grown : Pool} (hextends : pool.Extends grown) (hsound : pool.Sound)
    (hgrown : grown.Sound) (handle : Handle) (held : Held) :
    grown.Holds handle held ↔ pool.Holds handle held := by
  rw [hgrown.holds_iff, hsound.holds_iff, hextends.strings_view]

/-- A load that is answered installs the table at the cursor, and one that finds a string in the way
names the first such handle. -/
theorem load_outcome {config : Config} {pool : Pool} (hreachable : Reachable config pool)
    {operation : Operation} (hoperation : operation.WellFormed) {table : StringTable}
    (htable : operation.table? = some (.ok table)) {block : Nat}
    (hblock : Word.ceil? (max config.block 1) = some block) :
    (∀ answer left, pool.perform operation = (.ok answer, left) →
      answer = .range ⟨⟨pool.cursor⟩, ⟨pool.cursor + table.size⟩⟩ ∧
        pool.Installs table block left) ∧
      ∀ room, (makeRoom (pool.cursor + table.size)).runOn pool = (.ok (), room) →
        (∃ handle, pool.Allots table handle ∧ pool.contains handle = true) →
        ∃ index, IsLeast {taken | pool.cursor ≤ taken ∧ taken < pool.cursor + table.size ∧
            pool.contains ⟨taken⟩ = true} index ∧
          pool.perform operation = (.error (.slotTaken ⟨index⟩), room) ∧
          ∀ handle held, room.Holds handle held ↔ pool.Holds handle held := by
  obtain ⟨hsound, rfl⟩ := sound_of_reachable hreachable
  constructor
  · intro answer left hperform
    have hleft := (hsound.perform hoperation).1
    have hend := (pool.perform_effect operation).loadEnd htable
    rw [hperform] at hleft hend
    cases hend with
    | loaded hplaced hroom =>
      have hwell := Operation.wellFormed_of_table? hoperation htable
      exact ⟨rfl, hsound.installs hwell hblock hplaced hroom hleft⟩
  · rintro room hrun ⟨handle, ⟨hfirst, hstop⟩, hcontains⟩
    obtain ⟨found, hroom, hmade⟩ | ⟨requested, _, hfailed⟩ :=
      pool.runOn_makeRoom (pool.cursor + table.size)
    · obtain rfl : found = room := (Prod.mk.inj (hmade.symm.trans hrun)).2
      have hextends := (extends_of_roomFor? hroom).1
      have hsame (taken : Nat) : found.contains ⟨taken⟩ = pool.contains ⟨taken⟩ :=
        hextends.contains_eq taken
      cases htaken : found.firstOccupied? pool.cursor table.size with
      | none =>
        have hfree : found.contains handle = false :=
          contains_eq_false_of_firstOccupied? htaken hfirst hstop
        rw [hsame, hcontains] at hfree
        exact Bool.noConfusion hfree
      | some index =>
        have hleast := isLeast_of_firstOccupied? htaken
        simp only [hsame] at hleast
        exact ⟨index, hleast, perform_of_taken htable hroom htaken,
          hextends.holds_iff hsound (hsound.roomFor hroom)⟩
    · exact nomatch hfailed.symm.trans hrun

/-- A table is loaded behind a string that was made. In a full pool the slot at the cursor becomes
free, but not that behind it. -/
theorem load_outcome_behind :
    let table : StringTable := ⟨[⟨0, 1⟩, ⟨1, 1⟩], [98, 0]⟩
    let pool := (ofConfig {}).after [.allocate [97]]
    let full := (ofConfig { initial := 64, block := 64 }).after (List.replicate 63 (.allocate [97]) ++
      [.retain ⟨5⟩, .release ⟨5⟩, .retain ⟨6⟩, .release ⟨6⟩, .allocate [98]])
    (∃ left, pool.perform (.load table) = (.ok (.range ⟨⟨2⟩, ⟨4⟩⟩), left) ∧
      pool.Installs table 1024 left ∧ left.Holds ⟨1⟩ ⟨.dynamic, [97], 0⟩) ∧
    ∃ room, full.perform (.load table) = (.error (.slotTaken ⟨7⟩), room) ∧
      ∀ handle held, room.Holds handle held ↔ full.Holds handle held := by
  intro table pool full
  have htable : (Operation.load table).WellFormed := by decide
  constructor
  · have hholds : pool.Holds ⟨1⟩ ⟨.dynamic, [97], 0⟩ := by decide +kernel
    have hanswer : (pool.perform (.load table)).1 = .ok (.range ⟨⟨2⟩, ⟨4⟩⟩) := by decide +kernel
    have hreachable : Reachable {} pool := ⟨_, by decide, rfl⟩
    obtain ⟨hinstalls, _⟩ := load_outcome hreachable htable rfl ceil?_default_block
    cases hperform : pool.perform (.load table) with
    | mk outcome left =>
      rw [hperform] at hanswer
      obtain rfl : outcome = _ := hanswer
      have hleft := (hinstalls _ left hperform).2
      exact ⟨left, rfl, hleft, hleft.kept _ _ hholds⟩
  · have hmade : (makeRoom (full.cursor + table.size)).runOn full = (.ok (), full) := by
      decide +kernel
    have htaken : full.Allots table ⟨7⟩ ∧ full.contains ⟨7⟩ = true := by
      rw [Allots]
      decide +kernel
    have hanswer : (full.perform (.load table)).1 = .error (.slotTaken ⟨7⟩) := by decide +kernel
    have hreachable : Reachable { initial := 64, block := 64 } full :=
      ⟨_, by decide +kernel, rfl⟩
    have hblock : Word.ceil? (max 64 1) = some 64 := by decide
    obtain ⟨_, hconflict⟩ := load_outcome hreachable htable rfl hblock
    obtain ⟨index, _, hperform, hkept⟩ := hconflict full hmade ⟨⟨7⟩, htaken⟩
    rw [hperform] at hanswer
    obtain rfl : index = 7 := Handle.mk.inj (PoolError.slotTaken.inj (Except.error.inj hanswer))
    exact ⟨full, hperform, hkept⟩

end Pool

end TextPool
