import TextPool.Proofs.Pool.Opening
import TextPool.Proofs.Pool.Placing

/-!
# Every reachable pool is sound

A new pool is sound, and whatever a request does to a sound pool leaves it sound, neither lowers its
boundary nor takes slots away, and keeps its settings. The theorem on runs follows by induction.
-/

namespace TextPool

theorem Config.startingCapacity_words (config : Config) :
    Word.width ∣ config.startingCapacity ∧ Word.width ≤ config.startingCapacity := by
  have hwanted : ∀ wanted,
      (Word.ceil? (max config.initial 1)).getD (Word.floor (Word.limit - 1)) = wanted →
      Word.width ∣ wanted ∧ Word.width ≤ wanted := by
    rintro wanted rfl
    cases hceil : Word.ceil? (max config.initial 1) with
    | none => decide
    | some rounded =>
      obtain ⟨hwords, hle, _⟩ := Word.ceil?_eq_some hceil
      exact ⟨hwords, Nat.le_of_dvd (by rw [Option.getD_some]; omega) hwords⟩
  obtain ⟨hwords, hword⟩ := hwanted _ rfl
  unfold startingCapacity
  cases config.maximum with
  | none => exact ⟨hwords, hword⟩
  | some maximum =>
    dsimp only
    refine ⟨?_, Nat.le_min.mpr ⟨hword, Nat.le_max_right _ _⟩⟩
    rcases Nat.le_total _ (max (Word.floor maximum) Word.width) with hle | hle
    · rwa [Nat.min_eq_left hle]
    · rw [Nat.min_eq_right hle]
      rcases Nat.le_total (Word.floor maximum) Word.width with hle | hle
      · exact ⟨1, (Nat.max_eq_right hle).trans (Nat.mul_one _).symm⟩
      · rw [Nat.max_eq_left hle]
        exact Word.width_dvd_floor maximum

theorem Config.startingCapacity_le {config : Config} {maximum : Nat}
    (hmaximum : config.maximum = some maximum) :
    config.startingCapacity ≤ max Word.width (Word.floor maximum) := by
  unfold startingCapacity
  rw [hmaximum, Nat.max_comm Word.width]
  exact Nat.min_le_right _ _

namespace Pool

theorem capacity_ofConfig (config : Config) :
    (ofConfig config).capacity = config.startingCapacity := by
  unfold ofConfig
  rw [capacity_place]
  exact Array.size_replicate

theorem entryAt?_ofConfig (config : Config) (index : Nat) :
    (ofConfig config).entryAt? index
      = if 0 = index then some (.ofText (.static 0 ⟨0, 0⟩)) else none := by
  have hpos : 0 < config.startingCapacity :=
    Nat.lt_of_lt_of_le (by decide) config.startingCapacity_words.2
  unfold ofConfig
  rw [entryAt?_place _ _ _ _ (Nat.lt_of_lt_of_eq hpos Array.size_replicate.symm)]
  by_cases hindex : 0 = index
  · rw [if_pos hindex, if_pos hindex]
  · rw [if_neg hindex, if_neg hindex, entryAt?, Array.getElem?_replicate]
    split <;> rfl

theorem sound_ofConfig (config : Config) : (ofConfig config).Sound := by
  obtain ⟨hwords, hword⟩ := config.startingCapacity_words
  have hpos : 0 < config.startingCapacity := Nat.lt_of_lt_of_le (by decide) hword
  have hslot : ∀ slot ∈ (ofConfig config).slots,
      slot = .vacant ∨ slot = .ofEntry (.ofText (.static 0 ⟨0, 0⟩)) := by
    intro slot hslot
    rcases Array.mem_or_eq_of_mem_setIfInBounds hslot with hslot | rfl
    · exact .inl (Array.mem_replicate.mp hslot).2
    · exact .inr rfl
  constructor
  case occupied_size =>
    rw [capacity_ofConfig]
    exact (Bitset.size_insert _ 0).trans (Nat.zero_add _)
  case width_dvd_capacity => rwa [capacity_ofConfig]
  case width_le_capacity => rwa [capacity_ofConfig]
  case capacity_le_maximum =>
    intro maximum hmaximum
    rw [capacity_ofConfig]
    exact Config.startingCapacity_le hmaximum
  case contains_eq =>
    intro index
    have hinsert := (Bitset.ofSize config.startingCapacity).contains_insert 0 index
    rw [Bitset.contains_ofSize, Bool.false_or] at hinsert
    refine hinsert.trans ?_
    dsimp only [ofConfig, place]
    rw [Array.getElem?_setIfInBounds, Array.size_replicate, if_pos hpos]
    by_cases hindex : 0 = index
    · have hsize : 0 < (Bitset.ofSize config.startingCapacity).size :=
        Nat.lt_of_lt_of_eq hpos (Nat.zero_add _).symm
      rw [if_pos hindex, decide_eq_true ⟨hindex, hsize⟩]
      rfl
    · rw [if_neg hindex, Array.getElem?_replicate, decide_eq_false (hindex ·.1)]
      split <;> rfl
  case unowned =>
    intro slot hmem _
    rcases hslot slot hmem with rfl | rfl
    · rfl
    · rfl
  case texts =>
    intro slot hmem text htext
    rcases hslot slot hmem with rfl | rfl
    · exact absurd htext.symm (Option.some_ne_none text)
    · obtain rfl := Option.some.inj htext
      refine ⟨fun blob span heq => ?_, List.not_mem_nil⟩
      obtain ⟨rfl, rfl⟩ := StoredText.static.inj heq
      exact ⟨[], rfl, Nat.le_refl _, Nat.le_refl _⟩
  case first =>
    simp only [ofConfig, place, Array.getElem?_setIfInBounds, Array.size_replicate, if_pos hpos]
    rfl
  case boundary_pos => exact Nat.le_refl 1
  case boundary_le_cursor => exact Nat.le_refl 1
  case cursor_le_capacity =>
    rw [capacity_ofConfig]
    exact hpos

theorem contains_ofConfig (config : Config) {index : Nat} (hindex : 1 ≤ index) :
    (ofConfig config).occupied.contains index = false := by
  have hentry : (ofConfig config).entryAt? index = none := by
    rw [entryAt?_ofConfig, if_neg (Nat.ne_of_lt hindex)]
  by_contra hcontains
  obtain ⟨entry, hsome⟩ := ((sound_ofConfig config).contains_iff index).mp (by simpa using hcontains)
  exact nomatch hentry.symm.trans hsome

/-! ### One request -/

/-- What never changes back: the settings stay, slots are only added, the boundary only rises. -/
structure Precedes (pool later : Pool) : Prop where
  config_eq : later.config = pool.config
  capacity_le : pool.capacity ≤ later.capacity
  boundary_le : pool.boundary ≤ later.boundary

theorem Precedes.refl (pool : Pool) : pool.Precedes pool :=
  ⟨rfl, Nat.le_refl _, Nat.le_refl _⟩

theorem Precedes.trans {first second third : Pool} (hfirst : first.Precedes second)
    (hsecond : second.Precedes third) : first.Precedes third :=
  ⟨hsecond.config_eq.trans hfirst.config_eq, Nat.le_trans hfirst.capacity_le hsecond.capacity_le,
    Nat.le_trans hfirst.boundary_le hsecond.boundary_le⟩

theorem Extends.precedes {pool grown : Pool} (hextends : pool.Extends grown) :
    pool.Precedes grown :=
  ⟨hextends.config_eq, hextends.capacity_le, Nat.le_of_eq hextends.boundary_eq.symm⟩

theorem SameFrame.precedes {pool other : Pool} (hframe : pool.SameFrame other) :
    pool.Precedes other :=
  ⟨hframe.config_eq, Nat.le_of_eq hframe.capacity_eq.symm, Nat.le_of_eq hframe.boundary_eq.symm⟩

theorem Places.precedes {pool placed : Pool} {table : StringTable}
    (hplaces : pool.Places table placed) : pool.Precedes placed := by
  obtain ⟨room, _, hcapacity, _, hroom⟩ := hplaces.room
  exact ⟨hplaces.config_eq, hroom ▸ hcapacity, Nat.le_of_eq hplaces.boundary_eq.symm⟩

theorem precedes_place (pool : Pool) (index : Nat) (text : StoredText) :
    pool.Precedes (pool.place index text) :=
  ⟨rfl, Nat.le_of_eq (pool.capacity_place index text).symm, Nat.le_refl _⟩

theorem precedes_update (pool : Pool) (index : Nat) (entry : Entry) :
    pool.Precedes (pool.update index entry) :=
  ⟨rfl, Nat.le_of_eq (pool.capacity_update index entry).symm, Nat.le_refl _⟩

theorem precedes_vacate (pool : Pool) (index : Nat) : pool.Precedes (pool.vacate index) :=
  ⟨rfl, Nat.le_of_eq (pool.capacity_vacate index).symm, Nat.le_refl _⟩

theorem lt_of_mem_idle {pool : Pool} {index : Nat} (hindex : index ∈ pool.idle) :
    pool.boundary ≤ index ∧ ∃ text, pool.entryAt? index = some ⟨.dynamic text, 0⟩ := by
  obtain ⟨_, hidle⟩ := List.mem_filter.mp hindex
  obtain ⟨hboundary, hidle⟩ := of_decide_eq_true hidle
  refine ⟨hboundary, ?_⟩
  unfold isIdle at hidle
  cases hentry : pool.entryAt? index with
  | none => simp [hentry] at hidle
  | some entry =>
    obtain ⟨stored, owners⟩ := entry
    rw [hentry] at hidle
    obtain ⟨rfl, hkind⟩ := of_decide_eq_true hidle
    cases stored with
    | static blob span => exact Kind.noConfusion hkind
    | dynamic text => exact ⟨text, rfl⟩

theorem Sound.effect {pool left : Pool} {operation : Operation}
    {outcome : Except PoolError Answer} (hsound : pool.Sound) (hoperation : operation.WellFormed)
    (heffect : Effect pool operation outcome left) : left.Sound ∧ pool.Precedes left := by
  cases heffect with
  | looked _ => exact ⟨hsound, .refl pool⟩
  | refused _ => exact ⟨hsound, .refl pool⟩
  | @made operation product index room _ _ hopening =>
    have hopens := hsound.opens hopening
    have hplaced := room.precedes_place index (.dynamic product.upToZero)
    refine ⟨hopens.sound_placeDynamic hsound (Bytes.zero_notMem_upToZero product), ?_⟩
    exact hopens.extension.precedes.trans ⟨rfl, hplaced.capacity_le, Nat.le_refl _⟩
  | absent _ _ => exact ⟨hsound, .refl pool⟩
  | @lengthened operation handle text tail owners _ _ hentry =>
    have hnonzero := hsound.ne_zero_of_dynamic hentry rfl
    have hzero : 0 ∉ text ++ tail.upToZero := by
      rw [List.mem_append, not_or]
      exact ⟨(hsound.text hentry).zero_notMem, Bytes.zero_notMem_upToZero tail⟩
    refine ⟨?_, pool.precedes_update handle.index _⟩
    exact hsound.update hentry (StoredText.soundIn_dynamic pool hzero) (absurd · hnonzero)
  | @retained handle entry hentry =>
    have htext := hsound.text hentry
    exact ⟨hsound.update hentry htext fun _ => rfl, pool.precedes_update handle.index _⟩
  | unowned _ _ => exact ⟨hsound, .refl pool⟩
  | @released handle entry hentry _ _ =>
    have htext := hsound.text hentry
    exact ⟨hsound.update hentry htext fun _ => rfl, pool.precedes_update handle.index _⟩
  | @removed handle entry hentry _ hkind =>
    have hlt := pool.lt_capacity_of_entryAt? handle.index hentry
    have hnonzero := hsound.ne_zero_of_dynamic hentry hkind
    exact ⟨hsound.vacate hlt hnonzero, pool.precedes_vacate handle.index⟩
  | swept =>
    refine ⟨hsound.foldl_vacate fun index hindex => ?_,
      (sameFrame_foldl_vacate pool.idle pool).precedes⟩
    obtain ⟨_, text, hentry⟩ := lt_of_mem_idle hindex
    exact ⟨pool.lt_capacity_of_entryAt? index hentry, hsound.ne_zero_of_dynamic hentry rfl⟩
  | grown hgrown => exact ⟨hsound.grown hgrown, (extends_of_grown? hgrown).1.precedes⟩
  | faulty _ => exact ⟨hsound, .refl pool⟩
  | crowded _ _ => exact ⟨hsound, .refl pool⟩
  | blocked _ hroom _ =>
    exact ⟨hsound.roomFor hroom, (extends_of_roomFor? hroom).1.precedes⟩
  | halfway htable hplaced _ =>
    have hplaces := hsound.places (Operation.wellFormed_of_table? hoperation htable) hplaced
    exact ⟨hplaces.sound, hplaces.precedes⟩
  | @loaded operation table placed room htable hplaced hroom =>
    have hplaces := hsound.places (Operation.wellFormed_of_table? hoperation htable) hplaced
    obtain ⟨hextends, henough⟩ := extends_of_roomFor? hroom
    have hbefore := hplaces.precedes.trans hextends.precedes
    have hpos := hsound.boundary_pos
    have hcursor := hsound.boundary_le_cursor
    have hnext : pool.cursor + table.size < pool.boundaryAfter table := Word.lt_next _
    refine ⟨(hplaces.sound.roomFor hroom).move (by omega) (Nat.le_refl _) henough,
      hbefore.config_eq, hbefore.capacity_le, ?_⟩
    dsimp only
    omega

theorem Sound.perform {pool : Pool} (hsound : pool.Sound) {operation : Operation}
    (hoperation : operation.WellFormed) :
    (pool.perform operation).2.Sound ∧ pool.Precedes (pool.perform operation).2 :=
  hsound.effect hoperation (pool.perform_effect operation)

/-! ### Runs -/

theorem Sound.after {pool : Pool} (hsound : pool.Sound) {run : List Operation}
    (hrun : ∀ operation ∈ run, operation.WellFormed) :
    (pool.after run).Sound ∧ pool.Precedes (pool.after run) := by
  induction run generalizing pool with
  | nil => exact ⟨hsound, .refl pool⟩
  | cons operation rest ih =>
    obtain ⟨hoperation, hrest⟩ := List.forall_mem_cons.mp hrun
    obtain ⟨hnext, hfirst⟩ := hsound.perform hoperation
    obtain ⟨hlast, hlater⟩ := ih hnext hrest
    exact ⟨hlast, hfirst.trans hlater⟩

theorem after_append (pool : Pool) (earlier later : List Operation) :
    pool.after (earlier ++ later) = (pool.after earlier).after later :=
  List.foldl_append

theorem sound_of_reachable {config : Config} {pool : Pool} (hreachable : Reachable config pool) :
    pool.Sound ∧ pool.config = config := by
  obtain ⟨run, hrun, rfl⟩ := hreachable
  obtain ⟨hsound, hprecedes⟩ := (sound_ofConfig config).after hrun
  exact ⟨hsound, hprecedes.config_eq⟩

/-- A pool is sound at every moment, whatever requests succeed or fail, and its capacity and its
boundary never go back. -/
theorem sound_throughout (config : Config) (run : List Operation)
    (hrun : ∀ operation ∈ run, operation.WellFormed) :
    ((ofConfig config).after run).Sound ∧ ((ofConfig config).after run).config = config ∧
      ∀ earlier later, run = earlier ++ later →
        ((ofConfig config).after earlier).capacity ≤ ((ofConfig config).after run).capacity ∧
        ((ofConfig config).after earlier).boundary ≤ ((ofConfig config).after run).boundary := by
  obtain ⟨hsound, hconfig⟩ := sound_of_reachable ⟨run, hrun, rfl⟩
  refine ⟨hsound, hconfig, ?_⟩
  rintro earlier later rfl
  obtain ⟨hearlier, hlater⟩ := List.forall_mem_append.mp hrun
  have hbefore := ((sound_ofConfig config).after hearlier).1
  have hprecedes := (hbefore.after hlater).2
  rw [after_append]
  exact ⟨hprecedes.capacity_le, hprecedes.boundary_le⟩

theorem sound_throughout_load :
    ((ofConfig {}).after
      [.allocate [97], .load ⟨[⟨0, 1⟩], [98, 0]⟩, .sweep, .text ⟨70⟩]).Sound := by
  have hrun : ∀ operation ∈
      [Operation.allocate [97], .load ⟨[⟨0, 1⟩], [98, 0]⟩, .sweep, .text ⟨70⟩],
      operation.WellFormed := by
    simp only [List.forall_mem_cons]
    exact ⟨trivial, rfl, trivial, trivial, fun _ hmem => absurd hmem List.not_mem_nil⟩
  exact (sound_throughout {} _ hrun).1

end Pool

end TextPool
