import Mathlib.Data.List.Induction
import TextPool.Proofs.Pool.FailedLoad
import TextPool.Proofs.Pool.Refinement

/-!
# What stands below the boundary

The boundary is there to divide the strings that were loaded, below it, from those that were made
(`View.Divided`). No request but a load puts that at risk. A load keeps it exactly if it does not
stop halfway and, where it succeeds, no made string stands below the new boundary (`KeepsDivided`);
entries go in at the cursor, and a string made earlier stands below that.

So the boundary divides the strings all along a run exactly if every request of the run keeps it so
(`divided_throughout_iff`).
-/

namespace TextPool

/-- Below the boundary there are loaded strings only, and from it on there are none but the empty
string that is always there. -/
structure View.Divided (view : View) : Prop where
  kind_eq : ∀ handle held, view.strings handle = some held → handle.index < view.boundary →
    held.kind = .static
  lt_boundary : ∀ handle held, view.strings handle = some held → held.kind = .static →
    handle ≠ .empty → handle.index < view.boundary

namespace View

/-- Strings may go, may change in all but their kind, and may be made from the boundary on. -/
theorem Divided.of_kind {view later : View} (hdivided : view.Divided)
    (hboundary : later.boundary = view.boundary)
    (hstrings : ∀ handle held, later.strings handle = some held →
      (∃ before, view.strings handle = some before ∧ before.kind = held.kind) ∨
      held.kind = .dynamic ∧ view.boundary ≤ handle.index) : later.Divided := by
  constructor
  case kind_eq =>
    intro handle held hheld hlt
    rw [hboundary] at hlt
    rcases hstrings handle held hheld with ⟨before, hbefore, hkind⟩ | ⟨_, hle⟩
    · exact hkind ▸ hdivided.kind_eq handle before hbefore hlt
    · exact absurd hlt (Nat.not_lt.mpr hle)
  case lt_boundary =>
    intro handle held hheld hstatic hne
    rw [hboundary]
    rcases hstrings handle held hheld with ⟨before, hbefore, hkind⟩ | ⟨hdynamic, _⟩
    · exact hdivided.lt_boundary handle before hbefore (hkind.trans hstatic) hne
    · exact absurd (hstatic.symm.trans hdynamic) (by decide)

theorem Divided.set {view : View} (hdivided : view.Divided) {handle : Handle}
    {held : Option Held} {hhandle : handle.index < view.capacity}
    (hkind : ∀ later, held = some later →
      (∃ before, view.strings handle = some before ∧ before.kind = later.kind) ∨
      later.kind = .dynamic ∧ view.boundary ≤ handle.index) :
    (view.set handle held hhandle).Divided := by
  refine hdivided.of_kind rfl fun other later hlater => ?_
  dsimp only [View.set] at hlater
  rw [Function.update_apply] at hlater
  split_ifs at hlater with hother
  · exact hother ▸ hkind later hlater
  · exact .inl ⟨later, hlater, rfl⟩

theorem Divided.set_some {view : View} (hdivided : view.Divided) {handle : Handle}
    {before later : Held} {hhandle : handle.index < view.capacity}
    (hheld : view.strings handle = some before) (hkind : before.kind = later.kind) :
    (view.set handle (some later) hhandle).Divided := by
  refine hdivided.set fun other hother => .inl ⟨before, hheld, ?_⟩
  exact hkind.trans (congrArg Held.kind (Option.some.inj hother))

/-- No request but a load puts it at risk. -/
theorem Step.divided {block : Nat} {before after : View} {operation : Operation} {answer : Answer}
    (hstep : Step block before operation answer after) (hdivided : before.Divided) :
    after.Divided := by
  cases hstep with
  | looked _ => exact hdivided
  | @made operation handle text added _ _ _ hboundary _ _ =>
    have hwide : (before.widen added).Divided :=
      hdivided.of_kind rfl fun handle held hheld => .inl ⟨held, hheld, rfl⟩
    refine hwide.set fun later hlater => .inr ⟨?_, hboundary⟩
    exact congrArg Held.kind (Option.some.inj hlater).symm
  | absent _ _ => exact hdivided
  | lengthened _ _ hheld => exact hdivided.set_some hheld rfl
  | retained hheld => exact hdivided.set_some hheld rfl
  | unowned _ => exact hdivided
  | released hheld _ _ => exact hdivided.set_some hheld rfl
  | removed _ => exact hdivided.set fun later hlater => absurd hlater.symm (Option.some_ne_none _)
  | swept _ _ =>
    refine hdivided.of_kind rfl fun handle held hheld => .inl ⟨held, ?_, rfl⟩
    dsimp only [View.without] at hheld
    split_ifs at hheld
    exact hheld
  | grown _ => exact hdivided.of_kind rfl fun handle held hheld => .inl ⟨held, hheld, rfl⟩

end View

namespace Pool

/-- A load of the table would raise the boundary over a made string. -/
def Covers (pool : Pool) (table : StringTable) : Prop :=
  ∃ handle held, pool.view.strings handle = some held ∧ held.kind = .dynamic ∧
    handle.index < pool.boundaryAfter table

def Completes (pool : Pool) (table : StringTable) : Prop :=
  ∃ placed room, pool.placed? table = some placed ∧
    placed.roomFor? (pool.boundaryAfter table) = some room

theorem not_completes {pool : Pool} {table : StringTable} (hplaced : pool.placed? table = none) :
    ¬pool.Completes table := by
  rintro ⟨placed, _, hsome, _⟩
  exact Option.some_ne_none placed (hsome.symm.trans hplaced)

/-- The request does not load a table, or one whose load neither stops halfway nor raises the
boundary over a made string. -/
def KeepsDivided (pool : Pool) (operation : Operation) : Prop :=
  ∀ table, operation.table? = some (.ok table) →
    ¬pool.StopsHalfway table ∧ ¬(pool.Completes table ∧ pool.Covers table)

theorem keepsDivided_of_placed? {pool : Pool} {operation : Operation} {table : StringTable}
    (htable : operation.table? = some (.ok table)) (hplaced : pool.placed? table = none) :
    pool.KeepsDivided operation :=
  (Operation.forall_table?_iff htable).mpr
    ⟨not_stopsHalfway hplaced, fun hload => not_completes hplaced hload.1⟩

/-! ### One load -/

theorem Extends.divided_iff {pool grown : Pool} (hextends : pool.Extends grown) :
    grown.view.Divided ↔ pool.view.Divided := by
  constructor
  · intro hdivided
    refine hdivided.of_kind hextends.boundary_eq.symm fun handle held hheld => ?_
    exact .inl ⟨held, hextends.strings_view ▸ hheld, rfl⟩
  · intro hdivided
    refine hdivided.of_kind hextends.boundary_eq fun handle held hheld => ?_
    exact .inl ⟨held, hextends.strings_view ▸ hheld, rfl⟩

theorem Places.not_divided {pool placed : Pool} {table : StringTable} (hsound : pool.Sound)
    (hplaces : pool.Places table placed) (hsize : 0 < table.size) : ¬placed.view.Divided := by
  intro hdivided
  obtain ⟨⟨text, hheld⟩, _⟩ := hplaces.strings_view_entry ⟨pool.cursor⟩
    (Nat.le_refl _) (Nat.lt_add_of_pos_right hsize)
  have hpos := hsound.boundary_pos
  have hcursor := hsound.boundary_le_cursor
  have hne : (⟨pool.cursor⟩ : Handle) ≠ .empty := by
    intro hempty
    have hzero : pool.cursor = 0 := congrArg Handle.index hempty
    omega
  have hlt : pool.cursor < placed.boundary := hdivided.lt_boundary _ _ hheld rfl hne
  rw [hplaces.boundary_eq] at hlt
  omega

theorem Places.divided_iff {pool placed : Pool} {table : StringTable} (hsound : pool.Sound)
    (hplaces : pool.Places table placed) (hdivided : pool.view.Divided) {after : View}
    (hstrings : after.strings = placed.view.strings)
    (hboundary : after.boundary = pool.boundaryAfter table) :
    after.Divided ↔ ¬pool.Covers table := by
  have hnext : pool.cursor + table.size < pool.boundaryAfter table := Word.lt_next _
  have hcursor := hsound.boundary_le_cursor
  constructor
  · rintro hafter ⟨handle, held, hheld, hkind, hlt⟩
    have hother : ¬(pool.cursor ≤ handle.index ∧ handle.index < pool.cursor + table.size) := by
      rintro ⟨hfirst, hstop⟩
      rw [(hplaces.strings_view_entry handle hfirst hstop).2] at hheld
      exact Option.some_ne_none held hheld.symm
    rw [← hplaces.strings_view_other hsound hother, ← hstrings] at hheld
    have hstatic := hafter.kind_eq handle held hheld (hboundary ▸ hlt)
    exact absurd (hkind.symm.trans hstatic) (by decide)
  · intro hcovers
    constructor
    case kind_eq =>
      intro handle held hheld hlt
      rw [hstrings] at hheld
      rw [hboundary] at hlt
      by_cases hentry : pool.cursor ≤ handle.index ∧ handle.index < pool.cursor + table.size
      · obtain ⟨⟨text, hstatic⟩, _⟩ := hplaces.strings_view_entry handle hentry.1 hentry.2
        exact congrArg Held.kind (Option.some.inj (hheld.symm.trans hstatic))
      · rw [hplaces.strings_view_other hsound hentry] at hheld
        cases hkind : held.kind with
        | static => rfl
        | dynamic => exact absurd ⟨handle, held, hheld, hkind, hlt⟩ hcovers
    case lt_boundary =>
      intro handle held hheld hstatic hne
      rw [hstrings] at hheld
      by_cases hentry : pool.cursor ≤ handle.index ∧ handle.index < pool.cursor + table.size
      · omega
      · rw [hplaces.strings_view_other hsound hentry] at hheld
        have hlt : handle.index < pool.boundary :=
          hdivided.lt_boundary handle held hheld hstatic hne
        omega

theorem Sound.divided_halfway_iff {pool placed : Pool} {table : StringTable} (hsound : pool.Sound)
    (htable : table.WellFormed) (hdivided : pool.view.Divided)
    (hplaced : pool.placed? table = some placed)
    (hroom : placed.roomFor? (pool.boundaryAfter table) = none) :
    placed.view.Divided ↔
      ¬pool.StopsHalfway table ∧ ¬(pool.Completes table ∧ pool.Covers table) := by
  have hplaces := hsound.places htable hplaced
  constructor
  · intro hleft
    refine ⟨fun hhalfway => hplaces.not_divided hsound hhalfway.1 hleft, ?_⟩
    rintro ⟨⟨other, room, hsame, hsome⟩, _⟩
    obtain rfl := Option.some.inj (hplaced.symm.trans hsame)
    exact Option.some_ne_none room (hsome.symm.trans hroom)
  · rintro ⟨hwhole, _⟩
    -- A table without entries leaves nothing to be seen, wherever its load ends.
    have hsize : table.size = 0 := by
      by_contra hsize
      exact hwhole ⟨Nat.pos_of_ne_zero hsize, placed, hplaced, hroom⟩
    rw [(hplaces.view_eq_iff hsound).mpr hsize]
    exact hdivided

theorem Sound.divided_loaded_iff {pool placed room : Pool} {table : StringTable}
    (hsound : pool.Sound) (htable : table.WellFormed) (hdivided : pool.view.Divided)
    (hplaced : pool.placed? table = some placed)
    (hroom : placed.roomFor? (pool.boundaryAfter table) = some room) {after : View}
    (hstrings : after.strings = room.view.strings)
    (hboundary : after.boundary = pool.boundaryAfter table) :
    after.Divided ↔ ¬pool.StopsHalfway table ∧ ¬(pool.Completes table ∧ pool.Covers table) := by
  have hplaces := hsound.places htable hplaced
  have hsame := (extends_of_roomFor? hroom).1.strings_view
  rw [hplaces.divided_iff hsound hdivided (hstrings.trans hsame) hboundary]
  constructor
  · intro hcovers
    refine ⟨?_, fun hload => hcovers hload.2⟩
    rintro ⟨_, other, hother, hnoroom⟩
    obtain rfl := Option.some.inj (hplaced.symm.trans hother)
    exact Option.some_ne_none room (hroom.symm.trans hnoroom)
  · rintro ⟨_, hcovers⟩ hcovered
    exact hcovers ⟨⟨placed, room, hplaced, hroom⟩, hcovered⟩

/-! ### One request -/

theorem Sound.divided_iff {pool left : Pool} {operation : Operation}
    {outcome : Except PoolError Answer} (hsound : pool.Sound) (hoperation : operation.WellFormed)
    (heffect : Effect pool operation outcome left) (hdivided : pool.view.Divided) :
    left.view.Divided ↔ pool.KeepsDivided operation := by
  by_cases hnone : operation.table? = none
  · refine iff_of_true ?_ fun table htable => ?_
    · cases outcome with
      | ok answer => exact (hsound.step_view hnone heffect).divided hdivided
      | error failure => exact heffect.left_eq hnone ▸ hdivided
    · exact absurd (hnone.symm.trans htable) (Option.some_ne_none _).symm
  -- What is left are the ways in which a load can end.
  obtain ⟨read, hgiven⟩ := Option.ne_none_iff_exists'.mp hnone
  cases heffect.loadEnd hgiven with
  | faulty => exact iff_of_true hdivided fun table htable => nomatch hgiven.symm.trans htable
  | crowded hroom =>
    exact iff_of_true hdivided (keepsDivided_of_placed? hgiven (placed?_eq_none_of_crowded hroom))
  | blocked hroom htaken =>
    rw [(extends_of_roomFor? hroom).1.divided_iff]
    exact iff_of_true hdivided
      (keepsDivided_of_placed? hgiven (placed?_eq_none_of_taken hroom htaken))
  | halfway hplaced hroom =>
    have htable := Operation.wellFormed_of_table? hoperation hgiven
    rw [KeepsDivided, Operation.forall_table?_iff hgiven]
    exact hsound.divided_halfway_iff htable hdivided hplaced hroom
  | loaded hplaced hroom =>
    have htable := Operation.wellFormed_of_table? hoperation hgiven
    rw [KeepsDivided, Operation.forall_table?_iff hgiven]
    exact hsound.divided_loaded_iff htable hdivided hplaced hroom rfl rfl

theorem Sound.divided_perform_iff {pool : Pool} (hsound : pool.Sound) {operation : Operation}
    (hoperation : operation.WellFormed) (hdivided : pool.view.Divided) :
    (pool.perform operation).2.view.Divided ↔ pool.KeepsDivided operation :=
  hsound.divided_iff hoperation (pool.perform_effect operation) hdivided

/-! ### Runs -/

theorem divided_ofConfig (config : Config) : (ofConfig config).view.Divided := by
  have hentry : ∀ handle held, (ofConfig config).view.strings handle = some held →
      handle = .empty ∧ held.kind = .static := by
    intro handle held hheld
    obtain ⟨entry, hentry, rfl⟩ := view_eq_some_iff.mp hheld
    rw [entryAt?_ofConfig] at hentry
    split_ifs at hentry with hzero
    exact ⟨congrArg Handle.mk hzero.symm, Option.some.inj hentry ▸ rfl⟩
  constructor
  case kind_eq => exact fun handle held hheld _ => (hentry handle held hheld).2
  case lt_boundary =>
    exact fun handle held hheld _ hne => absurd (hentry handle held hheld).1 hne

/-- Along a run from a new pool the boundary divides the strings at every moment exactly if every
request keeps it so on the pool that it meets. -/
theorem divided_throughout_iff (config : Config) (run : List Operation)
    (hrun : ∀ operation ∈ run, operation.WellFormed) :
    (∀ earlier later, run = earlier ++ later →
      ((ofConfig config).after earlier).view.Divided) ↔
    ∀ earlier operation later, run = earlier ++ operation :: later →
      ((ofConfig config).after earlier).KeepsDivided operation := by
  have hstep : ∀ earlier operation later, run = earlier ++ operation :: later →
      ((ofConfig config).after earlier).view.Divided →
      (((ofConfig config).after (earlier ++ [operation])).view.Divided ↔
        ((ofConfig config).after earlier).KeepsDivided operation) := by
    rintro earlier operation later rfl hdivided
    obtain ⟨hearlier, hlater⟩ := List.forall_mem_append.mp hrun
    have hsound := ((sound_ofConfig config).after hearlier).1
    rw [after_append]
    exact hsound.divided_perform_iff (hlater operation List.mem_cons_self) hdivided
  constructor
  · intro hall earlier operation later hsplit
    refine (hstep earlier operation later hsplit (hall earlier _ hsplit)).mp ?_
    exact hall (earlier ++ [operation]) later (by rw [hsplit, List.append_assoc]; rfl)
  · intro hkeeps earlier
    induction earlier using List.reverseRecOn with
    | nil => exact fun _ _ => divided_ofConfig config
    | append_singleton earlier operation ih =>
      intro later hsplit
      rw [List.append_assoc] at hsplit
      have hdivided := ih (operation :: later) hsplit
      exact (hstep earlier operation later hsplit hdivided).mpr
        (hkeeps earlier operation later hsplit)

theorem divided_throughout_load_iff :
    (∀ earlier later, [Operation.load ⟨[⟨0, 1⟩], [98, 0]⟩, .allocate [97]] = earlier ++ later →
      ((ofConfig {}).after earlier).view.Divided) ↔
    ∀ earlier operation later,
      [Operation.load ⟨[⟨0, 1⟩], [98, 0]⟩, .allocate [97]] = earlier ++ operation :: later →
      ((ofConfig {}).after earlier).KeepsDivided operation := by
  have hrun : ∀ operation ∈ [Operation.load ⟨[⟨0, 1⟩], [98, 0]⟩, .allocate [97]],
      operation.WellFormed := by
    simp only [List.forall_mem_cons]
    exact ⟨rfl, trivial, fun _ hmem => absurd hmem List.not_mem_nil⟩
  exact divided_throughout_iff {} _ hrun

/-- A load after an allocation succeeds, and the made string then stands below the boundary. -/
theorem exists_load_not_divided :
    ¬∀ (config : Config) (run : List Operation), (∀ operation ∈ run, operation.WellFormed) →
      ((ofConfig config).after run).view.Divided := by
  intro hclaim
  have hrun : ∀ operation ∈ [Operation.allocate [97], .load ⟨[⟨0, 1⟩], [98, 0]⟩],
      operation.WellFormed := by
    simp only [List.forall_mem_cons]
    exact ⟨trivial, rfl, fun _ hmem => absurd hmem List.not_mem_nil⟩
  have hdivided := hclaim {} _ hrun
  have hstatic := hdivided.kind_eq ⟨1⟩ ⟨.dynamic, [97], 0⟩ (by decide +kernel) (by decide +kernel)
  exact absurd hstatic (by decide)

end Pool

end TextPool
