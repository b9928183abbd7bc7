import TextPool.Proofs.Pool.Life

/-!
# Loaded strings are permanent

A string that was loaded stays at its handle as long as the pool does, with its text, whatever is
asked of the pool and whether or not that succeeds. Only the count of its owners changes, and only
by what retains and releases it. The empty string at handle 0 is such a string in every pool.
-/

namespace TextPool

namespace View

theorem Step.appended_of_static {block : Nat} {before after : View} {operation : Operation}
    {answer : Answer} (hstep : Step block before operation answer after) {handle : Handle}
    {held : Held} (hheld : before.strings handle = some held) (hkind : held.kind = .static) :
    before.appended operation handle = [] := by
  unfold appended
  cases htail : operation.tail? before.textAt with
  | none => rfl
  | some appending =>
    obtain ⟨target, tail⟩ := appending
    obtain ⟨text, owners, hdynamic⟩ := hstep.dynamic_of_tail? htail
    refine if_neg ?_
    rintro rfl
    obtain rfl := Option.some.inj (hheld.symm.trans hdynamic)
    cases hkind

end View

namespace Pool

def recounted (handle : Handle) (owners : UInt64) (operation : Operation) : UInt64 :=
  UInt64.ofNat (operation.recount handle owners.toNat)

namespace Sound

variable {pool : Pool} (hsound : pool.Sound) {handle : Handle}

include hsound

theorem next_of_static {held : Held} (hheld : pool.view.strings handle = some held)
    (hkind : held.kind = .static) (operation : Operation) :
    pool.next operation handle held
      = { held with owners := recounted handle held.owners operation } := by
  unfold recounted
  by_cases hload : operation.table? = none
  · unfold next
    cases houtcome : (pool.perform operation).1 with
    | error failure =>
      -- Where the string is, it can be retained and released, so the request does neither.
      obtain ⟨entry, hentry, _⟩ := view_eq_some_iff.mp hheld
      have hretain : operation ≠ .retain handle := by
        rintro rfl
        cases houtcome.symm.trans (perform_retain hentry)
      have hrelease : operation ≠ .release handle := by
        rintro rfl
        cases houtcome.symm.trans (perform_release hentry)
      rw [Operation.recount_eq_self hretain hrelease, UInt64.ofNat_toNat]
    | ok answer =>
      have heffect := pool.perform_effect operation
      rw [houtcome] at heffect
      have happended := (hsound.step_view hload heffect).appended_of_static hheld hkind
      dsimp only
      rw [View.next, happended, List.append_nil]
  · have hretain : operation ≠ .retain handle := fun heq => hload (heq ▸ rfl)
    have hrelease : operation ≠ .release handle := fun heq => hload (heq ▸ rfl)
    rw [next_of_table? hload, Operation.recount_eq_self hretain hrelease, UInt64.ofNat_toNat]

theorem strings_of_static {text : Bytes} {owners : UInt64}
    (hheld : pool.view.strings handle = some ⟨.static, text, owners⟩) {run : List Operation}
    (hrun : ∀ operation ∈ run, operation.WellFormed) :
    (pool.after run).view.strings handle
      = some ⟨.static, text, run.foldl (recounted handle) owners⟩ := by
  induction run generalizing pool owners with
  | nil => exact hheld
  | cons operation rest ih =>
    obtain ⟨hoperation, hrest⟩ := List.forall_mem_cons.mp hrun
    have hstays : ¬pool.view.Removes handle ⟨.static, text, owners⟩ operation := by
      rintro (⟨hkind, _⟩ | ⟨hkind, _, _⟩)
      · cases hkind
      · cases hkind
    have hnext := hsound.strings_perform hoperation hheld hstays
    rw [hsound.next_of_static hheld rfl] at hnext
    exact ih (hsound.perform hoperation).1 hnext hrest

theorem strings_empty : ∃ owners, pool.view.strings .empty = some ⟨.static, [], owners⟩ := by
  obtain ⟨slot, hslot, htext⟩ := Option.bind_eq_some_iff.mp hsound.first
  refine ⟨slot.owners, view_eq_some_iff.mpr ⟨⟨.static 0 ⟨0, 0⟩, slot.owners⟩, ?_, rfl⟩⟩
  rw [entryAt?, Handle.empty, hslot, Option.bind_some, Slot.occupant?, htext]
  rfl

end Sound

theorem perform_append_of_static {pool : Pool} {handle : Handle} {entry : Entry}
    (hentry : pool.entryAt? handle.index = some entry) (hkind : entry.text.kind = .static)
    (tail : Bytes) :
    pool.perform (.append handle tail) = (.error (.unchangeable handle), pool) := by
  rw [perform, act, runOn_answer, append_of_static hentry hkind]
  rfl

theorem perform_appendFrom_of_static {pool : Pool} {handle source : Handle} {entry : Entry}
    (hentry : pool.entryAt? handle.index = some entry) (hkind : entry.text.kind = .static)
    (hsource : pool.Live source) :
    pool.perform (.appendFrom handle source) = (.error (.unchangeable handle), pool) := by
  rw [perform_appendFrom_of_live hsource, perform_append_of_static hentry hkind]

/-- A loaded string is there after any run with its text, and only requests to retain or to release
it change its number of owners. -/
theorem static_lasts {config : Config} {pool : Pool} (hreachable : Reachable config pool) :
    (∃ owners, pool.Holds .empty ⟨.static, [], owners⟩) ∧
    ∀ (handle : Handle) (text : Bytes) (owners : UInt64),
      pool.Holds handle ⟨.static, text, owners⟩ →
      ∀ run : List Operation, (∀ operation ∈ run, operation.WellFormed) →
        let later := pool.after run
        later.Holds handle ⟨.static, text, run.foldl (recounted handle) owners⟩ ∧
        (∀ tail, later.perform (.append handle tail) = (.error (.unchangeable handle), later)) ∧
        (∀ source, later.contains source = true →
          later.perform (.appendFrom handle source) = (.error (.unchangeable handle), later)) ∧
        ∀ operation : Operation, operation.WellFormed → ¬later.Fills handle operation := by
  have hsound := (sound_of_reachable hreachable).1
  constructor
  · obtain ⟨owners, hempty⟩ := hsound.strings_empty
    exact ⟨owners, hsound.holds_iff.mpr hempty⟩
  intro handle text owners hholds run hrun later
  have hlater := (hsound.after hrun).1
  have hheld := hsound.strings_of_static (hsound.holds_iff.mp hholds) hrun
  obtain ⟨entry, hentry, hentryHeld⟩ := view_eq_some_iff.mp hheld
  have hkind : entry.text.kind = .static := congrArg Held.kind hentryHeld
  refine ⟨hlater.holds_iff.mpr hheld, perform_append_of_static hentry hkind, ?_,
    fun operation hoperation => hlater.not_fills hoperation hheld⟩
  intro source hsource
  exact perform_appendFrom_of_static hentry hkind ((hlater.contains_iff_live source).mp hsource)

/-- A table is loaded; then its string is retained, released twice and swept. -/
theorem static_lasts_released :
    let pool := (ofConfig {}).after [.load ⟨[⟨0, 1⟩], [98, 0]⟩]
    let later := pool.after [.retain ⟨1⟩, .release ⟨1⟩, .release ⟨1⟩, .sweep]
    later.Holds ⟨1⟩ ⟨.static, [98], 0⟩ ∧
      later.perform (.appendFrom ⟨1⟩ .empty) = (.error (.unchangeable ⟨1⟩), later) := by
  intro pool later
  have hload : ∀ operation ∈ [Operation.load ⟨[⟨0, 1⟩], [98, 0]⟩], operation.WellFormed := by
    intro operation hmem
    rw [List.mem_singleton.mp hmem]
    rfl
  have hrun : ∀ operation ∈ [Operation.retain ⟨1⟩, .release ⟨1⟩, .release ⟨1⟩, .sweep],
      operation.WellFormed := by
    simp only [List.forall_mem_cons]
    exact ⟨trivial, trivial, trivial, trivial, fun _ hmem => absurd hmem List.not_mem_nil⟩
  have hreachable : Reachable {} pool := ⟨_, hload, rfl⟩
  have hholds : pool.Holds ⟨1⟩ ⟨.static, [98], 0⟩ := by
    constructor
    · decide +kernel
    · decide +kernel
    · decide +kernel
    · decide +kernel
  obtain ⟨hlater, _, hlengthen, _⟩ := (static_lasts hreachable).2 ⟨1⟩ [98] 0 hholds _ hrun
  have hcount : [Operation.retain ⟨1⟩, .release ⟨1⟩, .release ⟨1⟩, .sweep].foldl
      (recounted ⟨1⟩) 0 = 0 := by decide
  rw [hcount] at hlater
  exact ⟨hlater, hlengthen .empty (by decide +kernel)⟩

end Pool

end TextPool
