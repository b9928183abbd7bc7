import Mathlib.Data.Set.Card
import TextPool.Proofs.Pool.Life
import TextPool.Proofs.Pool.Region

/-!
# What a sweep removes

A sweep removes the made strings without owners that stand from the boundary on, answers how many
there were, and changes nothing else (`sweep_iff`). Below the boundary it does not look: where a
load has raised the boundary over such a string, it stays, and then the sweep has not removed every
made string that nobody owns. This is the only way to fall short of that.
-/

namespace TextPool.Pool

/-- The string at the handle was made and has no owner, wherever the boundary is. -/
def Ownerless (pool : Pool) (handle : Handle) : Prop :=
  pool.kind handle = .ok .dynamic ∧ pool.owners handle = .ok 0

instance (pool : Pool) (handle : Handle) : Decidable (pool.Ownerless handle) :=
  inferInstanceAs (Decidable (_ ∧ _))

theorem ownerless_iff {pool : Pool} {handle : Handle} :
    pool.Ownerless handle ↔ ∃ text, pool.view.strings handle = some ⟨.dynamic, text, 0⟩ := by
  simp only [Ownerless, Pool.kind, Pool.owners, bind_eq_ok_iff, pure_eq_ok_iff, entry_eq_ok_iff,
    view_eq_some_iff]
  constructor
  · rintro ⟨⟨entry, hentry, hkind⟩, other, hother, howners⟩
    obtain rfl := Option.some.inj (hentry.symm.trans hother)
    exact ⟨_, entry, hentry, by rw [held, hkind, howners]⟩
  · rintro ⟨text, entry, hentry, hheld⟩
    obtain ⟨hkind, _, howners⟩ := Held.mk.inj hheld
    exact ⟨⟨entry, hentry, hkind⟩, entry, hentry, howners⟩

theorem idle_view_iff {pool : Pool} {handle : Handle} :
    pool.view.Idle handle ↔ pool.Ownerless handle ∧ pool.boundary ≤ handle.index := by
  rw [ownerless_iff]
  exact and_comm

/-! ### One sweep -/

theorem perform_sweep (pool : Pool) :
    pool.perform .sweep = (.ok (.count pool.idle.length), pool.idle.foldl vacate pool) := rfl

/-- A pool without idle strings is left as it is. -/
theorem Sound.perform_sweep_of_none {pool : Pool} (hsound : pool.Sound)
    (hnone : ∀ handle, ¬pool.view.Idle handle) : pool.perform .sweep = (.ok (.count 0), pool) := by
  have hidle : pool.idle = [] := by
    rw [List.eq_nil_iff_forall_not_mem]
    intro index hindex
    exact hnone ⟨index⟩ ((hsound.mem_idle_iff ⟨index⟩).mp (List.mem_map_of_mem hindex))
  rw [perform_sweep, hidle]
  rfl

namespace Sound

variable {pool : Pool} (hsound : pool.Sound)

include hsound

theorem encard_idle : {handle | pool.view.Idle handle}.encard = pool.idle.length := by
  have hset : {handle | pool.view.Idle handle} = ↑(pool.idle.map Handle.mk).toFinset := by
    ext handle
    exact (hsound.mem_idle_iff handle).symm.trans List.mem_toFinset.symm
  rw [hset, Set.encard_coe_eq_coe_finsetCard, List.toFinset_card_of_nodup pool.nodup_idle,
    List.length_map]

theorem strings_after_sweep (handle : Handle) (held : Held) :
    (pool.perform .sweep).2.view.strings handle = some held ↔
      pool.view.strings handle = some held ∧ ¬pool.view.Idle handle := by
  rw [perform_sweep, view_foldl_vacate, ← hsound.mem_idle_iff]
  dsimp only [View.without]
  split_ifs with hgone
  · exact iff_of_false not_false fun hkept => hkept.2 hgone
  · exact (and_iff_left hgone).symm

theorem ownerless_after_sweep (handle : Handle) :
    (pool.perform .sweep).2.Ownerless handle ↔
      pool.Ownerless handle ∧ handle.index < pool.boundary := by
  simp only [ownerless_iff, hsound.strings_after_sweep, View.Idle]
  constructor
  · rintro ⟨text, hheld, hkept⟩
    refine ⟨⟨text, hheld⟩, ?_⟩
    by_contra hbelow
    exact hkept ⟨Nat.le_of_not_lt hbelow, text, hheld⟩
  · rintro ⟨⟨text, hheld⟩, hbelow⟩
    exact ⟨text, hheld, fun hidle => Nat.not_lt_of_le hidle.1 hbelow⟩

end Sound

/-- A sweep removes the made strings without owners from the boundary on, which are all there are
exactly if none stands below it. -/
theorem sweep_iff {config : Config} {pool : Pool} (hreachable : Reachable config pool) :
    ∃ (count : Nat) (left : Pool), pool.perform .sweep = (.ok (.count count), left) ∧
      count = {handle | pool.Ownerless handle ∧ pool.boundary ≤ handle.index}.encard ∧
      (∀ handle held, left.Holds handle held ↔ pool.Holds handle held ∧
        ¬(pool.Ownerless handle ∧ pool.boundary ≤ handle.index)) ∧
      (∀ handle, left.Ownerless handle ↔
        pool.Ownerless handle ∧ handle.index < pool.boundary) ∧
      left.perform .sweep = (.ok (.count 0), left) ∧
      ((∀ handle, ¬left.Ownerless handle) ∧ count = {handle | pool.Ownerless handle}.encard ↔
        ∀ handle, pool.Ownerless handle → pool.boundary ≤ handle.index) := by
  have hsound := (sound_of_reachable hreachable).1
  have hwell : Operation.sweep.WellFormed := trivial
  have hleft := (hsound.perform hwell).1
  have hcount : pool.idle.length
      = {handle | pool.Ownerless handle ∧ pool.boundary ≤ handle.index}.encard := by
    simp only [← idle_view_iff, hsound.encard_idle]
  have hgone := hsound.ownerless_after_sweep
  refine ⟨pool.idle.length, (pool.perform .sweep).2, rfl, hcount, fun handle held => ?_, hgone,
    ?_, ?_⟩
  · rw [hleft.holds_iff, hsound.holds_iff, hsound.strings_after_sweep, idle_view_iff]
  · refine hleft.perform_sweep_of_none fun handle hidle => ?_
    obtain ⟨hownerless, habove⟩ := idle_view_iff.mp hidle
    have hbelow := ((hgone handle).mp hownerless).2
    have hboundary := (sameFrame_foldl_vacate pool.idle pool).boundary_eq
    rw [perform_sweep] at habove
    dsimp only at habove
    omega
  · constructor
    · rintro ⟨hnone, _⟩ handle hownerless
      by_contra hbelow
      exact hnone handle ((hgone handle).mpr ⟨hownerless, Nat.lt_of_not_le hbelow⟩)
    · intro habove
      refine ⟨fun handle hownerless => ?_, ?_⟩
      · obtain ⟨hbefore, hbelow⟩ := (hgone handle).mp hownerless
        exact Nat.not_lt_of_le (habove handle hbefore) hbelow
      · rw [hcount]
        congr 1
        ext handle
        exact and_iff_left_of_imp (habove handle)

/-- Two strings are made after a load, and one of them is retained; then the other goes. -/
theorem sweep_iff_loaded :
    let pool := (ofConfig {}).after
      [.load ⟨[⟨0, 1⟩], [98, 0]⟩, .allocate [97], .allocate [99], .retain ⟨65⟩]
    ∃ left, pool.perform .sweep = (.ok (.count 1), left) ∧ (∀ handle, ¬left.Ownerless handle) ∧
      left.Holds ⟨65⟩ ⟨.dynamic, [99], 1⟩ ∧ left.perform .sweep = (.ok (.count 0), left) := by
  intro pool
  have hreachable : Reachable {} pool := ⟨_, by decide, rfl⟩
  have hholds : pool.Holds ⟨65⟩ ⟨.dynamic, [99], 1⟩ := by decide +kernel
  obtain ⟨count, left, hsweep, _, hkept, _, hagain, hall⟩ := sweep_iff hreachable
  have hcount : (pool.perform .sweep).1 = .ok (.count 1) := by decide +kernel
  rw [hsweep] at hcount
  obtain rfl := Answer.count.inj (Except.ok.inj hcount)
  have hbelow : pool.boundary = 64 ∧ ∀ index < 64, ¬pool.Ownerless ⟨index⟩ := by decide +kernel
  have hnone : ∀ handle, pool.Ownerless handle → pool.boundary ≤ handle.index := by
    intro handle hownerless
    by_contra hlt
    rw [hbelow.1] at hlt
    exact hbelow.2 handle.index (Nat.lt_of_not_le hlt) hownerless
  refine ⟨left, hsweep, (hall.mpr hnone).1, (hkept _ _).mpr ⟨hholds, ?_⟩, hagain⟩
  decide +kernel

/-- A load raises the boundary over a made string, and the sweep leaves it. -/
theorem exists_sweep_leaves_ownerless :
    ¬∀ (config : Config) (run : List Operation), (∀ operation ∈ run, operation.WellFormed) →
      ∀ handle, ¬(((ofConfig config).after run).perform .sweep).2.Ownerless handle := by
  intro hclaim
  have hrun : ∀ operation ∈ [Operation.allocate [97], .load ⟨[⟨0, 1⟩], [98, 0]⟩],
      operation.WellFormed := by decide
  exact hclaim {} _ hrun ⟨1⟩ (by decide +kernel)

end TextPool.Pool
