import TextPool.Proofs.Pool.Permanent

/-!
# Requests for strings that are not there

Whether there is a string at a handle can be read off the set of occupied slots and off the slot,
and both say the same (`Sound.contains_iff_text`). A request for several strings fails for the first
of them, in the order in which it looks for them, that is missing
(`Sound.perform_of_firstMissing?`), and no request fails in that way without one missing
(`Sound.exists_missing_iff`). Where none is missing, the one failure for which a handle is to blame
is that a loaded string was to be lengthened (`Sound.unchangeable_iff`).
-/

namespace TextPool

def PoolError.isAbsence : PoolError → Bool
  | .noSuchSlot _ _ | .vacant _ => true
  | _ => false

namespace Pool

theorem isAbsence_absence (pool : Pool) (handle : Handle) :
    (pool.absence handle).isAbsence = true := by
  rw [absence]
  split
  · rfl
  · rfl

/-- The first of the strings that the request needs that is not there. -/
def firstMissing? (pool : Pool) (operation : Operation) : Option Handle :=
  operation.checked.find? fun handle => !pool.contains handle

/-- Loads fail for other reasons than a missing or a loaded string. -/
theorem failure_of_load {pool : Pool} {operation : Operation} {failure : PoolError}
    (hload : operation.table? ≠ none) (hfailure : (pool.perform operation).1 = .error failure) :
    failure.isAbsence = false ∧ ∀ target, failure ≠ .unchangeable target := by
  obtain ⟨read, hread⟩ := Option.ne_none_iff_exists'.mp hload
  have heffect := pool.perform_effect operation
  rw [hfailure] at heffect
  generalize (pool.perform operation).2 = left at heffect
  cases heffect.loadEnd hread with
  | faulty | crowded | blocked | halfway => exact ⟨rfl, fun _ => nofun⟩

theorem kind_eq_ok_iff {pool : Pool} {handle : Handle} {kind : Kind} :
    pool.kind handle = .ok kind ↔
      ∃ entry, pool.entryAt? handle.index = some entry ∧ entry.text.kind = kind := by
  simp only [Pool.kind, bind_eq_ok_iff, pure_eq_ok_iff, entry_eq_ok_iff]

/-- Without a missing string, only a word that is given for a handle can be to blame. -/
theorem exists_missing_of_isAbsence {pool : Pool} {operation : Operation} {failure : PoolError}
    (hword : ∀ raw, operation ≠ .handle raw) (habsence : failure.isAbsence = true)
    (hfailure : (pool.perform operation).1 = .error failure) :
    ∃ handle ∈ operation.checked, ¬pool.Live handle := by
  have htable : operation.table? = none := by
    by_contra hload
    rw [(failure_of_load hload hfailure).1] at habsence
    exact Bool.noConfusion habsence
  cases refusal_of_error htable hfailure with
  | missing hchecked hbefore hmissing =>
    refine ⟨_, ?_, hmissing⟩
    rw [hchecked]
    exact List.mem_append_right _ List.mem_cons_self
  | outside hoperation => exact absurd hoperation (hword _)
  | unchangeable | exhausted => exact Bool.noConfusion habsence

namespace Sound

variable {pool : Pool} (hsound : pool.Sound)

include hsound

theorem contains_iff_text (handle : Handle) :
    pool.contains handle = true ↔ ∃ text, pool.text handle = .ok text := by
  rw [hsound.contains_iff_live]
  constructor
  · exact fun hlive => ⟨_, text_of_live hlive⟩
  · rintro ⟨text, htext⟩
    exact live_of_text htext

theorem perform_of_firstMissing? {operation : Operation} {handle : Handle}
    (hfirst : pool.firstMissing? operation = some handle) :
    pool.perform operation = (.error (pool.absence handle), pool) := by
  obtain ⟨hmissing, before, behind, hchecked, hbefore⟩ := List.find?_eq_some_iff_append.mp hfirst
  refine perform_of_missing hchecked (fun other hother => ?_) ?_
  · exact (hsound.contains_iff_live other).mp (by simpa using hbefore other hother)
  · rw [← hsound.contains_iff_live]
    simpa using hmissing

theorem exists_missing_iff {operation : Operation} (hword : ∀ raw, operation ≠ .handle raw) :
    (∃ failure : PoolError, failure.isAbsence = true ∧
      (pool.perform operation).1 = .error failure) ↔
      ∃ handle ∈ operation.checked, pool.contains handle = false := by
  constructor
  · rintro ⟨failure, habsence, hfailure⟩
    obtain ⟨handle, hhandle, hmissing⟩ := exists_missing_of_isAbsence hword habsence hfailure
    exact ⟨handle, hhandle, hsound.contains_eq_false hmissing⟩
  · rintro ⟨handle, hhandle, hmissing⟩
    have hsome : (pool.firstMissing? operation).isSome = true :=
      List.find?_isSome.mpr ⟨handle, hhandle, by rw [hmissing]; rfl⟩
    obtain ⟨first, hfirst⟩ := Option.isSome_iff_exists.mp hsome
    exact ⟨_, pool.isAbsence_absence first,
      congrArg Prod.fst (hsound.perform_of_firstMissing? hfirst)⟩

theorem unchangeable_iff {operation : Operation} {target : Handle} :
    (pool.perform operation).1 = .error (.unchangeable target) ↔
      (∀ handle ∈ operation.checked, pool.contains handle = true) ∧
        ((∃ tail, operation = .append target tail) ∨
          ∃ source, operation = .appendFrom target source) ∧
        pool.kind target = .ok .static := by
  rw [kind_eq_ok_iff]
  constructor
  · intro hfailure
    have htable : operation.table? = none := by
      by_contra hload
      exact (failure_of_load hload hfailure).2 target rfl
    generalize hsame : PoolError.unchangeable target = failure at hfailure
    cases refusal_of_error htable hfailure with
    | @missing before behind handle =>
      have habsence := pool.isAbsence_absence handle
      rw [← hsame] at habsence
      cases habsence
    | outside | exhausted => cases hsame
    | unchangeable hlive htail hentry hkind =>
      obtain rfl := PoolError.unchangeable.inj hsame
      refine ⟨fun handle hhandle => (hsound.contains_iff_live handle).mpr (hlive handle hhandle),
        ?_, _, hentry, hkind⟩
      cases operation with
      | append => exact .inl ⟨_, by rw [(Prod.mk.inj (Option.some.inj htail)).1]⟩
      | appendFrom => exact .inr ⟨_, by rw [(Prod.mk.inj (Option.some.inj htail)).1]⟩
      | _ => exact absurd htail.symm (Option.some_ne_none _)
  · rintro ⟨hlive, hlengthens, entry, hentry, hkind⟩
    obtain ⟨tail, rfl⟩ | ⟨source, rfl⟩ := hlengthens
    · rw [perform_append_of_static hentry hkind]
    · have hsource := (hsound.contains_iff_live source).mp (hlive source List.mem_cons_self)
      rw [perform_appendFrom_of_static hentry hkind hsource]

end Sound

/-- A request fails for want of a string exactly if one that it needs is not there, for the first of
these, and changes nothing. -/
theorem missing_reported {config : Config} {pool : Pool} (hreachable : Reachable config pool) :
    (∀ handle, pool.contains handle = true ↔ ∃ text, pool.text handle = .ok text) ∧
      (∀ operation, (∀ raw, operation ≠ .handle raw) →
        ((∃ failure : PoolError, failure.isAbsence = true ∧
            (pool.perform operation).1 = .error failure) ↔
          ∃ handle ∈ operation.checked, pool.contains handle = false)) ∧
      (∀ operation handle, pool.firstMissing? operation = some handle →
        pool.perform operation =
          (.error (if pool.capacity ≤ handle.index then .noSuchSlot handle.toRaw pool.capacity
            else .vacant handle), pool)) ∧
      ∀ operation target, (pool.perform operation).1 = .error (.unchangeable target) ↔
        (∀ handle ∈ operation.checked, pool.contains handle = true) ∧
          ((∃ tail, operation = .append target tail) ∨
            ∃ source, operation = .appendFrom target source) ∧
          pool.kind target = .ok .static := by
  have hsound := (sound_of_reachable hreachable).1
  refine ⟨hsound.contains_iff_text, fun operation => hsound.exists_missing_iff,
    fun operation handle hfirst => ?_, fun operation target => hsound.unchangeable_iff⟩
  rw [hsound.perform_of_firstMissing? hfirst, absence]
  by_cases hhandle : handle.index < pool.capacity
  · rw [if_pos hhandle, if_neg (Nat.not_le_of_lt hhandle)]
  · rw [if_neg hhandle, if_pos (Nat.le_of_not_lt hhandle)]

/-- Of two missing strings the needle is looked for first. Its handle has no slot, and is told as
the signed word of the same bits. -/
theorem missing_reported_needle :
    let pool := (ofConfig {}).after [.allocate [97], .retain ⟨1⟩, .release ⟨1⟩]
    let operation := Operation.find ⟨1⟩ ⟨0xFFFFFFFFFFFFFFFF⟩ 0
    pool.perform operation = (.error (.noSuchSlot (-1) 1024), pool) ∧
      (∃ failure : PoolError, failure.isAbsence = true ∧
        (pool.perform operation).1 = .error failure) ∧
      (pool.perform (.appendFrom .empty .empty)).1 = .error (.unchangeable .empty) := by
  intro pool operation
  have hrun : ∀ operation ∈ [Operation.allocate [97], .retain ⟨1⟩, .release ⟨1⟩],
      operation.WellFormed := by
    simp only [List.forall_mem_cons]
    exact ⟨trivial, trivial, trivial, fun _ hmem => absurd hmem List.not_mem_nil⟩
  have hreachable : Reachable {} pool := ⟨_, hrun, rfl⟩
  obtain ⟨_, hfails, hfirst, hloaded⟩ := missing_reported hreachable
  have hneedle : pool.firstMissing? operation = some ⟨0xFFFFFFFFFFFFFFFF⟩ := by decide +kernel
  have hcapacity : pool.capacity = 1024 := by decide +kernel
  have hmissing : pool.contains ⟨1⟩ = false := by decide +kernel
  have hempty : ∀ handle ∈ (Operation.appendFrom .empty .empty).checked,
      pool.contains handle = true := by decide +kernel
  have hkind : pool.kind .empty = .ok .static := by decide +kernel
  refine ⟨?_, (hfails operation nofun).mpr ⟨⟨1⟩, by decide, hmissing⟩,
    (hloaded _ .empty).mpr ⟨hempty, .inr ⟨.empty, rfl⟩, hkind⟩⟩
  rw [hfirst operation _ hneedle, hcapacity]
  rfl

end Pool

end TextPool
