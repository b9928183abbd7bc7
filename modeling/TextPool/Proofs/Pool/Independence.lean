import TextPool.Proofs.Bitset.Refinement
import TextPool.Proofs.Pool.Invariant
import TextPool.Proofs.Pool.Refusal

/-!
# Requests about different strings

To retain, to release and to lengthen a string is to look at its slot and to put something else
there, or nothing. Nothing else in the pool is looked at but its capacity and its settings, and
nothing else is changed: not the cursor, and of the set of occupied slots no other position. So what
such a request does is settled by the entry it finds (`Operation.treat`), and requests about
different strings can trade places (`perform_comm`). The theorem on runs follows by sorting one
order into the other.
-/

namespace TextPool

/-- The handle of the one string that the request is about, if it retains or releases a string or
lengthens it by given bytes. -/
def Operation.subject? : Operation → Option Handle
  | .retain target | .release target | .append target _ => some target
  | _ => none

/-- What a request about one string does with its entry: the outcome, and what stands in the slot
afterwards. -/
def Operation.treat (config : Config) (entry : Entry) :
    Operation → Except PoolError Answer × Option Entry
  | .retain _ => (.ok .done, some { entry with owners := entry.owners + 1 })
  | .release _ =>
    if entry.owners = 0 then (.ok .done, some entry)
    else if entry.owners = 1 ∧ entry.text.kind = .dynamic then (.ok .done, none)
    else (.ok .done, some { entry with owners := entry.owners - 1 })
  | .append target tail =>
    match entry.text with
    | .static _ _ => (.error (.unchangeable target), some entry)
    | .dynamic bytes =>
      if config.grants tail.upToZero.length then
        (.ok (.made target), some { entry with text := .dynamic (bytes ++ tail.upToZero) })
      else (.error (.exhausted tail.upToZero.length), some entry)
  | _ => (.ok .done, some entry)

namespace Pool

/-! ### One slot -/

def put (pool : Pool) (index : Nat) : Option Entry → Pool
  | some entry => pool.update index entry
  | none => pool.vacate index

section Put

variable (pool : Pool) (index : Nat) (entry : Option Entry)

theorem config_put : (pool.put index entry).config = pool.config := by
  cases entry <;> rfl

theorem capacity_put : (pool.put index entry).capacity = pool.capacity := by
  cases entry with
  | some entry => exact pool.capacity_update index entry
  | none => exact pool.capacity_vacate index

theorem entryAt?_put_of_ne {other : Nat} (hother : index ≠ other) :
    (pool.put index entry).entryAt? other = pool.entryAt? other := by
  cases entry with
  | some entry => simp only [put, update, entryAt?, Array.getElem?_setIfInBounds, if_neg hother]
  | none => exact (pool.entryAt?_vacate index other).trans (if_neg hother)

theorem absence_put (handle : Handle) : (pool.put index entry).absence handle = pool.absence handle := by
  rw [absence, absence, capacity_put]

theorem put_comm {other : Nat} (hother : index ≠ other) (otherEntry : Option Entry) :
    (pool.put index entry).put other otherEntry = (pool.put other otherEntry).put index entry := by
  cases entry with
  | some entry =>
    cases otherEntry with
    | some otherEntry =>
      simp only [put, update]
      rw [Array.setIfInBounds_comm _ _ hother]
    | none =>
      simp only [put, update, vacate]
      rw [Array.setIfInBounds_comm _ _ hother]
  | none =>
    cases otherEntry with
    | some otherEntry =>
      simp only [put, update, vacate]
      rw [Array.setIfInBounds_comm _ _ hother]
    | none =>
      simp only [put, vacate]
      rw [Array.setIfInBounds_comm _ _ hother, Bitset.erase_erase_comm]

end Put

/-- Putting back what is there changes nothing. -/
theorem put_self {pool : Pool} {index : Nat} {entry : Entry}
    (hentry : pool.entryAt? index = some entry) : pool.put index (some entry) = pool := by
  obtain ⟨slot, hslot, hoccupant⟩ := Option.bind_eq_some_iff.mp hentry
  obtain ⟨text, htext, rfl⟩ := Option.map_eq_some_iff.mp hoccupant
  have hsame : Slot.ofEntry ⟨text, slot.owners⟩ = slot := by
    rw [Slot.ofEntry, ← htext]
  have hslots : pool.slots.setIfInBounds index slot = pool.slots := by
    apply Array.ext_getElem?
    intro other
    rw [Array.getElem?_setIfInBounds]
    split
    · next hother =>
      subst hother
      rw [hslot, if_pos (Array.getElem?_eq_some_iff.mp hslot).1]
    · rfl
  rw [put, update, hsame, hslots]

/-! ### One request -/

section Subject

variable {pool : Pool} {operation : Operation} {handle : Handle}
  (hsubject : operation.subject? = some handle)

include hsubject

theorem perform_of_vacant (hnone : pool.entryAt? handle.index = none) :
    pool.perform operation = (.error (pool.absence handle), pool) := by
  have hchecked : operation.checked = [] ++ handle :: [] := by
    cases operation with
    | retain | release | append => rw [Option.some.inj hsubject]; rfl
    | _ => exact absurd hsubject.symm (Option.some_ne_none handle)
  refine perform_of_missing hchecked (fun other hother => absurd hother List.not_mem_nil) ?_
  rintro ⟨entry, hentry⟩
  exact Option.some_ne_none entry (hentry.symm.trans hnone)

theorem perform_of_entry {entry : Entry} (hentry : pool.entryAt? handle.index = some entry) :
    pool.perform operation = ((operation.treat pool.config entry).1,
      pool.put handle.index (operation.treat pool.config entry).2) := by
  have hfound := entry_eq_ok_iff.mpr hentry
  have hself := put_self hentry
  cases operation with
  | retain target =>
    obtain rfl := Option.some.inj hsubject
    rw [perform, act, runOn_answer, retain, runOn_ask_bind, hfound]
    rfl
  | release target =>
    obtain rfl := Option.some.inj hsubject
    rw [perform, act, runOn_answer, release, runOn_ask_bind, hfound]
    dsimp only [Operation.treat]
    by_cases howners : entry.owners = 0
    · rw [if_neg (not_not_intro howners), if_pos howners, hself]
      rfl
    · rw [if_pos howners, if_neg howners]
      split
      · rfl
      · rfl
  | append target tail =>
    obtain rfl := Option.some.inj hsubject
    obtain ⟨stored, owners⟩ := entry
    rw [perform, act, runOn_answer, append, runOn_ask_bind, hfound]
    cases stored with
    | static blob span =>
      rw [Operation.treat, hself]
      rfl
    | dynamic text =>
      dsimp only [Operation.treat]
      rw [runOn_ask_bind, reserve]
      by_cases hgrants : pool.config.grants tail.upToZero.length = true
      · rw [if_pos hgrants, if_pos hgrants]
        rfl
      · rw [if_neg hgrants, if_neg hgrants, hself]
        rfl
  | _ => exact absurd hsubject.symm (Option.some_ne_none handle)

end Subject

/-- Of two requests about different strings the second is answered as if it came first, and both
orders lead to the same pool. -/
theorem perform_comm {first second : Operation} {handle other : Handle}
    (hfirst : first.subject? = some handle) (hsecond : second.subject? = some other)
    (hother : handle ≠ other) (pool : Pool) :
    ((pool.perform first).2.perform second).1 = (pool.perform second).1 ∧
      ((pool.perform first).2.perform second).2 = ((pool.perform second).2.perform first).2 := by
  have hindex : handle.index ≠ other.index := fun heq => hother (congrArg Handle.mk heq)
  cases hhandle : pool.entryAt? handle.index with
  | none =>
    have hstays (entry : Option Entry) :
        (pool.put other.index entry).entryAt? handle.index = none :=
      (pool.entryAt?_put_of_ne other.index entry hindex.symm).trans hhandle
    rw [perform_of_vacant hfirst hhandle]
    cases hentry : pool.entryAt? other.index with
    | none => rw [perform_of_vacant hsecond hentry, perform_of_vacant hfirst hhandle]; exact ⟨rfl, rfl⟩
    | some entry =>
      rw [perform_of_entry hsecond hentry, perform_of_vacant hfirst (hstays _)]
      exact ⟨rfl, rfl⟩
  | some held =>
    have hstays (entry : Option Entry) :
        (pool.put other.index entry).entryAt? handle.index = some held :=
      (pool.entryAt?_put_of_ne other.index entry hindex.symm).trans hhandle
    have hremains (entry : Option Entry) :
        (pool.put handle.index entry).entryAt? other.index = pool.entryAt? other.index :=
      pool.entryAt?_put_of_ne handle.index entry hindex
    rw [perform_of_entry hfirst hhandle]
    cases hentry : pool.entryAt? other.index with
    | none =>
      rw [perform_of_vacant hsecond ((hremains _).trans hentry), perform_of_vacant hsecond hentry,
        perform_of_entry hfirst hhandle, absence_put]
      exact ⟨rfl, rfl⟩
    | some entry =>
      rw [perform_of_entry hsecond ((hremains _).trans hentry), perform_of_entry hsecond hentry,
        perform_of_entry hfirst (hstays _), config_put, config_put]
      exact ⟨rfl, pool.put_comm _ _ hindex _⟩

/-! ### Runs -/

theorem answers_append (pool : Pool) (earlier later : List Operation) :
    pool.answers (earlier ++ later) = pool.answers earlier ++ (pool.after earlier).answers later := by
  induction earlier generalizing pool with
  | nil => rfl
  | cons operation rest ih =>
    rw [List.cons_append, answers, answers, ih, List.cons_append]
    rfl

/-- The requests are about single strings, and no two of them about the same. -/
structure Apart (run : List Operation) : Prop where
  isSome : ∀ operation ∈ run, operation.subject?.isSome = true
  nodup : (run.map Operation.subject?).Nodup

theorem Apart.perm {run other : List Operation} (hrun : Apart run) (horder : run.Perm other) :
    Apart other :=
  ⟨fun operation hoperation => hrun.isSome operation (horder.mem_iff.mpr hoperation),
    (horder.map Operation.subject?).nodup_iff.mp hrun.nodup⟩

/-- Each request of the run is answered as if it were the only one. -/
theorem Apart.answers_eq {run : List Operation} (hrun : Apart run) (pool : Pool) :
    pool.answers run = run.map fun operation => (pool.perform operation).1 := by
  induction run generalizing pool with
  | nil => rfl
  | cons first rest ih =>
    obtain ⟨hfirst, hrest⟩ := List.forall_mem_cons.mp hrun.isSome
    obtain ⟨hnew, hnodup⟩ := List.nodup_cons.mp hrun.nodup
    obtain ⟨handle, hhandle⟩ := Option.isSome_iff_exists.mp hfirst
    rw [answers, ih ⟨hrest, hnodup⟩, List.map_cons]
    congr 1
    refine List.map_congr_left fun second hsecond => ?_
    obtain ⟨other, hother⟩ := Option.isSome_iff_exists.mp (hrest second hsecond)
    refine (perform_comm hhandle hother ?_ pool).1
    rintro rfl
    exact hnew (List.mem_map.mpr ⟨second, hsecond, hother.trans hhandle.symm⟩)

theorem Apart.after_eq {run other : List Operation} (hrun : Apart run) (horder : run.Perm other)
    (pool : Pool) : pool.after other = pool.after run := by
  refine (horder.foldl_eq' (fun first hfirst second hsecond left => ?_) pool).symm
  obtain ⟨handle, hhandle⟩ := Option.isSome_iff_exists.mp (hrun.isSome first hfirst)
  obtain ⟨other, hother⟩ := Option.isSome_iff_exists.mp (hrun.isSome second hsecond)
  by_cases hsame : handle = other
  · -- No two requests of the run are about one string, so these are the same request.
    have heq : first.subject? = second.subject? := by rw [hhandle, hother, hsame]
    rw [List.inj_on_of_nodup_map hrun.nodup hfirst hsecond heq]
  · exact (perform_comm hhandle hother hsame left).2

/-- In whatever order different strings are retained, released and lengthened, the answers and the
pool left are the same. -/
theorem after_and_answers_of_perm (pool : Pool) {run other : List Operation} (hrun : Apart run)
    (horder : run.Perm other) :
    pool.after other = pool.after run ∧
      ∀ later, pool.answers (other ++ later)
        = (other.map fun operation => (pool.perform operation).1)
          ++ (pool.after run).answers later := by
  have hafter := hrun.after_eq horder pool
  refine ⟨hafter, fun later => ?_⟩
  rw [answers_append, (hrun.perm horder).answers_eq, hafter]

/-- A string goes, one is lengthened, a loaded one is retained, another cannot be lengthened, and
one is missing. -/
theorem after_and_answers_of_reverse :
    let pool := (ofConfig {}).after
      [.load ⟨[⟨0, 1⟩], [97, 0]⟩, .allocate [98], .allocate [99], .retain ⟨64⟩]
    let run := [Operation.release ⟨64⟩, .append ⟨65⟩ [100, 0, 101], .retain ⟨0⟩, .append ⟨1⟩ [102],
      .release ⟨66⟩]
    Apart run ∧ run.Perm run.reverse ∧ pool.after run.reverse = pool.after run ∧
      pool.answers (run.reverse ++ [.allocate [103], .allocate [104]])
        = [.error (.vacant ⟨66⟩), .error (.unchangeable ⟨1⟩), .ok .done, .ok (.made ⟨65⟩), .ok .done,
          .ok (.made ⟨66⟩), .ok (.made ⟨67⟩)] := by
  intro pool run
  have hrun : Apart run := ⟨by decide, by decide⟩
  have horder : run.Perm run.reverse := (List.reverse_perm run).symm
  obtain ⟨hafter, hanswers⟩ := after_and_answers_of_perm pool hrun horder
  exact ⟨hrun, horder, hafter, (hanswers _).trans (by decide +kernel)⟩

end Pool

end TextPool
