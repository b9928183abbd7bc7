import TextPool.Proofs.Pool.Making

/-!
# Lengthening strings

A request that appends to a made string puts a longer text in its place, or there is no memory for
the tail and nothing changes (`Lengthens`). No other string is touched, whatever it was made from,
and it makes no difference where the tail comes from, be it the string itself
(`Sound.lengthens_appendFrom`). The text is the one that a new string of both would have, and to
append bytes is to append a string of them.

Along a run of such requests no string comes or goes, and each has the text it had with all behind
it that was appended to it, in order (`tailsAlong`, `Sound.strings_of_lengthening`).
-/

namespace TextPool

namespace Operation

def lengthened? : Operation → Option Handle
  | .append target _ | .appendFrom target _ => some target
  | _ => none

theorem wellFormed_of_lengthened? {operation : Operation}
    (hlengthens : operation.lengthened?.isSome = true) : operation.WellFormed := by
  cases operation with
  | append | appendFrom => trivial
  | _ => exact Bool.noConfusion hlengthens

end Operation

namespace Pool

/-- What a request that appends this tail to a string that was made does. -/
inductive Lengthens (pool : Pool) (target : Handle) (held : Held) (tail : Bytes) :
    Except PoolError Answer × Pool → Prop
  | lengthened {left : Pool} (hmemory : pool.config.grants tail.length = true)
      (hholds : left.Holds target { held with text := held.text ++ tail })
      (hothers : ∀ other ≠ target, ∀ held, left.Holds other held ↔ pool.Holds other held)
      (hcontains : ∀ other, left.contains other = pool.contains other) :
      Lengthens pool target held tail (.ok (.made target), left)
  | exhausted (hmemory : pool.config.grants tail.length = false) :
      Lengthens pool target held tail (.error (.exhausted tail.length), pool)

/-- What a request appends to the text at a handle. One that fails appends nothing. -/
def appended (pool : Pool) (operation : Operation) (handle : Handle) : Bytes :=
  match (pool.perform operation).1 with
  | .ok _ => pool.view.appended operation handle
  | .error _ => []

def tailsAlong (handle : Handle) : Pool → List Operation → List Bytes
  | _, [] => []
  | pool, operation :: rest =>
    pool.appended operation handle :: tailsAlong handle (pool.perform operation).2 rest

/-! ### Every string after a request -/

section Strings

variable {pool : Pool} {operation : Operation} {handle : Handle}

theorem appended_of_answered {target : Handle} {bytes : Bytes} {answer : Answer}
    (hanswer : (pool.perform (.append target bytes)).1 = .ok answer) :
    pool.appended (.append target bytes) target = bytes.upToZero := by
  rw [appended, hanswer]
  exact if_pos rfl

theorem appended_of_ne (hother : operation.lengthened? ≠ some handle) :
    pool.appended operation handle = [] := by
  unfold appended
  cases (pool.perform operation).1 with
  | error failure => rfl
  | ok answer =>
    cases operation with
    | append | appendFrom => exact if_neg fun heq => hother (congrArg some heq)
    | _ => rfl

theorem flatten_tailsAlong_of_ne {run : List Operation}
    (hothers : ∀ operation ∈ run, operation.lengthened? ≠ some handle) :
    (tailsAlong handle pool run).flatten = [] := by
  induction run generalizing pool with
  | nil => rfl
  | cons operation rest ih =>
    obtain ⟨hother, hrest⟩ := List.forall_mem_cons.mp hothers
    rw [tailsAlong, List.flatten_cons, appended_of_ne hother, ih hrest, List.append_nil]

variable (hlengthens : operation.lengthened?.isSome = true)

include hlengthens

theorem next_of_lengthened? (held : Held) : pool.next operation handle held
    = { held with text := held.text ++ pool.appended operation handle } := by
  unfold next appended
  cases (pool.perform operation).1 with
  | error failure => rw [List.append_nil]
  | ok answer =>
    cases operation with
    | append | appendFrom => simp only [View.next, Operation.recount, UInt64.ofNat_toNat]
    | _ => exact Bool.noConfusion hlengthens

theorem not_removes_of_lengthened? (held : Held) : ¬pool.view.Removes handle held operation := by
  rintro (_ | _)
  · cases hlengthens
  · cases hlengthens

theorem not_fills_of_lengthened? : ¬pool.Fills handle operation := by
  rintro (⟨hproduct, _⟩ | ⟨htable, _, _, _⟩)
  · cases operation with
    | append | appendFrom => cases hproduct
    | _ => cases hlengthens
  · cases operation with
    | append | appendFrom => cases htable
    | _ => cases hlengthens

/-- No string comes or goes, and each is longer by what the request appends to it. -/
theorem Sound.strings_of_lengthened? (hsound : pool.Sound) :
    (pool.perform operation).2.view.strings handle = (pool.view.strings handle).map
      fun held => { held with text := held.text ++ pool.appended operation handle } := by
  have hoperation := Operation.wellFormed_of_lengthened? hlengthens
  cases hheld : pool.view.strings handle with
  | none => exact hsound.strings_perform_of_free hoperation hheld (not_fills_of_lengthened? hlengthens)
  | some held =>
    rw [hsound.strings_perform hoperation hheld (not_removes_of_lengthened? hlengthens held),
      next_of_lengthened? hlengthens]
    rfl

theorem Sound.strings_of_other (hsound : pool.Sound) (hother : operation.lengthened? ≠ some handle) :
    (pool.perform operation).2.view.strings handle = pool.view.strings handle := by
  rw [hsound.strings_of_lengthened? hlengthens, appended_of_ne hother]
  simp only [List.append_nil, Option.map_id']

end Strings

/-! ### One request -/

/-- The answer and the text afterwards depend on the settings of the pool, the text and the tail
only. -/
theorem Lengthens.answer_and_text {pool : Pool} {target : Handle} {held : Held} {tail : Bytes}
    {done : Except PoolError Answer × Pool} (hlengthens : pool.Lengthens target held tail done)
    (htarget : pool.Holds target held) :
    (done.1 = if pool.config.grants tail.length then .ok (.made target)
      else .error (.exhausted tail.length)) ∧
      done.2.text target
        = .ok (if pool.config.grants tail.length then held.text ++ tail else held.text) := by
  cases hlengthens with
  | lengthened hmemory hholds =>
    rw [if_pos hmemory, if_pos hmemory]
    exact ⟨rfl, hholds.text_eq⟩
  | exhausted hmemory =>
    rw [hmemory]
    exact ⟨rfl, htarget.text_eq⟩

section Request

variable {pool : Pool}

/-- Only the bytes up to the first zero are appended. -/
theorem perform_append_upToZero (pool : Pool) (target : Handle) (bytes : Bytes) :
    pool.perform (.append target bytes.upToZero) = pool.perform (.append target bytes) := by
  rw [perform, perform, act, act, append, append, Bytes.upToZero_upToZero]

theorem perform_appendFrom {source : Handle} {tail : Bytes} (htail : pool.text source = .ok tail)
    (target : Handle) :
    pool.perform (.appendFrom target source) = pool.perform (.append target tail) := by
  rw [perform_appendFrom_of_live (live_of_text htail), textAt_of_text htail]

variable (hsound : pool.Sound) {target : Handle} {text : Bytes} {owners : UInt64}
  (htarget : pool.Holds target ⟨.dynamic, text, owners⟩)

include hsound htarget

theorem Sound.lengthens_append (bytes : Bytes) :
    pool.Lengthens target ⟨.dynamic, text, owners⟩ bytes.upToZero
      (pool.perform (.append target bytes)) := by
  have hheld := hsound.holds_iff.mp htarget
  have hsubject : (Operation.append target bytes).subject? = some target := rfl
  have hoperation : (Operation.append target bytes).WellFormed := trivial
  have hdone := perform_of_entry hsubject (view_dynamic_iff.mp hheld)
  by_cases hmemory : pool.config.grants bytes.upToZero.length = true
  · have hanswer : (pool.perform (.append target bytes)).1 = .ok (.made target) := by
      rw [hdone, Operation.treat]
      exact congrArg Prod.fst (if_pos hmemory)
    have hleft := (hsound.perform hoperation).1
    have hlengthens : (Operation.append target bytes).lengthened?.isSome = true := rfl
    rw [← Prod.eta (pool.perform (.append target bytes)), hanswer]
    refine .lengthened hmemory ?_ (fun other hother held => ?_) fun other => ?_
    · rw [hleft.holds_iff, hsound.strings_of_lengthened? hlengthens, hheld,
        appended_of_answered hanswer]
      rfl
    · rw [hleft.holds_iff, hsound.holds_iff, hsound.strings_of_other hlengthens]
      exact fun heq => hother (Option.some.inj heq).symm
    · rw [hleft.contains_eq_isSome, hsound.strings_of_lengthened? hlengthens, Option.isSome_map,
        hsound.contains_eq_isSome]
  · rw [hdone, Operation.treat]
    dsimp only
    rw [if_neg hmemory, put_self (view_dynamic_iff.mp hheld)]
    exact .exhausted (Bool.eq_false_of_not_eq_true hmemory)

/-- The tail may be the text of any string, be it the target or one that was made from it. -/
theorem Sound.lengthens_appendFrom {source : Handle} {tail : Bytes}
    (htail : pool.text source = .ok tail) :
    pool.Lengthens target ⟨.dynamic, text, owners⟩ tail
      (pool.perform (.appendFrom target source)) := by
  have hself := Bytes.upToZero_eq_self tail (hsound.zero_notMem_text htail)
  rw [perform_appendFrom htail, ← hself, perform_append_upToZero]
  exact hsound.lengthens_append htarget tail

/-- Bytes that are appended, and a string that is first made of them and then appended, lengthen a
text alike. -/
theorem Sound.append_eq_of_allocate {bytes : Bytes} {source : Handle} {stored : Pool}
    (hstored : pool.perform (.allocate bytes) = (.ok (.made source), stored)) :
    (stored.perform (.appendFrom target source)).1 = (pool.perform (.append target bytes)).1 ∧
      (stored.perform (.appendFrom target source)).2.text target
        = (pool.perform (.append target bytes)).2.text target := by
  have hoperation : (Operation.allocate bytes).WellFormed := trivial
  have hconfig := (hsound.perform hoperation).2.config_eq
  rw [hstored] at hconfig
  obtain ⟨hsame, hsource, hkept⟩ := hsound.holds_of_made rfl hstored
  have hstays := hkept target _ htarget
  obtain ⟨hanswer, htext⟩ :=
    (hsame.lengthens_appendFrom hstays hsource.text_eq).answer_and_text hstays
  obtain ⟨hother, hbytes⟩ := (hsound.lengthens_append htarget bytes).answer_and_text htarget
  rw [hconfig] at hanswer htext
  exact ⟨hanswer.trans hother.symm, htext.trans hbytes.symm⟩

end Request

/-! ### Runs -/

section Runs

variable {pool : Pool} (hsound : pool.Sound) {run : List Operation}
  (hrun : ∀ operation ∈ run, operation.lengthened?.isSome = true)

include hrun

theorem wellFormed_of_lengthening : ∀ operation ∈ run, operation.WellFormed :=
  fun operation hoperation => Operation.wellFormed_of_lengthened? (hrun operation hoperation)

include hsound

/-- Along a run that lengthens strings none comes or goes, and each is longer by all that was
appended. -/
theorem Sound.strings_of_lengthening (handle : Handle) :
    (pool.after run).view.strings handle = (pool.view.strings handle).map
      fun held => { held with text := held.text ++ (tailsAlong handle pool run).flatten } := by
  induction run generalizing pool with
  | nil =>
    simp only [tailsAlong, List.flatten_nil, List.append_nil, Option.map_id']
    rfl
  | cons operation rest ih =>
    obtain ⟨hlengthens, hrest⟩ := List.forall_mem_cons.mp hrun
    have hnext := (hsound.perform (Operation.wellFormed_of_lengthened? hlengthens)).1
    have hlater := ih hnext hrest
    rw [hsound.strings_of_lengthened? hlengthens, Option.map_map] at hlater
    refine hlater.trans (congrArg (Option.map · _) (funext fun held => ?_))
    simp only [Function.comp_apply, tailsAlong, List.flatten_cons, List.append_assoc]

theorem Sound.holds_of_lengthening {handle : Handle} {held : Held} (hheld : pool.Holds handle held) :
    (pool.after run).Holds handle
      { held with text := held.text ++ (tailsAlong handle pool run).flatten } := by
  have hlater := (hsound.after (wellFormed_of_lengthening hrun)).1
  rw [hlater.holds_iff, hsound.strings_of_lengthening hrun, hsound.holds_iff.mp hheld]
  rfl

theorem Sound.contains_of_lengthening (handle : Handle) :
    (pool.after run).contains handle = pool.contains handle := by
  have hlater := (hsound.after (wellFormed_of_lengthening hrun)).1
  rw [hlater.contains_eq_isSome, hsound.strings_of_lengthening hrun, Option.isSome_map,
    hsound.contains_eq_isSome]

end Runs

/-- Bytes that are appended to one string one after another, each up to its first zero byte. -/
theorem tailsAlong_of_answered {pool : Pool} {target : Handle} {tails : List Bytes}
    (hanswers : ∀ outcome ∈ pool.answers (tails.map (.append target)), outcome = .ok (.made target)) :
    tailsAlong target pool (tails.map (.append target)) = tails.map Bytes.upToZero := by
  induction tails generalizing pool with
  | nil => rfl
  | cons tail rest ih =>
    obtain ⟨hanswer, hrest⟩ := List.forall_mem_cons.mp hanswers
    rw [List.map_cons, tailsAlong, appended_of_answered hanswer, ih hrest, List.map_cons]

/-- What is appended stands behind the text of the string, one request after another, and no other
string is touched. -/
theorem append_exact {config : Config} {pool : Pool} (hreachable : Reachable config pool)
    {target : Handle} {text : Bytes} {owners : UInt64}
    (htarget : pool.Holds target ⟨.dynamic, text, owners⟩) :
    (∀ source tail, pool.text source = .ok tail →
      pool.Lengthens target ⟨.dynamic, text, owners⟩ tail
          (pool.perform (.appendFrom target source)) ∧
        (pool.config.grants (text ++ tail).length = true →
          pool.Makes (text ++ tail) (pool.perform (.concat target source))) ∧
        ∀ joined apart answer left,
          pool.perform (.concat target source) = (.ok (.made joined), apart) →
          pool.perform (.appendFrom target source) = (.ok answer, left) →
          answer = .made target ∧ left.text target = .ok (text ++ tail) ∧
            apart.text joined = .ok (text ++ tail)) ∧
    (∀ bytes,
      pool.Lengthens target ⟨.dynamic, text, owners⟩ bytes.upToZero
          (pool.perform (.append target bytes)) ∧
        (∀ source, pool.text source = .ok bytes.upToZero →
          pool.perform (.appendFrom target source) = pool.perform (.append target bytes)) ∧
        ∀ source stored, pool.perform (.allocate bytes) = (.ok (.made source), stored) →
          (stored.perform (.appendFrom target source)).1
              = (pool.perform (.append target bytes)).1 ∧
            (stored.perform (.appendFrom target source)).2.text target
              = (pool.perform (.append target bytes)).2.text target) ∧
    (∀ run : List Operation, (∀ operation ∈ run, operation.lengthened?.isSome = true) →
      (∀ handle held, pool.Holds handle held →
        (pool.after run).Holds handle
            { held with text := held.text ++ (tailsAlong handle pool run).flatten } ∧
          ((∀ operation ∈ run, operation.lengthened? ≠ some handle) →
            (pool.after run).Holds handle held)) ∧
        ∀ handle, (pool.after run).contains handle = pool.contains handle) ∧
    ∀ tails : List Bytes,
      (∀ outcome ∈ pool.answers (tails.map (.append target)), outcome = .ok (.made target)) →
      (pool.after (tails.map (.append target))).Holds target
        ⟨.dynamic, text ++ (tails.map Bytes.upToZero).flatten, owners⟩ := by
  have hsound := (sound_of_reachable hreachable).1
  refine ⟨fun source tail htail => ?_, fun bytes => ⟨hsound.lengthens_append htarget bytes,
    fun source hsource => ?_, fun source stored => hsound.append_eq_of_allocate htarget⟩,
    fun run hrun => ⟨fun handle held hheld => ?_, hsound.contains_of_lengthening hrun⟩,
    fun tails hanswers => ?_⟩
  · have hlengthens := hsound.lengthens_appendFrom htarget htail
    refine ⟨hlengthens, hsound.makes_concat htarget.text_eq htail,
      fun joined apart answer left hjoined hdone => ?_⟩
    rw [hdone] at hlengthens
    cases hlengthens with
    | lengthened _ hholds =>
      exact ⟨rfl, hholds.text_eq, (hsound.texts_of_concat htarget.text_eq htail hjoined).2.1⟩
  · rw [perform_appendFrom hsource, perform_append_upToZero]
  · have hlater := hsound.holds_of_lengthening hrun hheld
    refine ⟨hlater, fun hothers => ?_⟩
    rw [flatten_tailsAlong_of_ne hothers, List.append_nil] at hlater
    exact hlater
  · have hrun : ∀ operation ∈ tails.map (Operation.append target),
        operation.lengthened?.isSome = true := List.forall_mem_map.mpr fun _ _ => rfl
    have hlater := hsound.holds_of_lengthening hrun htarget
    rw [tailsAlong_of_answered hanswers] at hlater
    exact hlater

/-- A string is doubled, a copy made of it before is lengthened, and then the copy is appended to
it. The empty string cannot be lengthened. -/
theorem append_exact_doubled :
    let pool := (ofConfig {}).after [.allocate [97, 98], .retain ⟨1⟩, .concat ⟨1⟩ .empty]
    let run : List Operation :=
      [.appendFrom ⟨1⟩ ⟨1⟩, .append ⟨2⟩ [99, 0, 100], .appendFrom ⟨1⟩ ⟨2⟩, .append .empty [101]]
    let later := pool.after run
    pool.Lengthens ⟨1⟩ ⟨.dynamic, [97, 98], 1⟩ [97, 98] (pool.perform (.appendFrom ⟨1⟩ ⟨1⟩)) ∧
      pool.Makes [97, 98, 97, 98] (pool.perform (.concat ⟨1⟩ ⟨1⟩)) ∧
      pool.perform (.appendFrom ⟨1⟩ ⟨2⟩) = pool.perform (.append ⟨1⟩ [97, 98, 0, 99]) ∧
      later.Holds ⟨1⟩ ⟨.dynamic, [97, 98, 97, 98, 97, 98, 99], 1⟩ ∧
      later.Holds ⟨2⟩ ⟨.dynamic, [97, 98, 99], 0⟩ ∧ later.contains ⟨3⟩ = false ∧
      (pool.after [.append ⟨1⟩ [99, 0], .append ⟨1⟩ [0], .append ⟨1⟩ [100]]).Holds ⟨1⟩
        ⟨.dynamic, [97, 98, 99, 100], 1⟩ := by
  intro pool run later
  have hreachable : Reachable {} pool := ⟨_, by decide, rfl⟩
  have htarget : pool.Holds ⟨1⟩ ⟨.dynamic, [97, 98], 1⟩ := by decide +kernel
  have hcopy : pool.Holds ⟨2⟩ ⟨.dynamic, [97, 98], 0⟩ := by decide +kernel
  obtain ⟨hsources, hbytes, hruns, htails⟩ := append_exact hreachable htarget
  obtain ⟨hdoubled, hconcat, _⟩ := hsources ⟨1⟩ _ htarget.text_eq
  obtain ⟨_, hsame, _⟩ := hbytes [97, 98, 0, 99]
  obtain ⟨hholds, hcontains⟩ := hruns run (by decide)
  have hlater := (hholds ⟨1⟩ _ htarget).1
  have hother := (hholds ⟨2⟩ _ hcopy).1
  have htext : (tailsAlong ⟨1⟩ pool run).flatten = [97, 98, 97, 98, 99] := by decide +kernel
  have hcopied : (tailsAlong ⟨2⟩ pool run).flatten = [99] := by decide +kernel
  rw [htext] at hlater
  rw [hcopied] at hother
  exact ⟨hdoubled, hconcat (by decide +kernel), hsame ⟨2⟩ hcopy.text_eq, hlater, hother,
    (hcontains ⟨3⟩).trans (by decide +kernel), htails [[99, 0], [0], [100]] (by decide +kernel)⟩

end Pool

end TextPool
