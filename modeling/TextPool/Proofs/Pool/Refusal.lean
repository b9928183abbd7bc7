import TextPool.Proofs.Pool.Effect

/-!
# Why a request fails

A request looks for the strings at the handles that it is about, one after another, before it does
anything else (`Operation.checked`). If one is missing, the request fails for that handle and
changes nothing (`perform_of_check`). If none is, a request other than a load can fail in two more
ways only: it was to lengthen a string that was loaded, or there is no room for what it needs
(`refusal_of_error`).

Questions and actions are taken apart by the handles that their steps look for (`Pool.Consults`,
`Action.Consults`), so what a request checks is read off its steps.
-/

namespace TextPool

/-- The handles at which the request needs strings, in the order in which it looks for them. -/
def Operation.checked : Operation → List Handle
  | .retain target | .release target | .text target | .display target | .owners target
  | .kind target | .append target _ | .length target | .substring target _ _ | .charAt target _
  | .byteAt target _ | .findBytes target _ _ | .upper target | .lower target | .strip target
  | .pad target _ _ | .readHexadecimal target => [target]
  | .appendFrom target source => [source, target]
  | .find target needle _ => [needle, target]
  | .concat left right | .order left right | .orderIgnoringCase left right => [left, right]
  | _ => []

namespace Pool

/-! ### Looking for strings -/

def absence (pool : Pool) (handle : Handle) : PoolError :=
  if handle.index < pool.capacity then .vacant handle
  else .noSuchSlot handle.toRaw pool.capacity

/-- Looks for strings at handles, one after another. -/
def check (pool : Pool) : List Handle → Except PoolError Unit
  | [] => .ok ()
  | target :: rest => do
    let _ ← pool.entry target
    pool.check rest

theorem entry_of_not_live {pool : Pool} {handle : Handle} (hhandle : ¬pool.Live handle) :
    pool.entry handle = .error (pool.absence handle) := by
  have hnone : pool.entryAt? handle.index = none := by
    rw [Option.eq_none_iff_forall_ne_some]
    exact fun entry hentry => hhandle ⟨entry, hentry⟩
  simp only [Pool.entry, hnone, absence]
  split <;> rfl

theorem check_cons_of_live {pool : Pool} {handle : Handle} (hlive : pool.Live handle)
    (rest : List Handle) : pool.check (handle :: rest) = pool.check rest := by
  obtain ⟨entry, hentry⟩ := hlive
  rw [check, entry_eq_ok_iff.mpr hentry]
  rfl

theorem check_cons_of_not_live {pool : Pool} {handle : Handle} (hhandle : ¬pool.Live handle)
    (rest : List Handle) : pool.check (handle :: rest) = .error (pool.absence handle) := by
  rw [check, entry_of_not_live hhandle]
  rfl

theorem check_of_missing {pool : Pool} {before behind : List Handle} {handle : Handle}
    (hbefore : ∀ other ∈ before, pool.Live other) (hhandle : ¬pool.Live handle) :
    pool.check (before ++ handle :: behind) = .error (pool.absence handle) := by
  induction before with
  | nil => exact check_cons_of_not_live hhandle behind
  | cons other rest ih =>
    obtain ⟨hother, hrest⟩ := List.forall_mem_cons.mp hbefore
    rw [List.cons_append, check_cons_of_live hother]
    exact ih hrest

theorem check_eq_error {pool : Pool} {handles : List Handle} {failure : PoolError}
    (hcheck : pool.check handles = .error failure) :
    ∃ before handle behind, handles = before ++ handle :: behind ∧
      (∀ other ∈ before, pool.Live other) ∧ ¬pool.Live handle ∧ failure = pool.absence handle := by
  induction handles with
  | nil => cases hcheck
  | cons first rest ih =>
    by_cases hlive : pool.Live first
    · rw [check_cons_of_live hlive] at hcheck
      obtain ⟨before, handle, behind, rfl, hbefore, hmissing⟩ := ih hcheck
      exact ⟨first :: before, handle, behind, rfl, List.forall_mem_cons.mpr ⟨hlive, hbefore⟩, hmissing⟩
    · rw [check_cons_of_not_live hlive] at hcheck
      exact ⟨[], first, rest, rfl, fun other hother => absurd hother List.not_mem_nil, hlive,
        (Except.error.inj hcheck).symm⟩

theorem check_singleton {pool : Pool} {handle : Handle} {failure : PoolError}
    (hcheck : pool.check [handle] = .error failure) :
    ¬pool.Live handle ∧ failure = pool.absence handle := by
  by_cases hlive : pool.Live handle
  · rw [check_cons_of_live hlive] at hcheck
    cases hcheck
  · rw [check_cons_of_not_live hlive] at hcheck
    exact ⟨hlive, (Except.error.inj hcheck).symm⟩

theorem live_of_check {pool : Pool} {handles : List Handle} (hcheck : pool.check handles = .ok ()) :
    ∀ handle ∈ handles, pool.Live handle := by
  induction handles with
  | nil => exact fun handle hhandle => absurd hhandle List.not_mem_nil
  | cons first rest ih =>
    by_cases hlive : pool.Live first
    · rw [check_cons_of_live hlive] at hcheck
      exact List.forall_mem_cons.mpr ⟨hlive, ih hcheck⟩
    · rw [check_cons_of_not_live hlive] at hcheck
      cases hcheck

/-! ### Outcomes -/

/-- The outcome of something that looks for strings at the handles: a failure if one is missing, and
otherwise none but for lack of memory. -/
structure Consults {α : Type} (pool : Pool) (handles : List Handle)
    (outcome : Except PoolError α) : Prop where
  missing : ∀ failure, pool.check handles = .error failure → outcome = .error failure
  present : ∀ failure, pool.check handles = .ok () → outcome = .error failure →
    ∃ requested, failure = .exhausted requested

namespace Consults

variable {α β : Type} {pool : Pool} {handles : List Handle}

theorem ok (answer : α) : pool.Consults [] (.ok answer) where
  missing _ hcheck := nomatch hcheck
  present _ _ hfailure := nomatch hfailure

theorem exhausted (requested : Nat) :
    pool.Consults [] (.error (.exhausted requested) : Except PoolError α) where
  missing _ hcheck := nomatch hcheck
  present _ _ hfailure := ⟨requested, (Except.error.inj hfailure).symm⟩

theorem entry_bind (handle : Handle) {next : Entry → Except PoolError α}
    (hnext : ∀ entry, pool.Consults handles (next entry)) :
    pool.Consults (handle :: handles) (pool.entry handle >>= next) := by
  by_cases hlive : pool.Live handle
  · obtain ⟨entry, hentry⟩ := id hlive
    rw [entry_eq_ok_iff.mpr hentry]
    obtain ⟨hmissing, hpresent⟩ := hnext entry
    rw [← check_cons_of_live hlive handles] at hmissing hpresent
    exact ⟨hmissing, hpresent⟩
  · rw [entry_of_not_live hlive]
    constructor
    · intro failure hcheck
      rw [check_cons_of_not_live hlive] at hcheck
      rw [← Except.error.inj hcheck]
      rfl
    · intro failure hcheck
      rw [check_cons_of_not_live hlive] at hcheck
      cases hcheck

theorem text_bind (handle : Handle) {next : Bytes → Except PoolError α}
    (hnext : ∀ text, pool.Consults handles (next text)) :
    pool.Consults (handle :: handles) (pool.text handle >>= next) := by
  simp only [Pool.text, bind_assoc, pure_bind]
  exact entry_bind handle fun entry => hnext (pool.bytesOf entry.text)

theorem bind {first : Except PoolError α} {next : α → Except PoolError β}
    (hfirst : pool.Consults handles first) (hnext : ∀ answer, pool.Consults [] (next answer)) :
    pool.Consults handles (first >>= next) := by
  constructor
  · intro failure hcheck
    rw [hfirst.missing failure hcheck]
    rfl
  · intro failure hcheck hfailure
    cases first with
    | error other =>
      obtain rfl := Except.error.inj hfailure
      exact hfirst.present other hcheck rfl
    | ok answer => exact (hnext answer).present failure rfl hfailure

theorem map {outcome : Except PoolError α} (houtcome : pool.Consults handles outcome)
    (change : α → β) : pool.Consults handles (outcome.map change) := by
  have hmap : outcome.map change = outcome >>= fun answer => .ok (change answer) := by
    cases outcome <;> rfl
  rw [hmap]
  exact houtcome.bind fun answer => ok (change answer)

theorem text (handle : Handle) : pool.Consults [handle] (pool.text handle) := by
  rw [← bind_pure (pool.text handle)]
  exact text_bind handle ok

theorem reserve (count : Nat) : pool.Consults [] (pool.reserve count) := by
  unfold Pool.reserve
  split
  · exact ok ()
  · exact exhausted count

theorem store (bytes : Bytes) : pool.Consults [] ((Pool.store bytes).runOn pool).1 := by
  rw [runOn_store]
  cases pool.opening? with
  | none => exact exhausted _
  | some opening => exact ok _

theorem grow (additional : Nat) : pool.Consults [] ((Pool.grow additional).runOn pool).1 := by
  simp only [Pool.grow, Action.runOn_bind, Action.runOn_get]
  cases pool.grown? additional with
  | none => exact exhausted _
  | some grown => exact ok _

/-! Steps of actions -/

theorem ask_bind {question : Pool → Except PoolError α} {next : α → Action β}
    (hbind : pool.Consults handles (question pool >>= fun answer => ((next answer).runOn pool).1)) :
    pool.Consults handles ((Action.ask question >>= next).runOn pool).1 := by
  rw [runOn_ask_bind]
  cases hanswer : question pool <;> rwa [hanswer] at hbind

theorem answer {action : Action α} (haction : pool.Consults handles (action.runOn pool).1)
    (answer : α → Answer) :
    pool.Consults handles ((do return answer (← action) : Action Answer).runOn pool).1 := by
  rw [runOn_answer]
  exact haction.map answer

theorem ask {question : Pool → Except PoolError α} (hquestion : pool.Consults handles (question pool))
    (answer : α → Answer) :
    pool.Consults handles ((do return answer (← Action.ask question) : Action Answer).runOn pool).1 :=
  Consults.answer hquestion answer

theorem produce {question : Pool → Except PoolError Bytes}
    (hquestion : pool.Consults handles (question pool)) :
    pool.Consults handles ((produce question).runOn pool).1 :=
  ask_bind (hquestion.bind store)

end Consults

/-! ### What each request looks for -/

section Requests

variable (pool : Pool)

theorem consults_retain (handle : Handle) :
    pool.Consults [handle] ((retain handle).runOn pool).1 :=
  .ask_bind (.entry_bind handle fun _ => .ok ())

theorem consults_release (handle : Handle) :
    pool.Consults [handle] ((release handle).runOn pool).1 := by
  refine .ask_bind (.entry_bind handle fun entry => ?_)
  split
  · split <;> exact .ok ()
  · exact .ok ()

theorem consults_allocate (bytes : Bytes) : pool.Consults [] ((allocate bytes).runOn pool).1 :=
  .produce ((Consults.reserve _).bind fun _ => .ok _)

theorem consults_charAt (handle : Handle) (index : Int64) :
    pool.Consults [handle] ((charAt handle index).runOn pool).1 := by
  refine .ask_bind (((Consults.text handle).bind fun text => .ok _).bind fun byte => ?_)
  split
  · exact .ok _
  · exact .store _

theorem consults_joined (left right : Handle) :
    pool.Consults [left, right] (pool.joined left right) :=
  .text_bind left fun _ => .text_bind right fun _ => (Consults.reserve _).bind fun _ => .ok _

theorem consults_padded (handle : Handle) (width : Int64) (alignment : Alignment) :
    pool.Consults [handle] (pool.padded handle width alignment) :=
  .text_bind handle fun _ => (Consults.reserve _).bind fun _ => .ok _

theorem consults_map_text (handle : Handle) {α : Type} (change : Bytes → α) :
    pool.Consults [handle] (do return change (← pool.text handle)) :=
  .text_bind handle fun _ => .ok _

/-- A request that neither loads a table nor lengthens a string fails only if a string that it looks
for is missing, or for lack of memory. -/
theorem consults_perform {operation : Operation} (htable : operation.table? = none)
    (htail : ∀ texts, operation.tail? texts = none) (hhandle : ∀ raw, operation ≠ .handle raw) :
    pool.Consults operation.checked (pool.perform operation).1 := by
  cases operation with
  | allocate | allocateText | allocateUpTo | ofSigned | ofUnsigned | ofWord | ofDouble =>
    exact (pool.consults_allocate _).answer .made
  | ofFormatted bits format => exact (Consults.store _).answer .made
  | retain handle => exact (pool.consults_retain handle).answer fun _ => .done
  | release handle => exact (pool.consults_release handle).answer fun _ => .done
  | grow additional => exact (Consults.grow additional).answer fun _ => .done
  | sweep | contains | config | listing | dump => exact .ok _
  | concat left right => exact (Consults.produce (pool.consults_joined left right)).answer .made
  | substring handle | upper handle | lower handle | strip handle =>
    exact (Consults.produce (pool.consults_map_text handle _)).answer .made
  | pad handle width alignment =>
    exact (Consults.produce (pool.consults_padded handle width alignment)).answer .made
  | charAt handle index => exact (pool.consults_charAt handle index).answer .made
  | text handle => exact .ask (.text handle) _
  | owners handle | kind handle => exact .ask (.entry_bind handle fun _ => .ok _) _
  | display handle | length handle | byteAt handle | findBytes handle | readHexadecimal handle =>
    exact .ask (pool.consults_map_text handle _) _
  | find handle needle first =>
    exact .ask (.text_bind needle fun _ => pool.consults_map_text handle _) _
  | order left right | orderIgnoringCase left right =>
    exact .ask (.text_bind left fun _ => pool.consults_map_text right _) _
  | append | appendFrom => exact absurd (htail pool.textAt) (Option.some_ne_none _)
  | load | loadSections => exact absurd htable (Option.some_ne_none _)
  | handle raw => exact absurd rfl (hhandle raw)

end Requests

/-! ### Lengthening a string -/

theorem append_of_not_live {pool : Pool} {handle : Handle} (hhandle : ¬pool.Live handle)
    (tail : Bytes) : ((append handle tail).runOn pool).1 = .error (pool.absence handle) := by
  rw [append, runOn_ask_bind, entry_of_not_live hhandle]

theorem append_of_static {pool : Pool} {handle : Handle} {entry : Entry}
    (hentry : pool.entryAt? handle.index = some entry) (hkind : entry.text.kind = .static)
    (tail : Bytes) : (append handle tail).runOn pool = (.error (.unchangeable handle), pool) := by
  obtain ⟨stored, owners⟩ := entry
  rw [append, runOn_ask_bind, entry_eq_ok_iff.mpr hentry]
  cases stored with
  | static blob span => rfl
  | dynamic bytes => cases hkind

theorem append_of_dynamic {pool : Pool} {handle : Handle} {entry : Entry}
    (hentry : pool.entryAt? handle.index = some entry) (hkind : entry.text.kind = .dynamic)
    (tail : Bytes) : pool.Consults [] ((append handle tail).runOn pool).1 := by
  obtain ⟨stored, owners⟩ := entry
  rw [append, runOn_ask_bind, entry_eq_ok_iff.mpr hentry]
  cases stored with
  | static blob span => cases hkind
  | dynamic bytes => exact .ask_bind ((Consults.reserve _).bind fun _ => .ok _)

theorem appendFrom_of_not_live {pool : Pool} {source : Handle} (hsource : ¬pool.Live source)
    (handle : Handle) :
    ((appendFrom handle source).runOn pool).1 = .error (pool.absence source) := by
  rw [appendFrom, runOn_ask_bind, (Consults.text source).missing _ (check_cons_of_not_live hsource [])]

theorem appendFrom_of_live {pool : Pool} {source : Handle} (hsource : pool.Live source)
    (handle : Handle) :
    (appendFrom handle source).runOn pool = (append handle (pool.textAt source)).runOn pool := by
  rw [appendFrom, runOn_ask_bind, text_of_live hsource]

theorem perform_appendFrom_of_live {pool : Pool} {source : Handle} (hsource : pool.Live source)
    (handle : Handle) :
    pool.perform (.appendFrom handle source) = pool.perform (.append handle (pool.textAt source)) := by
  rw [perform, perform, act, act, runOn_answer, runOn_answer, appendFrom_of_live hsource]

/-! ### Every request -/

theorem checked_of_table? {operation : Operation} (htable : operation.table? ≠ none) :
    operation.checked = [] := by
  cases operation with
  | load | loadSections => rfl
  | _ => exact absurd rfl htable

/-- A request fails as the search for its strings does, and changes nothing. -/
theorem perform_of_check {pool : Pool} {operation : Operation} {failure : PoolError}
    (hcheck : pool.check operation.checked = .error failure) :
    pool.perform operation = (.error failure, pool) := by
  have htable : operation.table? = none := by
    by_contra htable
    rw [checked_of_table? htable] at hcheck
    cases hcheck
  have houtcome : (pool.perform operation).1 = .error failure := by
    cases operation with
    | append target tail =>
      obtain ⟨hmissing, rfl⟩ := check_singleton hcheck
      rw [perform, act, runOn_answer, append_of_not_live hmissing]
      rfl
    | appendFrom target source =>
      rw [perform, act, runOn_answer]
      by_cases hsource : pool.Live source
      · rw [Operation.checked, check_cons_of_live hsource] at hcheck
        obtain ⟨hmissing, rfl⟩ := check_singleton hcheck
        rw [appendFrom_of_live hsource, append_of_not_live hmissing]
        rfl
      · rw [Operation.checked, check_cons_of_not_live hsource] at hcheck
        obtain rfl := Except.error.inj hcheck
        rw [appendFrom_of_not_live hsource]
        rfl
    | handle raw => cases hcheck
    | _ =>
      refine (pool.consults_perform htable (fun _ => rfl) fun _ => ?_).missing failure hcheck
      exact Operation.noConfusion
  have heffect := pool.perform_effect operation
  rw [houtcome] at heffect
  exact Prod.ext houtcome (heffect.left_eq htable)

theorem perform_of_missing {pool : Pool} {operation : Operation} {before behind : List Handle}
    {handle : Handle} (hchecked : operation.checked = before ++ handle :: behind)
    (hbefore : ∀ other ∈ before, pool.Live other) (hmissing : ¬pool.Live handle) :
    pool.perform operation = (.error (pool.absence handle), pool) := by
  refine perform_of_check ?_
  rw [hchecked]
  exact check_of_missing hbefore hmissing

/-! ### Every failure but that of a load -/

/-- Why a request other than a load fails. -/
inductive Refusal (pool : Pool) (operation : Operation) : PoolError → Prop
  /-- A string that it needs is missing, and none of those that it looks for before that. -/
  | missing {before behind : List Handle} {handle : Handle}
      (hchecked : operation.checked = before ++ handle :: behind)
      (hbefore : ∀ other ∈ before, pool.Live other) (hmissing : ¬pool.Live handle) :
      Refusal pool operation (pool.absence handle)
  /-- It was given a signed word that names no slot. -/
  | outside {raw : Int64} (hoperation : operation = .handle raw) :
      Refusal pool operation (.noSuchSlot raw pool.capacity)
  /-- It was to lengthen a string that was loaded. -/
  | unchangeable {target : Handle} {tail : Bytes} {entry : Entry}
      (hlive : ∀ handle ∈ operation.checked, pool.Live handle)
      (htail : operation.tail? pool.textAt = some (target, tail))
      (hentry : pool.entryAt? target.index = some entry) (hkind : entry.text.kind = .static) :
      Refusal pool operation (.unchangeable target)
  /-- There is no room for what it needs. -/
  | exhausted {requested : Nat} (hlive : ∀ handle ∈ operation.checked, pool.Live handle) :
      Refusal pool operation (.exhausted requested)

private theorem refusal_of_append {pool : Pool} {operation : Operation} {handle : Handle}
    {tail bytes : Bytes} {failure : PoolError}
    (hlive : ∀ other ∈ operation.checked, pool.Live other) (hhandle : handle ∈ operation.checked)
    (htail : operation.tail? pool.textAt = some (handle, tail))
    (hfailure : ((append handle bytes).runOn pool).1 = .error failure) :
    Refusal pool operation failure := by
  obtain ⟨entry, hentry⟩ := hlive handle hhandle
  cases hkind : entry.text.kind with
  | static =>
    rw [append_of_static hentry hkind] at hfailure
    obtain rfl := Except.error.inj hfailure
    exact .unchangeable hlive htail hentry hkind
  | dynamic =>
    obtain ⟨requested, rfl⟩ := (append_of_dynamic hentry hkind bytes).present failure rfl hfailure
    exact .exhausted hlive

private theorem refusal_of_handle {pool : Pool} {raw : Int64} {failure : PoolError}
    (hfailure : pool.handle raw = .error failure) : Refusal pool (.handle raw) failure := by
  have hword : failure = .noSuchSlot raw pool.capacity := by
    unfold Pool.handle at hfailure
    split at hfailure
    · split at hfailure
      · cases hfailure
      · exact (Except.error.inj hfailure).symm
    · exact (Except.error.inj hfailure).symm
  exact hword ▸ .outside rfl

theorem refusal_of_error {pool : Pool} {operation : Operation} {failure : PoolError}
    (htable : operation.table? = none) (hfailure : (pool.perform operation).1 = .error failure) :
    Refusal pool operation failure := by
  cases hcheck : pool.check operation.checked with
  | error other =>
    rw [perform_of_check hcheck] at hfailure
    obtain rfl := Except.error.inj hfailure
    obtain ⟨before, handle, behind, hchecked, hbefore, hmissing, rfl⟩ := check_eq_error hcheck
    exact .missing hchecked hbefore hmissing
  | ok _ =>
    have hlive := live_of_check hcheck
    cases operation with
    | append target tail =>
      rw [perform, act, runOn_answer, map_eq_error_iff] at hfailure
      exact refusal_of_append hlive List.mem_cons_self rfl hfailure
    | appendFrom target source =>
      have hsource := hlive source List.mem_cons_self
      rw [perform, act, runOn_answer, map_eq_error_iff, appendFrom_of_live hsource] at hfailure
      exact refusal_of_append hlive (List.mem_cons_of_mem source List.mem_cons_self) rfl hfailure
    | handle raw =>
      rw [perform, act, runOn_answer, map_eq_error_iff] at hfailure
      exact refusal_of_handle hfailure
    | _ =>
      have hconsults := pool.consults_perform htable (fun _ => rfl) fun _ => Operation.noConfusion
      obtain ⟨requested, rfl⟩ := hconsults.present failure hcheck hfailure
      exact .exhausted hlive

def answers (pool : Pool) : List Operation → List (Except PoolError Answer)
  | [] => []
  | operation :: rest => (pool.perform operation).1 :: (pool.perform operation).2.answers rest

/-- A request that fails and is no load changes nothing, so whatever is asked later is answered as
if it had never been made. -/
theorem perform_error_keeps {pool : Pool} {operation : Operation} {failure : PoolError}
    (htable : operation.table? = none) (hfailure : (pool.perform operation).1 = .error failure) :
    (pool.perform operation).2 = pool ∧ Refusal pool operation failure ∧
      ∀ run, pool.answers (operation :: run) = .error failure :: pool.answers run ∧
        pool.after (operation :: run) = pool.after run := by
  have heffect := pool.perform_effect operation
  rw [hfailure] at heffect
  have hleft := heffect.left_eq htable
  refine ⟨hleft, refusal_of_error htable hfailure, fun run => ⟨?_, ?_⟩⟩
  · rw [answers, hfailure, hleft]
  · exact congrArg (·.after run) hleft

/-- No memory for a text of more than four billion billion bytes. -/
theorem perform_pad_keeps :
    let pool := (ofConfig {}).after [.allocate [97]]
    let operation := Operation.pad ⟨1⟩ 0x4000000000000000 .left
    (pool.perform operation).2 = pool ∧
      Refusal pool operation (.exhausted 0x4000000000000000) ∧
      ∀ run, pool.answers (operation :: run)
          = .error (.exhausted 0x4000000000000000) :: pool.answers run ∧
        pool.after (operation :: run) = pool.after run := by
  intro pool operation
  have hfailure : (pool.perform operation).1 = .error (.exhausted 0x4000000000000000) := by
    decide +kernel
  exact perform_error_keeps rfl hfailure

end Pool

end TextPool
