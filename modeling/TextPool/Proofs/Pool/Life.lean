import TextPool.Proofs.Pool.FailedLoad
import TextPool.Proofs.Pool.Refinement
import TextPool.Proofs.Pool.Refusal

/-!
# What becomes of one string

A run asks for many things, and few of them concern a given string. As long as the string stays, a
request adds to its text what it appends to it, and changes the count of its owners if it retains or
releases it (`strings_perform`). The string goes only if it was made, and its last owner is released
or it is swept without an owner (`Removes`). A handle without a string stays without one until a
request makes one there or places an entry of a table there (`strings_perform_of_free`).
-/

namespace TextPool

/-- The count of owners of the string at a handle after a request that leaves it there. -/
def Operation.recount (handle : Handle) (count : Nat) : Operation → Nat
  | .retain other => if other = handle then count + 1 else count
  | .release other => if other = handle then count - 1 else count
  | _ => count

theorem Operation.recount_eq_self {handle : Handle} {operation : Operation}
    (hretain : operation ≠ .retain handle) (hrelease : operation ≠ .release handle) (count : Nat) :
    operation.recount handle count = count := by
  cases operation with
  | retain other => exact if_neg fun heq => hretain (congrArg Operation.retain heq)
  | release other => exact if_neg fun heq => hrelease (congrArg Operation.release heq)
  | _ => rfl

theorem Operation.product?_of_looks {texts : Handle → Bytes} {operation : Operation}
    (hlooks : operation.looks = true) : operation.product? texts = none := by
  cases operation with
  | text | display | owners | kind | contains | handle | config | length | byteAt | find
  | findBytes | order | orderIgnoringCase | readHexadecimal | listing | dump => rfl
  | _ => cases hlooks

theorem Operation.product?_of_tail? {texts : Handle → Bytes} {operation : Operation}
    {tail : Handle × Bytes} (htail : operation.tail? texts = some tail) :
    operation.product? texts = none := by
  cases operation with
  | append | appendFrom => rfl
  | _ => cases htail

theorem Operation.wellFormed_of_product? {texts : Handle → Bytes} {operation : Operation}
    {product : Bytes} (hproduct : operation.product? texts = some product) :
    operation.WellFormed :=
  wellFormed_of_table?_eq_none (table?_of_product? hproduct)

namespace View

/-- The request takes away the string that is held at the handle. -/
inductive Removes (view : View) (handle : Handle) (held : Held) : Operation → Prop
  /-- It releases the last owner. -/
  | release (hkind : held.kind = .dynamic) (howners : held.owners = 1) :
      Removes view handle held (.release handle)
  /-- It sweeps, and the string is idle. -/
  | sweep (hkind : held.kind = .dynamic) (howners : held.owners = 0)
      (hboundary : view.boundary ≤ handle.index) : Removes view handle held .sweep

def appended (view : View) (operation : Operation) (handle : Handle) : Bytes :=
  match operation.tail? view.textAt with
  | some (target, tail) => if target = handle then tail else []
  | none => []

def next (view : View) (operation : Operation) (handle : Handle) (held : Held) : Held where
  kind := held.kind
  text := held.text ++ view.appended operation handle
  owners := UInt64.ofNat (operation.recount handle held.owners.toNat)

section Next

variable {view : View} {operation : Operation} {handle : Handle} {held : Held}

theorem next_eq_self (htail : operation.tail? view.textAt = none)
    (hcount : ∀ count, operation.recount handle count = count) :
    view.next operation handle held = held := by
  simp only [next, appended, htail, hcount, List.append_nil, UInt64.ofNat_toNat]

theorem next_of_looks (hlooks : operation.looks = true) :
    view.next operation handle held = held := by
  cases operation with
  | retain | release | append | appendFrom => exact Bool.noConfusion hlooks
  | _ => exact next_eq_self rfl fun _ => rfl

theorem next_of_product? {texts : Handle → Bytes} {product : Bytes}
    (hproduct : operation.product? texts = some product) :
    view.next operation handle held = held := by
  cases operation with
  | retain | release | append | appendFrom => exact absurd hproduct.symm (Option.some_ne_none _)
  | _ => exact next_eq_self rfl fun _ => rfl

theorem next_of_table? (htable : operation.table? ≠ none) :
    view.next operation handle held = held := by
  cases operation with
  | load | loadSections => exact next_eq_self rfl fun _ => rfl
  | _ => exact absurd rfl htable

theorem next_of_tail? {target : Handle} {tail : Bytes}
    (htail : operation.tail? view.textAt = some (target, tail)) :
    view.next operation handle held
      = { held with text := held.text ++ if target = handle then tail else [] } := by
  have hcount : ∀ count, operation.recount handle count = count := by
    cases operation with
    | append | appendFrom => exact fun _ => rfl
    | _ => exact absurd htail.symm (Option.some_ne_none _)
  simp only [next, appended, htail, hcount, UInt64.ofNat_toNat]

theorem next_retain {other : Handle} :
    view.next (.retain other) handle held
      = { held with owners := if other = handle then held.owners + 1 else held.owners } := by
  simp only [next, appended, Operation.tail?, Operation.recount, List.append_nil]
  split
  · rw [UInt64.ofNat_add, UInt64.ofNat_toNat]
    rfl
  · rw [UInt64.ofNat_toNat]

theorem next_release {other : Handle} :
    view.next (.release other) handle held = { held with owners :=
      if other = handle ∧ held.owners ≠ 0 then held.owners - 1 else held.owners } := by
  simp only [next, appended, Operation.tail?, Operation.recount, List.append_nil]
  by_cases hother : other = handle
  · by_cases howners : held.owners = 0
    · simp [hother, howners]
    · have hpos : (1 : UInt64) ≤ held.owners := by
        rw [UInt64.le_iff_toNat_le]
        exact Nat.pos_of_ne_zero fun hzero => howners (UInt64.toNat_inj.mp hzero)
      rw [if_pos hother, if_pos ⟨hother, howners⟩, ← UInt64.ofNat_toNat (x := held.owners - 1),
        UInt64.toNat_sub_of_le _ _ hpos]
      rfl
  · simp [hother, UInt64.ofNat_toNat]

end Next

theorem strings_set {view : View} {handle : Handle} {held : Option Held}
    {hhandle : handle.index < view.capacity} (other : Handle) :
    (view.set handle held hhandle).strings other
      = if other = handle then held else view.strings other :=
  Function.update_apply _ _ _ _

/-- A string that an answered request does not take away is there afterwards, and has changed by
what the request says of it. -/
theorem Step.strings_of_held {block : Nat} {before after : View} {operation : Operation}
    {answer : Answer} (hstep : Step block before operation answer after) {handle : Handle}
    {held : Held} (hheld : before.strings handle = some held)
    (hstays : ¬before.Removes handle held operation) :
    after.strings handle = some (before.next operation handle held) := by
  -- A change is made at one handle: either it is this one, and then `next` describes the change, or
  -- it is another, and then `next` changes nothing.
  cases hstep with
  | looked hlooks => rw [next_of_looks hlooks, hheld]
  | @made operation made text added hproduct hsources hfree hboundary hadded hhandle =>
    have hother : handle ≠ made := by
      rintro rfl
      exact Option.some_ne_none held (hheld.symm.trans hfree)
    rw [next_of_product? (hproduct before.textAt fun _ _ => rfl), strings_set, if_neg hother]
    exact hheld
  | absent _ _ => rw [hheld, next_eq_self rfl fun _ => rfl]
  | @lengthened operation target text tail owners htail _ htarget =>
    rw [next_of_tail? htail, strings_set]
    by_cases heq : handle = target
    · subst heq
      obtain rfl := Option.some.inj (hheld.symm.trans htarget)
      simp
    · rw [if_neg heq, if_neg (Ne.symm heq), List.append_nil]
      exact hheld
  | @retained target kind text owners htarget =>
    rw [next_retain, strings_set]
    by_cases heq : handle = target
    · subst heq
      obtain rfl := Option.some.inj (hheld.symm.trans htarget)
      simp
    · rw [if_neg heq, if_neg (Ne.symm heq)]
      exact hheld
  | @unowned target kind text htarget =>
    rw [next_release, if_neg, hheld]
    rintro ⟨rfl, howners⟩
    obtain rfl := Option.some.inj (hheld.symm.trans htarget)
    exact howners rfl
  | @released target kind text owners htarget howners _ =>
    rw [next_release, strings_set]
    by_cases heq : handle = target
    · subst heq
      obtain rfl := Option.some.inj (hheld.symm.trans htarget)
      simp [howners]
    · rw [if_neg heq, if_neg fun hboth => heq hboth.1.symm]
      exact hheld
  | @removed target text htarget =>
    have hother : handle ≠ target := by
      rintro rfl
      obtain rfl := Option.some.inj (hheld.symm.trans htarget)
      exact hstays (.release rfl rfl)
    rw [next_release, strings_set, if_neg hother, if_neg fun hboth => hother hboth.1.symm]
    exact hheld
  | swept _ hgone =>
    have hkept : ¬before.Idle handle := by
      rintro ⟨hboundary, text, hidle⟩
      obtain rfl := Option.some.inj (hheld.symm.trans hidle)
      exact hstays (.sweep rfl rfl hboundary)
    rw [next_eq_self rfl fun _ => rfl, ← hheld]
    exact if_neg fun hmem => hkept ((hgone handle).mp hmem)
  | grown _ =>
    rw [next_eq_self rfl fun _ => rfl]
    exact hheld

theorem Step.strings_of_removes {block : Nat} {before after : View} {operation : Operation}
    {answer : Answer} (hstep : Step block before operation answer after) {handle : Handle}
    {held : Held} (hheld : before.strings handle = some held)
    (hremoves : before.Removes handle held operation) : after.strings handle = none := by
  obtain ⟨kind, text, owners⟩ := held
  cases hremoves with
  | release hkind howners =>
    obtain rfl : kind = .dynamic := hkind
    obtain rfl : owners = 1 := howners
    cases hstep with
    | looked hlooks => cases hlooks
    | made hproduct => cases hproduct before.textAt fun _ _ => rfl
    | lengthened htail => cases htail
    | unowned hother => cases hheld.symm.trans hother
    | released hother _ hlast =>
      cases hheld.symm.trans hother
      exact absurd ⟨rfl, rfl⟩ hlast
    | removed _ => rw [strings_set, if_pos rfl]
  | sweep hkind howners hboundary =>
    obtain rfl : kind = .dynamic := hkind
    obtain rfl : owners = 0 := howners
    cases hstep with
    | looked hlooks => cases hlooks
    | made hproduct => cases hproduct before.textAt fun _ _ => rfl
    | lengthened htail => cases htail
    | swept _ hgone => exact if_pos ((hgone handle).mpr ⟨hboundary, text, hheld⟩)

theorem Step.dynamic_of_tail? {block : Nat} {before after : View} {operation : Operation}
    {answer : Answer} (hstep : Step block before operation answer after) {target : Handle}
    {tail : Bytes} (htail : operation.tail? before.textAt = some (target, tail)) :
    ∃ text owners, before.strings target = some ⟨.dynamic, text, owners⟩ := by
  cases hstep with
  | looked hlooks =>
    cases operation with
    | append | appendFrom => cases hlooks
    | _ => cases htail
  | made hproduct =>
    cases (Operation.product?_of_tail? htail).symm.trans (hproduct before.textAt fun _ _ => rfl)
  | lengthened hother _ htarget =>
    cases htail.symm.trans hother
    exact ⟨_, _, htarget⟩
  | _ => cases htail

theorem Step.strings_of_product? {block : Nat} {before after : View} {operation : Operation}
    {handle : Handle} (hstep : Step block before operation (.made handle) after) {product : Bytes}
    (hproduct : operation.product? before.textAt = some product) :
    before.strings handle = none ∧
      after.strings handle = some ⟨.dynamic, product.upToZero, 0⟩ := by
  cases hstep with
  | looked hlooks => cases (Operation.product?_of_looks hlooks).symm.trans hproduct
  | made hmade _ hfree _ _ _ =>
    obtain rfl := Option.some.inj ((hmade before.textAt fun _ _ => rfl).symm.trans hproduct)
    exact ⟨hfree, by rw [strings_set, if_pos rfl]⟩
  | absent _ hnone => cases hproduct.symm.trans hnone
  | lengthened htail => cases (Operation.product?_of_tail? htail).symm.trans hproduct

theorem Step.strings_of_free {block : Nat} {before after : View} {operation : Operation}
    {answer : Answer} (hstep : Step block before operation answer after) {handle : Handle}
    (hfree : before.strings handle = none)
    (hmade : ¬((operation.product? before.textAt).isSome ∧ answer = .made handle)) :
    after.strings handle = none := by
  have hother : ∀ {target held}, before.strings target = some held → handle ≠ target := by
    rintro target held htarget rfl
    exact Option.some_ne_none held (htarget.symm.trans hfree)
  cases hstep with
  | looked | absent | unowned | grown => exact hfree
  | @made operation made text added hproduct _ _ _ _ _ =>
    rw [strings_set, if_neg]
    · exact hfree
    · rintro rfl
      exact hmade ⟨Option.isSome_of_eq_some (hproduct before.textAt fun _ _ => rfl), rfl⟩
  | lengthened _ _ htarget => rw [strings_set, if_neg (hother htarget), hfree]
  | retained htarget => rw [strings_set, if_neg (hother htarget), hfree]
  | released htarget _ _ => rw [strings_set, if_neg (hother htarget), hfree]
  | removed htarget => rw [strings_set, if_neg (hother htarget), hfree]
  | swept _ _ => exact (ite_eq_left_iff.mpr fun _ => hfree)

end View

namespace Pool

/-- The request makes a string at the handle, or places an entry of a table there, also where the
load then fails. -/
inductive Fills (pool : Pool) (handle : Handle) (operation : Operation) : Prop
  | made {product : Bytes} (hproduct : operation.product? pool.textAt = some product)
      (hanswer : (pool.perform operation).1 = .ok (.made handle))
  | placed {table : StringTable} {placed : Pool} (htable : operation.table? = some (.ok table))
      (hplaced : pool.placed? table = some placed) (hfirst : pool.cursor ≤ handle.index)
      (hstop : handle.index < pool.cursor + table.size)

/-! ### Loads -/

theorem Places.strings_view_of_held {pool placed : Pool} {table : StringTable}
    (hplaces : pool.Places table placed) (hsound : pool.Sound) {handle : Handle} {held : Held}
    (hheld : pool.view.strings handle = some held) :
    placed.view.strings handle = some held := by
  rw [hplaces.strings_view_other hsound, hheld]
  rintro ⟨hfirst, hstop⟩
  rw [(hplaces.strings_view_entry handle hfirst hstop).2] at hheld
  exact Option.some_ne_none held hheld.symm

/-- What a load does to the strings, whether it succeeds or not. -/
theorem Sound.strings_of_load {pool left : Pool} {operation : Operation}
    {outcome : Except PoolError Answer} (hsound : pool.Sound) (hoperation : operation.WellFormed)
    (hload : operation.table? ≠ none) (heffect : Effect pool operation outcome left) :
    left.view.strings = pool.view.strings ∨ ∃ table placed,
      operation.table? = some (.ok table) ∧ pool.placed? table = some placed ∧
        pool.Places table placed ∧ left.view.strings = placed.view.strings := by
  obtain ⟨read, htable⟩ := Option.ne_none_iff_exists'.mp hload
  cases heffect.loadEnd htable with
  | faulty | crowded => exact .inl rfl
  | blocked hroom _ => exact .inl (extends_of_roomFor? hroom).1.strings_view
  | halfway hplaced _ =>
    have hplaces := hsound.places (Operation.wellFormed_of_table? hoperation htable) hplaced
    exact .inr ⟨_, _, htable, hplaced, hplaces, rfl⟩
  | loaded hplaced hroom =>
    have hplaces := hsound.places (Operation.wellFormed_of_table? hoperation htable) hplaced
    exact .inr ⟨_, _, htable, hplaced, hplaces, (extends_of_roomFor? hroom).1.strings_view⟩

/-! ### One request -/

/-- The string at a handle after a request that leaves it there. A failed request changes
nothing. -/
def next (pool : Pool) (operation : Operation) (handle : Handle) (held : Held) : Held :=
  match (pool.perform operation).1 with
  | .ok _ => pool.view.next operation handle held
  | .error _ => held

theorem next_of_table? {pool : Pool} {operation : Operation} (hload : operation.table? ≠ none)
    (handle : Handle) (held : Held) : pool.next operation handle held = held := by
  unfold next
  split
  · exact View.next_of_table? hload
  · rfl

namespace Sound

variable {pool : Pool} (hsound : pool.Sound) {operation : Operation}
  (hoperation : operation.WellFormed) {handle : Handle} {held : Held}

include hsound hoperation

/-- A string that a request does not take away is there afterwards, and has changed by what the
request says of it. -/
theorem strings_perform (hheld : pool.view.strings handle = some held)
    (hstays : ¬pool.view.Removes handle held operation) :
    (pool.perform operation).2.view.strings handle = some (pool.next operation handle held) := by
  have heffect := pool.perform_effect operation
  by_cases hload : operation.table? = none
  · unfold next
    cases houtcome : (pool.perform operation).1 with
    | error failure =>
      rw [houtcome] at heffect
      rw [heffect.left_eq hload, hheld]
    | ok answer =>
      rw [houtcome] at heffect
      exact (hsound.step_view hload heffect).strings_of_held hheld hstays
  · rw [next_of_table? hload]
    rcases hsound.strings_of_load hoperation hload heffect with
      hsame | ⟨table, placed, _, _, hplaces, hsame⟩
    · rw [hsame, hheld]
    · rw [hsame, hplaces.strings_view_of_held hsound hheld]

/-- Where there is no string, and the request puts none, there is none afterwards. -/
theorem strings_perform_of_free (hfree : pool.view.strings handle = none)
    (hfills : ¬pool.Fills handle operation) :
    (pool.perform operation).2.view.strings handle = none := by
  have heffect := pool.perform_effect operation
  by_cases hload : operation.table? = none
  · cases houtcome : (pool.perform operation).1 with
    | error failure =>
      rw [houtcome] at heffect
      rw [heffect.left_eq hload, hfree]
    | ok answer =>
      rw [houtcome] at heffect
      refine (hsound.step_view hload heffect).strings_of_free hfree ?_
      rintro ⟨hproduct, rfl⟩
      obtain ⟨product, hproduct⟩ := Option.isSome_iff_exists.mp hproduct
      rw [textAt_view] at hproduct
      exact hfills (.made hproduct houtcome)
  · rcases hsound.strings_of_load hoperation hload heffect with
      hsame | ⟨table, placed, htable, hplaced, hplaces, hsame⟩
    · rw [hsame, hfree]
    · have hother : ¬(pool.cursor ≤ handle.index ∧ handle.index < pool.cursor + table.size) :=
        fun hentry => hfills (.placed htable hplaced hentry.1 hentry.2)
      rw [hsame, hplaces.strings_view_other hsound hother, hfree]

theorem not_fills (hheld : pool.view.strings handle = some held) :
    ¬pool.Fills handle operation := by
  rintro (⟨hproduct, hanswer⟩ | ⟨htable, hplaced, hfirst, hstop⟩)
  · have heffect := pool.perform_effect operation
    rw [hanswer] at heffect
    have hstep := hsound.step_view (Operation.table?_of_product? hproduct) heffect
    rw [(hstep.strings_of_product? (pool.textAt_view ▸ hproduct)).1] at hheld
    exact Option.some_ne_none held hheld.symm
  · have hplaces := hsound.places (Operation.wellFormed_of_table? hoperation htable) hplaced
    rw [(hplaces.strings_view_entry handle hfirst hstop).2] at hheld
    exact Option.some_ne_none held hheld.symm

end Sound

/-! ### Owners of a string that is there -/

section Owners

variable {pool : Pool} {handle : Handle} {entry : Entry}
  (hentry : pool.entryAt? handle.index = some entry)

include hentry

theorem perform_retain : (pool.perform (.retain handle)).1 = .ok .done := by
  rw [perform, act, runOn_answer, retain, runOn_ask_bind, entry_eq_ok_iff.mpr hentry]
  rfl

theorem perform_release : (pool.perform (.release handle)).1 = .ok .done := by
  rw [perform, act, runOn_answer, release, runOn_ask_bind, entry_eq_ok_iff.mpr hentry]
  dsimp only
  split_ifs
  · rfl
  · rfl
  · rfl

end Owners

/-! ### Asking about a handle -/

/-- Every question about the handle is answered with this string. -/
structure Holds (pool : Pool) (handle : Handle) (held : Held) : Prop where
  contains_eq : pool.contains handle = true
  kind_eq : pool.kind handle = .ok held.kind
  text_eq : pool.text handle = .ok held.text
  owners_eq : pool.owners handle = .ok held.owners

instance (pool : Pool) (handle : Handle) (held : Held) : Decidable (pool.Holds handle held) :=
  decidable_of_iff (pool.contains handle = true ∧ pool.kind handle = .ok held.kind ∧
      pool.text handle = .ok held.text ∧ pool.owners handle = .ok held.owners)
    ⟨fun ⟨hcontains, hkind, htext, howners⟩ => ⟨hcontains, hkind, htext, howners⟩,
      fun ⟨hcontains, hkind, htext, howners⟩ => ⟨hcontains, hkind, htext, howners⟩⟩

/-- There is no string at the handle, and every request that needs it fails for it or for one that
it needs before. -/
structure Lacks (pool : Pool) (handle : Handle) : Prop where
  contains_eq : pool.contains handle = false
  fails : ∀ operation : Operation, handle ∈ operation.checked →
    ∃ other ∈ operation.checked, pool.contains other = false ∧
      pool.perform operation = (.error (pool.absence other), pool)
  perform_eq : ∀ (operation : Operation) (before behind : List Handle),
    operation.checked = before ++ handle :: behind →
    (∀ other ∈ before, pool.contains other = true) →
    pool.perform operation = (.error (.vacant handle), pool)

theorem Sound.contains_iff_live {pool : Pool} (hsound : pool.Sound) (handle : Handle) :
    pool.contains handle = true ↔ pool.Live handle :=
  hsound.contains_iff handle.index

theorem Sound.holds_iff {pool : Pool} (hsound : pool.Sound) {handle : Handle} {held : Held} :
    pool.Holds handle held ↔ pool.view.strings handle = some held := by
  rw [view_eq_some_iff]
  constructor
  · rintro ⟨_, hkind, htext, howners⟩
    simp only [Pool.kind, Pool.text, Pool.owners, bind_eq_ok_iff, pure_eq_ok_iff, entry_eq_ok_iff]
      at hkind htext howners
    obtain ⟨entry, hentry, hkind⟩ := hkind
    obtain ⟨other, hother, htext⟩ := htext
    obtain rfl := Option.some.inj (hentry.symm.trans hother)
    obtain ⟨other, hother, howners⟩ := howners
    obtain rfl := Option.some.inj (hentry.symm.trans hother)
    refine ⟨entry, hentry, ?_⟩
    rw [Pool.held, hkind, htext, howners]
  · rintro ⟨entry, hentry, rfl⟩
    have hlooked := entry_eq_ok_iff.mpr hentry
    constructor
    · exact (hsound.contains_iff_live handle).mpr ⟨entry, hentry⟩
    · rw [Pool.kind, hlooked]
      rfl
    · rw [Pool.text, hlooked]
      rfl
    · rw [Pool.owners, hlooked]
      rfl

theorem not_live_of_strings {pool : Pool} {handle : Handle} (hfree : pool.view.strings handle = none) :
    ¬pool.Live handle := by
  intro hlive
  have hsome := hlive.isSome
  rw [hfree] at hsome
  cases hsome

theorem Sound.contains_eq_false {pool : Pool} (hsound : pool.Sound) {handle : Handle}
    (hmissing : ¬pool.Live handle) : pool.contains handle = false := by
  rw [← Bool.not_eq_true, hsound.contains_iff_live]
  exact hmissing

theorem Sound.contains_eq_isSome {pool : Pool} (hsound : pool.Sound) (handle : Handle) :
    pool.contains handle = (pool.view.strings handle).isSome := by
  cases hheld : pool.view.strings handle with
  | none => exact hsound.contains_eq_false (not_live_of_strings hheld)
  | some held => exact (hsound.holds_iff.mpr hheld).contains_eq

theorem Sound.lacks {pool : Pool} (hsound : pool.Sound) {handle : Handle}
    (hfree : pool.view.strings handle = none) (hhandle : handle.index < pool.capacity) :
    pool.Lacks handle := by
  have hmissing := not_live_of_strings hfree
  constructor
  · exact hsound.contains_eq_false hmissing
  · intro operation hchecked
    cases hcheck : pool.check operation.checked with
    | ok _ => exact absurd (live_of_check hcheck handle hchecked) hmissing
    | error failure =>
      obtain ⟨before, other, behind, hsplit, _, hother, rfl⟩ := check_eq_error hcheck
      refine ⟨other, ?_, hsound.contains_eq_false hother, perform_of_check hcheck⟩
      rw [hsplit]
      exact List.mem_append_right before List.mem_cons_self
  · intro operation before behind hchecked hbefore
    rw [perform_of_missing hchecked (fun other hother => (hsound.contains_iff_live other).mp
      (hbefore other hother)) hmissing, absence, if_pos hhandle]

end Pool

end TextPool
