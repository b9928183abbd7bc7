import TextPool.Proofs.Pool.Life

/-!
# The account of a made string

Whoever makes a string and sees every request since can work out what stands at its handle without
looking: the text made, with everything appended since, and the count of owners, one more for each
retain and one less for each release (`Account`). The account is right until it says that the last
owner was released, or that a sweep found no owner (`holds_along`). A string whose last owner is
released is gone, and its handle stays vacant until a request fills it (`Lacks`).
-/

namespace TextPool

/-- What can be worked out about a made string from the requests since it was made. -/
structure Account where
  text : Bytes
  owners : Nat
  deriving DecidableEq

namespace Account

def opened (product : Bytes) : Account :=
  ⟨product.upToZero, 0⟩

def held (account : Account) : Held :=
  ⟨.dynamic, account.text, UInt64.ofNat account.owners⟩

/-- The account after a request, which changes it only if it is answered. -/
def next (handle : Handle) (pool : Pool) (operation : Operation) (account : Account) : Account :=
  match (pool.perform operation).1 with
  | .ok _ =>
    ⟨account.text ++ pool.view.appended operation handle, operation.recount handle account.owners⟩
  | .error _ => account

def along (handle : Handle) : Pool → List Operation → Account → Account
  | _, [], account => account
  | pool, operation :: rest, account =>
    along handle (pool.perform operation).2 rest (account.next handle pool operation)

/-- With the request the string may go: its last owner is released, or there is a sweep while it has
no owner. -/
inductive Ends (handle : Handle) (account : Account) : Operation → Prop
  | release (howners : account.owners = 1) : Ends handle account (.release handle)
  | sweep (howners : account.owners = 0) : Ends handle account .sweep

/-- Along a run on a pool the string never goes, and its owners can be counted in a word. -/
def Kept (handle : Handle) : Pool → List Operation → Account → Prop
  | _, [], account => account.owners < Word.limit
  | pool, operation :: rest, account =>
    account.owners < Word.limit ∧ ¬account.Ends handle operation ∧
      Kept handle (pool.perform operation).2 rest (account.next handle pool operation)

theorem Kept.owners_along_lt {handle : Handle} {pool : Pool} {run : List Operation}
    {account : Account} (hkept : Kept handle pool run account) :
    (along handle pool run account).owners < Word.limit := by
  induction run generalizing pool account with
  | nil => exact hkept
  | cons operation rest ih =>
    obtain ⟨_, _, hlater⟩ := hkept
    exact ih hlater

theorem toNat_owners_held {account : Account} (howners : account.owners < Word.limit) :
    account.held.owners.toNat = account.owners :=
  UInt64.toNat_ofNat_of_lt' howners

theorem held_next {account : Account} (howners : account.owners < Word.limit) (handle : Handle)
    (pool : Pool) (operation : Operation) :
    (account.next handle pool operation).held = pool.next operation handle account.held := by
  unfold next Pool.next
  cases (pool.perform operation).1 with
  | error failure => rfl
  | ok answer =>
    simp only [View.next, toNat_owners_held howners]
    rfl

theorem ends_of_removes {account : Account} (howners : account.owners < Word.limit)
    {view : View} {handle : Handle} {operation : Operation}
    (hremoves : view.Removes handle account.held operation) : account.Ends handle operation := by
  have hcount := toNat_owners_held howners
  cases hremoves with
  | release _ hlast =>
    rw [hlast] at hcount
    exact .release hcount.symm
  | sweep _ hnone _ =>
    rw [hnone] at hcount
    exact .sweep hcount.symm

end Account

namespace Pool

def LeavesFree (handle : Handle) : Pool → List Operation → Prop
  | _, [] => True
  | pool, operation :: rest =>
    ¬pool.Fills handle operation ∧ LeavesFree handle (pool.perform operation).2 rest

/-! ### Runs -/

theorem Sound.strings_along {pool : Pool} (hsound : pool.Sound) {handle : Handle}
    {account : Account} (hheld : pool.view.strings handle = some account.held)
    {run : List Operation} (hrun : ∀ operation ∈ run, operation.WellFormed)
    (hkept : Account.Kept handle pool run account) :
    (pool.after run).view.strings handle = some (account.along handle pool run).held := by
  -- The first request leads to another pool and another account, and both carry the rest of the run.
  induction run generalizing pool account with
  | nil => exact hheld
  | cons operation rest ih =>
    obtain ⟨hoperation, hrest⟩ := List.forall_mem_cons.mp hrun
    obtain ⟨howners, hstays, hlater⟩ := hkept
    have hnext := hsound.strings_perform hoperation hheld fun hremoves =>
      hstays (Account.ends_of_removes howners hremoves)
    rw [← Account.held_next howners] at hnext
    exact ih (hsound.perform hoperation).1 hnext hrest hlater

theorem Sound.strings_of_leavesFree {pool : Pool} (hsound : pool.Sound) {handle : Handle}
    (hfree : pool.view.strings handle = none) {run : List Operation}
    (hrun : ∀ operation ∈ run, operation.WellFormed) (hleaves : pool.LeavesFree handle run) :
    (pool.after run).view.strings handle = none := by
  induction run generalizing pool with
  | nil => exact hfree
  | cons operation rest ih =>
    obtain ⟨hoperation, hrest⟩ := List.forall_mem_cons.mp hrun
    obtain ⟨hfills, hlater⟩ := hleaves
    have hnext := hsound.strings_perform_of_free hoperation hfree hfills
    exact ih (hsound.perform hoperation).1 hnext hrest hlater

theorem Sound.strings_of_made {pool : Pool} (hsound : pool.Sound) {operation : Operation}
    {product : Bytes} {handle : Handle} (hproduct : operation.product? pool.textAt = some product)
    (hmade : (pool.perform operation).1 = .ok (.made handle)) :
    (pool.perform operation).2.view.strings handle = some (Account.opened product).held := by
  have heffect := pool.perform_effect operation
  rw [hmade] at heffect
  have hstep := hsound.step_view (Operation.table?_of_product? hproduct) heffect
  exact (hstep.strings_of_product? (pool.textAt_view ▸ hproduct)).2

theorem Sound.strings_of_last_release {pool : Pool} (hsound : pool.Sound) {handle : Handle}
    {held : Held} (hheld : pool.view.strings handle = some held) (hkind : held.kind = .dynamic)
    (howners : held.owners = 1) :
    (pool.perform (.release handle)).1 = .ok .done ∧
      (pool.perform (.release handle)).2.view.strings handle = none := by
  obtain ⟨entry, hentry, _⟩ := view_eq_some_iff.mp hheld
  have hanswer := perform_release hentry
  have heffect := pool.perform_effect (.release handle)
  rw [hanswer] at heffect
  exact ⟨hanswer, (hsound.step_view rfl heffect).strings_of_removes hheld (.release hkind howners)⟩

/-- A string that was made is what its account says for as long as it is kept, and then its handle
stays vacant until a request fills it. -/
theorem holds_along {config : Config} {pool : Pool} {operation : Operation} {product : Bytes}
    {handle : Handle} (hreachable : Reachable config pool)
    (hproduct : operation.product? pool.textAt = some product)
    (hmade : (pool.perform operation).1 = .ok (.made handle)) {run : List Operation}
    (hrun : ∀ request ∈ run, request.WellFormed)
    (hkept : Account.Kept handle (pool.perform operation).2 run (.opened product)) :
    let account := Account.along handle (pool.perform operation).2 run (.opened product)
    let later := (pool.perform operation).2.after run
    later.Holds handle account.held ∧ account.held.owners.toNat = account.owners ∧
      (∀ request : Operation, request.WellFormed → ¬later.Fills handle request) ∧
      (account.owners = 1 →
        (later.perform (.release handle)).1 = .ok .done ∧
        ∀ rest : List Operation, (∀ request ∈ rest, request.WellFormed) →
          (later.perform (.release handle)).2.LeavesFree handle rest →
          ((later.perform (.release handle)).2.after rest).Lacks handle) := by
  intro account later
  have hsound := (sound_of_reachable hreachable).1
  have hleft := (hsound.perform (Operation.wellFormed_of_product? hproduct)).1
  have hlater := (hleft.after hrun).1
  have hheld := hleft.strings_along (hsound.strings_of_made hproduct hmade) hrun hkept
  refine ⟨hlater.holds_iff.mpr hheld, Account.toNat_owners_held hkept.owners_along_lt,
    fun request hrequest => hlater.not_fills hrequest hheld, ?_⟩
  intro hlast
  have howners : account.held.owners = 1 := congrArg UInt64.ofNat hlast
  obtain ⟨hanswer, hgone⟩ := hlater.strings_of_last_release hheld rfl howners
  refine ⟨hanswer, fun rest hrest hleaves => ?_⟩
  have hrelease : (Operation.release handle).WellFormed := trivial
  obtain ⟨hreleased, hcapacity⟩ := hlater.perform hrelease
  obtain ⟨hfinal, hprecedes⟩ := hreleased.after hrest
  refine hfinal.lacks (hreleased.strings_of_leavesFree hgone hrest hleaves) ?_
  exact Nat.lt_of_lt_of_le (later.view.lt_capacity hheld)
    (Nat.le_trans hcapacity.capacity_le hprecedes.capacity_le)

/-- A string is retained, survives a sweep, is doubled and released, and cannot be read after
that. -/
theorem holds_along_doubled :
    let made := ((ofConfig {}).perform (.allocate [97])).2
    let later := made.after [.retain ⟨1⟩, .sweep, .appendFrom ⟨1⟩ ⟨1⟩]
    later.Holds ⟨1⟩ ⟨.dynamic, [97, 97], 1⟩ ∧
      (later.perform (.release ⟨1⟩)).1 = .ok .done ∧
      ((later.perform (.release ⟨1⟩)).2.after [.text ⟨1⟩]).Lacks ⟨1⟩ := by
  intro made later
  have hreachable : Reachable {} (ofConfig {}) :=
    ⟨[], fun _ hmem => absurd hmem List.not_mem_nil, rfl⟩
  have hmade : ((ofConfig {}).perform (.allocate [97])).1 = .ok (.made ⟨1⟩) := by decide +kernel
  have hrun : ∀ request ∈ [Operation.retain ⟨1⟩, .sweep, .appendFrom ⟨1⟩ ⟨1⟩],
      request.WellFormed := by
    simp only [List.forall_mem_cons]
    exact ⟨trivial, trivial, trivial, fun _ hmem => absurd hmem List.not_mem_nil⟩
  have hkept : Account.Kept ⟨1⟩ made [.retain ⟨1⟩, .sweep, .appendFrom ⟨1⟩ ⟨1⟩]
      (.opened [97]) := by
    refine ⟨by decide +kernel, fun hends => ?_, by decide +kernel, fun hends => ?_,
      by decide +kernel, fun hends => ?_, ?_⟩
    · cases hends
    · cases hends with
      | sweep howners => exact absurd howners (by decide +kernel)
    · cases hends
    · show _ < _
      decide +kernel
  obtain ⟨hholds, _, _, hreleased⟩ := holds_along hreachable rfl hmade hrun hkept
  have haccount : Account.along ⟨1⟩ made [.retain ⟨1⟩, .sweep, .appendFrom ⟨1⟩ ⟨1⟩] (.opened [97])
      = ⟨[97, 97], 1⟩ := by decide +kernel
  rw [haccount] at hholds hreleased
  obtain ⟨hanswer, hlacks⟩ := hreleased rfl
  refine ⟨hholds, hanswer, hlacks [.text ⟨1⟩] (fun _ hmem => ?_) ⟨fun hfills => ?_, trivial⟩⟩
  · rw [List.mem_singleton.mp hmem]
    trivial
  · cases hfills with
    | made hproduct _ => cases hproduct
    | placed htable _ _ _ => cases htable

end Pool

end TextPool
