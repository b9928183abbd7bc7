import Mathlib.Data.List.Nodup
import TextPool.Proofs.Pool.Invariant
import TextPool.Proofs.Pool.View

/-!
# A pool is a map from handles to strings

`View.Step` says, in terms of what can be seen of a pool, what every request but a load may do when
it is answered: which one string comes, goes or changes, and to what. `step_view` proves it of every
reachable pool. The cursor, the order in which slots are tried and the way growth is decided do not
occur in it, except that the handle of a new string is one that was free and that the capacity grows
only if none was left.
-/

namespace TextPool

/-- What a request that is answered does to what can be seen, where `block` is the count of slots
that a pool adds when none is free. -/
inductive View.Step (block : Nat) (before : View) : Operation → Answer → View → Prop
  | looked {operation : Operation} {answer : Answer} (hlooks : operation.looks = true) :
      Step block before operation answer before
  /-- There is one string more, at a handle that was free, and its text comes from those of the
  sources alone. -/
  | made {operation : Operation} {handle : Handle} {text : Bytes} {added : Nat}
      (hproduct : ∀ texts, (∀ source ∈ operation.sources, texts source = before.textAt source) →
        operation.product? texts = some text)
      (hsources : ∀ source ∈ operation.sources, (before.strings source).isSome)
      (hfree : before.strings handle = none) (hboundary : before.boundary ≤ handle.index)
      (hadded : added = 0 ∨ before.Full ∧ Word.ceil? (max block 1) = some added)
      (hhandle : handle.index < (before.widen added).capacity) :
      Step block before operation (.made handle)
        ((before.widen added).set handle (some ⟨.dynamic, text.upToZero, 0⟩) hhandle)
  /-- A character outside a text was asked for. -/
  | absent {handle : Handle} {index : Int64} {held : Held}
      (hheld : before.strings handle = some held)
      (hproduct : (Operation.charAt handle index).product? before.textAt = none) :
      Step block before (.charAt handle index) (.made .empty) before
  | lengthened {operation : Operation} {handle : Handle} {text tail : Bytes} {owners : UInt64}
      (htail : operation.tail? before.textAt = some (handle, tail))
      (hsources : ∀ source ∈ operation.sources, (before.strings source).isSome)
      (hheld : before.strings handle = some ⟨.dynamic, text, owners⟩) :
      Step block before operation (.made handle)
        (before.set handle (some ⟨.dynamic, text ++ tail, owners⟩) (before.lt_capacity hheld))
  | retained {handle : Handle} {kind : Kind} {text : Bytes} {owners : UInt64}
      (hheld : before.strings handle = some ⟨kind, text, owners⟩) :
      Step block before (.retain handle) .done
        (before.set handle (some ⟨kind, text, owners + 1⟩) (before.lt_capacity hheld))
  | unowned {handle : Handle} {kind : Kind} {text : Bytes}
      (hheld : before.strings handle = some ⟨kind, text, 0⟩) :
      Step block before (.release handle) .done before
  | released {handle : Handle} {kind : Kind} {text : Bytes} {owners : UInt64}
      (hheld : before.strings handle = some ⟨kind, text, owners⟩) (howners : owners ≠ 0)
      (hstays : ¬(owners = 1 ∧ kind = .dynamic)) :
      Step block before (.release handle) .done
        (before.set handle (some ⟨kind, text, owners - 1⟩) (before.lt_capacity hheld))
  | removed {handle : Handle} {text : Bytes}
      (hheld : before.strings handle = some ⟨.dynamic, text, 1⟩) :
      Step block before (.release handle) .done
        (before.set handle none (before.lt_capacity hheld))
  | swept {gone : List Handle} (hnodup : gone.Nodup)
      (hgone : ∀ handle, handle ∈ gone ↔ before.Idle handle) :
      Step block before .sweep (.count gone.length) (before.without gone)
  | grown {additional added : Nat} (hadded : Word.ceil? (max additional 1) = some added) :
      Step block before (.grow additional) .done (before.widen added)

theorem Operation.zero_notMem_tail {texts : Handle → Bytes} (htexts : ∀ handle, 0 ∉ texts handle)
    {operation : Operation} {target : Handle} {tail : Bytes}
    (htail : operation.tail? texts = some (target, tail)) : 0 ∉ tail := by
  cases operation with
  | append handle given =>
    obtain ⟨rfl, rfl⟩ := Prod.mk.inj (Option.some.inj htail)
    exact Bytes.zero_notMem_upToZero given
  | appendFrom handle source =>
    obtain ⟨rfl, rfl⟩ := Prod.mk.inj (Option.some.inj htail)
    exact htexts source
  | _ => exact absurd htail.symm (Option.some_ne_none _)

namespace Pool

/-! ### The view after each change -/

section Views

variable {pool : Pool} {handle : Handle}

theorem view_update {entry : Entry} {held : Held} {hhandle : handle.index < pool.view.capacity}
    (hheld : pool.held entry = held) :
    (pool.update handle.index entry).view = pool.view.set handle (some held) hhandle := by
  apply View.ext
  · have hstrings := strings_view_of_entryAt? pool (pool.update handle.index entry) handle
      (some entry) rfl fun index => pool.entryAt?_update handle.index index entry hhandle
    rw [hstrings, Option.map_some, hheld]
    rfl
  · exact pool.capacity_update handle.index entry
  · rfl

theorem view_vacate {hhandle : handle.index < pool.view.capacity} :
    (pool.vacate handle.index).view = pool.view.set handle none hhandle := by
  apply View.ext
  · exact strings_view_of_entryAt? pool _ handle none rfl
      fun index => pool.entryAt?_vacate handle.index index
  · exact pool.capacity_vacate handle.index
  · rfl

theorem Extends.view_eq {grown : Pool} (hextends : pool.Extends grown) {added : Nat}
    (hadded : grown.capacity = pool.capacity + added) : grown.view = pool.view.widen added :=
  View.ext hextends.strings_view hadded hextends.boundary_eq

theorem Opens.view_placeDynamic {room : Pool} {index : Nat} (hopens : pool.Opens index room)
    (text : Bytes) {added : Nat} (hadded : room.capacity = pool.capacity + added)
    {hhandle : index < (pool.view.widen added).capacity} :
    (room.placeDynamic index text).view
      = (pool.view.widen added).set ⟨index⟩ (some ⟨.dynamic, text, 0⟩) hhandle := by
  apply View.ext
  · exact strings_view_of_entryAt? pool _ ⟨index⟩ (some (.ofText (.dynamic text)))
      hopens.extension.blobs_eq (hopens.entryAt?_placeDynamic text)
  · exact (room.capacity_place index (.dynamic text)).trans hadded
  · exact hopens.extension.boundary_eq

theorem view_foldl_vacate (pool : Pool) (indices : List Nat) :
    (indices.foldl vacate pool).view = pool.view.without (indices.map Handle.mk) := by
  have hframe := sameFrame_foldl_vacate indices pool
  apply View.ext
  · funext handle
    have hmem : handle ∈ indices.map Handle.mk ↔ handle.index ∈ indices := by
      constructor
      · intro hhandle
        obtain ⟨index, hindex, rfl⟩ := List.mem_map.mp hhandle
        exact hindex
      · exact fun hindex => List.mem_map.mpr ⟨handle.index, hindex, rfl⟩
    simp only [view, View.without, hmem, held_congr hframe.blobs_eq, entryAt?_foldl_vacate]
    split <;> rfl
  · exact hframe.capacity_eq
  · exact hframe.boundary_eq

end Views

theorem Live.isSome {pool : Pool} {handle : Handle} (hlive : pool.Live handle) :
    (pool.view.strings handle).isSome := by
  obtain ⟨entry, hentry⟩ := hlive
  exact Option.isSome_iff_exists.mpr ⟨pool.held entry, view_eq_some_iff.mpr ⟨entry, hentry, rfl⟩⟩

theorem full_view {pool : Pool} (hfull : ∀ index, pool.boundary ≤ index → index < pool.capacity →
    ∃ entry, pool.entryAt? index = some entry) : pool.view.Full :=
  fun handle hboundary hcapacity => Live.isSome (hfull handle.index hboundary hcapacity)

theorem Sound.mem_idle_iff {pool : Pool} (hsound : pool.Sound) (handle : Handle) :
    handle ∈ pool.idle.map Handle.mk ↔ pool.view.Idle handle := by
  simp only [View.Idle, view_dynamic_iff]
  constructor
  · intro hhandle
    obtain ⟨index, hindex, rfl⟩ := List.mem_map.mp hhandle
    exact lt_of_mem_idle hindex
  · rintro ⟨hboundary, text, hentry⟩
    have hmem : handle.index ∈ pool.occupied.toList :=
      (Bitset.mem_toList _ _).mpr ((hsound.contains_iff handle.index).mpr ⟨_, hentry⟩)
    refine List.mem_map.mpr ⟨handle.index, List.mem_filter.mpr ⟨hmem, ?_⟩, rfl⟩
    rw [isIdle, hentry]
    exact decide_eq_true ⟨hboundary, decide_eq_true ⟨rfl, rfl⟩⟩

theorem nodup_idle (pool : Pool) : (pool.idle.map Handle.mk).Nodup := by
  have hindices : pool.idle.Nodup := pool.occupied.nodup_toList.filter _
  exact List.Nodup.map (fun first second heq => congrArg Handle.index heq) hindices

/-! ### One request -/

theorem Opens.step_view {pool room : Pool} {index : Nat} (hopens : pool.Opens index room)
    {operation : Operation} {product : Bytes}
    (hproduct : operation.product? pool.textAt = some product)
    (hsources : ∀ source ∈ operation.sources, pool.Live source) :
    View.Step pool.config.block pool.view operation (.made ⟨index⟩)
      (room.placeDynamic index product.upToZero).view := by
  obtain ⟨added, hcapacity, hadded⟩ : ∃ added, room.capacity = pool.capacity + added ∧
      (added = 0 ∨ pool.view.Full ∧ Word.ceil? (max pool.config.block 1) = some added) := by
    rcases hopens.full_or_eq with hsame | ⟨hfull, added, hblock, hcapacity⟩
    · exact ⟨0, hsame, .inl rfl⟩
    · exact ⟨added, hcapacity, .inr ⟨full_view hfull, hblock⟩⟩
  have hhandle : (⟨index⟩ : Handle).index < (pool.view.widen added).capacity :=
    Nat.lt_of_lt_of_eq hopens.lt_capacity hcapacity
  have hfree : pool.view.strings ⟨index⟩ = none := congrArg (Option.map pool.held) hopens.vacant
  rw [hopens.view_placeDynamic product.upToZero hcapacity]
  refine .made (fun texts htexts => ?_) (fun source hsource => (hsources source hsource).isSome)
    hfree hopens.boundary_le hadded hhandle
  rw [textAt_view] at htexts
  exact (Operation.product?_congr htexts).trans hproduct

theorem Sound.step_view {pool left : Pool} {operation : Operation} {answer : Answer}
    (hsound : pool.Sound) (htable : operation.table? = none)
    (heffect : Effect pool operation (.ok answer) left) :
    View.Step pool.config.block pool.view operation answer left.view := by
  cases heffect with
  | looked hlooks => exact .looked hlooks
  | made hproduct hsources hopening =>
    exact (hsound.opens hopening).step_view hproduct hsources
  | @absent handle index entry hentry hbyte =>
    have hheld := view_eq_some_iff.mpr ⟨entry, hentry, rfl⟩
    refine .absent hheld ?_
    have htext : pool.view.textAt handle = pool.bytesOf entry.text := by
      simp only [View.textAt, hheld, held]
    have houtside := (Bytes.byteAt_eq_zero_iff (hsound.text hentry).zero_notMem index).mp hbyte
    rw [Operation.product?, htext, if_pos houtside]
  | @lengthened operation handle text tail owners htail hsources hentry =>
    have hzero := Operation.zero_notMem_tail hsound.zero_notMem_textAt htail
    rw [Bytes.upToZero_eq_self tail hzero, view_update rfl]
    exact .lengthened (pool.textAt_view ▸ htail)
      (fun source hsource => (hsources source hsource).isSome) (view_dynamic_iff.mpr hentry)
  | @retained handle entry hentry =>
    have hheld := view_eq_some_iff.mpr ⟨entry, hentry, rfl⟩
    rw [view_update rfl]
    exact .retained hheld
  | @unowned handle entry hentry howners =>
    have hheld := view_eq_some_iff.mpr ⟨entry, hentry, rfl⟩
    rw [held, howners] at hheld
    exact .unowned hheld
  | @released handle entry hentry howners hstays =>
    have hheld := view_eq_some_iff.mpr ⟨entry, hentry, rfl⟩
    rw [view_update rfl]
    exact .released hheld howners hstays
  | @removed handle entry hentry howners hkind =>
    have hheld := view_eq_some_iff.mpr ⟨entry, hentry, rfl⟩
    rw [held, howners, hkind] at hheld
    rw [view_vacate]
    exact .removed hheld
  | swept =>
    rw [view_foldl_vacate, ← List.length_map Handle.mk]
    exact .swept pool.nodup_idle hsound.mem_idle_iff
  | grown hgrown =>
    obtain ⟨added, hadded, hcapacity⟩ := capacity_of_grown? hgrown
    rw [(extends_of_grown? hgrown).1.view_eq hcapacity]
    exact .grown hadded
  | loaded hsome _ _ => exact absurd (htable.symm.trans hsome) (Option.some_ne_none _).symm

/-- Every request but a load that is answered, on a pool that any run of requests has led to, does
what the map from handles to strings allows. -/
theorem step_view_of_reachable {config : Config} {pool : Pool} {operation : Operation}
    {answer : Answer} (hreachable : Reachable config pool) (htable : operation.table? = none)
    (hanswer : (pool.perform operation).1 = .ok answer) :
    View.Step config.block pool.view operation answer (pool.perform operation).2.view := by
  obtain ⟨hsound, hconfig⟩ := sound_of_reachable hreachable
  have heffect := pool.perform_effect operation
  rw [hanswer] at heffect
  exact hconfig ▸ hsound.step_view htable heffect

theorem step_view_of_concat :
    View.Step 1024 ((ofConfig {}).after [.allocate [97]]).view (.concat ⟨1⟩ ⟨1⟩) (.made ⟨2⟩)
      (((ofConfig {}).after [.allocate [97]]).perform (.concat ⟨1⟩ ⟨1⟩)).2.view := by
  have hrun : ∀ operation ∈ [Operation.allocate [97]], operation.WellFormed := by
    rw [List.forall_mem_singleton]
    trivial
  have hreachable : Reachable {} ((ofConfig {}).after [.allocate [97]]) := ⟨_, hrun, rfl⟩
  exact step_view_of_reachable hreachable rfl (by decide +kernel)

end Pool

end TextPool
