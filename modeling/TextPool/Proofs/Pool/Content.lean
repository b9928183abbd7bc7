import TextPool.Proofs.Pool.Invariant
import TextPool.Proofs.Pool.Outline
import TextPool.Proofs.Pool.View

/-!
# Handles do not tell texts

Which handle a request gives out, how it fails and what becomes of the owners depends on the outline
of the pool only, except where a character is asked for or a table is loaded: what a request does to
the outline can be said without the texts (`trace`), and it is what the request does
(`Sound.sketch_perform`). So two runs of the same requests that bring different bytes go through
pools with one outline.
-/

namespace TextPool

def Answer.handle? : Answer → Option Handle
  | .made target | .handle target => some target
  | _ => none

namespace Operation

/-- The request neither asks for a character, which becomes a string only where there is one, nor
loads a table. -/
def steady : Operation → Bool
  | .charAt _ _ | .load _ | .loadSections _ _ => false
  | _ => true

/-- The request without the bytes that it brings. -/
def outline : Operation → Operation
  | .allocate _ => .allocate []
  | .allocateText _ => .allocateText []
  | .allocateUpTo count _ => .allocateUpTo count []
  | .append target _ => .append target []
  | .findBytes target _ first => .findBytes target [] first
  | operation => operation

theorem checked_outline (operation : Operation) : operation.outline.checked = operation.checked := by
  cases operation <;> rfl

theorem steady_outline (operation : Operation) : operation.outline.steady = operation.steady := by
  cases operation <;> rfl

theorem wellFormed_of_steady {operation : Operation} (hsteady : operation.steady = true) :
    operation.WellFormed := by
  refine wellFormed_of_table?_eq_none ?_
  cases operation with
  | load | loadSections => exact Bool.noConfusion hsteady
  | _ => rfl

end Operation

theorem Bytes.zero_notMem_append {left right : Bytes} (hleft : 0 ∉ left) (hright : 0 ∉ right) :
    0 ∉ left ++ right := by
  rw [List.mem_append, not_or]
  exact ⟨hleft, hright⟩

theorem Bytes.zero_notMem_pad {text : Bytes} (htext : 0 ∉ text) (width : Int64)
    (alignment : Alignment) : 0 ∉ text.pad width alignment := by
  have hspaces : (0 : UInt8) ∉ List.replicate (text.lacking width) Ascii.space :=
    fun hmem => absurd (List.eq_of_mem_replicate hmem) (by decide)
  cases alignment with
  | left => exact zero_notMem_append htext hspaces
  | right => exact zero_notMem_append hspaces htext

namespace Pool

/-! ### What requests do where nothing is missing -/

theorem reserve_eq_ok {pool : Pool} {count : Nat} (hmemory : pool.config.grants count = true) :
    pool.reserve count = .ok () :=
  if_pos hmemory

theorem reserve_eq_error {pool : Pool} {count : Nat} (hmemory : pool.config.grants count = false) :
    pool.reserve count = .error (.exhausted count) :=
  if_neg (Bool.not_eq_true _ ▸ hmemory)

/-- The slot for a new string is taken, or there is none to be had. -/
def making (pool : Pool) (text : Bytes) : Except PoolError Answer × Pool :=
  match pool.opening? with
  | some (index, room) => (.ok (.made ⟨index⟩), room.placeDynamic index text)
  | none => (.error (.exhausted pool.config.block), pool)

section Made

variable {pool : Pool} {operation : Operation} {product : Bytes}

theorem runOn_store_made (bytes : Bytes) (pool : Pool) :
    (do return .made (← store bytes) : Action Answer).runOn pool = pool.making bytes.upToZero := by
  rw [runOn_answer, runOn_store, making]
  cases pool.opening? <;> rfl

private theorem perform_of_produce {question : Pool → Except PoolError Bytes} {bytes : Bytes}
    (hact : act operation = do return .made (← produce question))
    (hquestion : question pool = .ok bytes) :
    pool.perform operation = pool.making bytes.upToZero := by
  rw [perform, hact, runOn_answer, produce, runOn_ask_bind, hquestion]
  dsimp only
  rw [runOn_store, making]
  cases pool.opening? <;> rfl

private theorem perform_of_allocate {bytes : Bytes}
    (hact : act operation = do return .made (← allocate bytes))
    (hbytes : operation.product? pool.textAt = some bytes)
    (hproduct : operation.product? pool.textAt = some product)
    (hmemory : pool.config.grants product.upToZero.length = true) :
    pool.perform operation = pool.making product.upToZero := by
  obtain rfl := Option.some.inj (hbytes.symm.trans hproduct)
  have hcopied : pool.copied bytes = .ok bytes.upToZero := by
    rw [copied, reserve_eq_ok hmemory]
    rfl
  rw [perform_of_produce hact hcopied, Bytes.upToZero_upToZero]

theorem perform_of_transform {handle : Handle} {change : Bytes → Bytes}
    (hact : act operation = do
      return .made (← produce fun pool => return change (← pool.text handle)))
    (hbytes : operation.product? pool.textAt = some (change (pool.textAt handle)))
    (hproduct : operation.product? pool.textAt = some product) (hlive : pool.Live handle) :
    pool.perform operation = pool.making product.upToZero := by
  obtain rfl := Option.some.inj (hbytes.symm.trans hproduct)
  refine perform_of_produce hact ?_
  rw [text_of_live hlive]
  rfl

private theorem Sound.perform_concat (hsound : pool.Sound) {left right : Handle}
    (hleft : pool.Live left) (hright : pool.Live right)
    (hproduct : pool.textAt left ++ pool.textAt right = product)
    (hmemory : pool.config.grants product.upToZero.length = true) :
    pool.perform (.concat left right) = pool.making product.upToZero := by
  subst hproduct
  have hzero := Bytes.zero_notMem_append (hsound.zero_notMem_textAt left)
    (hsound.zero_notMem_textAt right)
  rw [Bytes.upToZero_eq_self _ hzero, List.length_append] at hmemory
  refine perform_of_produce rfl ?_
  rw [joined, text_of_live hleft, text_of_live hright]
  exact congrArg (· >>= fun _ => _) (reserve_eq_ok hmemory)

private theorem Sound.perform_pad (hsound : pool.Sound) {source : Handle} {width : Int64}
    {alignment : Alignment} (hlive : pool.Live source)
    (hproduct : (pool.textAt source).pad width alignment = product)
    (hmemory : pool.config.grants product.upToZero.length = true) :
    pool.perform (.pad source width alignment) = pool.making product.upToZero := by
  subst hproduct
  have hzero := Bytes.zero_notMem_pad (hsound.zero_notMem_textAt source) width alignment
  rw [Bytes.upToZero_eq_self _ hzero, Bytes.length_pad] at hmemory
  refine perform_of_produce rfl ?_
  rw [padded, text_of_live hlive]
  exact congrArg (· >>= fun _ => _) (reserve_eq_ok hmemory)

theorem Sound.perform_charAt (hsound : pool.Sound) {source : Handle} {index : Int64}
    (hlive : pool.Live source)
    (hproduct : (Operation.charAt source index).product? pool.textAt = some product) :
    pool.perform (.charAt source index) = pool.making product.upToZero := by
  rw [Operation.product?] at hproduct
  split_ifs at hproduct with houtside
  obtain rfl := Option.some.inj hproduct
  have hbyte : (pool.textAt source).byteAt index ≠ 0 := fun hzero =>
    houtside ((Bytes.byteAt_eq_zero_iff (hsound.zero_notMem_textAt source) index).mp hzero)
  have hasked : pool.byteAt source index = .ok ((pool.textAt source).byteAt index) := by
    rw [Pool.byteAt, text_of_live hlive]
    rfl
  rw [Pool.perform, act, ← runOn_store_made, runOn_answer, runOn_answer, charAt, runOn_ask_bind, hasked]
  dsimp only
  rw [if_neg hbyte]

/-- A request that makes a string of bytes for which there is memory stores the bytes up to the
first zero. -/
theorem Sound.perform_of_product (hsound : pool.Sound) (hcheck : pool.check operation.checked = .ok ())
    (hproduct : operation.product? pool.textAt = some product)
    (hmemory : pool.config.grants product.upToZero.length = true) :
    pool.perform operation = pool.making product.upToZero := by
  have hlive := live_of_check hcheck
  cases operation with
  | allocate | allocateText | allocateUpTo | ofSigned | ofUnsigned | ofWord | ofDouble =>
    exact perform_of_allocate rfl rfl hproduct hmemory
  | substring source | upper source | lower source | strip source =>
    exact perform_of_transform rfl rfl hproduct (hlive source List.mem_cons_self)
  | ofFormatted bits format =>
    rw [Operation.product?, Option.some.injEq] at hproduct
    rw [← hproduct]
    exact runOn_store_made _ pool
  | concat left right =>
    exact hsound.perform_concat (hlive left List.mem_cons_self)
      (hlive right (List.mem_cons_of_mem left List.mem_cons_self)) (Option.some.inj hproduct) hmemory
  | pad source width alignment =>
    exact hsound.perform_pad (hlive source List.mem_cons_self) (Option.some.inj hproduct) hmemory
  | charAt source => exact hsound.perform_charAt (hlive source List.mem_cons_self) hproduct
  | _ => exact absurd hproduct.symm (Option.some_ne_none product)

end Made

/-- A question about strings that are there is answered. -/
theorem handle?_of_question {pool : Pool} {operation : Operation} (hlooks : operation.looks = true)
    (hcheck : pool.check operation.checked = .ok ()) (hhandle : ∀ raw, operation ≠ .handle raw) :
    (pool.perform operation).1.map Answer.handle? = .ok none := by
  have hentry : ∀ target ∈ operation.checked, ∃ entry, pool.entry target = .ok entry :=
    fun target htarget => (live_of_check hcheck target htarget).imp fun _ => entry_eq_ok_iff.mpr
  have htext : ∀ target ∈ operation.checked, pool.text target = .ok (pool.textAt target) :=
    fun target htarget => text_of_live (live_of_check hcheck target htarget)
  cases operation with
  | contains | config | listing | dump => rfl
  | owners target | kind target =>
    obtain ⟨entry, hsome⟩ := hentry target List.mem_cons_self
    simp only [perform, act, runOn_answer, Action.runOn_ask, Pool.owners, Pool.kind, hsome]
    rfl
  | text target | display target | length target | byteAt target | findBytes target
  | readHexadecimal target =>
    have hsome := htext target List.mem_cons_self
    simp only [perform, act, runOn_answer, Action.runOn_ask, Pool.display, Pool.length, Pool.byteAt,
      Pool.findBytes, Pool.readHexadecimal, hsome]
    rfl
  | find second first | order first second | orderIgnoringCase first second =>
    have hfirst := htext first List.mem_cons_self
    have hsecond := htext second (List.mem_cons_of_mem first List.mem_cons_self)
    simp only [perform, act, runOn_answer, Action.runOn_ask, Pool.find, Pool.findBytes, Pool.order,
      Pool.orderIgnoringCase, hfirst, hsecond]
    rfl
  | handle raw => exact absurd rfl (hhandle raw)
  | _ => exact Bool.noConfusion hlooks

/-! ### What becomes of the outline -/

/-- There is memory for the text that the request makes, or appends to a string that was made, if it
gets that far. -/
def affords (pool : Pool) (operation : Operation) : Bool :=
  match pool.check operation.checked with
  | .error _ => true
  | .ok () =>
    (operation.product? pool.textAt).all (fun product => pool.config.grants product.upToZero.length) &&
      (operation.tail? pool.textAt).all fun (target, tail) =>
        match pool.kind target with
        | .ok .dynamic => pool.config.grants tail.upToZero.length
        | _ => true

def sketch (done : Except PoolError Answer × Pool) : Except PoolError (Option Handle) × Pool :=
  (done.1.map Answer.handle?, done.2.outline)

/-- What a steady request does to the outline of a pool that has memory for the texts. -/
def trace (pool : Pool) (operation : Operation) : Except PoolError (Option Handle) × Pool :=
  match pool.check operation.checked with
  | .error failure => (.error failure, pool)
  | .ok () =>
    match operation with
    | .retain _ | .release _ | .sweep | .grow _ => sketch (pool.perform operation)
    | .handle raw => ((pool.handle raw).map some, pool)
    | .append target _ | .appendFrom target _ =>
      match pool.kind target with
      | .ok .dynamic => (.ok (some target), pool)
      | _ => (.error (.unchangeable target), pool)
    | _ => if operation.looks then (.ok none, pool) else sketch (pool.making [])

/-! Each kind of request -/

section Sketch

variable (pool : Pool)

theorem sketch_making (text : Bytes) : sketch (pool.making text) = sketch (pool.outline.making []) := by
  rw [making, making, opening?_outline]
  cases pool.opening? with
  | none => exact congrArg (Prod.mk _) pool.outline_outline.symm
  | some opening =>
    obtain ⟨index, room⟩ := opening
    have hplaced : (room.placeDynamic index text).outline
        = (room.outline.placeDynamic index []).outline := by
      rw [outline_placeDynamic, outline_placeDynamic, outline_outline]
    exact congrArg (Prod.mk _) hplaced

theorem sketch_sweep : sketch (pool.perform .sweep) = sketch (pool.outline.perform .sweep) := by
  have hperform (pool : Pool) :
      pool.perform .sweep = (.ok (.count pool.idle.length), pool.idle.foldl vacate pool) := rfl
  rw [hperform, hperform, idle_outline, sketch, sketch, outline_foldl_vacate, outline_foldl_vacate,
    outline_outline]

theorem sketch_grow (additional : Nat) :
    sketch (pool.perform (.grow additional)) = sketch (pool.outline.perform (.grow additional)) := by
  rw [perform_grow, perform_grow, grown?_outline]
  cases pool.grown? additional with
  | none => exact congrArg (Prod.mk _) pool.outline_outline.symm
  | some grown => exact congrArg (Prod.mk _) grown.outline_outline.symm

/-- To retain or to release a string is to look at its entry, with no regard to the text in it. -/
theorem sketch_owners {operation : Operation} {handle : Handle}
    (hoperation : operation = .retain handle ∨ operation = .release handle) :
    sketch (pool.perform operation) = sketch (pool.outline.perform operation) := by
  have hsubject : operation.subject? = some handle := by
    obtain rfl | rfl := hoperation
    · rfl
    · rfl
  have houtline := pool.entryAt?_outline handle.index
  cases hentry : pool.entryAt? handle.index with
  | none =>
    rw [hentry] at houtline
    rw [perform_of_vacant hsubject hentry, perform_of_vacant hsubject houtline, absence_outline]
    exact congrArg (Prod.mk _) pool.outline_outline.symm
  | some entry =>
    rw [hentry] at houtline
    have htreat := Operation.treat_outline pool.config entry hoperation
    rw [perform_of_entry hsubject hentry, perform_of_entry hsubject houtline,
      config_outline, htreat, sketch, sketch, ← outline_put, outline_outline]

theorem sketch_append {handle : Handle} (hlive : pool.Live handle) (tail : Bytes)
    (hmemory : pool.kind handle = .ok .dynamic → pool.config.grants tail.upToZero.length = true) :
    sketch (pool.perform (.append handle tail)) =
      match pool.outline.kind handle with
      | .ok .dynamic => (.ok (some handle), pool.outline)
      | _ => (.error (.unchangeable handle), pool.outline) := by
  obtain ⟨⟨stored, owners⟩, hentry⟩ := hlive
  have hkind : pool.kind handle = .ok stored.kind := by
    rw [Pool.kind, entry_eq_ok_iff.mpr hentry]
    rfl
  rw [perform_of_entry rfl hentry, sketch, outline_put, kind_outline, hkind]
  have houtline := pool.entryAt?_outline handle.index
  rw [hentry] at houtline
  have hself := put_self houtline
  cases stored with
  | static blob span => exact congrArg (Prod.mk _) hself
  | dynamic text =>
    rw [Operation.treat]
    dsimp only
    rw [if_pos (hmemory hkind)]
    exact congrArg (Prod.mk _) hself

theorem sketch_handle (raw : Int64) :
    sketch (pool.perform (.handle raw)) = ((pool.outline.handle raw).map some, pool.outline) := by
  rw [perform_of_ask rfl, sketch, handle_outline]
  cases pool.handle raw <;> rfl

end Sketch

/-! Every request -/

theorem sketch_of_product {pool : Pool} {operation : Operation} {product : Bytes}
    (hsound : pool.Sound) (hcheck : pool.check operation.checked = .ok ())
    (hproduct : operation.product? pool.textAt = some product)
    (hmemory : pool.affords operation = true) :
    sketch (pool.perform operation) = sketch (pool.outline.making []) := by
  simp only [affords, hcheck, hproduct, Option.all_some, Bool.and_eq_true] at hmemory
  rw [hsound.perform_of_product hcheck hproduct hmemory.1, sketch_making]

theorem grants_of_affords {pool : Pool} {operation : Operation} {handle : Handle} {tail : Bytes}
    (hcheck : pool.check operation.checked = .ok ())
    (htail : operation.tail? pool.textAt = some (handle, tail))
    (hmemory : pool.affords operation = true) (hkind : pool.kind handle = .ok .dynamic) :
    pool.config.grants tail.upToZero.length = true := by
  simp only [affords, hcheck, htail, Option.all_some, Bool.and_eq_true, hkind] at hmemory
  exact hmemory.2

theorem sketch_of_looks {pool : Pool} {operation : Operation} (hlooks : operation.looks = true)
    (hcheck : pool.check operation.checked = .ok ()) (hhandle : ∀ raw, operation ≠ .handle raw) :
    sketch (pool.perform operation) = (.ok none, pool.outline) := by
  rw [sketch, handle?_of_question hlooks hcheck hhandle, pool.perform_of_looks hlooks]

/-- What a steady request does can be told, as far as handles go, from the outline of the pool. -/
theorem Sound.sketch_perform {pool : Pool} {operation : Operation} (hsound : pool.Sound)
    (hsteady : operation.steady = true) (hmemory : pool.affords operation = true) :
    sketch (pool.perform operation) = pool.outline.trace operation.outline := by
  unfold trace
  rw [Operation.checked_outline, check_outline]
  cases hcheck : pool.check operation.checked with
  | error failure =>
    rw [perform_of_check hcheck]
    rfl
  | ok _ =>
    -- No string is missing any more, so only the kind of request counts.
    cases operation with
    | retain target => exact pool.sketch_owners (.inl rfl)
    | release target => exact pool.sketch_owners (.inr rfl)
    | sweep => exact pool.sketch_sweep
    | grow additional => exact pool.sketch_grow additional
    | handle raw => exact pool.sketch_handle raw
    | append target tail =>
      have hlive := live_of_check hcheck target List.mem_cons_self
      refine pool.sketch_append hlive tail fun hkind => ?_
      rw [← Bytes.upToZero_upToZero]
      exact grants_of_affords hcheck rfl hmemory hkind
    | appendFrom target source =>
      have hsource := live_of_check hcheck source List.mem_cons_self
      have hlive := live_of_check hcheck target (List.mem_cons_of_mem source List.mem_cons_self)
      rw [perform_appendFrom_of_live hsource]
      exact pool.sketch_append hlive _ (grants_of_affords hcheck rfl hmemory)
    | charAt | load | loadSections => exact Bool.noConfusion hsteady
    | text | display | owners | kind | contains | config | length | byteAt | find | findBytes | order
    | orderIgnoringCase | readHexadecimal | listing | dump =>
      exact sketch_of_looks rfl hcheck fun _ => Operation.noConfusion
    | _ => exact sketch_of_product hsound hcheck rfl hmemory

/-! ### Runs -/

def affordsAll (pool : Pool) : List Operation → Bool
  | [] => true
  | operation :: rest => pool.affords operation && (pool.perform operation).2.affordsAll rest

theorem affordsAll_take {pool : Pool} {run : List Operation} (hmemory : pool.affordsAll run = true)
    (count : Nat) : pool.affordsAll (run.take count) = true := by
  induction run generalizing pool count with
  | nil => rw [List.take_nil]; rfl
  | cons operation rest ih =>
    obtain ⟨hfirst, hrest⟩ := Bool.and_eq_true_iff.mp hmemory
    cases count with
    | zero => rfl
    | succ count => exact Bool.and_eq_true_iff.mpr ⟨hfirst, ih hrest count⟩

/-- Pools with one outline go on to have one, and give out the same handles, whatever bytes they are
brought. -/
theorem Sound.sketch_run {pool other : Pool} (hsound : pool.Sound) (hother : other.Sound)
    (houtline : pool.outline = other.outline) {run others : List Operation}
    (hrun : run.map Operation.outline = others.map Operation.outline)
    (hsteady : ∀ operation ∈ run, operation.steady = true)
    (hmemory : pool.affordsAll run = true) (hothers : other.affordsAll others = true) :
    (pool.answers run).map (·.map Answer.handle?)
        = (other.answers others).map (·.map Answer.handle?) ∧
      (pool.after run).outline = (other.after others).outline := by
  induction run generalizing pool other others with
  | nil =>
    obtain rfl := List.map_eq_nil_iff.mp hrun.symm
    exact ⟨rfl, houtline⟩
  | cons operation rest ih =>
    obtain ⟨second, later, rfl, hsecond, hlater⟩ := List.map_eq_cons_iff.mp hrun.symm
    obtain ⟨hfirst, hrest⟩ := List.forall_mem_cons.mp hsteady
    have hsteadily : second.steady = true := by
      rw [← second.steady_outline, hsecond, operation.steady_outline, hfirst]
    obtain ⟨hgranted, hgrants⟩ := Bool.and_eq_true_iff.mp hmemory
    obtain ⟨hgiven, hgives⟩ := Bool.and_eq_true_iff.mp hothers
    -- Both requests do to the one outline what can be told without texts.
    have hsketch : sketch (pool.perform operation) = sketch (other.perform second) := by
      rw [hsound.sketch_perform hfirst hgranted, hother.sketch_perform hsteadily hgiven, houtline,
        hsecond]
    obtain ⟨hanswer, hleft⟩ := Prod.mk.inj hsketch
    have hnext := (hsound.perform (Operation.wellFormed_of_steady hfirst)).1
    have hfollowing := (hother.perform (Operation.wellFormed_of_steady hsteadily)).1
    obtain ⟨hanswers, hlast⟩ := ih hnext hfollowing hleft hlater.symm hrest hgrants hgives
    exact ⟨congrArg₂ List.cons hanswer hanswers, hlast⟩

/-- Runs of the same requests that bring different bytes give out the same handles and fail alike.
-/
theorem handles_eq_of_outline_eq (config : Config) {run others : List Operation}
    (hrun : run.map Operation.outline = others.map Operation.outline)
    (hsteady : ∀ operation ∈ run, operation.steady = true)
    (hmemory : (ofConfig config).affordsAll run = true)
    (hothers : (ofConfig config).affordsAll others = true) :
    ((ofConfig config).answers run).map (·.map Answer.handle?)
        = ((ofConfig config).answers others).map (·.map Answer.handle?) ∧
      ∀ count handle,
        let pool := (ofConfig config).after (run.take count)
        let other := (ofConfig config).after (others.take count)
        pool.capacity = other.capacity ∧ pool.boundary = other.boundary ∧ pool.count = other.count ∧
          pool.contains handle = other.contains handle ∧ pool.kind handle = other.kind handle ∧
          pool.owners handle = other.owners handle := by
  have hsound := sound_ofConfig config
  refine ⟨(hsound.sketch_run hsound rfl hrun hsteady hmemory hothers).1, fun count handle => ?_⟩
  have htake : (run.take count).map Operation.outline = (others.take count).map Operation.outline := by
    rw [List.map_take, List.map_take, hrun]
  obtain ⟨_, houtline⟩ := hsound.sketch_run hsound rfl htake
    (fun operation hoperation => hsteady operation (List.mem_of_mem_take hoperation))
    (affordsAll_take hmemory count) (affordsAll_take hothers count)
  intro pool other
  refine ⟨?_, ?_, ?_, ?_, ?_, ?_⟩
  · rw [← pool.capacity_outline, houtline, capacity_outline]
  · rw [← pool.boundary_outline, houtline, boundary_outline]
  · rw [← pool.count_outline, houtline, count_outline]
  · rw [← pool.contains_outline, houtline, contains_outline]
  · rw [← pool.kind_outline, houtline, kind_outline]
  · rw [← pool.owners_outline, houtline, owners_outline]

/-- What comes out empty in the one run does not in the other. -/
theorem handles_eq_of_outline_eq_empty :
    let requests (first second third : Bytes) := [Operation.allocate first, .allocateUpTo 2 second,
      .concat ⟨1⟩ ⟨2⟩, .strip ⟨2⟩, .append ⟨1⟩ third, .append ⟨0⟩ third, .retain ⟨3⟩,
      .findBytes ⟨3⟩ third 1, .appendFrom ⟨4⟩ ⟨3⟩, .release ⟨3⟩, .substring ⟨3⟩ 0 1, .upper ⟨2⟩,
      .handle 5000]
    let run := requests [] [0x20, 0x20, 0x61] [0]
    let others := requests [0x61, 0x62] [0x63] [0x64, 0x65]
    run.map Operation.outline = others.map Operation.outline ∧
      (∀ operation ∈ run, operation.steady = true) ∧
      ((ofConfig {}).answers others).map (·.map Answer.handle?)
        = [.ok (some ⟨1⟩), .ok (some ⟨2⟩), .ok (some ⟨3⟩), .ok (some ⟨4⟩), .ok (some ⟨1⟩),
          .error (.unchangeable ⟨0⟩), .ok none, .ok none, .ok (some ⟨4⟩), .ok none,
          .error (.vacant ⟨3⟩), .ok (some ⟨5⟩), .error (.noSuchSlot 5000 1024)] ∧
      ((ofConfig {}).after others).count = 5 := by
  intro requests run others
  have hrun : run.map Operation.outline = others.map Operation.outline := rfl
  have hsteady : ∀ operation ∈ run, operation.steady = true := by decide
  obtain ⟨hanswers, hafter⟩ := handles_eq_of_outline_eq {} hrun hsteady (by decide +kernel)
    (by decide +kernel)
  obtain ⟨_, _, hcount, _⟩ := hafter run.length ⟨0⟩
  refine ⟨hrun, hsteady, hanswers.symm.trans (by decide +kernel), ?_⟩
  exact hcount.symm.trans (by decide +kernel)

end Pool

end TextPool
