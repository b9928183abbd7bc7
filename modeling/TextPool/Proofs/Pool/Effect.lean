import Mathlib.Tactic.Common
import TextPool.Pool.Operation
import TextPool.Proofs.Outcome

/-!
# What each request does to a pool

There are many requests and few ways in which they change a pool. `Effect` lists those ways, each
with what it was found to need in the pool before it, and `perform_effect` says that a request does
one of them. It is the only place where the requests are taken apart one by one: whatever is kept by
every request, or done by some, is proved by going through the list.

The requests that make a string differ only in its text (`product?`), the two that lengthen one only
in what they append (`tail?`), and the two that load a table only in where it comes from (`table?`).
-/

namespace TextPool

namespace Operation

/-- The request leaves the pool as it is, whatever it finds there. -/
def looks : Operation → Bool
  | .text _ | .display _ | .owners _ | .kind _ | .contains _ | .handle _ | .config | .length _
  | .byteAt _ _ | .find _ _ _ | .findBytes _ _ _ | .order _ _ | .orderIgnoringCase _ _
  | .readHexadecimal _ | .listing | .dump => true
  | _ => false

/-- The bytes of which the request makes a new string, if it makes one, given the texts at all
handles. -/
def product? (texts : Handle → Bytes) : Operation → Option Bytes
  | .allocate bytes => some bytes
  | .allocateText characters => some (Utf8.encode characters)
  | .allocateUpTo count bytes => some (bytes.take count)
  | .concat left right => some (texts left ++ texts right)
  | .substring source first count => some ((texts source).substring first count)
  | .charAt source index =>
    if (texts source).place index < 0 ∨ (texts source).signedLength ≤ (texts source).place index
    then none else some [(texts source).byteAt index]
  | .upper source => some (texts source).upper
  | .lower source => some (texts source).lower
  | .strip source => some (texts source).strip
  | .pad source width alignment => some ((texts source).pad width alignment)
  | .ofSigned number => some (Decimal.integer number.toInt)
  | .ofUnsigned number => some (Decimal.integer number.toNat)
  | .ofWord word => some (Hexadecimal.ofWord word)
  | .ofDouble bits => some (Binary64.ofBits bits).brief
  | .ofFormatted bits format => some ((Binary64.ofBits bits).layOut format)
  | _ => none

/-- The string that the request lengthens and what it appends, given the texts at all handles. -/
def tail? (texts : Handle → Bytes) : Operation → Option (Handle × Bytes)
  | .append target tail => some (target, tail.upToZero)
  | .appendFrom target source => some (target, texts source)
  | _ => none

/-- The handles of the strings whose texts the request makes a string of, or appends. -/
def sources : Operation → List Handle
  | .concat left right => [left, right]
  | .substring source _ _ | .charAt source _ | .upper source | .lower source | .strip source
  | .pad source _ _ | .appendFrom _ source => [source]
  | _ => []

/-- The table that the request loads, or the fault found while reading it. -/
def table? : Operation → Option (Except FormatError StringTable)
  | .load table => some (.ok table)
  | .loadSections file sections => some (StringTable.ofSections file sections)
  | _ => none

/-- What a request makes depends on the texts of its sources only. -/
theorem product?_congr {texts others : Handle → Bytes} {operation : Operation}
    (hsources : ∀ source ∈ operation.sources, texts source = others source) :
    operation.product? texts = operation.product? others := by
  cases operation with
  | concat left right =>
    have hleft := hsources left List.mem_cons_self
    have hright := hsources right (List.mem_cons_of_mem left List.mem_cons_self)
    simp only [product?, hleft, hright]
  | substring source | charAt source | upper source | lower source | strip source | pad source =>
    have hsource := hsources source List.mem_cons_self
    simp only [product?, hsource]
  | _ => rfl

theorem table?_of_looks {operation : Operation} (hlooks : operation.looks = true) :
    operation.table? = none := by
  cases operation with
  | load | loadSections => exact Bool.noConfusion hlooks
  | _ => rfl

theorem table?_of_product? {texts : Handle → Bytes} {operation : Operation} {product : Bytes}
    (hproduct : operation.product? texts = some product) : operation.table? = none := by
  cases operation with
  | load | loadSections => exact absurd hproduct.symm (Option.some_ne_none product)
  | _ => rfl

theorem table?_of_tail? {texts : Handle → Bytes} {operation : Operation} {tail : Handle × Bytes}
    (htail : operation.tail? texts = some tail) : operation.table? = none := by
  cases operation with
  | load | loadSections => exact absurd htail.symm (Option.some_ne_none tail)
  | _ => rfl

end Operation

namespace Pool

/-- The text at a handle, empty where there is no string. -/
def textAt (pool : Pool) (handle : Handle) : Bytes :=
  match pool.entryAt? handle.index with
  | some entry => pool.bytesOf entry.text
  | none => []

def Live (pool : Pool) (handle : Handle) : Prop :=
  ∃ entry, pool.entryAt? handle.index = some entry

/-- The slot that the next string takes, and the pool with that slot in it. -/
def opening? (pool : Pool) : Option (Nat × Pool) :=
  match pool.vacantIndex? with
  | some index => some (index, pool)
  | none => (pool.grown? pool.config.block).map fun grown => (pool.capacity, grown)

/-- The pool with as many whole blocks added as `wanted` slots need, if there can be one. -/
def roomFor? (pool : Pool) (wanted : Nat) : Option Pool :=
  if wanted ≤ pool.capacity then some pool
  else
    let missing := wanted - pool.capacity
    let block := pool.blockSize missing
    let added := (missing + (block - 1)) / block * block
    if added < Word.limit then pool.grown? added else none

/-- The pool in which the entries of a table stand from the cursor on, if its slots are there and
vacant. -/
def placed? (pool : Pool) (table : StringTable) : Option Pool := do
  let room ← pool.roomFor? (pool.cursor + table.size)
  match room.firstOccupied? pool.cursor table.size with
  | some _ => none
  | none => some (room.placeTable pool.cursor table)

def boundaryAfter (pool : Pool) (table : StringTable) : Nat :=
  Word.next (pool.cursor + table.size)

/-- What a request can do to a pool, with its outcome and the pool it leaves. -/
inductive Effect (pool : Pool) : Operation → Except PoolError Answer → Pool → Prop
  | looked {operation : Operation} {outcome : Except PoolError Answer}
      (hlooks : operation.looks = true) : Effect pool operation outcome pool
  | refused {operation : Operation} {failure : PoolError} (htable : operation.table? = none) :
      Effect pool operation (.error failure) pool
  | made {operation : Operation} {product : Bytes} {index : Nat} {room : Pool}
      (hproduct : operation.product? pool.textAt = some product)
      (hsources : ∀ source ∈ operation.sources, pool.Live source)
      (hopening : pool.opening? = some (index, room)) :
      Effect pool operation (.ok (.made ⟨index⟩)) (room.placeDynamic index product.upToZero)
  /-- It was asked for a character, and found none there. -/
  | absent {handle : Handle} {index : Int64} {entry : Entry}
      (hentry : pool.entryAt? handle.index = some entry)
      (hbyte : (pool.bytesOf entry.text).byteAt index = 0) :
      Effect pool (.charAt handle index) (.ok (.made .empty)) pool
  | lengthened {operation : Operation} {handle : Handle} {text tail : Bytes} {owners : UInt64}
      (htail : operation.tail? pool.textAt = some (handle, tail))
      (hsources : ∀ source ∈ operation.sources, pool.Live source)
      (hentry : pool.entryAt? handle.index = some ⟨.dynamic text, owners⟩) :
      Effect pool operation (.ok (.made handle))
        (pool.update handle.index ⟨.dynamic (text ++ tail.upToZero), owners⟩)
  | retained {handle : Handle} {entry : Entry} (hentry : pool.entryAt? handle.index = some entry) :
      Effect pool (.retain handle) (.ok .done)
        (pool.update handle.index { entry with owners := entry.owners + 1 })
  | unowned {handle : Handle} {entry : Entry} (hentry : pool.entryAt? handle.index = some entry)
      (howners : entry.owners = 0) : Effect pool (.release handle) (.ok .done) pool
  | released {handle : Handle} {entry : Entry} (hentry : pool.entryAt? handle.index = some entry)
      (howners : entry.owners ≠ 0)
      (hstays : ¬(entry.owners = 1 ∧ entry.text.kind = .dynamic)) :
      Effect pool (.release handle) (.ok .done)
        (pool.update handle.index { entry with owners := entry.owners - 1 })
  | removed {handle : Handle} {entry : Entry} (hentry : pool.entryAt? handle.index = some entry)
      (howners : entry.owners = 1) (hkind : entry.text.kind = .dynamic) :
      Effect pool (.release handle) (.ok .done) (pool.vacate handle.index)
  | swept : Effect pool .sweep (.ok (.count pool.idle.length)) (pool.idle.foldl vacate pool)
  | grown {additional : Nat} {grown : Pool} (hgrown : pool.grown? additional = some grown) :
      Effect pool (.grow additional) (.ok .done) grown
  | faulty {operation : Operation} {fault : FormatError}
      (htable : operation.table? = some (.error fault)) :
      Effect pool operation (.error (.format fault)) pool
  /-- It was to load a table, and there is no room for the entries. -/
  | crowded {operation : Operation} {table : StringTable} {requested : Nat}
      (htable : operation.table? = some (.ok table))
      (hroom : pool.roomFor? (pool.cursor + table.size) = none) :
      Effect pool operation (.error (.exhausted requested)) pool
  /-- It was to load a table, made room for the entries, and found a slot of theirs taken. -/
  | blocked {operation : Operation} {table : StringTable} {room : Pool} {index : Nat}
      (htable : operation.table? = some (.ok table))
      (hroom : pool.roomFor? (pool.cursor + table.size) = some room)
      (htaken : room.firstOccupied? pool.cursor table.size = some index) :
      Effect pool operation (.error (.slotTaken ⟨index⟩)) room
  /-- It was to load a table, placed the entries, and then found no room up to the new boundary. -/
  | halfway {operation : Operation} {table : StringTable} {placed : Pool} {requested : Nat}
      (htable : operation.table? = some (.ok table)) (hplaced : pool.placed? table = some placed)
      (hroom : placed.roomFor? (pool.boundaryAfter table) = none) :
      Effect pool operation (.error (.exhausted requested)) placed
  | loaded {operation : Operation} {table : StringTable} {placed room : Pool}
      (htable : operation.table? = some (.ok table)) (hplaced : pool.placed? table = some placed)
      (hroom : placed.roomFor? (pool.boundaryAfter table) = some room) :
      Effect pool operation (.ok (.range ⟨⟨pool.cursor⟩, ⟨pool.cursor + table.size⟩⟩))
        { room with boundary := pool.boundaryAfter table, cursor := pool.boundaryAfter table }

/-- A request that fails leaves the pool as it was, unless it loads a table. -/
theorem Effect.left_eq {pool left : Pool} {operation : Operation} {failure : PoolError}
    (heffect : Effect pool operation (.error failure) left) (hnone : operation.table? = none) :
    left = pool := by
  cases heffect with
  | looked | refused | faulty | crowded => rfl
  | blocked htable _ _ => exact absurd (hnone.symm.trans htable) (Option.some_ne_none _).symm
  | halfway htable _ _ => exact absurd (hnone.symm.trans htable) (Option.some_ne_none _).symm

/-- How the load of a table ends, which may turn out to be faulty when it is read, with the outcome
and the pool that is left. -/
inductive LoadEnd (pool : Pool) :
    Except FormatError StringTable → Except PoolError Answer → Pool → Prop
  | faulty {fault : FormatError} : LoadEnd pool (.error fault) (.error (.format fault)) pool
  | crowded {table : StringTable} {requested : Nat}
      (hroom : pool.roomFor? (pool.cursor + table.size) = none) :
      LoadEnd pool (.ok table) (.error (.exhausted requested)) pool
  | blocked {table : StringTable} {room : Pool} {index : Nat}
      (hroom : pool.roomFor? (pool.cursor + table.size) = some room)
      (htaken : room.firstOccupied? pool.cursor table.size = some index) :
      LoadEnd pool (.ok table) (.error (.slotTaken ⟨index⟩)) room
  | halfway {table : StringTable} {placed : Pool} {requested : Nat}
      (hplaced : pool.placed? table = some placed)
      (hroom : placed.roomFor? (pool.boundaryAfter table) = none) :
      LoadEnd pool (.ok table) (.error (.exhausted requested)) placed
  | loaded {table : StringTable} {placed room : Pool}
      (hplaced : pool.placed? table = some placed)
      (hroom : placed.roomFor? (pool.boundaryAfter table) = some room) :
      LoadEnd pool (.ok table) (.ok (.range ⟨⟨pool.cursor⟩, ⟨pool.cursor + table.size⟩⟩))
        { room with boundary := pool.boundaryAfter table, cursor := pool.boundaryAfter table }

/-- A request that loads a table has no other effects. -/
theorem Effect.loadEnd {pool left : Pool} {operation : Operation}
    {outcome : Except PoolError Answer} {read : Except FormatError StringTable}
    (heffect : Effect pool operation outcome left) (hread : operation.table? = some read) :
    LoadEnd pool read outcome left := by
  cases heffect with
  | looked hlooks => exact nomatch (Operation.table?_of_looks hlooks).symm.trans hread
  | refused htable => exact nomatch htable.symm.trans hread
  | made hproduct => exact nomatch (Operation.table?_of_product? hproduct).symm.trans hread
  | lengthened htail => exact nomatch (Operation.table?_of_tail? htail).symm.trans hread
  | absent | retained | unowned | released | removed | swept | grown => exact nomatch hread
  | faulty htable =>
    obtain rfl := Option.some.inj (htable.symm.trans hread)
    exact .faulty
  | crowded htable hroom =>
    obtain rfl := Option.some.inj (htable.symm.trans hread)
    exact .crowded hroom
  | blocked htable hroom htaken =>
    obtain rfl := Option.some.inj (htable.symm.trans hread)
    exact .blocked hroom htaken
  | halfway htable hplaced hroom =>
    obtain rfl := Option.some.inj (htable.symm.trans hread)
    exact .halfway hplaced hroom
  | loaded htable hplaced hroom =>
    obtain rfl := Option.some.inj (htable.symm.trans hread)
    exact .loaded hplaced hroom

/-! ### The steps that operations are made of -/

theorem entry_eq_ok_iff {pool : Pool} {handle : Handle} {entry : Entry} :
    pool.entry handle = .ok entry ↔ pool.entryAt? handle.index = some entry := by
  unfold Pool.entry
  cases hentry : pool.entryAt? handle.index with
  | some found => simp
  | none =>
    by_cases hhandle : handle.index < pool.capacity
    · simp [hhandle]
    · simp [hhandle]

theorem text_eq_ok_iff {pool : Pool} {handle : Handle} {text : Bytes} :
    pool.text handle = .ok text ↔
      ∃ entry, pool.entryAt? handle.index = some entry ∧ pool.bytesOf entry.text = text := by
  simp only [Pool.text, bind_eq_ok_iff, pure_eq_ok_iff, entry_eq_ok_iff]

theorem textAt_of_text {pool : Pool} {handle : Handle} {text : Bytes}
    (htext : pool.text handle = .ok text) : pool.textAt handle = text := by
  obtain ⟨entry, hentry, hbytes⟩ := text_eq_ok_iff.mp htext
  simp only [textAt, hentry, hbytes]

theorem live_of_text {pool : Pool} {handle : Handle} {text : Bytes}
    (htext : pool.text handle = .ok text) : pool.Live handle := by
  obtain ⟨entry, hentry, _⟩ := text_eq_ok_iff.mp htext
  exact ⟨entry, hentry⟩

theorem text_of_live {pool : Pool} {handle : Handle} (hlive : pool.Live handle) :
    pool.text handle = .ok (pool.textAt handle) := by
  obtain ⟨entry, hentry⟩ := hlive
  have htext := text_eq_ok_iff.mpr ⟨entry, hentry, rfl⟩
  rw [htext, textAt_of_text htext]

theorem runOn_ask_bind {α β : Type} (question : Pool → Except PoolError α) (next : α → Action β)
    (pool : Pool) :
    (Action.ask question >>= next).runOn pool =
      match question pool with
      | .ok answer => (next answer).runOn pool
      | .error failure => (.error failure, pool) := by
  rw [Action.runOn_bind, Action.runOn_ask]
  cases question pool <;> rfl

theorem runOn_grow (pool : Pool) (additional : Nat) :
    (grow additional).runOn pool =
      match pool.grown? additional with
      | some grown => (.ok (), grown)
      | none => (.error (.exhausted additional), pool) := by
  rw [Pool.grow, Action.runOn_bind, Action.runOn_get]
  dsimp only
  cases pool.grown? additional <;> rfl

theorem perform_grow (pool : Pool) (additional : Nat) :
    pool.perform (.grow additional) =
      match pool.grown? additional with
      | some grown => (.ok .done, grown)
      | none => (.error (.exhausted additional), pool) := by
  rw [perform, act, Action.runOn_bind, runOn_grow]
  cases pool.grown? additional <;> rfl

theorem runOn_store (bytes : Bytes) (pool : Pool) :
    (store bytes).runOn pool =
      match pool.opening? with
      | some (index, room) => (.ok ⟨index⟩, room.placeDynamic index bytes.upToZero)
      | none => (.error (.exhausted pool.config.block), pool) := by
  simp only [store, opening?, Action.runOn_bind, Action.runOn_get]
  cases pool.vacantIndex? with
  | some index => rfl
  | none =>
    simp only [Action.runOn_bind, runOn_grow]
    cases pool.grown? pool.config.block <;> rfl

theorem runOn_makeRoom (pool : Pool) (wanted : Nat) :
    (∃ room, pool.roomFor? wanted = some room ∧ (makeRoom wanted).runOn pool = (.ok (), room)) ∨
    (∃ requested, pool.roomFor? wanted = none ∧
      (makeRoom wanted).runOn pool = (.error (.exhausted requested), pool)) := by
  by_cases henough : wanted ≤ pool.capacity
  · refine .inl ⟨pool, by rw [roomFor?, if_pos henough], ?_⟩
    simp only [makeRoom, Action.runOn_bind, Action.runOn_get, Nat.sub_eq_zero_of_le henough]
    rfl
  · have hmissing : wanted - pool.capacity ≠ 0 := by omega
    simp only [makeRoom, roomFor?, if_neg henough, Action.runOn_bind, Action.runOn_get,
      if_pos hmissing]
    split
    · rw [runOn_grow]
      generalize pool.grown? _ = grown
      cases grown with
      | none => exact .inr ⟨_, rfl, rfl⟩
      | some room => exact .inl ⟨room, rfl, rfl⟩
    · exact .inr ⟨_, rfl, rfl⟩

theorem runOn_answer {α : Type} (action : Action α) (answer : α → Answer) (pool : Pool) :
    (do return answer (← action) : Action Answer).runOn pool
      = ((action.runOn pool).1.map answer, (action.runOn pool).2) := by
  rw [Action.runOn_bind]
  rcases action.runOn pool with ⟨_ | _, left⟩ <;> rfl

/-! ### Requests that look -/

theorem perform_of_ask {operation : Operation} {α : Type} {question : Pool → Except PoolError α}
    {answer : α → Answer} (hact : act operation = do return answer (← Action.ask question))
    (pool : Pool) : pool.perform operation = ((question pool).map answer, pool) := by
  rw [perform, hact, runOn_answer, Action.runOn_ask]

theorem perform_of_looks (pool : Pool) {operation : Operation} (hlooks : operation.looks = true) :
    (pool.perform operation).2 = pool := by
  cases operation with
  | contains | config | listing | dump => rfl
  | text | display | owners | kind | handle | length | byteAt | find | findBytes | order
  | orderIgnoringCase | readHexadecimal => exact congrArg Prod.snd (runOn_answer _ _ pool)
  | _ => simp [Operation.looks] at hlooks

/-! ### Requests that make a string -/

section Made

variable {pool : Pool} {operation : Operation}

private theorem effect_of_store {bytes product : Bytes}
    (hact : act operation = do return .made (← store bytes)) (htable : operation.table? = none)
    (hproduct : operation.product? pool.textAt = some product)
    (hsources : ∀ source ∈ operation.sources, pool.Live source)
    (hbytes : product.upToZero = bytes.upToZero) :
    Effect pool operation (pool.perform operation).1 (pool.perform operation).2 := by
  rw [perform, hact, runOn_answer, runOn_store]
  cases hopening : pool.opening? with
  | none => exact .refused htable
  | some opening => exact hbytes ▸ .made hproduct hsources hopening

private theorem effect_of_produce {question : Pool → Except PoolError Bytes}
    (hact : act operation = do return .made (← produce question))
    (htable : operation.table? = none)
    (hproduct : ∀ bytes, question pool = .ok bytes →
      (∀ source ∈ operation.sources, pool.Live source) ∧ ∃ product,
        operation.product? pool.textAt = some product ∧ product.upToZero = bytes.upToZero) :
    Effect pool operation (pool.perform operation).1 (pool.perform operation).2 := by
  rw [perform, hact, runOn_answer, produce, runOn_ask_bind]
  cases hquestion : question pool with
  | error failure => exact .refused htable
  | ok bytes =>
    obtain ⟨hsources, product, hsome, hbytes⟩ := hproduct bytes hquestion
    dsimp only
    rw [runOn_store]
    cases hopening : pool.opening? with
    | none => exact .refused htable
    | some opening => exact hbytes ▸ .made hsome hsources hopening

private theorem effect_of_allocate {bytes : Bytes}
    (hact : act operation = do return .made (← allocate bytes)) (htable : operation.table? = none)
    (hsources : operation.sources = [])
    (hproduct : operation.product? pool.textAt = some bytes) :
    Effect pool operation (pool.perform operation).1 (pool.perform operation).2 := by
  refine effect_of_produce hact htable fun copy hcopy => ⟨?_, bytes, hproduct, ?_⟩
  · rw [hsources]
    exact fun source hsource => absurd hsource List.not_mem_nil
  · simp only [copied, bind_eq_ok_iff, pure_eq_ok_iff] at hcopy
    obtain ⟨_, _, rfl⟩ := hcopy
    exact (Bytes.upToZero_upToZero bytes).symm

private theorem effect_of_transform {handle : Handle} {change : Bytes → Bytes}
    (hact : act operation = do return .made (← produce fun pool => return change (← pool.text handle)))
    (htable : operation.table? = none) (hsources : operation.sources = [handle])
    (hproduct : operation.product? pool.textAt = some (change (pool.textAt handle))) :
    Effect pool operation (pool.perform operation).1 (pool.perform operation).2 := by
  refine effect_of_produce hact htable fun bytes hbytes => ?_
  simp only [bind_eq_ok_iff, pure_eq_ok_iff] at hbytes
  obtain ⟨text, htext, rfl⟩ := hbytes
  rw [hsources, List.forall_mem_singleton]
  refine ⟨live_of_text htext, _, hproduct, ?_⟩
  rw [textAt_of_text htext]

end Made

private theorem effect_concat (pool : Pool) (left right : Handle) :
    Effect pool (.concat left right) (pool.perform (.concat left right)).1
      (pool.perform (.concat left right)).2 := by
  refine effect_of_produce rfl rfl fun bytes hbytes => ?_
  simp only [joined, bind_eq_ok_iff, pure_eq_ok_iff] at hbytes
  obtain ⟨leftText, hleft, rightText, hright, _, _, rfl⟩ := hbytes
  refine ⟨?_, _, rfl, ?_⟩
  · simp only [Operation.sources, List.forall_mem_cons]
    exact ⟨live_of_text hleft, live_of_text hright,
      fun source hsource => absurd hsource List.not_mem_nil⟩
  · rw [textAt_of_text hleft, textAt_of_text hright]

private theorem effect_pad (pool : Pool) (handle : Handle) (width : Int64) (alignment : Alignment) :
    Effect pool (.pad handle width alignment) (pool.perform (.pad handle width alignment)).1
      (pool.perform (.pad handle width alignment)).2 := by
  refine effect_of_produce rfl rfl fun bytes hbytes => ?_
  simp only [padded, bind_eq_ok_iff, pure_eq_ok_iff] at hbytes
  obtain ⟨text, htext, _, _, rfl⟩ := hbytes
  refine ⟨List.forall_mem_singleton.mpr (live_of_text htext), _, rfl, ?_⟩
  rw [textAt_of_text htext]

private theorem effect_charAt (pool : Pool) (handle : Handle) (index : Int64) :
    Effect pool (.charAt handle index) (pool.perform (.charAt handle index)).1
      (pool.perform (.charAt handle index)).2 := by
  simp only [perform, act, runOn_answer, charAt, runOn_ask_bind, Pool.byteAt]
  cases htext : pool.text handle with
  | error failure => exact .refused rfl
  | ok text =>
    obtain ⟨entry, hentry, rfl⟩ := text_eq_ok_iff.mp htext
    simp only [bind, Except.bind, pure, Except.pure]
    by_cases hbyte : (pool.bytesOf entry.text).byteAt index = 0
    · rw [if_pos hbyte]
      exact .absent hentry hbyte
    · rw [if_neg hbyte, runOn_store]
      have hproduct : (Operation.charAt handle index).product? pool.textAt
          = some [(pool.bytesOf entry.text).byteAt index] := by
        rw [Operation.product?, textAt_of_text htext, if_neg]
        intro houtside
        exact hbyte (by rw [Bytes.byteAt, if_pos houtside])
      have hsources : ∀ source ∈ (Operation.charAt handle index).sources, pool.Live source :=
        List.forall_mem_singleton.mpr ⟨entry, hentry⟩
      cases hopening : pool.opening? with
      | none => exact .refused rfl
      | some opening => exact .made hproduct hsources hopening

/-! ### Requests that change a string -/

private theorem effect_of_append {pool : Pool} {operation : Operation} {handle : Handle} {tail : Bytes}
    (htable : operation.table? = none)
    (hsources : ∀ source ∈ operation.sources, pool.Live source)
    (htail : operation.tail? pool.textAt = some (handle, tail) ∨
      operation.tail? pool.textAt = some (handle, tail.upToZero)) :
    Effect pool operation (((append handle tail).runOn pool).1.map .made)
      ((append handle tail).runOn pool).2 := by
  simp only [append, runOn_ask_bind]
  cases hentry : pool.entry handle with
  | error failure => exact .refused htable
  | ok entry =>
    obtain ⟨stored, owners⟩ := entry
    rw [entry_eq_ok_iff] at hentry
    cases stored with
    | static blob span => exact .refused htable
    | dynamic text =>
      simp only [runOn_ask_bind]
      cases pool.reserve tail.upToZero.length with
      | error failure => exact .refused htable
      | ok granted =>
        rcases htail with htail | htail
        · exact .lengthened htail hsources hentry
        · exact Bytes.upToZero_upToZero tail ▸ .lengthened htail hsources hentry

private theorem effect_appendFrom (pool : Pool) (handle source : Handle) :
    Effect pool (.appendFrom handle source) (pool.perform (.appendFrom handle source)).1
      (pool.perform (.appendFrom handle source)).2 := by
  simp only [perform, act, runOn_answer, appendFrom, runOn_ask_bind]
  cases htext : pool.text source with
  | error failure => exact .refused rfl
  | ok tail =>
    refine effect_of_append rfl (List.forall_mem_singleton.mpr (live_of_text htext)) (.inl ?_)
    rw [Operation.tail?, textAt_of_text htext]

private theorem effect_retain (pool : Pool) (handle : Handle) :
    Effect pool (.retain handle) (pool.perform (.retain handle)).1
      (pool.perform (.retain handle)).2 := by
  simp only [perform, act, Action.runOn_bind, retain, Action.runOn_ask]
  cases hentry : pool.entry handle with
  | error failure => exact .refused rfl
  | ok entry => exact .retained (entry_eq_ok_iff.mp hentry)

private theorem effect_release (pool : Pool) (handle : Handle) :
    Effect pool (.release handle) (pool.perform (.release handle)).1
      (pool.perform (.release handle)).2 := by
  simp only [perform, act, Action.runOn_bind, release, Action.runOn_ask]
  cases hentry : pool.entry handle with
  | error failure => exact .refused rfl
  | ok entry =>
    rw [entry_eq_ok_iff] at hentry
    by_cases howners : entry.owners = 0
    · simp only [howners, ne_eq, not_true_eq_false, if_false]
      exact .unowned hentry howners
    · simp only [ne_eq, howners, not_false_eq_true, if_true]
      by_cases hlast : entry.owners = 1 ∧ entry.text.kind = .dynamic
      · rw [if_pos hlast]
        exact .removed hentry hlast.1 hlast.2
      · rw [if_neg hlast]
        exact .released hentry howners hlast

private theorem effect_grow (pool : Pool) (additional : Nat) :
    Effect pool (.grow additional) (pool.perform (.grow additional)).1
      (pool.perform (.grow additional)).2 := by
  rw [perform_grow]
  cases hgrown : pool.grown? additional with
  | none => exact .refused rfl
  | some grown => exact .grown hgrown

/-! ### Requests that load a table -/

private theorem effect_of_load {pool : Pool} {operation : Operation} {table : StringTable}
    (htable : operation.table? = some (.ok table)) :
    Effect pool operation (((load table).runOn pool).1.map .range) ((load table).runOn pool).2 := by
  simp only [load, Action.runOn_bind, Action.runOn_get]
  rcases pool.runOn_makeRoom (pool.cursor + table.size) with
    ⟨room, hroom, hrun⟩ | ⟨requested, hroom, hrun⟩
  · simp only [hrun]
    cases htaken : room.firstOccupied? pool.cursor table.size with
    | some index => exact .blocked htable hroom htaken
    | none =>
      have hplaced : pool.placed? table = some (room.placeTable pool.cursor table) := by
        simp only [placed?, hroom, Option.bind_eq_bind, Option.bind_some, htaken]
      simp only [Action.runOn_bind, Action.runOn_modify]
      rcases (room.placeTable pool.cursor table).runOn_makeRoom (pool.boundaryAfter table) with
        ⟨final, hfinal, hrun⟩ | ⟨requested, hfinal, hrun⟩
      · rw [boundaryAfter] at hrun
        simp only [hrun]
        exact .loaded htable hplaced hfinal
      · rw [boundaryAfter] at hrun
        simp only [hrun]
        exact .halfway htable hplaced hfinal
  · simp only [hrun]
    exact .crowded htable hroom

private theorem effect_loadSections (pool : Pool) (file : Bytes) (sections : Sections) :
    Effect pool (.loadSections file sections) (pool.perform (.loadSections file sections)).1
      (pool.perform (.loadSections file sections)).2 := by
  rw [perform, act, runOn_answer, loadSections]
  cases htable : StringTable.ofSections file sections with
  | error fault => exact .faulty (congrArg some htable)
  | ok table => exact effect_of_load (congrArg some htable)

/-! ### Every request -/

theorem perform_effect (pool : Pool) (operation : Operation) :
    Effect pool operation (pool.perform operation).1 (pool.perform operation).2 := by
  by_cases hlooks : operation.looks = true
  · rw [perform_of_looks pool hlooks]
    exact .looked hlooks
  cases operation with
  | allocate | allocateText | allocateUpTo | ofSigned | ofUnsigned | ofWord | ofDouble =>
    exact effect_of_allocate rfl rfl rfl rfl
  | substring | upper | lower | strip => exact effect_of_transform rfl rfl rfl rfl
  | ofFormatted =>
    exact effect_of_store rfl rfl rfl (fun source hsource => absurd hsource List.not_mem_nil) rfl
  | concat left right => exact effect_concat pool left right
  | pad handle width alignment => exact effect_pad pool handle width alignment
  | charAt handle index => exact effect_charAt pool handle index
  | append handle tail =>
    rw [perform, act, runOn_answer]
    exact effect_of_append rfl (fun source hsource => absurd hsource List.not_mem_nil) (.inr rfl)
  | appendFrom handle source => exact effect_appendFrom pool handle source
  | retain handle => exact effect_retain pool handle
  | release handle => exact effect_release pool handle
  | sweep => exact .swept
  | grow additional => exact effect_grow pool additional
  | load table =>
    rw [perform, act, runOn_answer]
    exact effect_of_load rfl
  | loadSections file sections => exact effect_loadSections pool file sections
  | _ => exact absurd rfl hlooks

end Pool

end TextPool
