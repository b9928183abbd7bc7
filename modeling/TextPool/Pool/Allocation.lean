import TextPool.Pool.Action

/-!
# Finding room for a string

An operation that makes a string takes the slot at the cursor if that is vacant. Otherwise it takes
the first vacant slot from the start of the cursor's word to the end of the table, or else the first
one from the boundary on. Only when every slot from the boundary on is occupied does the table grow,
and the first new slot is taken. The cursor then stands behind the slot taken.

A table grows as a whole or not at all: `grown?` is the larger pool, if there can be one.
-/

namespace TextPool.Pool

/-! ### Growth -/

/-- The pool with `additional` slots more, rounded up to whole words, if there may be that many and
there is memory for them. -/
def grown? (pool : Pool) (additional : Nat) : Option Pool := do
  let added ← Word.ceil? (max additional 1)
  let capacity := pool.capacity + added
  guard (capacity < Word.limit)
  guard (pool.config.admits capacity)
  guard (pool.config.grants added)
  match Bitset.growWithin pool.config.memory pool.occupied added with
  | .grown occupied =>
    return { pool with slots := pool.slots ++ Array.replicate added .vacant, occupied }
  | _ => none

def grow (additional : Nat) : Action Unit := do
  match (← get).grown? additional with
  | some grown => set grown
  | none => throw (.exhausted additional)

/-- How many slots a growth step adds, if `missing` of them are wanted. -/
def blockSize (pool : Pool) (missing : Nat) : Nat :=
  (Word.ceil? (max pool.config.block 1)).getD missing

/-- Adds as many whole blocks as are needed for `wanted` slots. -/
def makeRoom (wanted : Nat) : Action Unit := do
  let pool ← get
  let missing := wanted - pool.capacity
  if missing ≠ 0 then
    let block := pool.blockSize missing
    let added := (missing + (block - 1)) / block * block
    if added < Word.limit then grow added else throw (.exhausted missing)

/-! ### The slot to take -/

def searchStart (pool : Pool) : Nat :=
  if pool.cursor < pool.capacity then max (Word.floor pool.cursor) pool.boundary
  else pool.boundary

/-- The slot that the next string takes, if one from the boundary on is vacant. -/
def vacantIndex? (pool : Pool) : Option Nat :=
  if pool.cursor < pool.capacity ∧ pool.occupied.contains pool.cursor = false then
    some pool.cursor
  else
    match pool.occupied.firstAbsent? pool.searchStart pool.capacity with
    | some index => some index
    | none =>
      if pool.boundary < pool.searchStart then
        pool.occupied.firstAbsent? pool.boundary pool.searchStart
      else none

/-! ### Storing -/

/-- Puts a made string into a slot and the cursor behind it. -/
def placeDynamic (pool : Pool) (index : Nat) (text : Bytes) : Pool :=
  { pool.place index (.dynamic text) with cursor := index + 1 }

/-- Makes a string of the bytes before the first zero byte. -/
def store (bytes : Bytes) : Action Handle := do
  let pool ← get
  match pool.vacantIndex? with
  | some index =>
    modify (·.placeDynamic index bytes.upToZero)
    return ⟨index⟩
  | none =>
    grow pool.config.block
    modify (·.placeDynamic pool.capacity bytes.upToZero)
    return ⟨pool.capacity⟩

/-- Makes a string of a text that is found by looking at the pool. -/
def produce (text : Pool → Except PoolError Bytes) : Action Handle := do
  store (← Action.ask text)

/-- The text of given bytes, if there is memory for it. -/
def copied (pool : Pool) (bytes : Bytes) : Except PoolError Bytes := do
  pool.reserve bytes.upToZero.length
  return bytes.upToZero

def allocate (bytes : Bytes) : Action Handle :=
  produce (·.copied bytes)

/-- Makes a string of at most `count` of the given bytes. -/
def allocateUpTo (count : Nat) (bytes : Bytes) : Action Handle :=
  allocate (bytes.take count)

end TextPool.Pool
