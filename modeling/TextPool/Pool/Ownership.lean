import TextPool.Pool.Action

/-!
# Owners

Whoever keeps a string records that, and takes it back when done. A made string goes when its last
owner does; a made string that never had one stays until the pool is swept. Loaded strings stay.
-/

namespace TextPool.Pool

/-- Records one more owner. -/
def retain (handle : Handle) : Action Unit := do
  let entry ← Action.ask (·.entry handle)
  modify (·.update handle.index { entry with owners := entry.owners + 1 })

/-- Takes one owner back. Where none is recorded, nothing happens. -/
def release (handle : Handle) : Action Unit := do
  let entry ← Action.ask (·.entry handle)
  if entry.owners ≠ 0 then
    if entry.owners = 1 ∧ entry.text.kind = .dynamic then modify (·.vacate handle.index)
    else modify (·.update handle.index { entry with owners := entry.owners - 1 })

/-- Whether the string in a slot was made and has no owner. -/
def isIdle (pool : Pool) (index : Nat) : Bool :=
  match pool.entryAt? index with
  | some entry => entry.owners = 0 ∧ entry.text.kind = .dynamic
  | none => false

/-- The slots from the boundary on that hold made strings without owners. -/
def idle (pool : Pool) : List Nat :=
  pool.occupied.toList.filter fun index => pool.boundary ≤ index ∧ pool.isIdle index

/-- Removes the made strings that nobody owns and answers how many there were. Those below the
boundary stay. -/
def sweep : Action Nat := do
  let idle := (← get).idle
  modify fun pool => idle.foldl vacate pool
  return idle.length

end TextPool.Pool
