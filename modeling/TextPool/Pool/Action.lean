import TextPool.Pool.Basic

/-!
# What operations do

An operation looks at a pool and may change it. It answers or fails, and in both cases leaves a
pool. The equations on `runOn` say how operations are put together; in particular a failure ends
the operation and keeps what had been changed until then (`runOn_bind`).
-/

namespace TextPool

/-- What an operation does to a pool: it answers or fails, and either way leaves a pool. A failure
takes nothing back that was done before it. -/
abbrev Action (α : Type) := ExceptT PoolError (StateM Pool) α

namespace Action

/-- An operation that only looks. -/
def ask {α : Type} (question : Pool → Except PoolError α) : Action α :=
  ExceptT.mk fun pool => (question pool, pool)

/-- The answer of an operation, and the pool it leaves. -/
def runOn {α : Type} (action : Action α) (pool : Pool) : Except PoolError α × Pool :=
  action.run.run pool

@[simp] theorem runOn_pure {α : Type} (answer : α) (pool : Pool) :
    (pure answer : Action α).runOn pool = (.ok answer, pool) := rfl

@[simp] theorem runOn_throw {α : Type} (failure : PoolError) (pool : Pool) :
    (throw failure : Action α).runOn pool = (.error failure, pool) := rfl

@[simp] theorem runOn_get (pool : Pool) :
    (get : Action Pool).runOn pool = (.ok pool, pool) := rfl

@[simp] theorem runOn_set (left pool : Pool) :
    (set left : Action PUnit).runOn pool = (.ok ⟨⟩, left) := rfl

@[simp] theorem runOn_modify (change : Pool → Pool) (pool : Pool) :
    (modify change : Action Unit).runOn pool = (.ok (), change pool) := rfl

@[simp] theorem runOn_ask {α : Type} (question : Pool → Except PoolError α) (pool : Pool) :
    (ask question).runOn pool = (question pool, pool) := rfl

theorem runOn_bind {α β : Type} (first : Action α) (next : α → Action β) (pool : Pool) :
    (first >>= next).runOn pool =
      match first.runOn pool with
      | (.ok answer, left) => (next answer).runOn left
      | (.error failure, left) => (.error failure, left) := by
  simp only [runOn, bind, ExceptT.bind, ExceptT.mk, ExceptT.run, StateT.bind, StateT.run]
  rcases first pool with ⟨_ | _, left⟩ <;> rfl

end Action

end TextPool
