import TextPool.Handle
import TextPool.Table.Error

/-!
# Failures of a pool

Every operation reports a failure instead of stopping the program that uses the pool. Only one is
fatal to that program: without storage for strings it cannot go on.
-/

namespace TextPool

/-- Why an operation on a pool failed. A handle that is out of range is told as a signed word, since
it may have come from one. -/
inductive PoolError where
  | noSuchSlot (raw : Int64) (capacity : Nat)
  | vacant (handle : Handle)
  | unchangeable (handle : Handle)
  | exhausted (requested : Nat)
  | slotTaken (handle : Handle)
  | format (fault : FormatError)
  deriving DecidableEq

namespace PoolError

def outOfMemory : String := "out of memory"

/-- The wording of a failure for which the caller is to blame. -/
def internalError : String := "internal error"

def message : PoolError → String
  | noSuchSlot raw capacity =>
    internalError ++ s!": handle {raw.toInt} out of range (capacity {capacity})"
  | vacant handle => internalError ++ s!": handle {handle.text} is not occupied"
  | unchangeable handle => s!"static string {handle.text} cannot be modified in place"
  | exhausted requested => outOfMemory ++ s!": string storage cannot grow by {requested}"
  | slotTaken handle => s!"static load would overwrite occupied handle {handle.text}"
  | format fault => fault.message

/-- Whether a program cannot go on after a failure. -/
def isFatal : PoolError → Bool
  | exhausted _ => true
  | _ => false

end PoolError

end TextPool
