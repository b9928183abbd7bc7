import TextPool.Word

/-!
# Settings of a pool

How large a pool starts, how it grows and where it stops. Sizes are counts of slots and take effect
in whole words.
-/

namespace TextPool

structure Config where
  initial : Nat := 1024
  block : Nat := 1024
  /-- The count of slots that growth may not pass. -/
  maximum : Option Nat := none
  /-- The count of slots or bytes from which on the machine refuses a request for memory. -/
  memory : Nat := 0x1000000000000
  deriving DecidableEq

namespace Config

/-- The capacity of a new pool: at least one word, for the empty string, and otherwise within the
maximum. -/
def startingCapacity (config : Config) : Nat :=
  let wanted := (Word.ceil? (max config.initial 1)).getD (Word.floor (Word.limit - 1))
  match config.maximum with
  | none => wanted
  | some maximum => min wanted (max (Word.floor maximum) Word.width)

/-- Whether the machine has memory for `count` slots or bytes more. -/
def grants (config : Config) (count : Nat) : Bool :=
  count < config.memory

/-- Whether growth may reach a capacity. -/
def admits (config : Config) (capacity : Nat) : Bool :=
  match config.maximum with
  | none => true
  | some maximum => capacity ≤ maximum

end Config

end TextPool
