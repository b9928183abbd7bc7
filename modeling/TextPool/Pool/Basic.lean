import TextPool.Bitset.Search
import TextPool.Pool.Config
import TextPool.Pool.Error
import TextPool.Table.Basic

/-!
# The pool of strings

A pool is a table of slots, each vacant or holding a string with a count of its owners. Dynamic
strings are made by operations and have bytes of their own. Static strings are loaded from tables
and are spans of blobs, which are kept as long as the pool.

Beside the slots stands a set of the occupied ones, in which a vacant slot is found fast. The
`boundary` separates the slots of loaded tables, below it, from those that operations may use, and
the `cursor` is the slot they try first.

Slot 0 holds the empty string in every pool.
-/

namespace TextPool

inductive Kind where
  | static
  | dynamic
  deriving DecidableEq

inductive StoredText where
  /-- As a span of the blob with the given number. -/
  | static (blob : Nat) (span : Span)
  | dynamic (bytes : Bytes)
  deriving DecidableEq

def StoredText.kind : StoredText → Kind
  | static _ _ => .static
  | dynamic _ => .dynamic

/-- A string in its slot, with the count of the owners recorded for it. -/
structure Entry where
  text : StoredText
  owners : UInt64
  deriving DecidableEq

/-- A string that nobody owns yet. -/
def Entry.ofText (text : StoredText) : Entry :=
  ⟨text, 0⟩

/-- A slot of the table: the text of the string in it, if there is one, and a count of owners. -/
structure Slot where
  text : Option StoredText
  owners : UInt64
  deriving DecidableEq

namespace Slot

def vacant : Slot :=
  ⟨none, 0⟩

def ofEntry (entry : Entry) : Slot :=
  ⟨some entry.text, entry.owners⟩

def occupant? (slot : Slot) : Option Entry :=
  slot.text.map (⟨·, slot.owners⟩)

@[simp] theorem occupant?_vacant : vacant.occupant? = none := rfl

@[simp] theorem occupant?_ofEntry (entry : Entry) : (ofEntry entry).occupant? = some entry := rfl

end Slot

/-- Slots of strings, and what is needed to give them out. -/
structure Pool where
  config : Config
  slots : Array Slot
  occupied : Bitset
  /-- The blobs of the loaded tables, after that of the empty string. -/
  blobs : Array Bytes
  boundary : Nat
  cursor : Nat
  deriving DecidableEq

namespace Pool

/-! ### Looking -/

def capacity (pool : Pool) : Nat :=
  pool.slots.size

def count (pool : Pool) : Nat :=
  pool.occupied.count

def contains (pool : Pool) (handle : Handle) : Bool :=
  pool.occupied.contains handle.index

/-- The handle that a signed word names, if it is below the capacity. -/
def handle (pool : Pool) (raw : Int64) : Except PoolError Handle :=
  match Handle.ofRaw? raw with
  | some handle =>
    if handle.index < pool.capacity then .ok handle else .error (.noSuchSlot raw pool.capacity)
  | none => .error (.noSuchSlot raw pool.capacity)

def entryAt? (pool : Pool) (index : Nat) : Option Entry :=
  pool.slots[index]?.bind Slot.occupant?

def entry (pool : Pool) (handle : Handle) : Except PoolError Entry :=
  match pool.entryAt? handle.index with
  | some entry => .ok entry
  | none =>
    if handle.index < pool.capacity then .error (.vacant handle)
    else .error (.noSuchSlot handle.toRaw pool.capacity)

def bytesOf (pool : Pool) : StoredText → Bytes
  | .static blob span => Bytes.between (pool.blobs.getD blob []) span.start span.stop
  | .dynamic bytes => bytes

def text (pool : Pool) (handle : Handle) : Except PoolError Bytes := do
  let entry ← pool.entry handle
  return pool.bytesOf entry.text

def owners (pool : Pool) (handle : Handle) : Except PoolError UInt64 := do
  let entry ← pool.entry handle
  return entry.owners

def kind (pool : Pool) (handle : Handle) : Except PoolError Kind := do
  let entry ← pool.entry handle
  return entry.text.kind

/-- Refuses a request for more memory than the machine has. -/
def reserve (pool : Pool) (count : Nat) : Except PoolError Unit :=
  if pool.config.grants count then .ok () else .error (.exhausted count)

/-! ### Changing single slots -/

/-- Puts a string into a slot, with no owners. -/
def place (pool : Pool) (index : Nat) (text : StoredText) : Pool :=
  { pool with
    slots := pool.slots.setIfInBounds index (.ofEntry (.ofText text))
    occupied := (pool.occupied.insert index).2 }

def update (pool : Pool) (index : Nat) (entry : Entry) : Pool :=
  { pool with slots := pool.slots.setIfInBounds index (.ofEntry entry) }

def vacate (pool : Pool) (index : Nat) : Pool :=
  { pool with
    slots := pool.slots.setIfInBounds index .vacant
    occupied := (pool.occupied.erase index).2 }

/-- The pool that holds nothing but the empty string. -/
def ofConfig (config : Config) : Pool :=
  let capacity := config.startingCapacity
  let vacant : Pool :=
    { config
      slots := Array.replicate capacity .vacant
      occupied := Bitset.ofSize capacity
      blobs := #[[]]
      boundary := 1
      cursor := 1 }
  vacant.place 0 (.static 0 ⟨0, 0⟩)

end Pool

end TextPool
