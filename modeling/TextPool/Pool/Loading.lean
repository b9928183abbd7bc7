import TextPool.Pool.Allocation
import TextPool.Table.Sections

/-!
# Loading tables

The entries of a table become static strings at consecutive handles from the cursor on. Afterwards
the boundary and the cursor stand at the next whole word above them, so that operations use no slot
of the word in which the loaded strings end.

Loading goes by steps: make room for the entries, see that their slots are vacant, fill them, make
room up to the new boundary, and move the boundary. A step that fails leaves what the steps before
it did.
-/

namespace TextPool.Pool

/-- The first occupied slot among `count` slots from `first` on. -/
def firstOccupied? (pool : Pool) (first count : Nat) : Option Nat :=
  (List.range' first count).find? pool.occupied.contains

/-- Puts static strings, as spans of one blob, into consecutive slots. -/
def placeSpans (blob : Nat) : Nat → List Span → Pool → Pool
  | _, [], pool => pool
  | index, span :: rest, pool =>
    placeSpans blob (index + 1) rest (pool.place index (.static blob span))

/-- Keeps the blob of a table and puts its entries into the slots from `first` on. -/
def placeTable (first : Nat) (table : StringTable) (pool : Pool) : Pool :=
  placeSpans pool.blobs.size first table.spans
    { pool with blobs := pool.blobs.push table.blob }

/-- Makes the entries of a table static strings, and answers their handles. -/
def load (table : StringTable) : Action HandleRange := do
  let first := (← get).cursor
  let stop := first + table.size
  makeRoom stop
  match (← get).firstOccupied? first table.size with
  | some index => throw (.slotTaken ⟨index⟩)
  | none =>
    modify (placeTable first table)
    makeRoom (Word.next stop)
    modify fun pool => { pool with boundary := Word.next stop, cursor := Word.next stop }
    return ⟨⟨first⟩, ⟨stop⟩⟩

/-- Loads the table that stands at the given sections of a file. A fault in it leaves the pool as
it was. -/
def loadSections (file : Bytes) (sections : Sections) : Action HandleRange :=
  match StringTable.ofSections file sections with
  | .ok table => load table
  | .error fault => throw (.format fault)

end TextPool.Pool
