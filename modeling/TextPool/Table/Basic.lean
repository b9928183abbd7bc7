import TextPool.Bytes.LittleEndian
import TextPool.Table.Error

/-!
# String tables

A table is a blob of texts, each followed by a zero byte, and a list of offsets into it. Offsets
may be out of order, repeated, or point into the middle of another text, and parts of the blob may
belong to no entry.

A table keeps, for each entry, the span of its text. `ofOffsets` finds those spans, or the first
entry that has none, and so says which tables are well formed (`StringTable.WellFormed`).
-/

namespace TextPool

/-- The positions from `start` up to, and not including, `stop`. -/
structure Span where
  start : Nat
  stop : Nat
  deriving DecidableEq

/-- A blob and the spans of the texts in it. The zero byte after a text is not in its span. -/
structure StringTable where
  spans : List Span
  blob : Bytes
  deriving DecidableEq

namespace StringTable

def size (table : StringTable) : Nat :=
  table.spans.length

/-- Where each entry starts in the blob. -/
def offsets (table : StringTable) : List Nat :=
  table.spans.map Span.start

def texts (table : StringTable) : List Bytes :=
  table.spans.map fun span => table.blob.between span.start span.stop

def span? (table : StringTable) (index : Nat) : Option Span :=
  table.spans[index]?

def get? (table : StringTable) (index : Nat) : Option Bytes :=
  (table.span? index).map fun span => table.blob.between span.start span.stop

/-- The offsets as they are stored, eight bytes each. -/
def storedOffsets (table : StringTable) : Bytes :=
  table.offsets.flatMap (LittleEndian.encode 8)

/-! ### Reading -/

/-- The span of the text that starts at `offset`, which is entry `index`. -/
def spanAt (blob : Bytes) (index offset : Nat) : Except FormatError Span :=
  if offset < blob.length then
    match Bytes.zeroIndex? (blob.drop offset) with
    | some length => .ok ⟨offset, offset + length⟩
    | none => .error (.unterminated index offset)
  else .error (.offsetOutside index offset blob.length)

/-- The spans of the texts at the given offsets, the first of which is entry `index`. -/
def spansFrom (blob : Bytes) : Nat → List Nat → Except FormatError (List Span)
  | _, [] => .ok []
  | index, offset :: rest => do
    let span ← spanAt blob index offset
    let spans ← spansFrom blob (index + 1) rest
    return span :: spans

/-- The table of the texts at the given offsets. -/
def ofOffsets (offsets : List Nat) (blob : Bytes) : Except FormatError StringTable := do
  let spans ← spansFrom blob 0 offsets
  return ⟨spans, blob⟩

/-- Every span runs from an offset inside the blob to the first zero byte there. -/
def WellFormed (table : StringTable) : Prop :=
  ofOffsets table.offsets table.blob = .ok table

end StringTable

end TextPool
