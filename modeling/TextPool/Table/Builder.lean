import TextPool.Table.Basic

/-!
# Building a table

Strings are put into a table one after another. Each gets an entry of its own, and entries of equal
text share one stretch of the blob: the blob holds the distinct texts in the order in which they
first came, each with its zero byte.
-/

namespace TextPool

/-- A table under construction. -/
structure TableBuilder where
  spans : Array Span := #[]
  blob : Array UInt8 := #[]
  /-- The texts in the blob and where they stand, the latest first. -/
  known : List (Bytes × Span) := []

namespace TableBuilder

def size (builder : TableBuilder) : Nat :=
  builder.spans.size

/-- Adds an entry for a text that is already in the blob, or puts it there. -/
def addText (builder : TableBuilder) (text : Bytes) : TableBuilder :=
  match builder.known.lookup text with
  | some span => { builder with spans := builder.spans.push span }
  | none =>
    let start := builder.blob.size
    let span : Span := ⟨start, start + text.length⟩
    { spans := builder.spans.push span
      blob := (builder.blob ++ text).push 0
      known := (text, span) :: builder.known }

/-- Adds a string, cut at its first zero byte. -/
def push (builder : TableBuilder) (string : Bytes) : TableBuilder :=
  builder.addText string.upToZero

/-- Adds a string and answers the number of its entry, the last of those there are then. -/
def add (builder : TableBuilder) (string : Bytes) : Nat × TableBuilder :=
  let longer := builder.push string
  (longer.size - 1, longer)

def finish (builder : TableBuilder) : StringTable :=
  ⟨builder.spans.toList, builder.blob.toList⟩

def ofStrings (strings : List Bytes) : TableBuilder :=
  strings.foldl push {}

end TableBuilder

def StringTable.ofStrings (strings : List Bytes) : StringTable :=
  (TableBuilder.ofStrings strings).finish

end TextPool
