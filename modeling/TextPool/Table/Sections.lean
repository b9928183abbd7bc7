import TextPool.Table.Basic
import TextPool.Word

/-!
# Tables inside larger files

A file says in four numbers where its table stands: where the offsets start, where the blob starts,
how many entries there are and how long the blob is. The two parts may stand anywhere in the file
and may overlap. Sums of these numbers are taken without wrapping, so a part that would pass the
end of the file is always found out.
-/

namespace TextPool

/-- Where a table stands in a file. -/
structure Sections where
  entries : UInt64
  offsetsStart : UInt64
  blobStart : UInt64
  blobLength : UInt64
  deriving DecidableEq

namespace StringTable

/-- The bytes of a part of a file, or the fault that the file is too short for it. -/
def partAt (file : Bytes) (position length : Nat) : Except FormatError Bytes :=
  match file.stretch? position length with
  | some part => .ok part
  | none => .error (.tooShort position length file.length)

/-- The numbers stored in `count` groups of eight bytes. -/
def readOffsets : Nat → Bytes → List Nat
  | 0, _ => []
  | count + 1, bytes => LittleEndian.decode (bytes.take 8) :: readOffsets count (bytes.drop 8)

/-- Reads the table that stands at the given sections of a file. -/
def ofSections (file : Bytes) (sections : Sections) : Except FormatError StringTable := do
  let length := 8 * sections.entries.toNat
  if Word.limit ≤ length then
    throw (.tooShort sections.offsetsStart.toNat (Word.limit - 1) file.length)
  let stored ← partAt file sections.offsetsStart.toNat length
  let blob ← partAt file sections.blobStart.toNat sections.blobLength.toNat
  ofOffsets (readOffsets sections.entries.toNat stored) blob

end StringTable

end TextPool
