import TextPool.Image.Crc32
import TextPool.Image.Header

/-!
# Table files

A table with the header it was read with or will be written with. Writing puts the offsets right
after the header and the blob right after the offsets; reading follows the header to wherever the
two parts stand. The checksum covers every byte after the header, whether the table uses it or not,
and is compared before the table is looked at.
-/

namespace TextPool

structure Image where
  header : Header
  table : StringTable
  deriving DecidableEq

namespace Image

/-- Where a table stands in the file that is written for it. -/
def sectionsOf (table : StringTable) : Sections where
  entries := UInt64.ofNat table.size
  offsetsStart := UInt64.ofNat Header.length
  blobStart := UInt64.ofNat (Header.length + 8 * table.size)
  blobLength := UInt64.ofNat table.blob.length

/-- The image that is written for a table. -/
def ofTable (table : StringTable) : Image where
  header := {
    magic := Header.tableMagic
    version := Header.currentVersion
    checksum := Crc32.finish (Crc32.feed (Crc32.feed Crc32.initial table.storedOffsets) table.blob)
    sections := sectionsOf table }
  table := table

/-- The bytes of the file: the header, the offsets and the blob. -/
def encode (image : Image) : Bytes :=
  image.header.encode ++ image.table.storedOffsets ++ image.table.blob

/-- Reads a file. The faults of the header come first, then those of the content as a whole, then
those of the table. -/
def parse (file : Bytes) : Except FormatError Image := do
  let header ← Header.decode file
  header.validate
  let actual := Crc32.checksum (file.drop Header.length)
  if actual ≠ header.checksum then
    throw (.wrongChecksum header.checksum actual)
  let table ← StringTable.ofSections file header.sections
  return ⟨header, table⟩

end Image

end TextPool
