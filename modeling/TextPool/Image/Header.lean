import TextPool.Table.Sections

/-!
# The header of a table file

A table file starts with 64 bytes. Numbers are little-endian.

* bytes 0 to 3: the magic number, the letters `VSTB`
* bytes 4 to 7: the version of the format
* bytes 8 to 11: the checksum of everything after the header
* bytes 16 to 47: where the table stands, as count, start of the offsets, start of the blob and
  length of the blob, eight bytes each

Bytes 12 to 15 and 48 to 63 are reserved: written as zeros, and not looked at when read.
-/

namespace TextPool

/-- The facts that the first bytes of a table file record. -/
structure Header where
  magic : UInt32
  version : UInt32
  checksum : UInt32
  sections : Sections
  deriving DecidableEq

namespace Header

def length : Nat := 64

def tableMagic : UInt32 := 0x42545356

/-- The only version there is. -/
def currentVersion : UInt32 := 1

/-- The four bytes that a file with this header starts with. -/
def magicBytes (header : Header) : Bytes :=
  LittleEndian.encode 4 header.magic.toNat

/-- The number stored in `width` bytes at `position`. -/
def numberAt (bytes : Bytes) (position width : Nat) : Nat :=
  LittleEndian.decode ((bytes.drop position).take width)

def decode (file : Bytes) : Except FormatError Header :=
  if file.length < length then .error (.tooShort 0 length file.length)
  else .ok {
    magic := UInt32.ofNat (numberAt file 0 4)
    version := UInt32.ofNat (numberAt file 4 4)
    checksum := UInt32.ofNat (numberAt file 8 4)
    sections := {
      entries := UInt64.ofNat (numberAt file 16 8)
      offsetsStart := UInt64.ofNat (numberAt file 24 8)
      blobStart := UInt64.ofNat (numberAt file 32 8)
      blobLength := UInt64.ofNat (numberAt file 40 8) } }

def encode (header : Header) : Bytes :=
  header.magicBytes
    ++ LittleEndian.encode 4 header.version.toNat
    ++ LittleEndian.encode 4 header.checksum.toNat
    ++ LittleEndian.encode 4 0
    ++ LittleEndian.encode 8 header.sections.entries.toNat
    ++ LittleEndian.encode 8 header.sections.offsetsStart.toNat
    ++ LittleEndian.encode 8 header.sections.blobStart.toNat
    ++ LittleEndian.encode 8 header.sections.blobLength.toNat
    ++ LittleEndian.encode 16 0

/-- Refuses a header of another kind of file, or of another version. -/
def validate (header : Header) : Except FormatError Unit :=
  if header.magic ≠ tableMagic then .error (.foreignMagic header.magicBytes)
  else if header.version ≠ currentVersion then .error (.unknownVersion header.version)
  else .ok ()

theorem length_encode (header : Header) : header.encode.length = length := by
  simp only [encode, magicBytes, List.length_append, LittleEndian.length_encode, length]

end Header

end TextPool
