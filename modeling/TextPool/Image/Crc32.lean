import TextPool.Bytes.Basic

/-!
# The cyclic redundancy check

The 32-bit check of a sequence of bytes that is common in archives: reflected, with the polynomial
`EDB88320`, started from all ones and complemented at the end. A check can be fed piece by piece
(`feed_append`), so the parts of a file need not be joined first.
-/

namespace TextPool.Crc32

/-- The polynomial, its lowest power in the highest bit. -/
def polynomial : UInt32 := 0xEDB88320

/-- The remainder before any byte. -/
def initial : UInt32 := 0xFFFFFFFF

/-- Divides one bit out of the remainder. -/
def shift (remainder : UInt32) : UInt32 :=
  if remainder &&& 1 = 1 then (remainder >>> 1) ^^^ polynomial else remainder >>> 1

/-- Divides `count` bits out of the remainder. -/
def shifts : Nat → UInt32 → UInt32
  | 0, remainder => remainder
  | count + 1, remainder => shifts count (shift remainder)

def step (remainder : UInt32) (byte : UInt8) : UInt32 :=
  shifts 8 (remainder ^^^ byte.toUInt32)

def feed (remainder : UInt32) (bytes : Bytes) : UInt32 :=
  bytes.foldl step remainder

def finish (remainder : UInt32) : UInt32 :=
  ~~~ remainder

/-- The check of a sequence of bytes. -/
def checksum (bytes : Bytes) : UInt32 :=
  finish (feed initial bytes)

theorem feed_append (remainder : UInt32) (first second : Bytes) :
    feed remainder (first ++ second) = feed (feed remainder first) second :=
  List.foldl_append

end TextPool.Crc32
