import TextPool.Number.Format
import TextPool.Number.Hexadecimal
import TextPool.Pool.Allocation

/-!
# Numbers as texts

Operations that make the text of a number, and the one that reads a number from a text.
-/

namespace TextPool.Pool

def ofInteger (number : Int) : Action Handle :=
  allocate (Decimal.integer number)

/-- Makes the text of a word in sixteen hexadecimal digits. -/
def ofWord (word : UInt64) : Action Handle :=
  allocate (Hexadecimal.ofWord word)

def ofDouble (number : Binary64) : Action Handle :=
  allocate number.brief

/-- Makes the text of a double in a chosen layout. A point or separator that is zero ends it. -/
def ofFormatted (number : Binary64) (format : NumberFormat) : Action Handle :=
  store (number.layOut format)

/-- The signed number that the hexadecimal digits at the front of a text spell. -/
def readHexadecimal (pool : Pool) (handle : Handle) : Except PoolError Int64 :=
  return Hexadecimal.read (← pool.text handle)

end TextPool.Pool
