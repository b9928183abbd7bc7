import TextPool.Bytes.Ascii

/-!
# Hexadecimal words

A 64-bit word is written as sixteen capital digits, most significant first. Reading takes the
digits at the front of a text, of either case and any number, keeps the low 64 bits, and takes
those as a signed number.
-/

namespace TextPool.Hexadecimal

/-- The count of digits of a 64-bit word. -/
def width : Nat := 16

/-- The `count` low digits of a word. -/
def digits : Nat → UInt64 → Bytes
  | 0, _ => []
  | count + 1, word => digits count (word >>> 4) ++ [Ascii.hexDigit (word &&& 0xF).toUInt8]

def ofWord (word : UInt64) : Bytes :=
  digits width word

theorem length_digits (count : Nat) (word : UInt64) : (digits count word).length = count := by
  induction count generalizing word with
  | zero => rfl
  | succ count ih => simp only [digits, List.length_append, ih, List.length_singleton]

/-- Reads digits up to the first byte that is none, after digits worth `word`. -/
def readFrom (word : UInt64) : Bytes → UInt64
  | [] => word
  | byte :: rest =>
    match Ascii.hexValue? byte with
    | some value => readFrom (word <<< 4 ||| value.toUInt64) rest
    | none => word

/-- The signed number that the digits at the front of a text spell, zero if there are none. -/
def read (text : Bytes) : Int64 :=
  (readFrom 0 text).toInt64

end TextPool.Hexadecimal
