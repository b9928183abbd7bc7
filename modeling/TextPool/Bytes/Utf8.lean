import TextPool.Bytes.Basic

/-!
# Readable text

Characters become bytes by UTF-8, and bytes are shown as characters even where they are not
well-formed UTF-8: each longest stretch that could still have begun a character, and each byte that
could not, is shown as one replacement character.

Reading is a machine that takes one byte at a time. Between bytes it holds at most one character
begun (`Pending`): how many bytes that character still lacks, the number collected so far, and the
bounds on the next byte. The bounds are narrower than `80 … BF` only after the lead bytes `E0`,
`ED`, `F0` and `F4`, which is what excludes overlong forms, surrogates and numbers past `10FFFF`.
-/

namespace TextPool.Utf8

def encode (text : List Char) : Bytes :=
  text.flatMap String.utf8EncodeChar

/-- The character shown in place of bytes that are no character. -/
def replacement : Char := '\uFFFD'

/-! ### One byte at a time -/

/-- A character whose first bytes have been read. -/
structure Pending where
  /-- How many bytes follow, at least one. -/
  missing : Nat
  /-- The number that the bytes read so far contribute. -/
  value : Nat
  low : UInt8
  high : UInt8

/-- The characters that a byte completes, and the character it leaves begun. -/
abbrev Step := List Char × Option Pending

/-- Reads a byte that stands first in its character. -/
def lead (byte : UInt8) : Step :=
  if byte < 0x80 then ([Char.ofNat byte.toNat], none)
  else if byte < 0xC2 then ([replacement], none)
  else if byte < 0xE0 then ([], some ⟨1, byte.toNat - 0xC0, 0x80, 0xBF⟩)
  else if byte < 0xF0 then
    let low : UInt8 := if byte = 0xE0 then 0xA0 else 0x80
    let high : UInt8 := if byte = 0xED then 0x9F else 0xBF
    ([], some ⟨2, byte.toNat - 0xE0, low, high⟩)
  else if byte < 0xF5 then
    let low : UInt8 := if byte = 0xF0 then 0x90 else 0x80
    let high : UInt8 := if byte = 0xF4 then 0x8F else 0xBF
    ([], some ⟨3, byte.toNat - 0xF0, low, high⟩)
  else ([replacement], none)

/-- Reads a byte that the character begun can take. -/
def Pending.extend (pending : Pending) (byte : UInt8) : Step :=
  let value := pending.value * 64 + (byte.toNat - 0x80)
  if pending.missing ≤ 1 then ([Char.ofNat value], none)
  else ([], some ⟨pending.missing - 1, value, 0x80, 0xBF⟩)

/-- Reads one byte. A byte that the character begun cannot take ends that character, shown as a
replacement, and is read as the first of its own. -/
def step : Option Pending → UInt8 → Step
  | none, byte => lead byte
  | some pending, byte =>
    if pending.low ≤ byte ∧ byte ≤ pending.high then pending.extend byte
    else (replacement :: (lead byte).1, (lead byte).2)

/-- Reads the rest of a text with a character possibly begun. -/
def decodeFrom : Option Pending → Bytes → List Char
  | none, [] => []
  | some _, [] => [replacement]
  | state, byte :: rest => (step state byte).1 ++ decodeFrom (step state byte).2 rest

def decode (bytes : Bytes) : List Char :=
  decodeFrom none bytes

def display (bytes : Bytes) : String :=
  String.ofList (decode bytes)

end TextPool.Utf8
