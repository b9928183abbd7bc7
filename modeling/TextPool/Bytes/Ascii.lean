import TextPool.Bytes.Basic

/-!
# Byte classes

Case, blanks and hexadecimal digits of single bytes. Only ASCII letters have a case: every byte
from `0x80` on maps to itself and belongs to no class.
-/

namespace TextPool.Ascii

/-- The bytes of a word spelled with ASCII characters. -/
def bytes (word : List Char) : Bytes :=
  word.map fun char => char.toNat.toUInt8

def upper (byte : UInt8) : UInt8 :=
  if 0x61 ≤ byte ∧ byte ≤ 0x7A then byte - 0x20 else byte

def lower (byte : UInt8) : UInt8 :=
  if 0x41 ≤ byte ∧ byte ≤ 0x5A then byte + 0x20 else byte

/-- Space, tab, line feed and carriage return are the blanks. -/
def isBlank (byte : UInt8) : Bool :=
  byte = 0x20 ∨ byte = 0x09 ∨ byte = 0x0A ∨ byte = 0x0D

/-- The space, which pads a text to a width. -/
def space : UInt8 := 0x20

/-! ### Hexadecimal digits -/

/-- The value of a hexadecimal digit of either case. -/
def hexValue? (byte : UInt8) : Option UInt8 :=
  if 0x30 ≤ byte ∧ byte ≤ 0x39 then some (byte - 0x30)
  else if 0x61 ≤ byte ∧ byte ≤ 0x66 then some (byte - 0x61 + 10)
  else if 0x41 ≤ byte ∧ byte ≤ 0x46 then some (byte - 0x41 + 10)
  else none

/-- The hexadecimal digit, a capital if a letter, for the low four bits of `nibble`. -/
def hexDigit (nibble : UInt8) : UInt8 :=
  let value := nibble &&& 0x0F
  if value < 10 then 0x30 + value else 0x41 + (value - 10)

end TextPool.Ascii
