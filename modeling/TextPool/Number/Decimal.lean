import TextPool.Bytes.Ascii

/-!
# Decimal digits

Whole numbers written in base ten, either with as many digits as they need or padded with zeros to
a fixed count of digits, and digits set off in threes.
-/

namespace TextPool.Decimal

/-- The digit for a number below ten. -/
def digit (value : Nat) : UInt8 :=
  0x30 + UInt8.ofNat value

def minus : UInt8 := 0x2D

/-- A whole number, without leading zeros. -/
def natural (number : Nat) : Bytes :=
  Ascii.bytes (Nat.toDigits 10 number)

/-- An integer, with a sign if it is negative. -/
def integer (number : Int) : Bytes :=
  if number < 0 then minus :: natural number.natAbs else natural number.natAbs

/-- The `width` low digits of a whole number, leading zeros included. -/
def padded : Nat → Nat → Bytes
  | 0, _ => []
  | width + 1, number => padded width (number / 10) ++ [digit (number % 10)]

theorem length_padded (width number : Nat) : (padded width number).length = width := by
  induction width generalizing number with
  | zero => rfl
  | succ width ih => simp only [padded, List.length_append, ih, List.length_singleton]

/-- Puts `separator` wherever a multiple of three digits remains, but not in front. -/
def inThrees (separator : UInt8) : Bytes → Bytes
  | [] => []
  | first :: rest =>
    if rest.length % 3 = 0 ∧ rest ≠ [] then first :: separator :: inThrees separator rest
    else first :: inThrees separator rest

end TextPool.Decimal
