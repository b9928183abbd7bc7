/-!
# Double-precision numbers

A double is taken from its 64 bits as what it stands for: not a number, an infinity, or a sign with
an exact fraction. The fraction is `significand · 2 ^ exponent` written with a denominator that is
one or a power of two, so no digit of the value is lost.
-/

namespace TextPool

/-- What the 64 bits of a double stand for. Zero keeps its sign. -/
inductive Binary64 where
  | nan
  | infinite (negative : Bool)
  /-- The fraction `numerator / denominator`, with its sign. -/
  | finite (negative : Bool) (numerator denominator : Nat)
  deriving DecidableEq

namespace Binary64

/-! ### The three fields of the bits -/

def isNegative (bits : UInt64) : Bool :=
  bits >>> 63 = 1

/-- The eleven bits of the biased exponent. -/
def exponentField (bits : UInt64) : Nat :=
  (bits >>> 52 &&& 0x7FF).toNat

/-- The 52 bits of the fraction. -/
def fractionField (bits : UInt64) : Nat :=
  (bits &&& 0xFFFFFFFFFFFFF).toNat

/-- Reads a double from its bits. The lowest exponent field belongs to numbers without the implied
leading bit, which share the exponent of the next one. -/
def ofBits (bits : UInt64) : Binary64 :=
  let negative := isNegative bits
  let exponent := exponentField bits
  let fraction := fractionField bits
  if exponent = 0x7FF then (if fraction = 0 then .infinite negative else .nan)
  else
    let significand := if exponent = 0 then fraction else 0x10000000000000 + fraction
    let scale := max exponent 1
    .finite negative (significand <<< (scale - 1075)) (1 <<< (1075 - scale))

end Binary64

end TextPool
