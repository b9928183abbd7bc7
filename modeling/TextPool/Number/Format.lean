import TextPool.Number.Binary64
import TextPool.Number.FixedPoint

/-!
# Texts of doubles

The two ways a double is written: briefly, with at most six decimal places and none that is an
idle zero, and in a chosen layout, with a count of places, a point and a separator of digit groups.
Both write the same three words for what is not a finite number.
-/

namespace TextPool

structure NumberFormat where
  /-- The count of decimal places asked for. A negative one asks for the usual count. -/
  decimals : Int
  point : UInt8
  /-- The byte between groups of three whole digits. None is written where it is zero. -/
  separator : Option UInt8

namespace NumberFormat

def usualPlaces : Nat := 6

/-- The greatest count of decimal places that is honoured. -/
def maximalPlaces : Nat := 340

def places (format : NumberFormat) : Nat :=
  if format.decimals < 0 then usualPlaces else min format.decimals.toNat maximalPlaces

def group (format : NumberFormat) (digits : Bytes) : Bytes :=
  match format.separator with
  | none => digits
  | some separator => if separator = 0 then digits else Decimal.inThrees separator digits

/-- The decimal places after their point. No point stands without one. -/
def fraction (format : NumberFormat) (digits : Bytes) : Bytes :=
  if digits.isEmpty then [] else format.point :: digits

end NumberFormat

namespace FixedPoint

/-- Lays a number out with the point and the groups of a format. -/
def layOut (number : FixedPoint) (format : NumberFormat) : Bytes :=
  number.sign ++ format.group number.wholeDigits ++ format.fraction number.fractionDigits

/-- The decimal places up to the last that is not zero. -/
def significantFraction (number : FixedPoint) : Bytes :=
  (number.fractionDigits.reverse.dropWhile (· == Decimal.digit 0)).reverse

/-- The number without idle zeros after the point, and without the point if nothing follows it. -/
def brief (number : FixedPoint) : Bytes :=
  let fraction := number.significantFraction
  number.sign ++ number.wholeDigits ++ (if fraction.isEmpty then [] else 0x2E :: fraction)

end FixedPoint

namespace Binary64

def nanText : Bytes := Ascii.bytes ['n', 'a', 'n']

def infiniteText (negative : Bool) : Bytes :=
  if negative then Ascii.bytes ['-', 'i', 'n', 'f'] else Ascii.bytes ['i', 'n', 'f']

/-- The double to six decimal places, without idle zeros. -/
def brief : Binary64 → Bytes
  | nan => nanText
  | infinite negative => infiniteText negative
  | finite negative numerator denominator =>
    (FixedPoint.ofFraction negative numerator denominator NumberFormat.usualPlaces).brief

def layOut (format : NumberFormat) : Binary64 → Bytes
  | nan => nanText
  | infinite negative => infiniteText negative
  | finite negative numerator denominator =>
    (FixedPoint.ofFraction negative numerator denominator format.places).layOut format

end Binary64

end TextPool
