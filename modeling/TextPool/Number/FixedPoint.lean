import TextPool.Number.Decimal

/-!
# Fixed-point numbers

A fraction rounded to a count of decimal places, and the digits of the result. Rounding is to the
nearest multiple of the last place, a tie going to the even one, and keeps the sign even where
nothing but the sign is left.
-/

namespace TextPool

/-- The whole number nearest to `numerator / denominator`, the even one of two that are equally
near. -/
def roundHalfEven (numerator denominator : Nat) : Nat :=
  let quotient := numerator / denominator
  let twice := 2 * (numerator % denominator)
  if twice < denominator then quotient
  else if denominator < twice then quotient + 1
  else quotient + quotient % 2

/-- A signed count of units of the last decimal place. -/
structure FixedPoint where
  negative : Bool
  /-- The magnitude, in units of the last place. -/
  units : Nat
  places : Nat
  deriving DecidableEq

namespace FixedPoint

/-- A fraction rounded to `places` decimal places. -/
def ofFraction (negative : Bool) (numerator denominator places : Nat) : FixedPoint :=
  ⟨negative, roundHalfEven (numerator * Nat.pow 10 places) denominator, places⟩

/-- The digits before the point. -/
def wholeDigits (number : FixedPoint) : Bytes :=
  Decimal.natural (number.units / Nat.pow 10 number.places)

/-- The digits after the point, one for each place. -/
def fractionDigits (number : FixedPoint) : Bytes :=
  Decimal.padded number.places number.units

/-- The sign, where there is one. -/
def sign (number : FixedPoint) : Bytes :=
  if number.negative then [Decimal.minus] else []

theorem length_fractionDigits (number : FixedPoint) :
    number.fractionDigits.length = number.places :=
  Decimal.length_padded number.places number.units

end FixedPoint

end TextPool
