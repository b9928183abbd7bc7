import Mathlib.Algebra.Order.Field.Power
import TextPool.Number.Format
import TextPool.Proofs.Number.Numeral
import TextPool.Proofs.Number.Rounding

/-!
# Doubles in digits

The 64 bits of a double that is finite stand for one rational number (`Binary64.magnitude`, with the
sign in `Binary64.value`), and a rational number has one rendering in digits to a count of decimal
places (`Decimal.Renders`): the digits before the point are a numeral, those after it are as many as
there are places, and together they spell the number rounded. What a double is read as is the
fraction that it stands for (`exists_ofBits`), and the digits of a fraction are its rendering
(`renders_ofFraction`), so those of a double are the rendering of its magnitude
(`exists_ofBits_of_renders`).
-/

namespace TextPool

namespace Binary64

/-! ### What the bits stand for -/

/-- The double is neither an infinity nor no number: not all bits of the exponent are set. -/
def IsFinite (bits : UInt64) : Prop :=
  bits.toNat / 2 ^ 52 % 2 ^ 11 ≠ 2047

instance (bits : UInt64) : Decidable (IsFinite bits) :=
  inferInstanceAs (Decidable (_ ≠ _))

def IsSigned (bits : UInt64) : Prop :=
  2 ^ 63 ≤ bits.toNat

instance (bits : UInt64) : Decidable (IsSigned bits) :=
  inferInstanceAs (Decidable (_ ≤ _))

/-- The exact number that the bits below the sign stand for. The lowest exponent is that of the
numbers without a leading one. -/
def magnitude (bits : UInt64) : Rat :=
  let exponent : Nat := bits.toNat / 2 ^ 52 % 2 ^ 11
  let fraction : Nat := bits.toNat % 2 ^ 52
  if exponent = 0 then 2 ^ (-1022 : Int) * (fraction / 2 ^ 52)
  else 2 ^ ((exponent : Int) - 1023) * (1 + fraction / 2 ^ 52)

def withSign (bits : UInt64) (number : Rat) : Rat :=
  if IsSigned bits then -number else number

/-- The exact number that a finite double stands for. -/
def value (bits : UInt64) : Rat :=
  withSign bits (magnitude bits)

theorem roundsTo_withSign (bits : UInt64) {places : Nat} {number rounded : Rat}
    (hrounds : RoundsTo places number rounded) :
    RoundsTo places (withSign bits number) (withSign bits rounded) := by
  rw [withSign, withSign]
  split
  · exact hrounds.neg
  · exact hrounds

theorem withSign_inj {bits other : UInt64} (hsign : IsSigned bits ↔ IsSigned other) {left right : Rat} :
    withSign bits left = withSign other right ↔ left = right := by
  simp only [withSign, hsign]
  split
  · exact neg_inj
  · exact Iff.rfl

theorem isNegative_eq (bits : UInt64) : isNegative bits = decide (IsSigned bits) := by
  have hlt := bits.toNat_lt
  have hshift : (bits >>> 63).toNat = bits.toNat / 2 ^ 63 := by
    rw [UInt64.toNat_shiftRight, Nat.shiftRight_eq_div_pow]
    rfl
  rw [isNegative, decide_eq_decide, ← UInt64.toNat_inj, hshift, IsSigned]
  change bits.toNat / 2 ^ 63 = 1 ↔ _
  omega

theorem exponentField_eq (bits : UInt64) : exponentField bits = bits.toNat / 2 ^ 52 % 2 ^ 11 := by
  rw [exponentField, UInt64.toNat_and, UInt64.toNat_shiftRight, Nat.shiftRight_eq_div_pow]
  exact Nat.and_two_pow_sub_one_eq_mod _ 11

theorem fractionField_eq (bits : UInt64) : fractionField bits = bits.toNat % 2 ^ 52 := by
  rw [fractionField, UInt64.toNat_and]
  exact Nat.and_two_pow_sub_one_eq_mod _ 52

/-- Shifts of a numerator and of a denominator, of which one does nothing, scale by a power of
two. -/
theorem shifts_eq (significand scale bias : Nat) :
    ((significand <<< (scale - bias) : Nat) : Rat) / (1 <<< (bias - scale) : Nat)
      = significand * 2 ^ ((scale : Int) - bias) := by
  rw [Nat.shiftLeft_eq, Nat.shiftLeft_eq, Nat.one_mul]
  push_cast
  obtain hle | hle := Nat.le_total scale bias
  · rw [Nat.sub_eq_zero_of_le hle, pow_zero, mul_one, div_eq_mul_inv, ← neg_sub, ← Int.ofNat_sub hle,
      zpow_neg, zpow_natCast]
  · rw [Nat.sub_eq_zero_of_le hle, pow_zero, div_one, ← Int.ofNat_sub hle, zpow_natCast]

theorem exists_ofBits {bits : UInt64} (hfinite : IsFinite bits) :
    ∃ numerator denominator : Nat, 0 < denominator ∧ (numerator : Rat) / denominator = magnitude bits ∧
      ofBits bits = .finite (decide (IsSigned bits)) numerator denominator := by
  rw [IsFinite] at hfinite
  simp only [ofBits, isNegative_eq, exponentField_eq, fractionField_eq, magnitude]
  generalize bits.toNat / 2 ^ 52 % 2 ^ 11 = exponent at hfinite ⊢
  generalize bits.toNat % 2 ^ 52 = fraction
  rw [if_neg hfinite]
  refine ⟨_, _, ?_, ?_, rfl⟩
  · rw [Nat.shiftLeft_eq, Nat.one_mul]
    exact Nat.two_pow_pos _
  have hsplit (scale : Nat) : (scale : Int) - (1075 : Nat) = ((scale : Int) - 1023) + (-52) := by
    push_cast
    ring
  have hplaces : (2 : Rat) ^ (-52 : Int) = 1 / 2 ^ 52 := by
    rw [zpow_neg, one_div]
    rfl
  rw [shifts_eq, hsplit, zpow_add₀ two_ne_zero, hplaces]
  by_cases hexponent : exponent = 0
  · have hscale : ((max exponent 1 : Nat) : Int) - 1023 = -1022 := by
      rw [hexponent]
      rfl
    rw [if_pos hexponent, if_pos hexponent, hscale]
    generalize (2 : Rat) ^ (-1022 : Int) = scale
    ring
  · have hscale : max exponent 1 = exponent := Nat.max_eq_left (Nat.one_le_iff_ne_zero.mpr hexponent)
    rw [if_neg hexponent, if_neg hexponent, hscale]
    generalize (2 : Rat) ^ ((exponent : Int) - 1023) = scale
    push_cast
    ring

end Binary64

namespace Decimal

/-! ### Digits around a point -/

def fractional (whole fraction : Bytes) : Rat :=
  number (whole ++ fraction) / 10 ^ fraction.length

/-- The digits before and after the point are those of the value, rounded to a count of places. -/
structure Renders (value : Rat) (places : Nat) (whole fraction : Bytes) : Prop where
  isNumeral : IsNumeral whole
  isDigit : ∀ digit ∈ fraction, IsDigit digit
  length_fraction : fraction.length = places
  rounds : RoundsTo places value (fractional whole fraction)

namespace Renders

variable {value : Rat} {places : Nat} {whole fraction : Bytes}
  (hrenders : Renders value places whole fraction)

include hrenders

theorem number_whole : number whole = number (whole ++ fraction) / 10 ^ places := by
  have hlt := number_lt hrenders.isDigit
  rw [hrenders.length_fraction] at hlt
  rw [number_append, hrenders.length_fraction, Nat.mul_comm,
    Nat.mul_add_div (Nat.pow_pos (by decide)), Nat.div_eq_of_lt hlt, Nat.add_zero]

theorem number_fraction : number fraction = number (whole ++ fraction) % 10 ^ places := by
  have hlt := number_lt hrenders.isDigit
  rw [hrenders.length_fraction] at hlt
  rw [number_append, hrenders.length_fraction, Nat.mul_add_mod', Nat.mod_eq_of_lt hlt]

theorem eq_of_fractional_eq {other : Rat} {otherWhole otherFraction : Bytes}
    (hother : Renders other places otherWhole otherFraction)
    (hequal : fractional whole fraction = fractional otherWhole otherFraction) :
    whole = otherWhole ∧ fraction = otherFraction := by
  rw [fractional, fractional, hrenders.length_fraction, hother.length_fraction,
    div_left_inj' (by positivity), Nat.cast_inj] at hequal
  constructor
  · rw [← hrenders.isNumeral.natural_number, ← hother.isNumeral.natural_number,
      hrenders.number_whole, hother.number_whole, hequal]
  · rw [← padded_number hrenders.isDigit, ← padded_number hother.isDigit, hrenders.number_fraction,
      hother.number_fraction, hequal, hrenders.length_fraction, hother.length_fraction]

theorem places_eq_zero_iff : places = 0 ↔ fraction = [] := by
  rw [← hrenders.length_fraction, List.length_eq_zero_iff]

/-- A value has one rendering. -/
theorem unique {otherWhole otherFraction : Bytes}
    (hother : Renders value places otherWhole otherFraction) :
    whole = otherWhole ∧ fraction = otherFraction :=
  hrenders.eq_of_fractional_eq hother (hrenders.rounds.unique hother.rounds)

end Renders

end Decimal

namespace FixedPoint

open Decimal

theorem number_digits (number : FixedPoint) :
    Decimal.number (number.wholeDigits ++ number.fractionDigits) = number.units := by
  rw [number_append, length_fractionDigits, wholeDigits, fractionDigits, number_natural, number_padded]
  exact Nat.div_add_mod' _ _

theorem renders_ofFraction (negative : Bool) (numerator places : Nat) {denominator : Nat}
    (hpos : 0 < denominator) :
    Renders (numerator / denominator) places
      (ofFraction negative numerator denominator places).wholeDigits
      (ofFraction negative numerator denominator places).fractionDigits := by
  refine ⟨isNumeral_natural _, fun _ => isDigit_of_mem_padded, length_fractionDigits _,
    roundHalfEven (numerator * Nat.pow 10 places) denominator, ?_, ?_⟩
  · have hnearest := isNearestEven_roundHalfEven (numerator * Nat.pow 10 places) hpos
    rw [div_mul_eq_mul_div]
    exact_mod_cast hnearest
  · rw [fractional, number_digits, length_fractionDigits]
    rfl

end FixedPoint

namespace Binary64

theorem exists_renders {bits : UInt64} (hfinite : IsFinite bits) (places : Nat) :
    ∃ whole fraction, Decimal.Renders (magnitude bits) places whole fraction := by
  obtain ⟨numerator, denominator, hpos, hmagnitude, _⟩ := exists_ofBits hfinite
  rw [← hmagnitude]
  exact ⟨_, _, FixedPoint.renders_ofFraction false numerator places hpos⟩

/-- The digits of what a double is read as are those of its rendering. -/
theorem exists_ofBits_of_renders {bits : UInt64} (hfinite : IsFinite bits) {places : Nat}
    {whole fraction : Bytes} (hrenders : Decimal.Renders (magnitude bits) places whole fraction) :
    ∃ numerator denominator, ofBits bits = .finite (decide (IsSigned bits)) numerator denominator ∧
      ∀ negative, (FixedPoint.ofFraction negative numerator denominator places).wholeDigits = whole ∧
        (FixedPoint.ofFraction negative numerator denominator places).fractionDigits = fraction := by
  obtain ⟨numerator, denominator, hpos, hmagnitude, hread⟩ := exists_ofBits hfinite
  refine ⟨numerator, denominator, hread, fun negative => ?_⟩
  have hdigits := FixedPoint.renders_ofFraction negative numerator places hpos
  rw [hmagnitude] at hdigits
  exact hdigits.unique hrenders

end Binary64

end TextPool
