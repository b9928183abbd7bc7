import Mathlib.Algebra.Order.Field.Rat
import Mathlib.Algebra.Order.Field.Basic
import Mathlib.Algebra.Ring.Parity
import Mathlib.Tactic.Linarith
import Mathlib.Tactic.NormNum
import Mathlib.Tactic.Ring
import TextPool.Number.FixedPoint

/-!
# Rounding

A value is rounded to the whole number nearest to it, and to the even one where two are equally near
(`IsNearestEven`), and to decimal places by rounding the count of units of the last place
(`RoundsTo`). Both leave no choice, and both treat a value and its negative alike. The quotient that
is computed from a remainder is the nearest whole number in this sense
(`isNearestEven_roundHalfEven`).
-/

namespace TextPool

/-- No whole number is nearer to the value, and where another is as near, this one is even. -/
structure IsNearestEven (value : Rat) (whole : Int) : Prop where
  nearest : ∀ other : Int, |value - whole| ≤ |value - other|
  even : ∀ other : Int, other ≠ whole → |value - other| = |value - whole| → Even whole

def RoundsTo (places : Nat) (value rounded : Rat) : Prop :=
  ∃ units : Int, IsNearestEven (value * 10 ^ places) units ∧ rounded = units / 10 ^ places

namespace IsNearestEven

variable {value : Rat} {whole other : Int}

theorem neg (hwhole : IsNearestEven value whole) : IsNearestEven (-value) (-whole) := by
  have habs (other : Int) : |-value - other| = |value - (-other : Int)| := by
    rw [← abs_neg, Int.cast_neg]
    congr 1
    ring
  constructor
  · intro other
    rw [habs, habs, neg_neg]
    exact hwhole.nearest (-other)
  · intro other hother hequal
    rw [habs, habs, neg_neg] at hequal
    exact (hwhole.even (-other) (fun heq => hother (neg_eq_iff_eq_neg.mp heq)) hequal).neg

/-- Two whole numbers that are equally near to a value have it in their middle. If both are even,
their middle is a whole number too, and nearer. -/
theorem unique (hwhole : IsNearestEven value whole) (hother : IsNearestEven value other) :
    whole = other := by
  by_contra hne
  have hequal := le_antisymm (hwhole.nearest other) (hother.nearest whole)
  obtain ⟨half, rfl⟩ := hwhole.even other (Ne.symm hne) hequal.symm
  obtain ⟨otherHalf, rfl⟩ := hother.even (half + half) hne hequal
  have hmiddle : value = (half + otherHalf : Int) := by
    obtain hsame | hopposite := abs_eq_abs.mp hequal
    · have hcast : ((half + half : Int) : Rat) = (otherHalf + otherHalf : Int) := by linarith
      exact absurd (Int.cast_injective hcast) hne
    · push_cast at hopposite ⊢
      linarith
  have hzero := hwhole.nearest (half + otherHalf)
  rw [hmiddle, sub_self, abs_zero, abs_nonpos_iff, sub_eq_zero] at hzero
  have hhalves := Int.cast_injective hzero
  exact hne (by omega)

/-- What is within half a unit of the value, and even where it is half a unit away, is nearest. -/
theorem of_half (hhalf : |value - whole| ≤ 1 / 2) (heven : |value - whole| = 1 / 2 → Even whole) :
    IsNearestEven value whole := by
  have hfar {other : Int} (hother : other ≠ whole) : 1 / 2 ≤ |value - other| := by
    have hunit : (1 : Rat) ≤ |(whole : Rat) - other| := by
      have hpos := Int.one_le_abs (sub_ne_zero.mpr hother.symm)
      exact_mod_cast hpos
    have htriangle := abs_sub_le (whole : Rat) value other
    rw [abs_sub_comm (whole : Rat) value] at htriangle
    linarith
  constructor
  · intro other
    by_cases hother : other = whole
    · rw [hother]
    · exact hhalf.trans (hfar hother)
  · intro other hother hequal
    exact heven (le_antisymm hhalf (hequal ▸ hfar hother))

/-! A whole number and a part of one more -/

section Part

variable {part : Rat}

theorem of_lt_half (whole : Int) (hpos : 0 ≤ part) (hpart : part < 1 / 2) :
    IsNearestEven (whole + part) whole := by
  have hdistance : |(whole : Rat) + part - whole| = part := by
    rw [add_sub_cancel_left, abs_of_nonneg hpos]
  exact of_half (hdistance.trans_le hpart.le) fun hequal =>
    absurd (hdistance.symm.trans hequal) hpart.ne

theorem of_half_lt (whole : Int) (hpart : 1 / 2 < part) (hlt : part < 1) :
    IsNearestEven (whole + part) (whole + 1) := by
  have hdistance : |(whole : Rat) + part - (whole + 1 : Int)| = 1 - part := by
    rw [Int.cast_add, Int.cast_one, add_sub_add_left_eq_sub, abs_sub_comm,
      abs_of_pos (sub_pos.mpr hlt)]
  refine of_half ?_ fun hequal => ?_
  · rw [hdistance]
    linarith
  · rw [hdistance] at hequal
    linarith

theorem of_eq_half (whole : Int) : IsNearestEven (whole + 1 / 2) (whole + whole % 2) := by
  refine of_half (le_of_eq ?_) fun _ => ?_
  · obtain heven | hodd := Int.emod_two_eq_zero_or_one whole
    · rw [heven, add_zero, add_sub_cancel_left]
      norm_num
    · rw [hodd, Int.cast_add, Int.cast_one, add_sub_add_left_eq_sub]
      norm_num [abs_of_neg]
  · rw [Int.even_iff]
    omega

end Part

end IsNearestEven

/-! ### Rounding a fraction -/

theorem div_eq_quotient_add (numerator : Nat) {denominator : Nat} (hpos : 0 < denominator) :
    (numerator : Rat) / denominator
      = (numerator / denominator : Nat) + (numerator % denominator : Nat) / denominator := by
  have hne : (denominator : Rat) ≠ 0 := Nat.cast_ne_zero.mpr hpos.ne'
  rw [eq_comm, ← mul_div_cancel_left₀ ((numerator / denominator : Nat) : Rat) hne, ← add_div]
  congr 1
  exact_mod_cast Nat.div_add_mod numerator denominator

theorem isNearestEven_roundHalfEven (numerator : Nat) {denominator : Nat} (hpos : 0 < denominator) :
    IsNearestEven (numerator / denominator) (roundHalfEven numerator denominator) := by
  have hdenominator : (0 : Rat) < denominator := Nat.cast_pos.mpr hpos
  have hlt := Nat.mod_lt numerator hpos
  rw [div_eq_quotient_add numerator hpos, roundHalfEven]
  generalize numerator / denominator = quotient
  generalize numerator % denominator = rest at hlt ⊢
  split_ifs with hbelow habove
  · refine .of_lt_half quotient (by positivity) ?_
    rw [div_lt_div_iff₀ hdenominator two_pos]
    exact_mod_cast (by omega : rest * 2 < 1 * denominator)
  · refine .of_half_lt quotient ?_ ?_
    · rw [div_lt_div_iff₀ two_pos hdenominator]
      exact_mod_cast (by omega : 1 * denominator < rest * 2)
    · rw [div_lt_one hdenominator]
      exact_mod_cast hlt
  · have htie : (rest : Rat) / denominator = 1 / 2 := by
      rw [div_eq_div_iff hdenominator.ne' two_ne_zero]
      exact_mod_cast (by omega : rest * 2 = 1 * denominator)
    rw [htie]
    exact .of_eq_half quotient

/-! ### Rounding to decimal places -/

namespace RoundsTo

variable {places : Nat} {value rounded other : Rat}

theorem unique (hrounded : RoundsTo places value rounded) (hother : RoundsTo places value other) :
    rounded = other := by
  obtain ⟨units, hunits, rfl⟩ := hrounded
  obtain ⟨otherUnits, hother, rfl⟩ := hother
  rw [hunits.unique hother]

theorem neg (hrounded : RoundsTo places value rounded) : RoundsTo places (-value) (-rounded) := by
  obtain ⟨units, hunits, rfl⟩ := hrounded
  refine ⟨-units, ?_, ?_⟩
  · rw [neg_mul]
    exact hunits.neg
  · rw [Int.cast_neg, neg_div]

end RoundsTo

end TextPool
