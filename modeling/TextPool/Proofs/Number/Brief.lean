import Mathlib.Data.List.DropRight
import TextPool.Proofs.Number.Layout

/-!
# Brief texts of doubles

The brief text of a double is its rendering to six places without the idle zeros at the end of it
(`brief_of_renders`), so it is the common layout without these zeros and without a point that
nothing follows (`withoutIdle_append`). It spells the double rounded to six places, and it tells the
sign and the rounded number of a double and nothing else (`brief_canonical`).
-/

namespace TextPool

namespace Decimal

/-! ### Idle zeros -/

def behindPoint (fraction : Bytes) : Bytes :=
  if fraction = [] then [] else 0x2E :: fraction

/-- The text without the zeros at its end, and then without a point at its end. -/
def withoutIdle (text : Bytes) : Bytes :=
  let kept := text.rdropWhile (· == digit 0)
  if kept.getLast? = some 0x2E then kept.dropLast else kept

theorem exists_replicate_zero (digits : Bytes) :
    ∃ kept idle, digits = kept ++ List.replicate idle (digit 0) ∧ kept.getLast? ≠ some (digit 0) := by
  induction digits using List.reverseRecOn with
  | nil => exact ⟨[], 0, rfl, nofun⟩
  | append_singleton before last ih =>
    by_cases hlast : last = digit 0
    · obtain ⟨kept, idle, hdigits, hkept⟩ := ih
      refine ⟨kept, idle + 1, ?_, hkept⟩
      rw [hlast, hdigits, List.append_assoc, List.replicate_succ']
    · refine ⟨before ++ [last], 0, (List.append_nil _).symm, ?_⟩
      rw [List.getLast?_concat, ne_eq, Option.some.injEq]
      exact hlast

theorem rdropWhile_append_replicate {kept : Bytes} (hkept : kept.getLast? ≠ some (digit 0))
    (idle : Nat) : (kept ++ List.replicate idle (digit 0)).rdropWhile (· == digit 0) = kept := by
  induction idle with
  | zero =>
    rw [List.replicate_zero, List.append_nil, List.rdropWhile_eq_self_iff]
    intro hnonempty hzero
    rw [List.getLast?_eq_some_getLast hnonempty, beq_iff_eq.mp hzero] at hkept
    exact hkept rfl
  | succ idle ih =>
    rw [List.replicate_succ', ← List.append_assoc, List.rdropWhile_concat_pos _ _ _ (by rfl), ih]

/-- Of a text with a point, the idle zeros and perhaps the point go, and nothing before it. -/
theorem withoutIdle_append (front : Bytes) {kept : Bytes} (hdigits : ∀ digit ∈ kept, IsDigit digit)
    (hkept : kept.getLast? ≠ some (digit 0)) (idle : Nat) :
    withoutIdle (front ++ 0x2E :: (kept ++ List.replicate idle (digit 0)))
      = front ++ behindPoint kept := by
  have hassoc : front ++ 0x2E :: (kept ++ List.replicate idle (digit 0))
      = (front ++ 0x2E :: kept) ++ List.replicate idle (digit 0) := by
    rw [List.append_assoc, List.cons_append]
  rw [hassoc, withoutIdle, behindPoint]
  by_cases hempty : kept = []
  · subst hempty
    rw [rdropWhile_append_replicate (by rw [List.getLast?_concat]; decide), List.getLast?_concat,
      if_pos rfl, if_pos rfl, List.dropLast_concat, List.append_nil]
  · have hlast : (front ++ 0x2E :: kept).getLast? = kept.getLast? := by
      rw [List.getLast?_append_of_ne_nil _ (List.cons_ne_nil _ _)]
      exact List.getLast?_cons_of_ne_nil hempty
    have hpoint : kept.getLast? ≠ some 0x2E := fun heq =>
      absurd (hdigits 0x2E (List.mem_of_getLast? heq)) (by decide)
    rw [rdropWhile_append_replicate (hlast ▸ hkept), hlast, if_neg hpoint, if_neg hempty]

theorem fractional_append_replicate (whole fraction : Bytes) (idle : Nat) :
    fractional whole (fraction ++ List.replicate idle (digit 0)) = fractional whole fraction := by
  have hzeros : number (List.replicate idle (digit 0)) = 0 := by
    induction idle with
    | zero => rfl
    | succ idle ih => rw [List.replicate_succ', number_concat, ih, worth_digit (by decide)]
  rw [fractional, ← List.append_assoc, number_append, hzeros, List.length_append, List.length_replicate,
    Nat.add_zero, pow_add, Nat.cast_mul, Nat.cast_pow, Nat.cast_ofNat,
    mul_div_mul_right _ _ (by positivity)]
  rfl

/-! ### Reading a text with a point -/

theorem takeWhile_behindPoint {whole : Bytes} (hwhole : ∀ digit ∈ whole, IsDigit digit)
    (fraction : Bytes) : (whole ++ behindPoint fraction).takeWhile (IsDigit ·) = whole := by
  have hstop : (behindPoint fraction).takeWhile (IsDigit ·) = [] := by
    rw [behindPoint]
    split <;> rfl
  rw [List.takeWhile_append_of_pos fun digit hdigit => decide_eq_true (hwhole digit hdigit), hstop,
    List.append_nil]

theorem behindPoint_injective : Function.Injective behindPoint := by
  intro left right hequal
  rw [behindPoint, behindPoint] at hequal
  split_ifs at hequal with hleft hright
  · rw [hleft, hright]
  · exact (List.cons.inj hequal).2

theorem eq_of_append_behindPoint {whole otherWhole fraction otherFraction : Bytes}
    (hwhole : ∀ digit ∈ whole, IsDigit digit) (hother : ∀ digit ∈ otherWhole, IsDigit digit)
    (hequal : whole ++ behindPoint fraction = otherWhole ++ behindPoint otherFraction) :
    whole = otherWhole ∧ fraction = otherFraction := by
  have hsame : whole = otherWhole := by
    rw [← takeWhile_behindPoint hwhole fraction, hequal, takeWhile_behindPoint hother]
  subst hsame
  exact ⟨rfl, behindPoint_injective (List.append_cancel_left hequal)⟩

end Decimal

namespace Binary64

open Decimal

/-! ### The brief text -/

theorem brief_of_renders {bits : UInt64} (hfinite : IsFinite bits) {whole kept : Bytes} {idle : Nat}
    (hkept : kept.getLast? ≠ some (digit 0))
    (hrenders : Renders (magnitude bits) 6 whole (kept ++ List.replicate idle (digit 0))) :
    (ofBits bits).brief = signText bits ++ whole ++ behindPoint kept := by
  obtain ⟨numerator, denominator, hread, hdigits⟩ := exists_ofBits_of_renders hfinite hrenders
  obtain ⟨hwhole, hfraction⟩ := hdigits (decide (IsSigned bits))
  have hsignificant : (FixedPoint.ofFraction (decide (IsSigned bits)) numerator denominator
      6).significantFraction = kept := by
    rw [FixedPoint.significantFraction, hfraction]
    exact rdropWhile_append_replicate hkept idle
  simp only [hread, brief, NumberFormat.usualPlaces, FixedPoint.brief, sign_ofFraction, hwhole,
    hsignificant, List.isEmpty_iff, behindPoint]

theorem exists_brief {bits : UInt64} (hfinite : IsFinite bits) :
    ∃ whole kept idle, kept.getLast? ≠ some (digit 0) ∧
      Renders (magnitude bits) 6 whole (kept ++ List.replicate idle (digit 0)) ∧
      (ofBits bits).brief = signText bits ++ whole ++ behindPoint kept := by
  obtain ⟨whole, fraction, hrenders⟩ := exists_renders hfinite 6
  obtain ⟨kept, idle, rfl, hkept⟩ := exists_replicate_zero fraction
  exact ⟨whole, kept, idle, hkept, hrenders, brief_of_renders hfinite hkept hrenders⟩

/-- The sign is all that stands before the first digit. -/
theorem takeWhile_signText (bits : UInt64) {whole : Bytes} (hwhole : IsNumeral whole) (rest : Bytes) :
    (signText bits ++ whole ++ rest).takeWhile (· == minus) = signText bits := by
  obtain ⟨first, others, rfl⟩ := List.exists_cons_of_ne_nil hwhole.ne_nil
  have hfirst : (first == minus) = false := by
    have hdigit := hwhole.isDigit first List.mem_cons_self
    refine beq_eq_false_iff_ne.mpr fun heq => ?_
    rw [heq] at hdigit
    exact absurd hdigit (by decide)
  rw [signText]
  split <;> simp [hfirst]

theorem isSigned_iff_of_signText_eq {bits other : UInt64} (hequal : signText bits = signText other) :
    IsSigned bits ↔ IsSigned other := by
  rw [signText, signText] at hequal
  split_ifs at hequal with hbits hother hother
  · exact iff_of_true hbits hother
  · exact iff_of_false hbits hother

theorem brief_eq_iff {bits other : UInt64} (hfinite : IsFinite bits) (hother : IsFinite other) :
    (ofBits bits).brief = (ofBits other).brief ↔ (IsSigned bits ↔ IsSigned other) ∧
      ∃ rounded, RoundsTo 6 (value bits) rounded ∧ RoundsTo 6 (value other) rounded := by
  obtain ⟨whole, kept, idle, hkept, hrenders, htext⟩ := exists_brief hfinite
  obtain ⟨otherWhole, otherKept, otherIdle, hotherKept, hotherRenders, hotherText⟩ := exists_brief hother
  have hrounds := roundsTo_withSign bits hrenders.rounds
  have hotherRounds := roundsTo_withSign other hotherRenders.rounds
  rw [fractional_append_replicate] at hrounds hotherRounds
  rw [htext, hotherText]
  constructor
  · intro hequal
    have hsignText : signText bits = signText other := by
      rw [← takeWhile_signText bits hrenders.isNumeral (behindPoint kept), hequal,
        takeWhile_signText other hotherRenders.isNumeral]
    rw [hsignText, List.append_assoc, List.append_assoc, List.append_cancel_left_eq] at hequal
    obtain ⟨rfl, rfl⟩ := eq_of_append_behindPoint hrenders.isNumeral.isDigit
      hotherRenders.isNumeral.isDigit hequal
    have hsign := isSigned_iff_of_signText_eq hsignText
    exact ⟨hsign, _, hrounds, (withSign_inj hsign).mpr rfl ▸ hotherRounds⟩
  · rintro ⟨hsign, rounded, hrounded, hotherRounded⟩
    have hequal : withSign bits (fractional whole kept) = withSign other (fractional otherWhole otherKept) :=
      (hrounds.unique hrounded).trans (hotherRounds.unique hotherRounded).symm
    rw [withSign_inj hsign] at hequal
    obtain ⟨rfl, hdigits⟩ := hrenders.eq_of_fractional_eq hotherRenders <| by
      rw [fractional_append_replicate, fractional_append_replicate, hequal]
    have hsame : kept = otherKept := by
      rw [← rdropWhile_append_replicate hkept idle, hdigits, rdropWhile_append_replicate hotherKept]
    simp only [hsame, signText, hsign]

/-- The brief text spells the double rounded to six places and tells nothing else but its sign. -/
theorem brief_canonical {bits : UInt64} (hfinite : IsFinite bits) :
    (∃ whole fraction idle,
      (ofBits bits).brief
        = signText bits ++ whole ++ (if fraction = [] then [] else 0x2E :: fraction) ∧
      IsNumeral whole ∧ (∀ digit ∈ fraction, IsDigit digit) ∧ fraction.length ≤ 6 ∧
      fraction.getLast? ≠ some (digit 0) ∧
      Renders (magnitude bits) 6 whole (fraction ++ List.replicate idle (digit 0)) ∧
      RoundsTo 6 (value bits) (withSign bits (fractional whole fraction))) ∧
    (ofBits bits).brief ≠ [] ∧
    (ofBits bits).brief = withoutIdle ((ofBits bits).layOut ⟨-1, 0x2E, none⟩) ∧
    ∀ other, IsFinite other →
      ((ofBits bits).brief = (ofBits other).brief ↔ (IsSigned bits ↔ IsSigned other) ∧
        ∃ rounded, RoundsTo 6 (value bits) rounded ∧ RoundsTo 6 (value other) rounded) := by
  obtain ⟨whole, kept, idle, hkept, hrenders, htext⟩ := exists_brief hfinite
  have hdigits : ∀ digit ∈ kept, IsDigit digit := fun digit hdigit =>
    hrenders.isDigit digit (List.mem_append_left _ hdigit)
  have hlength := hrenders.length_fraction
  rw [List.length_append, List.length_replicate] at hlength
  have hrounds := roundsTo_withSign bits hrenders.rounds
  rw [fractional_append_replicate] at hrounds
  refine ⟨⟨whole, kept, idle, htext, hrenders.isNumeral, hdigits, by omega, hkept, hrenders, hrounds⟩,
    ?_, ?_, fun other => brief_eq_iff hfinite⟩
  · rw [htext]
    simp [hrenders.isNumeral.ne_nil]
  · have hnonempty : kept ++ List.replicate idle (digit 0) ≠ [] :=
      mt hrenders.places_eq_zero_iff.mpr (by decide)
    have hplaces : NumberFormat.places ⟨-1, 0x2E, none⟩ = 6 := by decide
    rw [← hplaces] at hrenders
    rw [layOut_of_renders hfinite hrenders, NumberFormat.group, NumberFormat.fraction,
      List.isEmpty_eq_false_iff.mpr hnonempty, htext]
    exact (withoutIdle_append _ hdigits hkept idle).symm

/-- -9.9999996 and -10 are one text, since rounding carries into a digit more. -/
theorem brief_canonical_carried :
    (ofBits 0xC023FFFFF29406B3).brief = Ascii.bytes ['-', '1', '0'] ∧
      (IsSigned 0xC023FFFFF29406B3 ↔ IsSigned 0xC024000000000000) ∧
      ∃ rounded, RoundsTo 6 (value 0xC023FFFFF29406B3) rounded ∧
        RoundsTo 6 (value 0xC024000000000000) rounded := by
  obtain ⟨_, _, _, hequal⟩ := brief_canonical (by decide : IsFinite 0xC023FFFFF29406B3)
  have hsame := (hequal 0xC024000000000000 (by decide)).mp (by decide +kernel)
  exact ⟨by decide +kernel, hsame⟩

/-- Of a negative zero the sign is left. -/
example : (ofBits 0x8000000000000000).brief = Ascii.bytes ['-', '0'] := by decide +kernel

end Binary64

end TextPool
