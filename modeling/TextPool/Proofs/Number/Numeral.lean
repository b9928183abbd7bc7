import Mathlib.Data.List.Basic
import Mathlib.Data.List.Induction
import Mathlib.Data.Nat.Digits.Defs
import TextPool.Number.Decimal

/-!
# Numbers that digits spell

A row of digits spells a number: the last digit counts once, and every other one as often as the
base times more than the digit behind it (`Bytes.number`). This is the one notion of what digits
mean, for decimal and for hexadecimal rows.

The two ways in which whole numbers are written in decimal digits are told apart by what they fix. A
row without idle zeros in front is the one that `Decimal.natural` writes
(`IsNumeral.natural_number`), and a row of a given length is the one that `Decimal.padded` writes
(`padded_number`).
-/

namespace TextPool

/-- The number that a row of digits spells in a base, the first digit counting most. -/
def Bytes.number (base : Nat) (worth : UInt8 → Nat) (digits : Bytes) : Nat :=
  Nat.ofDigits base (digits.reverse.map worth)

namespace Bytes

variable {base : Nat} {worth : UInt8 → Nat}

theorem number_singleton (digit : UInt8) : Bytes.number base worth [digit] = worth digit :=
  Nat.ofDigits_singleton

theorem number_append (left right : Bytes) :
    Bytes.number base worth (left ++ right)
      = Bytes.number base worth left * base ^ right.length + Bytes.number base worth right := by
  simp only [number, List.reverse_append, List.map_append, Nat.ofDigits_append, List.length_map,
    List.length_reverse]
  rw [Nat.mul_comm, Nat.add_comm]

theorem number_concat (digits : Bytes) (digit : UInt8) :
    Bytes.number base worth (digits ++ [digit])
      = base * Bytes.number base worth digits + worth digit := by
  simp only [number, List.reverse_append, List.reverse_singleton, List.singleton_append, List.map_cons,
    Nat.ofDigits_cons]
  exact Nat.add_comm _ _

theorem number_lt {digits : Bytes} (hbase : 1 < base) (hdigits : ∀ digit ∈ digits, worth digit < base) :
    Bytes.number base worth digits < base ^ digits.length := by
  rw [← List.length_reverse, ← List.length_map worth]
  refine Nat.ofDigits_lt_base_pow_length hbase fun value hvalue => ?_
  obtain ⟨digit, hdigit, rfl⟩ := List.mem_map.mp hvalue
  exact hdigits digit (List.mem_reverse.mp hdigit)

end Bytes

namespace Decimal

/-! ### Single digits -/

def IsDigit (byte : UInt8) : Prop :=
  0x30 ≤ byte ∧ byte ≤ 0x39

instance (byte : UInt8) : Decidable (IsDigit byte) :=
  inferInstanceAs (Decidable (_ ∧ _))

def worth (digit : UInt8) : Nat :=
  digit.toNat - 0x30

theorem isDigit_digit {value : Nat} (hvalue : value < 10) : IsDigit (digit value) := by
  decide +revert

theorem worth_digit {value : Nat} (hvalue : value < 10) : worth (digit value) = value := by
  decide +revert

theorem worth_lt {byte : UInt8} (hbyte : IsDigit byte) : worth byte < 10 := by
  have hhigh : byte.toNat ≤ 0x39 := UInt8.le_iff_toNat_le.mp hbyte.2
  rw [worth]
  omega

theorem digit_worth {byte : UInt8} (hbyte : IsDigit byte) : digit (worth byte) = byte := by
  have hlow : 0x30 ≤ byte.toNat := UInt8.le_iff_toNat_le.mp hbyte.1
  have hlt := byte.toNat_lt
  have hzero : (0x30 : UInt8).toNat = 0x30 := rfl
  apply UInt8.toNat_inj.mp
  rw [digit, worth, UInt8.toNat_add, UInt8.toNat_ofNat', hzero]
  omega

theorem zero_notMem {digits : Bytes} (hdigits : ∀ digit ∈ digits, IsDigit digit) : 0 ∉ digits :=
  fun hzero => absurd (hdigits 0 hzero) (by decide)

/-! ### Rows of digits -/

def number (digits : Bytes) : Nat :=
  digits.number 10 worth

theorem number_append (left right : Bytes) :
    number (left ++ right) = number left * 10 ^ right.length + number right :=
  Bytes.number_append left right

theorem number_concat (digits : Bytes) (last : UInt8) :
    number (digits ++ [last]) = 10 * number digits + worth last :=
  Bytes.number_concat digits last

theorem number_singleton (last : UInt8) : number [last] = worth last :=
  Bytes.number_singleton last

theorem number_lt {digits : Bytes} (hdigits : ∀ digit ∈ digits, IsDigit digit) :
    number digits < 10 ^ digits.length :=
  Bytes.number_lt (by decide) fun digit hdigit => worth_lt (hdigits digit hdigit)

theorem div_ten {last : UInt8} (hlast : IsDigit last) (front : Nat) :
    (10 * front + worth last) / 10 = front := by
  have hlt := worth_lt hlast
  omega

theorem mod_ten {last : UInt8} (hlast : IsDigit last) (front : Nat) :
    (10 * front + worth last) % 10 = worth last := by
  have hlt := worth_lt hlast
  omega

/-! A fixed count of digits -/

theorem isDigit_of_mem_padded {width number : Nat} {byte : UInt8}
    (hbyte : byte ∈ padded width number) : IsDigit byte := by
  induction width generalizing number with
  | zero => exact absurd hbyte List.not_mem_nil
  | succ width ih =>
    rw [padded, List.mem_append, List.mem_singleton] at hbyte
    obtain hbyte | rfl := hbyte
    · exact ih hbyte
    · exact isDigit_digit (Nat.mod_lt _ (by decide))

theorem number_padded (width value : Nat) : number (padded width value) = value % 10 ^ width := by
  induction width generalizing value with
  | zero => exact (Nat.mod_one value).symm
  | succ width ih =>
    have hlast := worth_digit (Nat.mod_lt value (by decide : 0 < 10))
    rw [padded, number_concat, ih, hlast, Nat.pow_succ', Nat.mod_mul, Nat.add_comm]

theorem padded_number {digits : Bytes} (hdigits : ∀ digit ∈ digits, IsDigit digit) :
    padded digits.length (number digits) = digits := by
  induction digits using List.reverseRecOn with
  | nil => rfl
  | append_singleton digits last ih =>
    obtain ⟨hbefore, hlast⟩ := List.forall_mem_append.mp hdigits
    have hlast := hlast last List.mem_cons_self
    rw [List.length_append, List.length_singleton, number_concat, padded, div_ten hlast,
      mod_ten hlast, ih hbefore, digit_worth hlast]

/-! No idle zeros -/

structure IsNumeral (digits : Bytes) : Prop where
  ne_nil : digits ≠ []
  isDigit : ∀ digit ∈ digits, IsDigit digit
  /-- A zero in front stands alone. -/
  lead : digits.head? = some (digit 0) → digits.length = 1

private theorem bytes_digitChar {value : Nat} (hvalue : value < 10) :
    Ascii.bytes [value.digitChar] = [digit value] := by
  decide +revert

theorem natural_of_lt {value : Nat} (hvalue : value < 10) : natural value = [digit value] := by
  rw [natural, Nat.toDigits_of_lt_base hvalue, bytes_digitChar hvalue]

theorem natural_of_le {value : Nat} (hvalue : 10 ≤ value) :
    natural value = natural (value / 10) ++ [digit (value % 10)] := by
  have hlast := bytes_digitChar (Nat.mod_lt value (by decide : 0 < 10))
  rw [natural, Nat.toDigits_of_base_le (by decide) hvalue, ← hlast]
  exact List.map_append

theorem number_natural (value : Nat) : number (natural value) = value := by
  induction value using Nat.strongRecOn with
  | ind value ih =>
    by_cases hvalue : value < 10
    · rw [natural_of_lt hvalue, number_singleton, worth_digit hvalue]
    · rw [natural_of_le (Nat.le_of_not_lt hvalue), number_concat, ih (value / 10) (by omega),
        worth_digit (Nat.mod_lt value (by decide))]
      exact Nat.div_add_mod value 10

theorem isNumeral_natural (value : Nat) : IsNumeral (natural value) := by
  induction value using Nat.strongRecOn with
  | ind value ih =>
    by_cases hvalue : value < 10
    · rw [natural_of_lt hvalue]
      refine ⟨List.cons_ne_nil _ _, fun byte hbyte => ?_, fun _ => rfl⟩
      rw [List.mem_singleton.mp hbyte]
      exact isDigit_digit hvalue
    · obtain ⟨hnonempty, hdigits, hlead⟩ := ih (value / 10) (by omega)
      have hnumber := number_natural (value / 10)
      rw [natural_of_le (Nat.le_of_not_lt hvalue)]
      refine ⟨List.append_ne_nil_of_left_ne_nil hnonempty _, fun byte hbyte => ?_, fun hzero => ?_⟩
      · obtain hbyte | hbyte := List.mem_append.mp hbyte
        · exact hdigits byte hbyte
        · rw [List.mem_singleton.mp hbyte]
          exact isDigit_digit (Nat.mod_lt value (by decide))
      · -- A lone zero in front would spell zero, but what stands in front spells `value / 10`.
        rw [List.head?_append_of_ne_nil _ hnonempty] at hzero
        obtain ⟨first, hfirst⟩ := List.length_eq_one_iff.mp (hlead hzero)
        rw [hfirst, List.head?_cons, Option.some.injEq] at hzero
        rw [hfirst, hzero, ← natural_of_lt (by decide), number_natural] at hnumber
        omega

theorem IsNumeral.natural_number {digits : Bytes} (hnumeral : IsNumeral digits) :
    natural (number digits) = digits := by
  obtain ⟨hnonempty, hdigits, hlead⟩ := hnumeral
  induction digits using List.reverseRecOn with
  | nil => exact absurd rfl hnonempty
  | append_singleton before last ih =>
    obtain ⟨hbefore, hlast⟩ := List.forall_mem_append.mp hdigits
    have hlast := hlast last List.mem_cons_self
    by_cases hempty : before = []
    · subst hempty
      rw [List.nil_append, number_singleton, natural_of_lt (worth_lt hlast), digit_worth hlast]
    · have hfirst : before.head? ≠ some (digit 0) := by
        intro hzero
        have hlength := hlead ((List.head?_append_of_ne_nil _ hempty).trans hzero)
        rw [List.length_append, List.length_singleton] at hlength
        exact hempty (List.length_eq_zero_iff.mp (by omega))
      have hrest := ih hempty hbefore (absurd · hfirst)
      have hpos : number before ≠ 0 := by
        intro hzero
        rw [hzero, natural_of_lt (by decide)] at hrest
        exact hfirst (hrest ▸ rfl)
      rw [number_concat, natural_of_le (by omega), div_ten hlast, mod_ten hlast, hrest,
        digit_worth hlast]

end Decimal

end TextPool
