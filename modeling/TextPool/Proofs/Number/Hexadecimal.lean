import Mathlib.Data.FinEnum
import Mathlib.Data.List.DropRight
import Mathlib.Data.List.TakeWhile
import TextPool.Number.Hexadecimal
import TextPool.Proofs.Number.Numeral

/-!
# Hexadecimal numbers

The digits at the front of a text (`run`) are read as the number that they spell, as far as 64 bits
hold it (`toNat_read`), so of a long run only the last sixteen digits count (`read_rtake`). What is
written of a word are the capital digits that spell it, so writing and reading undo each other, but
for the case of the digits (`read_ofWord_append`, `ofWord_read`).
-/

namespace TextPool.Hexadecimal

/-! ### Single digits -/

/-- The capital digits, each at the place that is its worth. -/
def alphabet : Bytes :=
  Ascii.bytes ['0', '1', '2', '3', '4', '5', '6', '7', '8', '9', 'A', 'B', 'C', 'D', 'E', 'F']

def IsDigit (byte : UInt8) : Prop :=
  Ascii.upper byte ∈ alphabet

instance (byte : UInt8) : Decidable (IsDigit byte) :=
  inferInstanceAs (Decidable (_ ∈ _))

def worth (digit : UInt8) : Nat :=
  alphabet.idxOf (Ascii.upper digit)

theorem hexValue?_eq (byte : UInt8) :
    Ascii.hexValue? byte = if IsDigit byte then some (UInt8.ofNat (worth byte)) else none := by
  decide +kernel +revert

theorem worth_lt {byte : UInt8} (hbyte : IsDigit byte) : worth byte < 16 :=
  List.idxOf_lt_length_of_mem hbyte

theorem isDigit_of_mem_alphabet {byte : UInt8} (hbyte : byte ∈ alphabet) : IsDigit byte := by
  decide +kernel +revert

theorem hexDigit_mem_alphabet (nibble : UInt8) : Ascii.hexDigit nibble ∈ alphabet := by
  decide +kernel +revert

theorem worth_hexDigit (nibble : UInt8) : worth (Ascii.hexDigit nibble) = nibble.toNat % 16 := by
  decide +kernel +revert

theorem hexDigit_worth {byte : UInt8} (hbyte : IsDigit byte) :
    Ascii.hexDigit (UInt8.ofNat (worth byte)) = Ascii.upper byte := by
  decide +kernel +revert

def number (digits : Bytes) : Nat :=
  digits.number 16 worth

/-- The digits at the front of a text. -/
def run (text : Bytes) : Bytes :=
  text.takeWhile (IsDigit ·)

theorem number_cons (digit : UInt8) (rest : Bytes) :
    number (digit :: rest) = worth digit * 16 ^ rest.length + number rest := by
  rw [← List.singleton_append, number, Bytes.number_append, Bytes.number_singleton, number]

/-! ### Reading -/

theorem run_cons_of_isDigit {byte : UInt8} (hbyte : IsDigit byte) (rest : Bytes) :
    run (byte :: rest) = byte :: run rest :=
  List.takeWhile_cons_of_pos (decide_eq_true hbyte)

theorem run_cons_of_not_isDigit {byte : UInt8} (hbyte : ¬IsDigit byte) (rest : Bytes) :
    run (byte :: rest) = [] :=
  List.takeWhile_cons_of_neg (by rwa [decide_eq_true_eq])

theorem toNat_shiftLeft_or {value : Nat} (word : UInt64) (hvalue : value < 16) :
    (word <<< 4 ||| (UInt8.ofNat value).toUInt64).toNat = (word.toNat * 16 + value) % 2 ^ 64 := by
  have hlow : (UInt8.ofNat value).toUInt64.toNat = value := by
    rw [UInt8.toNat_toUInt64, UInt8.toNat_ofNat_of_lt' (Nat.lt_trans hvalue (by decide))]
  have hhigh : (word <<< 4).toNat = (word.toNat % 2 ^ 60) <<< 4 := by
    rw [UInt64.toNat_shiftLeft, Nat.shiftLeft_eq, Nat.shiftLeft_eq]
    change word.toNat * 2 ^ 4 % 2 ^ 64 = _
    omega
  rw [UInt64.toNat_or, hlow, hhigh, ← Nat.shiftLeft_add_eq_or_of_lt hvalue, Nat.shiftLeft_eq]
  omega

/-- Each digit moves the word up by four bits, and what leaves it at the top is lost. -/
theorem toNat_readFrom (word : UInt64) (text : Bytes) :
    (readFrom word text).toNat
      = (word.toNat * 16 ^ (run text).length + number (run text)) % 2 ^ 64 := by
  have hword (word : UInt64) : word.toNat = (word.toNat * 16 ^ ([] : Bytes).length + number []) % 2 ^ 64 := by
    rw [List.length_nil, pow_zero, Nat.mul_one]
    exact (Nat.mod_eq_of_lt word.toNat_lt).symm
  induction text generalizing word with
  | nil => exact hword word
  | cons byte rest ih =>
    rw [readFrom, hexValue?_eq]
    by_cases hbyte : IsDigit byte
    · rw [if_pos hbyte, run_cons_of_isDigit hbyte, number_cons, List.length_cons, Nat.pow_succ',
        ← Nat.mul_assoc, ← Nat.add_assoc, ← Nat.add_mul, ih, toNat_shiftLeft_or word (worth_lt hbyte)]
      rw [Nat.add_mod, Nat.mod_mul_mod, ← Nat.add_mod]
    · rw [if_neg hbyte, run_cons_of_not_isDigit hbyte]
      exact hword word

theorem toNat_read (text : Bytes) : (read text).toUInt64.toNat = number (run text) % 2 ^ 64 := by
  rw [read, UInt64.toUInt64_toInt64, toNat_readFrom]
  simp

/-- The word that is read is taken as a signed number, its highest bit as the sign. -/
theorem toInt_read (text : Bytes) : (read text).toInt = (number (run text) : Int).bmod (2 ^ 64) := by
  have hword : (read text).toBitVec.toNat = number (run text) % 2 ^ 64 := toNat_read text
  rw [← Int64.toInt_toBitVec, BitVec.toInt_eq_toNat_bmod, hword]
  exact_mod_cast Int.emod_bmod (number (run text)) (2 ^ 64)

theorem run_of_digits {digits : Bytes} (hdigits : ∀ digit ∈ digits, IsDigit digit) :
    run digits = digits :=
  List.takeWhile_eq_self_iff.mpr fun digit hdigit => decide_eq_true (hdigits digit hdigit)

theorem isDigit_of_mem_run {text : Bytes} {byte : UInt8} (hbyte : byte ∈ run text) : IsDigit byte := by
  have hdigit := List.mem_takeWhile_imp hbyte
  exact of_decide_eq_true hdigit

theorem read_eq_of_number {text other : Bytes}
    (hnumber : number (run text) % 2 ^ 64 = number (run other) % 2 ^ 64) : read text = read other := by
  rw [← toNat_read, ← toNat_read] at hnumber
  rw [← Int64.toInt64_toUInt64 (read text), UInt64.toNat_inj.mp hnumber, Int64.toInt64_toUInt64]

/-- The last sixteen digits fill the word. -/
theorem read_rtake (text : Bytes) : read ((run text).rtake width) = read text := by
  have hdigits : ∀ digit ∈ (run text).rtake width, IsDigit digit := fun digit hdigit =>
    isDigit_of_mem_run (List.mem_of_mem_drop hdigit)
  apply read_eq_of_number
  rw [run_of_digits hdigits, List.rtake]
  obtain hshort | hlong := Nat.le_total (run text).length width
  · rw [Nat.sub_eq_zero_of_le hshort, List.drop_zero]
  · have hlength : ((run text).drop ((run text).length - width)).length = 16 := by
      rw [List.length_drop, Nat.sub_sub_self hlong]
      rfl
    conv_rhs => rw [← List.take_append_drop ((run text).length - width) (run text), number,
      Bytes.number_append, hlength]
    exact (Nat.mul_add_mod' _ _ _).symm

/-! ### Writing -/

/-! The low four bits of a word and those above -/

theorem low_eq (word : UInt64) : (word &&& 0xF).toUInt8 = UInt8.ofNat (word.toNat % 16) := by
  have hlow : word.toNat &&& 15 = word.toNat % 16 := Nat.and_two_pow_sub_one_eq_mod _ 4
  apply UInt8.toNat_inj.mp
  rw [UInt64.toNat_toUInt8, UInt64.toNat_and, UInt8.toNat_ofNat', ← hlow]
  rfl

theorem toNat_high (word : UInt64) : (word >>> 4).toNat = word.toNat / 16 := by
  rw [UInt64.toNat_shiftRight, Nat.shiftRight_eq_div_pow]
  rfl

theorem mem_alphabet_of_mem_digits {count : Nat} {word : UInt64} {byte : UInt8}
    (hbyte : byte ∈ digits count word) : byte ∈ alphabet := by
  induction count generalizing word with
  | zero => exact absurd hbyte List.not_mem_nil
  | succ count ih =>
    rw [digits, List.mem_append, List.mem_singleton] at hbyte
    obtain hbyte | rfl := hbyte
    · exact ih hbyte
    · exact hexDigit_mem_alphabet _

theorem number_digits (count : Nat) (word : UInt64) :
    number (digits count word) = word.toNat % 16 ^ count := by
  induction count generalizing word with
  | zero => exact (Nat.mod_one word.toNat).symm
  | succ count ih =>
    have hlow : (UInt8.ofNat (word.toNat % 16)).toNat % 16 = word.toNat % 16 := by
      rw [UInt8.toNat_ofNat']
      omega
    rw [digits, number, Bytes.number_concat, ← number, ih, toNat_high, low_eq, worth_hexDigit, hlow,
      Nat.pow_succ', Nat.mod_mul, Nat.add_comm]

theorem digits_of_toNat_eq {text : Bytes} (hdigits : ∀ digit ∈ text, IsDigit digit) {word : UInt64}
    (hword : word.toNat = number text) : digits text.length word = text.map Ascii.upper := by
  induction text using List.reverseRecOn generalizing word with
  | nil => rfl
  | append_singleton before last ih =>
    obtain ⟨hbefore, hlast⟩ := List.forall_mem_append.mp hdigits
    have hlast := hlast last List.mem_cons_self
    have hlt := worth_lt hlast
    rw [number, Bytes.number_concat, ← number] at hword
    have hhigh : (word >>> 4).toNat = number before := by
      rw [toNat_high]
      omega
    have hlow : word.toNat % 16 = worth last := by omega
    rw [List.length_append, List.length_singleton, digits, ih hbefore hhigh, low_eq, hlow,
      hexDigit_worth hlast, List.map_append, List.map_singleton]

/-! ### Reading what was written -/

theorem isDigit_of_mem_ofWord {word : UInt64} {byte : UInt8} (hbyte : byte ∈ ofWord word) :
    IsDigit byte :=
  isDigit_of_mem_alphabet (mem_alphabet_of_mem_digits hbyte)

theorem run_ofWord_append (word : UInt64) {rest : Bytes} (hrest : ∀ byte ∈ rest.head?, ¬IsDigit byte) :
    run (ofWord word ++ rest) = ofWord word := by
  have hstop : rest.takeWhile (IsDigit ·) = [] := by
    cases rest with
    | nil => rfl
    | cons byte rest => exact run_cons_of_not_isDigit (hrest byte rfl) rest
  rw [run, List.takeWhile_append_of_pos fun byte hbyte => decide_eq_true (isDigit_of_mem_ofWord hbyte),
    hstop, List.append_nil]

theorem read_ofWord_append (word : UInt64) {rest : Bytes} (hrest : ∀ byte ∈ rest.head?, ¬IsDigit byte) :
    (read (ofWord word ++ rest)).toUInt64 = word := by
  apply UInt64.toNat_inj.mp
  rw [toNat_read, run_ofWord_append word hrest, ofWord, number_digits]
  exact (Nat.mod_mod _ _).trans (Nat.mod_eq_of_lt word.toNat_lt)

theorem read_ofWord (word : UInt64) : read (ofWord word) = word.toInt64 := by
  have hread : (read (ofWord word ++ [])).toUInt64 = word := read_ofWord_append word fun _ => nofun
  rw [List.append_nil] at hread
  rw [← Int64.toInt64_toUInt64 (read (ofWord word)), hread]

theorem ofWord_read {text : Bytes} (hdigits : ∀ digit ∈ text, IsDigit digit)
    (hlength : text.length = width) : ofWord (read text).toUInt64 = text.map Ascii.upper := by
  have hlt : number text < 2 ^ 64 := by
    have hbound := Bytes.number_lt (by decide) fun digit hdigit => worth_lt (hdigits digit hdigit)
    rw [hlength] at hbound
    exact hbound
  have hword : (read text).toUInt64.toNat = number text := by
    rw [toNat_read, run_of_digits hdigits, Nat.mod_eq_of_lt hlt]
  rw [ofWord, ← hlength, digits_of_toNat_eq hdigits hword]

end TextPool.Hexadecimal
