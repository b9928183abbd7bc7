/-!
# Words of bits

The 64 bits of a word, read and changed one at a time, and counts rounded to whole words. A bit is
read through the bit vector of the word, so what a change does to every bit is one equation
(`test_raise`, `test_lower`, `test_raiseBelow`), and nothing else about the machine representation
is needed.
-/

namespace TextPool.Word

def width : Nat := 64

/-- One more than the greatest size or count that the program can express. -/
def limit : Nat := 0x10000000000000000

/-! ### Counts in whole words -/

/-- The count rounded down to whole words. -/
def floor (count : Nat) : Nat :=
  count / width * width

/-- How many words hold `count` bits. -/
def needed (count : Nat) : Nat :=
  (count + (width - 1)) / width

/-- The count rounded up to whole words, unless that can no longer be expressed. -/
def ceil? (count : Nat) : Option Nat :=
  if needed count * width < limit then some (needed count * width) else none

/-- The least multiple of the word size that is greater than `count`. -/
def next (count : Nat) : Nat :=
  (count + width) / width * width

theorem width_dvd_floor (count : Nat) : width ∣ floor count :=
  Nat.dvd_mul_left _ _

theorem floor_le (count : Nat) : floor count ≤ count :=
  Nat.div_mul_le_self _ _

theorem le_floor {count bound : Nat} (hwords : width ∣ count) (hbound : count ≤ bound) :
    count ≤ floor bound := by
  simp only [floor, width] at *
  omega

theorem ceil?_eq_some {count rounded : Nat} (hceil : ceil? count = some rounded) :
    width ∣ rounded ∧ count ≤ rounded ∧ rounded < count + width ∧ rounded < limit := by
  simp only [ceil?] at hceil
  split at hceil
  · next hlimit =>
    obtain rfl := Option.some.inj hceil
    simp only [needed, width] at *
    omega
  · simp at hceil

theorem ceil?_of_dvd {count : Nat} (hwords : width ∣ count) (hlimit : count < limit) :
    ceil? count = some count := by
  have hneeded : needed count * width = count := by
    simp only [needed, width] at *
    omega
  rw [ceil?, hneeded, if_pos hlimit]

theorem width_dvd_next (count : Nat) : width ∣ next count :=
  Nat.dvd_mul_left _ _

theorem lt_next (count : Nat) : count < next count := by
  simp only [next, width]
  omega

theorem next_le (count : Nat) : next count ≤ count + width :=
  Nat.div_mul_le_self _ _

/-! ### Single bits -/

def full : UInt64 := 0xFFFFFFFFFFFFFFFF

/-- Whether a bit is set. There is none from `width` on. -/
def test (word : UInt64) (bit : Nat) : Bool :=
  word.toBitVec.getLsbD bit

/-- The word with one bit set, if there is such a bit. -/
def only (bit : Nat) : UInt64 :=
  ⟨BitVec.twoPow 64 bit⟩

def raise (word : UInt64) (bit : Nat) : UInt64 :=
  word ||| only bit

def lower (word : UInt64) (bit : Nat) : UInt64 :=
  word &&& ~~~ only bit

def raiseBelow (word : UInt64) (bit : Nat) : UInt64 :=
  word ||| ⟨BitVec.ofNat 64 (1 <<< bit - 1)⟩

/-- The bits that are set, in ascending order. An empty word is not looked through. -/
def ones (word : UInt64) : List Nat :=
  if word = 0 then [] else (List.range width).filter (test word)

/-- The lowest clear bit, or `width` if there is none. -/
def firstClear (word : UInt64) : Nat :=
  ((List.range width).find? fun bit => !test word bit).getD width

theorem test_raise (word : UInt64) (bit other : Nat) (hbit : bit < width) :
    test (raise word bit) other = (test word other || decide (bit = other)) := by
  simp only [test, raise, only, UInt64.toBitVec_or, BitVec.getLsbD_or, BitVec.getLsbD_twoPow]
  simp only [width] at hbit
  simp [hbit]

theorem test_lower (word : UInt64) (bit other : Nat) :
    test (lower word bit) other = (test word other && !decide (bit = other)) := by
  simp only [test, lower, only, UInt64.toBitVec_and, UInt64.toBitVec_not, BitVec.getLsbD_and,
    BitVec.getLsbD_not, BitVec.getLsbD_twoPow]
  by_cases hother : other < 64
  · by_cases heq : bit = other
    · simp [heq, hother]
    · simp [heq, hother]
  · simp [BitVec.getLsbD_of_ge word.toBitVec other (by omega)]

theorem test_raiseBelow (word : UInt64) (bit other : Nat) (hother : other < width) :
    test (raiseBelow word bit) other = (test word other || decide (other < bit)) := by
  simp only [width] at hother
  simp only [test, raiseBelow, UInt64.toBitVec_or, BitVec.getLsbD_or, BitVec.getLsbD_ofNat,
    Nat.one_shiftLeft, Nat.testBit_two_pow_sub_one]
  simp [hother]

theorem eq_full_iff (word : UInt64) : word = full ↔ ∀ bit, bit < width → test word bit = true := by
  have hfull (bit : Nat) (hbit : bit < 64) : test full bit = true := by
    have hones : full.toBitVec = BitVec.allOnes 64 := by decide
    rw [test, hones, BitVec.getLsbD_allOnes]
    exact decide_eq_true hbit
  constructor
  · rintro rfl bit hbit
    exact hfull bit hbit
  · intro hall
    apply UInt64.toBitVec_inj.mp
    apply BitVec.eq_of_getLsbD_eq
    intro bit hbit
    exact (hall bit hbit).trans (hfull bit hbit).symm

theorem firstClear_cases (word : UInt64) :
    (firstClear word < width ∧ test word (firstClear word) = false ∨
      firstClear word = width) ∧
    ∀ bit, bit < firstClear word → test word bit = true := by
  unfold firstClear
  cases hfind : (List.range width).find? fun bit => !test word bit with
  | none =>
    rw [List.find?_eq_none] at hfind
    refine ⟨.inr rfl, fun bit hbit => ?_⟩
    simpa using hfind bit (List.mem_range.mpr hbit)
  | some found =>
    obtain ⟨hclear, hbound, hbefore⟩ := List.find?_range_eq_some.mp hfind
    refine ⟨.inl ⟨List.mem_range.mp hbound, by simpa using hclear⟩, fun bit hbit => ?_⟩
    simpa using hbefore bit hbit

end TextPool.Word
