import Mathlib.Algebra.Group.Nat.Defs
import Mathlib.Data.List.Sort
import Mathlib.Data.List.TakeWhile
import Mathlib.Tactic.Common
import TextPool.Bitset.Basic

/-!
# The list of a set

The list of a set holds the positions that are present and no other (`mem_toList`), in ascending
order (`pairwise_toList`) and hence each of them once. So it is as long as the count says
(`length_toList`), and it is known as soon as the positions are (`toList_eq_range`).

A machine does not look at every bit. It takes the lowest one that is set, clears it by taking one
away from the word, and goes on until no bit is left (`Word.ones_eq_cons`). `checkedList?` is this
loop over the words, which gets stuck at a position that does not fit a word and after more than 64
bits of one word. It comes to the same list (`checkedList?_eq`).
-/

namespace TextPool

namespace Word

theorem mem_ones (word : UInt64) (bit : Nat) :
    bit ∈ ones word ↔ bit < width ∧ test word bit = true := by
  unfold ones
  split
  · next hzero =>
    subst hzero
    simp [test]
  · rw [List.mem_filter, List.mem_range]

theorem pairwise_ones (word : UInt64) : (ones word).Pairwise (· < ·) := by
  unfold ones
  split
  · exact List.Pairwise.nil
  · exact List.Pairwise.filter _ List.pairwise_lt_range

theorem length_ones_le (word : UInt64) : (ones word).length ≤ width := by
  unfold ones
  split
  · exact Nat.zero_le _
  · exact (List.length_filter_le _ _).trans_eq List.length_range

/-! ### The lowest bit -/

/-- The number of the lowest bit that is set, or `width` if there is none. -/
def lowest (word : UInt64) : Nat :=
  word.toBitVec.ctz.toNat

def cleared (word : UInt64) : UInt64 :=
  word &&& (word - 1)

section Lowest

variable {word : UInt64} (hword : word ≠ 0)

theorem test_of_lt_lowest {bit : Nat} (hbit : bit < lowest word) : test word bit = false :=
  BitVec.getLsbD_false_of_lt_ctz hbit

include hword

theorem test_lowest : test word (lowest word) = true :=
  BitVec.getLsbD_true_ctz_of_ne_zero fun hzero => hword (UInt64.toBitVec_inj.mp hzero)

theorem lowest_lt : lowest word < width := by
  by_contra hpast
  have hnone : test word (lowest word) = false :=
    BitVec.getLsbD_of_ge word.toBitVec _ (Nat.le_of_not_lt hpast)
  exact Bool.noConfusion (hnone.symm.trans (test_lowest hword))

theorem toNat_mod_lowest : word.toNat % 2 ^ (lowest word + 1) = 2 ^ lowest word := by
  apply Nat.eq_of_testBit_eq
  intro bit
  rw [Nat.testBit_mod_two_pow, Nat.testBit_two_pow]
  change (decide (bit < lowest word + 1) && test word bit) = _
  obtain hbelow | rfl | habove := Nat.lt_trichotomy bit (lowest word)
  · rw [test_of_lt_lowest hbelow, Bool.and_false, decide_eq_false (Nat.ne_of_gt hbelow)]
  · rw [test_lowest hword, decide_eq_true rfl, decide_eq_true (Nat.lt_succ_self _), Bool.and_true]
  · rw [decide_eq_false (by omega), decide_eq_false (Nat.ne_of_lt habove), Bool.false_and]

/-- Taking one away clears the lowest bit, sets those below it and keeps those above it. -/
theorem test_sub_one {bit : Nat} (hbit : lowest word ≤ bit) :
    test (word - 1) bit = (test word bit && decide (bit ≠ lowest word)) := by
  have hlow := Nat.one_le_two_pow (n := lowest word)
  have hpow : 2 ^ lowest word < 2 ^ (lowest word + 1) := Nat.pow_lt_pow_right (by decide) (by omega)
  have hsplit := Nat.div_add_mod word.toNat (2 ^ (lowest word + 1))
  rw [toNat_mod_lowest hword] at hsplit
  have hone : (1 : UInt64) ≤ word := by
    rw [UInt64.le_iff_toNat_le, ← hsplit, UInt64.toNat_one]
    omega
  have hless : (word - 1).toNat
      = 2 ^ (lowest word + 1) * (word.toNat / 2 ^ (lowest word + 1)) + (2 ^ lowest word - 1) := by
    rw [UInt64.toNat_sub_of_le _ _ hone, UInt64.toNat_one]
    omega
  change (word - 1).toNat.testBit bit = (word.toNat.testBit bit && _)
  rw [hless, Nat.testBit_two_pow_mul_add _ (by omega)]
  obtain rfl | habove := Nat.eq_or_lt_of_le hbit
  · rw [if_pos (Nat.lt_succ_self _), Nat.testBit_two_pow_sub_one]
    simp
  · rw [if_neg (by omega), decide_eq_true (Nat.ne_of_gt habove), Bool.and_true]
    nth_rewrite 2 [← hsplit]
    rw [Nat.testBit_two_pow_mul_add _ hpow, if_neg (by omega)]

theorem test_cleared (bit : Nat) :
    test (cleared word) bit = (test word bit && decide (bit ≠ lowest word)) := by
  have hboth : test (cleared word) bit = (test word bit && test (word - 1) bit) := by
    rw [test, cleared, UInt64.toBitVec_and, BitVec.getLsbD_and, test, test]
  rw [hboth]
  obtain hbelow | habove := Nat.lt_or_ge bit (lowest word)
  · rw [test_of_lt_lowest hbelow, Bool.false_and, Bool.false_and]
  · rw [test_sub_one hword habove, ← Bool.and_assoc, Bool.and_self]

theorem ones_eq_cons : ones word = lowest word :: ones (cleared word) := by
  -- Both lists are in order, so only their members have to be compared.
  refine (pairwise_ones word).eq_of_mem_iff ?_ fun bit => ?_
  · refine List.pairwise_cons.mpr ⟨fun bit hbit => ?_, pairwise_ones _⟩
    obtain ⟨_, htest⟩ := (mem_ones _ _).mp hbit
    rw [test_cleared hword, Bool.and_eq_true, decide_eq_true_iff] at htest
    by_contra hle
    have hbelow : bit < lowest word := Nat.lt_of_le_of_ne (Nat.le_of_not_lt hle) htest.2
    exact Bool.noConfusion ((test_of_lt_lowest hbelow).symm.trans htest.1)
  · rw [List.mem_cons, mem_ones, mem_ones, test_cleared hword, Bool.and_eq_true, decide_eq_true_iff]
    by_cases hbit : bit = lowest word
    · simp [hbit, test_lowest hword, lowest_lt hword]
    · simp [hbit]

end Lowest

end Word

namespace Bitset

theorem mem_toList (bits : Bitset) (index : Nat) :
    index ∈ bits.toList ↔ bits.contains index = true := by
  simp only [toList, contains, List.mem_flatMap, List.mem_map, Word.mem_ones, Prod.exists,
    Array.getD_eq_getD_getElem?]
  constructor
  · rintro ⟨word, position, hword, bit, ⟨hbit, htest⟩, rfl⟩
    rw [List.mem_zipIdx_iff_getElem?, Array.getElem?_toList] at hword
    have hdiv : (position * Word.width + bit) / Word.width = position := by
      simp only [Word.width] at *
      omega
    have hmod : (position * Word.width + bit) % Word.width = bit := by
      rw [Nat.mul_add_mod']
      exact Nat.mod_eq_of_lt hbit
    rw [hdiv, hmod, hword]
    exact htest
  · intro htest
    cases hword : bits.words[index / Word.width]? with
    | none =>
      rw [hword] at htest
      simp [Word.test] at htest
    | some word =>
      rw [hword] at htest
      refine ⟨word, index / Word.width, ?_, index % Word.width,
        ⟨Nat.mod_lt _ (by decide), htest⟩, Nat.div_add_mod' _ _⟩
      rw [List.mem_zipIdx_iff_getElem?, Array.getElem?_toList]
      exact hword

theorem pairwise_toList (bits : Bitset) : bits.toList.Pairwise (· < ·) := by
  unfold toList
  rw [List.pairwise_flatMap]
  constructor
  · rintro ⟨word, position⟩ _
    rw [List.pairwise_map]
    exact (Word.pairwise_ones word).imp fun hlt => Nat.add_lt_add_left hlt _
  · rw [List.pairwise_iff_getElem]
    intro left right hleft hright hlt first hfirst second hsecond
    simp only [List.getElem_zipIdx, List.mem_map, Word.mem_ones, Nat.zero_add] at hfirst hsecond
    obtain ⟨low, ⟨hlow, _⟩, rfl⟩ := hfirst
    obtain ⟨high, ⟨_, _⟩, rfl⟩ := hsecond
    have hstep : (left + 1) * Word.width ≤ right * Word.width := Nat.mul_le_mul_right _ hlt
    rw [Nat.succ_mul] at hstep
    omega

theorem nodup_toList (bits : Bitset) : bits.toList.Nodup :=
  bits.pairwise_toList.imp Nat.ne_of_lt

theorem length_toList (bits : Bitset) : bits.toList.length = bits.count := by
  -- The words are counted alike wherever their positions start.
  have hwords (words : List UInt64) (start : Nat) :
      ((words.zipIdx start).flatMap fun entry =>
        (Word.ones entry.1).map (entry.2 * Word.width + ·)).length
      = words.foldr (fun word total => (Word.ones word).length + total) 0 := by
    induction words generalizing start with
    | nil => rfl
    | cons word rest ih =>
      rw [List.zipIdx_cons, List.flatMap_cons, List.length_append, ih, List.length_map,
        List.foldr_cons]
  exact hwords bits.words.toList 0

/-- The list of a set that holds just the positions below a bound. -/
theorem toList_eq_range {bits : Bitset} {bound : Nat}
    (hbits : ∀ index, bits.contains index = true ↔ index < bound) :
    bits.toList = List.range bound := by
  refine bits.pairwise_toList.eq_of_mem_iff List.pairwise_lt_range fun index => ?_
  rw [mem_toList, hbits, List.mem_range]

/-! ### The loop that lists it -/

def position? (number bit : Nat) : Option Nat :=
  let position := number * Word.width + bit
  if position < Word.limit then some position else none

theorem position?_eq_some {number bit : Nat} (hlimit : number * Word.width + bit < Word.limit) :
    position? number bit = some (number * Word.width + bit) :=
  if_pos hlimit

/-- The positions in the word of a number, each found as the lowest bit of what is left and then
cleared, in so many steps. -/
def checkedOnes? (number : Nat) : Nat → UInt64 → Option (List Nat)
  | 0, word => if word = 0 then some [] else none
  | steps + 1, word =>
    if word = 0 then some []
    else do
      let position ← position? number (Word.lowest word)
      return position :: (← checkedOnes? number steps (Word.cleared word))

/-- The positions in words of which the first has the given number. -/
def checkedFrom? : Nat → List UInt64 → Option (List Nat)
  | _, [] => some []
  | number, word :: words => do
    let found ← checkedOnes? number Word.width word
    return found ++ (← checkedFrom? (number + 1) words)

/-- The list of a set as a machine makes it, which ends before the first position past the bound. -/
def checkedList? (bits : Bitset) : Option (List Nat) := do
  return (← checkedFrom? 0 bits.words.toList).takeWhile (· < bits.size)

theorem checkedOnes?_eq {number steps : Nat} {word : UInt64}
    (hsteps : (Word.ones word).length ≤ steps)
    (hlimit : ∀ bit ∈ Word.ones word, number * Word.width + bit < Word.limit) :
    checkedOnes? number steps word = some ((Word.ones word).map (number * Word.width + ·)) := by
  -- A step takes one bit off the word, so the steps left suffice for the bits left.
  induction steps generalizing word with
  | zero =>
    by_cases hword : word = 0
    · subst hword
      rfl
    · rw [Word.ones_eq_cons hword] at hsteps
      cases hsteps
  | succ steps ih =>
    by_cases hword : word = 0
    · subst hword
      rfl
    · rw [Word.ones_eq_cons hword] at hsteps hlimit ⊢
      obtain ⟨hlowest, hlater⟩ := List.forall_mem_cons.mp hlimit
      rw [checkedOnes?, if_neg hword, position?_eq_some hlowest,
        ih (Nat.le_of_succ_le_succ hsteps) hlater]
      rfl

theorem checkedFrom?_eq {number : Nat} {words : List UInt64}
    (hlimit : ∀ entry ∈ words.zipIdx number, ∀ bit ∈ Word.ones entry.1,
      entry.2 * Word.width + bit < Word.limit) :
    checkedFrom? number words = some ((words.zipIdx number).flatMap fun entry =>
      (Word.ones entry.1).map (entry.2 * Word.width + ·)) := by
  induction words generalizing number with
  | nil => rfl
  | cons word words ih =>
    rw [List.zipIdx_cons] at hlimit ⊢
    obtain ⟨hword, hwords⟩ := List.forall_mem_cons.mp hlimit
    rw [checkedFrom?, checkedOnes?_eq (Word.length_ones_le word) hword, ih hwords]
    rfl

theorem checkedList?_eq {bits : Bitset} (hsize : bits.size ≤ Word.limit)
    (hbound : ∀ index ∈ bits.toList, index < bits.size) : bits.checkedList? = some bits.toList := by
  have hlimit : ∀ entry ∈ bits.words.toList.zipIdx 0, ∀ bit ∈ Word.ones entry.1,
      entry.2 * Word.width + bit < Word.limit := by
    intro entry hentry bit hbit
    refine Nat.lt_of_lt_of_le (hbound _ ?_) hsize
    exact List.mem_flatMap.mpr ⟨entry, hentry, List.mem_map_of_mem hbit⟩
  have hwhole : bits.toList.takeWhile (· < bits.size) = bits.toList :=
    List.takeWhile_eq_self_iff.mpr fun index hindex => decide_eq_true (hbound index hindex)
  rw [checkedList?, checkedFrom?_eq hlimit]
  exact congrArg some hwhole

end Bitset

end TextPool
