import Mathlib.Tactic.Common
import TextPool.Bitset.Search

/-!
# The search finds the least absent position

The search goes through the words of a set, and what it must agree with is a fact about single
positions: the answer is absent, lies between the bounds, and every position between the start and
it is present. `bitAt` reads a list of words position by position, so that a search begun in the
middle of the set is the same search over fewer words. Passing over a word is then one step of an
induction over the words that are left (`scan_eq_some`, `scan_eq_none`).
-/

namespace TextPool.Bitset

def bitAt (words : List UInt64) (position : Nat) : Bool :=
  Word.test (words.getD (position / Word.width) 0) (position % Word.width)

theorem contains_eq_bitAt (bits : Bitset) (index : Nat) :
    bits.contains index = bitAt bits.words.toList index := by
  simp only [contains, bitAt, Array.getD_eq_getD_getElem?, List.getD_eq_getElem?_getD,
    Array.getElem?_toList]

theorem bitAt_of_lt (word : UInt64) (later : List UInt64) (bit : Nat) (hbit : bit < Word.width) :
    bitAt (word :: later) bit = Word.test word bit := by
  simp only [bitAt, Nat.div_eq_of_lt hbit, Nat.mod_eq_of_lt hbit, List.getD_cons_zero]

theorem bitAt_cons_add (word : UInt64) (later : List UInt64) (position : Nat) :
    bitAt (word :: later) (Word.width + position) = bitAt later position := by
  have hwidth : 0 < Word.width := by decide
  simp only [bitAt, Nat.add_div_left _ hwidth, Nat.add_mod_left, List.getD_cons_succ]

theorem bitAt_drop (words : List UInt64) (count position : Nat) :
    bitAt (words.drop count) position = bitAt words (count * Word.width + position) := by
  have hwidth : 0 < Word.width := by decide
  simp only [bitAt, List.getD_eq_getElem?_getD, List.getElem?_drop]
  rw [Nat.mul_comm, Nat.mul_add_div hwidth, Nat.mul_add_mod]

/-- Setting the bits below a start makes the positions before it present and changes no other. -/
theorem bitAt_raiseBelow (word : UInt64) (later : List UInt64) (start position : Nat)
    (hstart : start < Word.width) :
    bitAt (Word.raiseBelow word start :: later) position
      = (bitAt (word :: later) position || decide (position < start)) := by
  by_cases hposition : position < Word.width
  · rw [bitAt_of_lt _ _ _ hposition, bitAt_of_lt _ _ _ hposition,
      Word.test_raiseBelow _ _ _ hposition]
  · obtain ⟨rest, rfl⟩ := Nat.exists_eq_add_of_le (Nat.le_of_not_lt hposition)
    rw [bitAt_cons_add, bitAt_cons_add, decide_eq_false (by omega), Bool.or_false]

/-! ### Going through the words -/

/-- Within its first word, the search reports the lowest clear bit. -/
private theorem bitAt_firstClear (word : UInt64) (later : List UInt64)
    (hword : Word.firstClear word < Word.width) :
    bitAt (word :: later) (Word.firstClear word) = false ∧
      ∀ position, position < Word.firstClear word → bitAt (word :: later) position = true := by
  obtain ⟨hclear, hbefore⟩ := Word.firstClear_cases word
  constructor
  · rw [bitAt_of_lt _ _ _ hword]
    rcases hclear with ⟨_, hclear⟩ | hwidth
    · exact hclear
    · omega
  · intro position hposition
    rw [bitAt_of_lt _ _ _ (by omega)]
    exact hbefore position hposition

theorem firstClear_lt_of_ne_full (word : UInt64) (hword : word ≠ Word.full) :
    Word.firstClear word < Word.width := by
  obtain ⟨⟨hbound, _⟩ | hwidth, hbefore⟩ := Word.firstClear_cases word
  · exact hbound
  · rw [hwidth] at hbefore
    exact absurd ((Word.eq_full_iff word).mpr hbefore) hword

theorem scan_eq_some {stop base : Nat} {word : UInt64} {later : List UInt64} {index : Nat}
    (hcover : stop ≤ base + Word.width * (later.length + 1))
    (hscan : scan stop base word later = some index) :
    base ≤ index ∧ index < stop ∧ bitAt (word :: later) (index - base) = false ∧
      ∀ position, position < index - base → bitAt (word :: later) position = true := by
  induction later generalizing base word with
  | nil =>
    simp only [scan] at hscan
    split at hscan
    · next hstop =>
      obtain rfl := Option.some.inj hscan
      simp only [List.length_nil] at hcover
      obtain ⟨hclear, hbefore⟩ := bitAt_firstClear word [] (by omega)
      rw [Nat.add_sub_cancel_left]
      exact ⟨Nat.le_add_right _ _, hstop, hclear, hbefore⟩
    · simp at hscan
  | cons next later ih =>
    simp only [scan] at hscan
    by_cases hfull : word = Word.full
    · rw [if_pos hfull] at hscan
      split at hscan
      · rw [List.length_cons, Nat.mul_succ] at hcover
        obtain ⟨hbase, hstop, hclear, hbefore⟩ := ih (by omega) hscan
        have hsplit : index - base = Word.width + (index - (base + Word.width)) := by omega
        refine ⟨by omega, hstop, ?_, ?_⟩
        · rw [hsplit, bitAt_cons_add]
          exact hclear
        · intro position hposition
          by_cases hhere : position < Word.width
          · rw [bitAt_of_lt _ _ _ hhere]
            exact (Word.eq_full_iff word).mp hfull position hhere
          · obtain ⟨rest, rfl⟩ := Nat.exists_eq_add_of_le (Nat.le_of_not_lt hhere)
            rw [bitAt_cons_add]
            exact hbefore rest (by omega)
      · simp at hscan
    · rw [if_neg hfull] at hscan
      split at hscan
      · next hstop =>
        obtain rfl := Option.some.inj hscan
        obtain ⟨hclear, hbefore⟩ :=
          bitAt_firstClear word (next :: later) (firstClear_lt_of_ne_full word hfull)
        rw [Nat.add_sub_cancel_left]
        exact ⟨Nat.le_add_right _ _, hstop, hclear, hbefore⟩
      · simp at hscan

theorem scan_eq_none {stop base : Nat} {word : UInt64} {later : List UInt64}
    (hcover : stop ≤ base + Word.width * (later.length + 1))
    (hscan : scan stop base word later = none) (position : Nat) (hposition : base + position < stop) :
    bitAt (word :: later) position = true := by
  induction later generalizing base word position with
  | nil =>
    simp only [scan] at hscan
    split at hscan
    · simp at hscan
    · simp only [List.length_nil] at hcover
      rw [bitAt_of_lt _ _ _ (by omega)]
      exact (Word.firstClear_cases word).2 position (by omega)
  | cons next later ih =>
    simp only [scan] at hscan
    by_cases hfull : word = Word.full
    · by_cases hhere : position < Word.width
      · rw [bitAt_of_lt _ _ _ hhere]
        exact (Word.eq_full_iff word).mp hfull position hhere
      · obtain ⟨rest, rfl⟩ := Nat.exists_eq_add_of_le (Nat.le_of_not_lt hhere)
        rw [if_pos hfull, if_pos (by omega)] at hscan
        rw [bitAt_cons_add]
        rw [List.length_cons, Nat.mul_succ] at hcover
        exact ih (by omega) hscan rest (by omega)
    · rw [if_neg hfull] at hscan
      split at hscan
      · simp at hscan
      · have hclear := firstClear_lt_of_ne_full word hfull
        rw [bitAt_of_lt _ _ _ (by omega)]
        exact (Word.firstClear_cases word).2 position (by omega)

/-! ### The search of a set -/

/-- A search that has somewhere to look is a scan of the words from that of the start on. -/
private theorem firstAbsent?_eq_scan (bits : Bitset) {start stop : Nat}
    (hstart : start < min stop bits.size) :
    ∃ word later, bits.words.toList.drop (start / Word.width) = word :: later ∧
      min stop bits.size ≤ Word.floor start + Word.width * (later.length + 1) ∧
      bits.firstAbsent? start stop = scan (min stop bits.size) (Word.floor start)
        (Word.raiseBelow word (start % Word.width)) later := by
  have hword := bits.word_lt start (by omega)
  cases hdrop : bits.words.toList.drop (start / Word.width) with
  | nil =>
    rw [List.drop_eq_nil_iff, Array.length_toList] at hdrop
    omega
  | cons word later =>
    have hlength := congrArg List.length hdrop
    rw [List.length_drop, Array.length_toList, bits.words_size, List.length_cons] at hlength
    refine ⟨word, later, rfl, ?_, ?_⟩
    · rw [← hlength]
      simp only [Word.floor, Word.needed, Word.width] at *
      omega
    · simp only [firstAbsent?, if_pos hstart, hdrop]

/-- What a scan from the start's word on reads of a position is what the set holds there, except
that positions before the start count as present. -/
private theorem bitAt_from_start (bits : Bitset) {start position : Nat} {word : UInt64}
    {later : List UInt64} (hdrop : bits.words.toList.drop (start / Word.width) = word :: later) :
    bitAt (Word.raiseBelow word (start % Word.width) :: later) position
      = (bits.contains (Word.floor start + position) || decide (position < start % Word.width)) := by
  rw [bitAt_raiseBelow _ _ _ _ (Nat.mod_lt _ (by decide)), ← hdrop, bitAt_drop, contains_eq_bitAt]
  rfl

theorem firstAbsent?_eq_some {bits : Bitset} {start stop index : Nat}
    (hfound : bits.firstAbsent? start stop = some index) :
    start ≤ index ∧ index < stop ∧ index < bits.size ∧ bits.contains index = false ∧
      ∀ other, start ≤ other → other < index → bits.contains other = true := by
  by_cases hstart : start < min stop bits.size
  · obtain ⟨word, later, hdrop, hcover, hscan⟩ := bits.firstAbsent?_eq_scan hstart
    rw [hscan] at hfound
    obtain ⟨hbase, hstop, hclear, hbefore⟩ := scan_eq_some hcover hfound
    have hfloor : Word.floor start + start % Word.width = start := Nat.div_add_mod' _ _
    rw [bits.bitAt_from_start hdrop, Nat.add_sub_cancel' hbase, Bool.or_eq_false_iff,
      decide_eq_false_iff_not] at hclear
    refine ⟨by omega, by omega, by omega, hclear.1, fun other hother hindex => ?_⟩
    have hpresent := hbefore (other - Word.floor start) (by omega)
    rw [bits.bitAt_from_start hdrop, Nat.add_sub_cancel' (by omega), Bool.or_eq_true,
      decide_eq_true_iff] at hpresent
    rcases hpresent with hpresent | hpresent
    · exact hpresent
    · omega
  · simp [firstAbsent?, hstart] at hfound

theorem firstAbsent?_eq_none {bits : Bitset} {start stop : Nat}
    (hnone : bits.firstAbsent? start stop = none) (index : Nat) (hstart : start ≤ index)
    (hstop : index < stop) (hsize : index < bits.size) : bits.contains index = true := by
  have hbounds : start < min stop bits.size := by omega
  obtain ⟨word, later, hdrop, hcover, hscan⟩ := bits.firstAbsent?_eq_scan hbounds
  rw [hscan] at hnone
  have hfloor : Word.floor start + start % Word.width = start := Nat.div_add_mod' _ _
  have hpresent := scan_eq_none hcover hnone (index - Word.floor start) (by omega)
  rw [bits.bitAt_from_start hdrop, Nat.add_sub_cancel' (by omega), Bool.or_eq_true,
    decide_eq_true_iff] at hpresent
  rcases hpresent with hpresent | hpresent
  · exact hpresent
  · omega

end TextPool.Bitset
