import Mathlib.Order.Bounds.Basic
import TextPool.Proofs.Bitset.Refinement
import TextPool.Proofs.Bitset.Search

/-!
# The search skips nothing

To pass over words that are full finds what a look at one position after another finds
(`linearSearch?`): the least position between the bounds that is absent, for all bounds, also where
the start lies behind the end, or the end behind the bound of the set.

A machine looks words up by their numbers, and keeps positions in words. `checkedSearch?` is the
search in such steps, of which there may be only so many: it gets stuck where there is no word of a
number, where a position does not fit a word, and where the steps are used up. On a set that changes
have led to none of these happens, with as many steps as the set has words
(`Represents.checkedSearch?_eq`). No bit is set past the bound there, so a full word either ends
before the bound, and then there is another word, or ends at it.
-/

namespace TextPool.Bitset

/-! ### One position after another -/

def absentBetween (bits : Bitset) (start stop : Nat) : Set Nat :=
  {index | start ≤ index ∧ index < min stop bits.size ∧ bits.contains index = false}

/-- The first absent position from `start` on that is below `stop` and below the bound, found by a
look at each of them. -/
def linearSearch? (bits : Bitset) (start stop : Nat) : Option Nat :=
  (List.range' start (min stop bits.size - start)).find? fun index => !bits.contains index

section Least

variable {bits : Bitset} {start stop : Nat}

theorem isLeast_of_firstAbsent? {index : Nat} (hfound : bits.firstAbsent? start stop = some index) :
    IsLeast (bits.absentBetween start stop) index := by
  obtain ⟨hstart, hstop, hsize, habsent, hbefore⟩ := firstAbsent?_eq_some hfound
  refine ⟨⟨hstart, Nat.lt_min.mpr ⟨hstop, hsize⟩, habsent⟩, fun other ⟨hfrom, _, hclear⟩ => ?_⟩
  by_contra hlt
  rw [hbefore other hfrom (Nat.lt_of_not_le hlt)] at hclear
  exact Bool.noConfusion hclear

theorem firstAbsent?_eq_none_iff :
    bits.firstAbsent? start stop = none ↔ bits.absentBetween start stop = ∅ := by
  rw [Set.eq_empty_iff_forall_notMem]
  constructor
  · intro hnone index ⟨hstart, hbounds, habsent⟩
    obtain ⟨hstop, hsize⟩ := Nat.lt_min.mp hbounds
    rw [firstAbsent?_eq_none hnone index hstart hstop hsize] at habsent
    exact Bool.noConfusion habsent
  · intro hempty
    rw [Option.eq_none_iff_forall_ne_some]
    intro index hfound
    exact hempty index (isLeast_of_firstAbsent? hfound).1

theorem firstAbsent?_eq_some_iff {index : Nat} :
    bits.firstAbsent? start stop = some index ↔ IsLeast (bits.absentBetween start stop) index := by
  refine ⟨isLeast_of_firstAbsent?, fun hleast => ?_⟩
  cases hfound : bits.firstAbsent? start stop with
  | none =>
    rw [firstAbsent?_eq_none_iff] at hfound
    exact absurd hleast.1 (hfound ▸ Set.notMem_empty index)
  | some other => rw [(isLeast_of_firstAbsent? hfound).unique hleast]

theorem linearSearch?_eq_some_iff {index : Nat} :
    bits.linearSearch? start stop = some index ↔ IsLeast (bits.absentBetween start stop) index := by
  rw [linearSearch?, List.find?_range'_eq_some, List.mem_range'_1]
  constructor
  · intro ⟨habsent, ⟨hstart, hbounds⟩, hbefore⟩
    refine ⟨⟨hstart, by omega, by simpa using habsent⟩, fun other ⟨hfrom, _, hclear⟩ => ?_⟩
    by_contra hlt
    have hpresent := hbefore other hfrom (Nat.lt_of_not_le hlt)
    simp [hclear] at hpresent
  · intro ⟨⟨hstart, hbounds, habsent⟩, hleast⟩
    refine ⟨by simpa using habsent, ⟨hstart, by omega⟩, fun other hfrom hlt => ?_⟩
    have hpresent : bits.contains other ≠ false := fun hclear =>
      absurd (hleast ⟨hfrom, by omega, hclear⟩) (Nat.not_le_of_lt hlt)
    simpa using hpresent

theorem firstAbsent?_eq_linearSearch? :
    bits.firstAbsent? start stop = bits.linearSearch? start stop := by
  ext index
  exact firstAbsent?_eq_some_iff.trans linearSearch?_eq_some_iff.symm

end Least

/-! ### Steps that can get stuck -/

/-- The search from the word of a number on, with `word` for its bits. There is no result where it
gets stuck. -/
def checkedScan? (words : Array UInt64) (stop : Nat) :
    Nat → Nat → UInt64 → Option (Option Nat)
  | 0, _, _ => none
  | steps + 1, number, word =>
    if word = Word.full then do
      let base ← position? (number + 1) 0
      if base < stop then
        let next ← words[number + 1]?
        checkedScan? words stop steps (number + 1) next
      else return none
    else do
      let index ← position? number (Word.firstClear word)
      return if index < stop then some index else none

def checkedSearch? (steps : Nat) (bits : Bitset) (start stop : Nat) : Option (Option Nat) :=
  let stop := min stop bits.size
  if start < stop then do
    let word ← bits.words[start / Word.width]?
    checkedScan? bits.words stop steps (start / Word.width)
      (Word.raiseBelow word (start % Word.width))
  else some none

private theorem scan_of_full {stop base : Nat} (later : List UInt64)
    (hstop : stop ≤ base + Word.width) : scan stop base Word.full later = none := by
  cases later with
  | nil =>
    have hclear : Word.firstClear Word.full = Word.width := by decide +kernel
    rw [scan, hclear, if_neg (Nat.not_lt_of_le hstop)]
  | cons next later => rw [scan, if_pos rfl, if_neg (Nat.not_lt_of_le hstop)]

private theorem scan_of_ne_full {stop base : Nat} {word : UInt64} (later : List UInt64)
    (hword : word ≠ Word.full) : scan stop base word later =
      if base + Word.firstClear word < stop then some (base + Word.firstClear word) else none := by
  cases later with
  | nil => rfl
  | cons next later => rw [scan, if_neg hword]

theorem drop_words (bits : Bitset) {number : Nat} (hnumber : number < bits.words.size) :
    bits.words.toList.drop number = bits.words[number] :: bits.words.toList.drop (number + 1) := by
  rw [List.drop_eq_getElem_cons (by simpa using hnumber), Array.getElem_toList]

namespace Represents

variable {bits : Bitset} {members : Finset Nat} (hrepresents : bits.Represents members)

include hrepresents

theorem lt_size_of_test {number bit : Nat} (hnumber : number < bits.words.size)
    (hbit : bit < Word.width) (htest : Word.test bits.words[number] bit = true) :
    number * Word.width + bit < bits.size := by
  rw [bits.test_word hnumber hbit, hrepresents.contains_iff] at htest
  exact hrepresents.lt_size _ htest

/-- Each step from a full word leads to another word, or reaches the end. -/
theorem checkedScan?_eq {stop steps number : Nat} {word : UInt64}
    (hlimit : bits.size < Word.limit) (hstop : stop ≤ bits.size)
    (hnumber : number < bits.words.size) (hsteps : bits.words.size ≤ number + steps)
    (hword : ∀ bit < Word.width, Word.test word bit = true →
      number * Word.width + bit < bits.size) :
    checkedScan? bits.words stop steps number word =
      some (scan stop (number * Word.width) word (bits.words.toList.drop (number + 1))) := by
  have hneeded := bits.words_size
  induction steps generalizing number word with
  | zero => omega
  | succ steps ih =>
    rw [checkedScan?]
    by_cases hfull : word = Word.full
    · subst hfull
      -- The last bit of the word is set, so the next word starts no later than at the bound.
      have hbase : number * Word.width + Word.width ≤ bits.size :=
        hword (Word.width - 1) (by decide) (by decide +kernel)
      have hposition : position? (number + 1) 0 = some (number * Word.width + Word.width) := by
        rw [← Nat.succ_mul] at hbase ⊢
        exact position?_eq_some (Nat.lt_of_le_of_lt hbase hlimit)
      rw [if_pos rfl, hposition, Option.bind_eq_bind, Option.bind_some]
      by_cases hmore : number * Word.width + Word.width < stop
      · have hnext : number + 1 < bits.words.size := by
          simp only [Word.needed, Word.width] at *
          omega
        rw [if_pos hmore, Array.getElem?_eq_getElem hnext, Option.bind_eq_bind, Option.bind_some,
          ih hnext (by omega) fun bit hbit htest => hrepresents.lt_size_of_test hnext hbit htest,
          bits.drop_words hnext, scan, if_pos rfl, if_pos hmore, Nat.succ_mul]
      · rw [if_neg hmore, scan_of_full _ (Nat.le_of_not_lt hmore)]
        rfl
    · have hclear := firstClear_lt_of_ne_full word hfull
      have hposition : number * Word.width + Word.firstClear word < Word.limit := by
        simp only [Word.needed, Word.width, Word.limit] at *
        omega
      rw [if_neg hfull, position?_eq_some hposition, scan_of_ne_full _ hfull]
      rfl

/-- As many steps as there are words are enough. -/
theorem checkedSearch?_eq (hlimit : bits.size < Word.limit) {steps : Nat}
    (hsteps : bits.words.size ≤ steps) (start stop : Nat) :
    bits.checkedSearch? steps start stop = some (bits.firstAbsent? start stop) := by
  rw [checkedSearch?, firstAbsent?]
  by_cases hstart : start < min stop bits.size
  · have hnumber := bits.word_lt start (by omega)
    rw [if_pos hstart, if_pos hstart, bits.drop_words hnumber,
      Array.getElem?_eq_getElem hnumber, Option.bind_eq_bind, Option.bind_some]
    refine hrepresents.checkedScan?_eq hlimit (Nat.min_le_right stop bits.size) hnumber
      (hsteps.trans (Nat.le_add_left _ _)) fun bit hbit htest => ?_
    rw [Word.test_raiseBelow _ _ _ hbit, Bool.or_eq_true, decide_eq_true_iff] at htest
    obtain hset | hbelow := htest
    · exact hrepresents.lt_size_of_test hnumber hbit hset
    · have hsplit := Nat.div_add_mod' start Word.width
      omega
  · rw [if_neg hstart, if_neg hstart]

end Represents

/-! ### After any changes -/

/-- No run of changes makes a set so large that its size cannot be expressed. -/
theorem size_after_lt_limit {bits : Bitset} {run : List Change} (hlimit : bits.size < Word.limit)
    (hrun : bits.Admits run) : (bits.after run).size < Word.limit := by
  induction run generalizing bits with
  | nil => exact hlimit
  | cons change rest ih =>
    obtain ⟨hchange, hrest⟩ := hrun
    refine ih ?_ hrest
    rw [size_perform]
    cases change with
    | grow | growWithin => split <;> first | exact hchange | exact hlimit
    | insert | erase => rw [Change.additional, ite_self]; exact hlimit

/-- The search finds what a look at one position after another finds, whatever the set came from. -/
theorem firstAbsent?_after (size : Nat) (hsize : size < Word.limit) (run : List Change)
    (hrun : (ofSize size).Admits run) :
    let bits := (ofSize size).after run
    (∀ start stop : Nat,
      bits.firstAbsent? start stop = bits.linearSearch? start stop ∧
        (∀ index, bits.firstAbsent? start stop = some index ↔
          IsLeast (bits.absentBetween start stop) index) ∧
        (bits.firstAbsent? start stop = none ↔ bits.absentBetween start stop = ∅) ∧
        ∀ steps, bits.words.size ≤ steps →
          bits.checkedSearch? steps start stop = some (bits.firstAbsent? start stop)) ∧
      ∀ start : Nat, bits.firstAbsentFrom? start = bits.linearSearch? start bits.size := by
  intro bits
  have hlimit : bits.size < Word.limit :=
    size_after_lt_limit ((Nat.zero_add size).trans_lt hsize) hrun
  have hrepresents := (represents_ofSize size).after hrun
  refine ⟨fun start stop => ⟨firstAbsent?_eq_linearSearch?, fun index => firstAbsent?_eq_some_iff,
    firstAbsent?_eq_none_iff, fun steps hsteps => ?_⟩, fun start => firstAbsent?_eq_linearSearch?⟩
  exact hrepresents.checkedSearch?_eq hlimit hsteps start stop

/-- In a set of 70 positions that are all present but 67, the search passes over the full word, and
behind 67 it finds nothing. -/
theorem firstAbsent?_after_all_but_one :
    let bits := (ofSize 70).after (((List.range 70).erase 67).map .insert)
    IsLeast (bits.absentBetween 1 100) 67 ∧ bits.absentBetween 68 100 = ∅ ∧
      bits.checkedSearch? 2 1 100 = some (some 67) ∧ bits.linearSearch? 68 bits.size = none := by
  intro bits
  have hrun : (ofSize 70).Admits (((List.range 70).erase 67).map .insert) := by decide +kernel
  obtain ⟨hsearch, hfrom⟩ := firstAbsent?_after 70 (by decide) _ hrun
  have hfound : bits.firstAbsent? 1 100 = some 67 := by decide +kernel
  have hnone : bits.firstAbsent? 68 100 = none := by decide +kernel
  obtain ⟨_, hleast, _, hchecked⟩ := hsearch 1 100
  obtain ⟨_, _, hempty, _⟩ := hsearch 68 100
  refine ⟨(hleast 67).mp hfound, hempty.mp hnone, ?_, ?_⟩
  · rw [hchecked 2 (by decide +kernel), hfound]
  · rw [← hfrom]
    decide +kernel

end TextPool.Bitset
