import TextPool.Word

/-!
# Sets of positions, packed into words

A set of positions below a bound, one bit for each, 64 to a word. The bound only grows, and the
positions it gains are absent, also in a word that was partly in use.

Membership is `contains`, defined for every position: those from the bound on are absent. What
each change does to it is one equation, `contains_insert`, `contains_erase` and `contains_grow`,
and the rest of the library looks no further into the words than those.
-/

namespace TextPool

/-- A set of positions below `size`. -/
structure Bitset where
  /-- The bits, in ascending order. -/
  words : Array UInt64
  size : Nat
  /-- There are as many words as the positions need. -/
  words_size : words.size = Word.needed size
  deriving DecidableEq

/-- What becomes of a set that is to have more positions. -/
inductive Bitset.Growth where
  | grown (bits : Bitset)
  /-- There is no memory for the new words, and the set stays as it was. -/
  | refused
  /-- The new count of positions cannot be expressed, so the request makes no sense. -/
  | overflow
  deriving DecidableEq

namespace Bitset

def empty : Bitset :=
  ⟨#[], 0, rfl⟩

def contains (bits : Bitset) (index : Nat) : Bool :=
  Word.test (bits.words.getD (index / Word.width) 0) (index % Word.width)

/-! ### Change -/

/-- Adds a position and tells whether it was absent. Positions from the bound on are not added. -/
def insert (bits : Bitset) (index : Nat) : Bool × Bitset :=
  if index < bits.size ∧ bits.contains index = false then
    let words := bits.words.modify (index / Word.width) (Word.raise · (index % Word.width))
    (true, ⟨words, bits.size, by simp [words, bits.words_size]⟩)
  else (false, bits)

/-- Removes a position and tells whether it was present. -/
def erase (bits : Bitset) (index : Nat) : Bool × Bitset :=
  if index < bits.size ∧ bits.contains index = true then
    let words := bits.words.modify (index / Word.width) (Word.lower · (index % Word.width))
    (true, ⟨words, bits.size, by simp [words, bits.words_size]⟩)
  else (false, bits)

/-- Adds `additional` positions, all of them absent. -/
def grow (bits : Bitset) (additional : Nat) : Bitset :=
  let size := bits.size + additional
  ⟨bits.words ++ Array.replicate (Word.needed size - bits.words.size) 0, size, by
    have hmono : Word.needed bits.size ≤ Word.needed size :=
      Nat.div_le_div_right (by omega)
    simp only [Array.size_append, Array.size_replicate, bits.words_size]
    omega⟩

/-- How many words more a set needs that is to have more positions. -/
def lacking (bits : Bitset) (additional : Nat) : Nat :=
  Word.needed (bits.size + additional) - bits.words.size

/-- Adds positions if their count can be expressed and no memory, or less than `memory` words of it,
is needed. -/
def growWithin (memory : Nat) (bits : Bitset) (additional : Nat) : Growth :=
  if Word.limit ≤ bits.size + additional then .overflow
  else if 0 < bits.lacking additional ∧ memory ≤ bits.lacking additional then .refused
  else .grown (bits.grow additional)

def ofSize (size : Nat) : Bitset :=
  empty.grow size

/-! ### Size after a change -/

theorem size_insert (bits : Bitset) (index : Nat) : (bits.insert index).2.size = bits.size := by
  unfold insert
  split <;> rfl

theorem size_erase (bits : Bitset) (index : Nat) : (bits.erase index).2.size = bits.size := by
  unfold erase
  split <;> rfl

/-! ### Membership after a change -/

theorem word_lt (bits : Bitset) (index : Nat) (hindex : index < bits.size) :
    index / Word.width < bits.words.size := by
  rw [bits.words_size]
  simp only [Word.needed, Word.width] at *
  omega

theorem contains_insert (bits : Bitset) (index other : Nat) :
    (bits.insert index).2.contains other
      = (bits.contains other || decide (index = other ∧ index < bits.size)) := by
  unfold insert
  split
  · next h =>
    have hword := bits.word_lt index h.1
    by_cases hsame : index / Word.width = other / Word.width
    · simp only [contains, Array.getD_eq_getD_getElem?, Array.getElem?_modify, hsame, if_true,
        Array.getElem?_eq_getElem (hsame ▸ hword), Option.map_some, Option.getD_some]
      rw [Word.test_raise _ _ _ (Nat.mod_lt _ (by decide))]
      congr 1
      simp only [h.1, and_true, decide_eq_decide]
      simp only [Word.width] at *
      omega
    · have hne : index ≠ other := fun heq => hsame (by rw [heq])
      simp [contains, Array.getD_eq_getD_getElem?, Array.getElem?_modify, hsame, hne]
  · next h =>
    by_cases heq : index = other
    · subst heq
      by_cases hsize : index < bits.size
      · simp [hsize] at h ⊢
        exact h
      · simp [hsize]
    · simp [heq]

theorem contains_erase (bits : Bitset) (index other : Nat) :
    (bits.erase index).2.contains other
      = (bits.contains other && !decide (index = other ∧ index < bits.size)) := by
  unfold erase
  split
  · next h =>
    have hword := bits.word_lt index h.1
    by_cases hsame : index / Word.width = other / Word.width
    · simp only [contains, Array.getD_eq_getD_getElem?, Array.getElem?_modify, hsame, if_true,
        Array.getElem?_eq_getElem (hsame ▸ hword), Option.map_some, Option.getD_some]
      rw [Word.test_lower]
      congr 2
      simp only [h.1, and_true, decide_eq_decide]
      simp only [Word.width] at *
      omega
    · have hne : index ≠ other := fun heq => hsame (by rw [heq])
      simp [contains, Array.getD_eq_getD_getElem?, Array.getElem?_modify, hsame, hne]
  · next h =>
    by_cases heq : index = other
    · subst heq
      by_cases hsize : index < bits.size
      · simp [hsize] at h ⊢
        exact h
      · simp [hsize]
    · simp [heq]

theorem contains_grow (bits : Bitset) (additional index : Nat) :
    (bits.grow additional).contains index = bits.contains index := by
  simp only [contains, grow, Array.getD_eq_getD_getElem?, Array.getElem?_append,
    Array.getElem?_replicate]
  split
  · rfl
  · next h =>
    rw [Array.getElem?_eq_none (by omega)]
    split <;> rfl

theorem contains_ofSize (size index : Nat) : (ofSize size).contains index = false := by
  rw [ofSize, contains_grow]
  simp [contains, empty, Word.test]

/-! ### The whole set -/

/-- The positions in the set, in ascending order. -/
def toList (bits : Bitset) : List Nat :=
  bits.words.toList.zipIdx.flatMap fun (word, index) =>
    (Word.ones word).map (index * Word.width + ·)

def count (bits : Bitset) : Nat :=
  bits.words.toList.foldr (fun word total => (Word.ones word).length + total) 0

end Bitset

end TextPool
