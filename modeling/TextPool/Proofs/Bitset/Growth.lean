import TextPool.Proofs.Bitset.LinearSearch
import TextPool.Proofs.Stepwise

/-!
# Growing a set, all or nothing

A machine keeps the words and the size of a set each by itself (`Stepwise.Packed`), and when a set
is to grow it first adds up the new size, then asks for the memory and only then changes anything.
Wherever the new size is a word, a set that has come about by any changes is afterwards the set that
`Bitset.grow` gives, or for want of memory the set it was (`growWithin?_eq`). This is so for every
way of adding that is right for such sums, and whatever memory there is.

Where the new size is no word, the request has no outcome (`growWithin_eq_overflow_iff`). A machine
that looks whether the sum fits gets stuck there, and one that drops what does not fit ends with
fewer positions than there were (`growWithin?_wrapped`).
-/

namespace TextPool

namespace Stepwise

/-- A packed set as a machine keeps it. Nothing ties the words to the size. -/
structure Packed where
  words : Array UInt64
  size : Nat
  deriving DecidableEq

namespace Packed

def ofBitset (bits : Bitset) : Packed :=
  ⟨bits.words, bits.size⟩

section Steps

variable (add : Nat → Nat → Option Nat) (reserves : Nat → Bool)

def grow? (bits : Packed) (additional : Nat) : Option Packed := do
  let size ← add bits.size additional
  let count := Word.needed size
  if bits.words.size < count then
    return ⟨bits.words ++ Array.replicate (count - bits.words.size) 0, size⟩
  else return ⟨bits.words, size⟩

/-- Tells whether anything was done. Memory is asked for only if more words are needed. -/
def growWithin? (bits : Packed) (additional : Nat) : Option (Bool × Packed) := do
  let count := Word.needed (← add bits.size additional)
  if bits.words.size < count ∧ reserves (count - bits.words.size) = false then return (false, bits)
  else return (true, ← bits.grow? add additional)

end Steps

/-- Where the words there are will do for a size, whatever it is, it is the size afterwards. -/
theorem growWithin?_of_needed_le {bits : Packed} {additional size : Nat}
    {add : Nat → Nat → Option Nat} {reserves : Nat → Bool}
    (hsum : add bits.size additional = some size) (hwords : Word.needed size ≤ bits.words.size) :
    bits.growWithin? add reserves additional = some (true, ⟨bits.words, size⟩) := by
  have henough : ¬bits.words.size < Word.needed size := Nat.not_lt_of_le hwords
  simp only [growWithin?, grow?, hsum, henough, Option.bind_eq_bind, Option.bind_some, Option.pure_def,
    false_and, if_false]

end Packed

end Stepwise

namespace Bitset

open Stepwise (Packed Adds sum wrapped)

/-- No more words are needed than there are new positions. -/
theorem lacking_le (bits : Bitset) (additional : Nat) : bits.lacking additional ≤ additional := by
  rw [lacking, bits.words_size]
  simp only [Word.needed, Word.width]
  omega

/-! ### Where the new size is a word -/

section Fits

variable {bits : Bitset} {additional : Nat} (hfits : bits.size + additional < Word.limit)

include hfits

theorem growWithin_of_fits (memory : Nat) :
    bits.growWithin memory additional
      = if 0 < bits.lacking additional ∧ memory ≤ bits.lacking additional then .refused
        else .grown (bits.grow additional) :=
  if_neg (Nat.not_le_of_lt hfits)

variable {add : Nat → Nat → Option Nat} (hadd : Adds add)

include hadd

theorem grow?_eq :
    (Packed.ofBitset bits).grow? add additional = some (Packed.ofBitset (bits.grow additional)) := by
  have hsum : add (Packed.ofBitset bits).size additional = some (bits.size + additional) :=
    hadd _ _ hfits
  simp only [Packed.grow?, hsum, Option.bind_eq_bind, Option.bind_some]
  split
  · rfl
  · next hwords =>
    have hnone : Word.needed (bits.size + additional) - bits.words.size = 0 :=
      Nat.sub_eq_zero_of_le (Nat.le_of_not_lt hwords)
    simp only [Packed.ofBitset, grow, hnone, Array.replicate_zero, Array.append_empty, Option.pure_def]

theorem growWithin?_eq (reserves : Nat → Bool) :
    (Packed.ofBitset bits).growWithin? add reserves additional
      = some (if 0 < bits.lacking additional ∧ reserves (bits.lacking additional) = false
          then (false, Packed.ofBitset bits)
          else (true, Packed.ofBitset (bits.grow additional))) := by
  have hsum : add (Packed.ofBitset bits).size additional = some (bits.size + additional) :=
    hadd _ _ hfits
  have hlacking : (Packed.ofBitset bits).words.size < Word.needed (bits.size + additional) ↔
      0 < bits.lacking additional := Nat.sub_pos_iff_lt.symm
  simp only [Packed.growWithin?, hsum, grow?_eq hfits hadd, Option.bind_eq_bind, Option.bind_some,
    hlacking]
  exact (apply_ite some _ _ _).symm

end Fits

/-- A machine with memory for fewer than so many words does what `perform` tells. -/
theorem growWithin?_eq_perform {bits : Bitset} {additional : Nat}
    (hfits : bits.size + additional < Word.limit) {add : Nat → Nat → Option Nat} (hadd : Adds add)
    (memory : Nat) :
    (Packed.ofBitset bits).growWithin? add (decide <| · < memory) additional
      = some ((bits.perform (.growWithin memory additional)).map id Packed.ofBitset) := by
  rw [growWithin?_eq hfits hadd, perform, growWithin_of_fits hfits]
  simp only [decide_eq_false_iff_not, Nat.not_lt]
  split
  · rfl
  · rfl

/-! ### Where the new size is no word -/

theorem growWithin_eq_overflow_iff (bits : Bitset) (memory additional : Nat) :
    bits.growWithin memory additional = .overflow ↔ Word.limit ≤ bits.size + additional := by
  constructor
  · intro hoverflow
    by_contra hfits
    rw [growWithin_of_fits (Nat.lt_of_not_le hfits)] at hoverflow
    split at hoverflow
    · cases hoverflow
    · cases hoverflow
  · intro hpast
    exact if_pos hpast

section Past

variable {bits : Bitset} {additional : Nat} (hpast : Word.limit ≤ bits.size + additional)
  (reserves : Nat → Bool)

include hpast

theorem growWithin?_sum : (Packed.ofBitset bits).growWithin? sum reserves additional = none := by
  have hsum : sum (Packed.ofBitset bits).size additional = none := if_neg (Nat.not_lt_of_le hpast)
  rw [Packed.growWithin?, hsum]
  rfl

theorem growWithin?_wrapped (hsize : bits.size < Word.limit) (hadditional : additional < Word.limit) :
    (Packed.ofBitset bits).growWithin? wrapped reserves additional
      = some (true, ⟨bits.words, bits.size + additional - Word.limit⟩) := by
  have hsum : wrapped bits.size additional = some (bits.size + additional - Word.limit) := by
    rw [wrapped, Nat.mod_eq_sub_mod hpast, Nat.mod_eq_of_lt (by omega)]
  apply Packed.growWithin?_of_needed_le hsum
  rw [Packed.ofBitset, bits.words_size]
  exact Nat.div_le_div_right (by omega)

end Past

/-! ### After any changes -/

/-- What is known of a growth of a set whose new size is a word. -/
structure GrowsWhole (bits : Bitset) (members : Finset Nat) (additional : Nat) : Prop where
  size_eq : (bits.grow additional).size = bits.size + additional
  contains_eq : ∀ index, (bits.grow additional).contains index = bits.contains index
  /-- Every position that is gained is absent. -/
  absent : ∀ index, bits.size ≤ index → (bits.grow additional).contains index = false
  agrees : (bits.grow additional).Agrees members
  grow?_eq : ∀ add, Adds add →
    (Packed.ofBitset bits).grow? add additional = some (Packed.ofBitset (bits.grow additional))
  growWithin_eq : ∀ memory, bits.growWithin memory additional
    = if 0 < bits.lacking additional ∧ memory ≤ bits.lacking additional then .refused
      else .grown (bits.grow additional)
  growWithin?_eq : ∀ add, Adds add → ∀ reserves,
    (Packed.ofBitset bits).growWithin? add reserves additional
      = some (if 0 < bits.lacking additional ∧ reserves (bits.lacking additional) = false
          then (false, Packed.ofBitset bits)
          else (true, Packed.ofBitset (bits.grow additional)))
  perform_eq : ∀ add, Adds add → ∀ memory,
    (Packed.ofBitset bits).growWithin? add (decide <| · < memory) additional
      = some ((bits.perform (.growWithin memory additional)).map id Packed.ofBitset)

theorem Represents.growsWhole {bits : Bitset} {members : Finset Nat}
    (hrepresents : bits.Represents members) {additional : Nat}
    (hfits : bits.size + additional < Word.limit) : bits.GrowsWhole members additional where
  size_eq := rfl
  contains_eq := bits.contains_grow additional
  absent := hrepresents.agrees.contains_grow additional
  agrees := (hrepresents.grow additional).agrees
  grow?_eq _ hadd := Bitset.grow?_eq hfits hadd
  growWithin_eq := growWithin_of_fits hfits
  growWithin?_eq _ hadd := Bitset.growWithin?_eq hfits hadd
  perform_eq _ hadd := growWithin?_eq_perform hfits hadd

/-- All this is known only where the new size is a word, for otherwise the request has no
outcome. -/
theorem Represents.growsWhole_iff {bits : Bitset} {members : Finset Nat}
    (hrepresents : bits.Represents members) (additional : Nat) :
    bits.GrowsWhole members additional ↔ bits.size + additional < Word.limit := by
  constructor
  · intro hgrows
    by_contra hfits
    have hoverflow := (bits.growWithin_eq_overflow_iff 0 additional).mpr (Nat.le_of_not_lt hfits)
    rw [hgrows.growWithin_eq] at hoverflow
    split at hoverflow
    · cases hoverflow
    · cases hoverflow
  · exact hrepresents.growsWhole

structure Overflows (bits : Bitset) (additional : Nat) : Prop where
  growWithin_eq : ∀ memory, bits.growWithin memory additional = .overflow
  growWithin?_sum : ∀ reserves,
    (Packed.ofBitset bits).growWithin? sum reserves additional = none
  growWithin?_wrapped : ∀ reserves, ∃ left,
    (Packed.ofBitset bits).growWithin? wrapped reserves additional = some (true, left) ∧
      left.words = bits.words ∧ left.size < bits.size

theorem overflows {bits : Bitset} {additional : Nat} (hsize : bits.size < Word.limit)
    (hadditional : additional < Word.limit) (hpast : Word.limit ≤ bits.size + additional) :
    bits.Overflows additional where
  growWithin_eq memory := (bits.growWithin_eq_overflow_iff memory additional).mpr hpast
  growWithin?_sum := Bitset.growWithin?_sum hpast
  growWithin?_wrapped reserves :=
    ⟨_, Bitset.growWithin?_wrapped hpast reserves hsize hadditional, rfl, by dsimp only; omega⟩

end Bitset

end TextPool
