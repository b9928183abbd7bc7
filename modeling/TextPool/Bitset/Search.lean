import TextPool.Bitset.Basic

/-!
# Finding an absent position

The search goes word by word: a word with every bit set is passed over without a look at its bits.
In the first word the positions before the start count as present. The last word may have clear
bits past the bound, and those are never reported.
-/

namespace TextPool.Bitset

/-- Looks for a clear bit in `word`, which holds the positions from `base` on, and then in the
words after it. Nothing from `stop` on is reported. -/
def scan (stop base : Nat) (word : UInt64) : List UInt64 → Option Nat
  | [] => if base + Word.firstClear word < stop then some (base + Word.firstClear word) else none
  | next :: later =>
    if word = Word.full then
      if base + Word.width < stop then scan stop (base + Word.width) next later else none
    else
      if base + Word.firstClear word < stop then some (base + Word.firstClear word) else none

/-- The least absent position from `start` on that is below `stop` and below the bound. -/
def firstAbsent? (bits : Bitset) (start stop : Nat) : Option Nat :=
  let stop := min stop bits.size
  if start < stop then
    match bits.words.toList.drop (start / Word.width) with
    | [] => none
    | word :: later =>
      scan stop (Word.floor start) (Word.raiseBelow word (start % Word.width)) later
  else none

/-- The least absent position from `start` on. -/
def firstAbsentFrom? (bits : Bitset) (start : Nat) : Option Nat :=
  bits.firstAbsent? start bits.size

end TextPool.Bitset
