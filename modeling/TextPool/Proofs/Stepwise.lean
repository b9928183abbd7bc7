import Mathlib.Tactic.Ring
import TextPool.Bytes.Basic
import TextPool.Word

/-!
# Steps of a machine

A machine computes in words and looks bytes up by their positions, so a step of it can go wrong
where numbers and lists cannot: a sum may not fit a word, and a position may lie outside. Each step
here has no result (`none`) where it goes wrong. A computation is shown to be safe by writing it in
these steps and proving that it has a result.
-/

namespace TextPool.Stepwise

/-- The sum of two words, if it is one. -/
def sum (left right : Nat) : Option Nat :=
  if left + right < Word.limit then some (left + right) else none

/-- The sum of two words, less what does not fit a word. -/
def wrapped (left right : Nat) : Option Nat :=
  some ((left + right) % Word.limit)

/-- A way to add two words that is right wherever the sum is a word, whatever it does elsewhere. -/
def Adds (add : Nat → Nat → Option Nat) : Prop :=
  ∀ left right, left + right < Word.limit → add left right = some (left + right)

def difference (left right : Nat) : Option Nat :=
  if right ≤ left then some (left - right) else none

/-- The number, if it is a signed word. -/
def signed (number : Int) : Option Int :=
  if -2 ^ 63 ≤ number ∧ number < 2 ^ 63 then some number else none

/-- The signed word that is closest to a number. -/
def saturated (number : Int) : Int :=
  max (-2 ^ 63) (min number (2 ^ 63 - 1))

/-- The number as a position. Below zero there is none. -/
def position (number : Int) : Option Nat :=
  if 0 ≤ number then some number.toNat else none

def slice (bytes : Bytes) (start stop : Nat) : Option Bytes :=
  if start ≤ stop ∧ stop ≤ bytes.length then some (bytes.between start stop) else none

theorem adds_sum : Adds sum :=
  fun _ _ hfits => if_pos hfits

theorem adds_wrapped : Adds wrapped :=
  fun _ _ hfits => congrArg some (Nat.mod_eq_of_lt hfits)

theorem difference_of_le {left right : Nat} (hle : right ≤ left) :
    difference left right = some (left - right) :=
  if_pos hle

theorem signed_of_le {number : Int} (hlow : -2 ^ 63 ≤ number) (hhigh : number < 2 ^ 63) :
    signed number = some number :=
  if_pos ⟨hlow, hhigh⟩

theorem signed_of_lt {number : Nat} (hnumber : number < 2 ^ 63) :
    signed number = some (number : Int) :=
  signed_of_le (by omega) (by omega)

theorem position_of_nonneg {number : Int} (hnumber : 0 ≤ number) :
    position number = some number.toNat :=
  if_pos hnumber

theorem slice_of_le {bytes : Bytes} {start stop : Nat} (hstart : start ≤ stop)
    (hstop : stop ≤ bytes.length) : slice bytes start stop = some (bytes.between start stop) :=
  if_pos ⟨hstart, hstop⟩

theorem slice_to_end {bytes : Bytes} {start : Nat} (hstart : start ≤ bytes.length) :
    slice bytes start bytes.length = some (bytes.drop start) := by
  rw [slice_of_le hstart (Nat.le_refl _), Bytes.between, List.take_of_length_le]
  exact Nat.le_of_eq List.length_drop

end TextPool.Stepwise
