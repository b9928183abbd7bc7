import TextPool.Bytes.Slice
import TextPool.Proofs.Stepwise

/-!
# Parts of a text, without words

`substring` computes with signed words. Which part it gives is said here with integers, which have
no bounds (`part`): for every text whose length is a signed word, and for all words, they agree
(`substring_eq_part`).

A machine that computes the part does so in steps that may go wrong (`Stepwise.substring?`). None
does on a text that is shorter than the greatest signed word, nor on one that is as long if the part
that is asked for ends at a signed word (`Stepwise.substring?_eq`). Otherwise the sum of start and
count, cut down to a signed word, is no more than the length, and then it is taken as it is
(`Stepwise.substring?_of_longest`).
-/

namespace TextPool

/-! ### Signed words as integers -/

theorem toInt_add_of_le {left right : Int64} (hlow : -2 ^ 63 ≤ left.toInt + right.toInt)
    (hhigh : left.toInt + right.toInt < 2 ^ 63) :
    (left + right).toInt = left.toInt + right.toInt := by
  rw [Int64.toInt_add]
  exact Int.bmod_eq_of_le (by omega) (by omega)

theorem toInt_sub_of_le {left right : Int64} (hlow : -2 ^ 63 ≤ left.toInt - right.toInt)
    (hhigh : left.toInt - right.toInt < 2 ^ 63) :
    (left - right).toInt = left.toInt - right.toInt := by
  rw [Int64.toInt_sub]
  exact Int.bmod_eq_of_le (by omega) (by omega)

theorem not_le_toInt {left right : Int64} (hle : ¬left ≤ right) : right.toInt < left.toInt :=
  Int.not_le.mp fun hint => hle (Int64.le_iff_toInt_le.mpr hint)

theorem toInt_max (left right : Int64) : (max left right).toInt = max left.toInt right.toInt := by
  change (if left ≤ right then right else left).toInt = _
  by_cases hle : left ≤ right
  · rw [if_pos hle, Int.max_eq_right (Int64.le_iff_toInt_le.mp hle)]
  · rw [if_neg hle]
    exact (Int.max_eq_left (Int.le_of_lt (not_le_toInt hle))).symm

theorem toInt_min (left right : Int64) : (min left right).toInt = min left.toInt right.toInt := by
  change (if left ≤ right then left else right).toInt = _
  by_cases hle : left ≤ right
  · rw [if_pos hle, Int.min_eq_left (Int64.le_iff_toInt_le.mp hle)]
  · rw [if_neg hle]
    exact (Int.min_eq_right (Int.le_of_lt (not_le_toInt hle))).symm

namespace Bytes

/-! ### Which part it is -/

def placeOf (text : Bytes) (index : Int) : Int :=
  if index < 0 then text.length + index else index

def startOf (text : Bytes) (first : Int) : Int :=
  if first < 0 then max 0 (text.length + first) else first

/-- How many bytes are asked for from `start` on. A negative count is measured back from the end. -/
def countFrom (text : Bytes) (start count : Int) : Int :=
  if 0 ≤ count then count else (text.length - start) + (count + 1)

/-- Where a part would end if the text went on for long enough. -/
def stopOf (text : Bytes) (first count : Int) : Int :=
  text.startOf first + text.countFrom (text.startOf first) count

/-- The end that is asked for is a signed word, or nobody looks at it: the text is shorter than such
a word can tell, or the part begins behind it. -/
def HasStop (text : Bytes) (first count : Int) : Prop :=
  text.length < 2 ^ 63 - 1 ∨ text.length ≤ text.startOf first ∨ text.stopOf first count < 2 ^ 63

/-- The part of `text` that begins at `first`, as much as there is of it. -/
def part (text : Bytes) (first count : Int) : Bytes :=
  if text.length ≤ text.startOf first ∨ text.countFrom (text.startOf first) count < 1 then []
  else text.between (text.startOf first).toNat (min (text.length : Int) (text.stopOf first count)).toNat

variable {text : Bytes}

theorem startOf_eq_max (first : Int) : text.startOf first = max (text.placeOf first) 0 := by
  rw [startOf, placeOf]
  split
  · exact Int.max_comm _ _
  · exact (Int.max_eq_left (by omega)).symm

theorem startOf_nonneg (first : Int) : 0 ≤ text.startOf first := by
  rw [startOf_eq_max]
  exact Int.le_max_right _ _

theorem toInt_signedLength (hlength : text.length < 2 ^ 63) :
    text.signedLength.toInt = text.length :=
  Int64.toInt_ofNat_of_lt hlength

theorem toInt_place (hlength : text.length < 2 ^ 63) (index : Int64) :
    (text.place index).toInt = text.placeOf index.toInt := by
  have hsigned := toInt_signedLength hlength
  have hlow := index.le_toInt
  rw [place, placeOf]
  by_cases hindex : index < 0
  · have hnegative : index.toInt < 0 := Int64.lt_iff_toInt_lt.mp hindex
    rw [if_pos hindex, if_pos hnegative, toInt_add_of_le, hsigned]
    · omega
    · omega
  · have hnonneg : ¬index.toInt < 0 := fun hint => hindex (Int64.lt_iff_toInt_lt.mpr hint)
    rw [if_neg hindex, if_neg hnonneg]

/-- How many bytes there are from a place on. -/
theorem toInt_rest (hlength : text.length < 2 ^ 63) {start : Int64} (hstart : 0 ≤ start.toInt)
    (hinside : start.toInt < text.length) :
    (text.signedLength - start).toInt = text.length - start.toInt := by
  have hsigned := toInt_signedLength hlength
  rw [toInt_sub_of_le, hsigned]
  · omega
  · omega

theorem toInt_countFrom (hlength : text.length < 2 ^ 63) {start : Int64} (hstart : 0 ≤ start.toInt)
    (hinside : start.toInt < text.length) (count : Int64) :
    (if count < 0 then text.signedLength - start + (count + 1) else count).toInt
      = text.countFrom start.toInt count.toInt := by
  have hrest := toInt_rest hlength hstart hinside
  have hlow := count.le_toInt
  rw [countFrom]
  by_cases hcount : count < 0
  · have hnegative : count.toInt < 0 := Int64.lt_iff_toInt_lt.mp hcount
    have hone : (1 : Int64).toInt = 1 := rfl
    have hback : (count + 1).toInt = count.toInt + 1 := by
      rw [toInt_add_of_le, hone]
      · omega
      · omega
    rw [if_pos hcount, if_neg (by omega), toInt_add_of_le, hrest, hback]
    · omega
    · omega
  · have hnonneg : ¬count.toInt < 0 := fun hint => hcount (Int64.lt_iff_toInt_lt.mpr hint)
    rw [if_neg hcount, if_pos (by omega)]

theorem substring_eq_part (hlength : text.length < 2 ^ 63) (first count : Int64) :
    text.substring first count = text.part first.toInt count.toInt := by
  have hsigned := toInt_signedLength hlength
  have hstart : (max (text.place first) 0).toInt = text.startOf first.toInt := by
    rw [toInt_max, toInt_place hlength, Int64.toInt_zero, startOf_eq_max]
  have hnonneg : 0 ≤ (max (text.place first) 0).toInt := hstart ▸ startOf_nonneg first.toInt
  rw [substring, part, stopOf, ← hstart]
  generalize max (text.place first) 0 = start at hnonneg
  dsimp only
  by_cases houtside : text.signedLength ≤ start
  · have hpast := Int64.le_iff_toInt_le.mp houtside
    rw [if_pos houtside, if_pos (.inl (hsigned ▸ hpast))]
  · have hinside : start.toInt < text.length := hsigned ▸ not_le_toInt houtside
    rw [if_neg houtside, ← toInt_countFrom hlength hnonneg hinside count]
    generalize (if count < 0 then text.signedLength - start + (count + 1) else count) = taken
    by_cases hnothing : taken < 1
    · have hless : taken.toInt < 1 := Int64.lt_iff_toInt_lt.mp hnothing
      rw [if_pos hnothing, if_pos (.inr hless)]
    · have hmore : ¬taken.toInt < 1 := fun hint => hnothing (Int64.lt_iff_toInt_lt.mpr hint)
      rw [if_neg hnothing, if_neg (by omega), between, ← Int64.toNat_toInt, ← Int64.toNat_toInt,
        toInt_min, toInt_rest hlength hnonneg hinside]
      congr 1
      omega

/-! ### The two parts at a place -/

theorem part_front {place : Nat} (hplace : place ≤ text.length) :
    text.part 0 place = text.take place := by
  have hstart : text.startOf 0 = 0 := rfl
  have hcount : text.countFrom 0 place = place := if_pos (Int.natCast_nonneg place)
  rw [part, stopOf, hstart, hcount]
  split
  · next hnothing =>
    obtain hempty | hzero := hnothing
    · rw [List.eq_nil_of_length_eq_zero (by omega : text.length = 0), List.take_nil]
    · rw [show place = 0 by omega, List.take_zero]
  · rw [between, Int.toNat_zero, List.drop_zero]
    congr 1
    omega

theorem part_back (place : Nat) : text.part place (-1) = text.drop place := by
  have hstart : text.startOf place = place := if_neg (by omega)
  have hcount : text.countFrom place (-1) = text.length - place := by
    rw [countFrom, if_neg (by decide)]
    omega
  rw [part, stopOf, hstart, hcount]
  split
  · rw [List.drop_of_length_le (by omega)]
  · rw [between, Int.toNat_natCast, List.take_of_length_le]
    rw [List.length_drop]
    omega

theorem zero_notMem_part (hzero : 0 ∉ text) (first count : Int) : 0 ∉ text.part first count := by
  rw [part]
  split
  · exact List.not_mem_nil
  · exact fun hmem => hzero (List.mem_of_mem_drop (List.mem_of_mem_take hmem))

end Bytes

/-! ### In steps that may go wrong -/

namespace Stepwise

def startOf? (total first : Int) : Option Int :=
  if first < 0 then (signed (total + first)).map (max · 0) else some first

def countFrom? (total start count : Int) : Option Int :=
  if count < 0 then do
    let rest ← signed (total - start)
    let back ← signed (count + 1)
    signed (rest + back)
  else some count

def takenFrom? (total start wanted : Int) : Option Int :=
  if total < saturated (start + wanted) then signed (total - start) else some wanted

def partFrom? (text : Bytes) (total start wanted : Int) : Option Bytes := do
  let taken ← takenFrom? total start wanted
  let stop ← signed (start + taken)
  slice text (← position start) (← position stop)

def substring? (text : Bytes) (first count : Int) : Option Bytes := do
  let total ← signed text.length
  if 0 ≤ first ∧ total ≤ first then some []
  else
    let start ← startOf? total first
    let wanted ← countFrom? total start count
    if wanted < 1 then some [] else partFrom? text total start wanted

variable {text : Bytes}

theorem startOf?_eq (hlength : text.length < 2 ^ 63) {first : Int} (hfirst : -2 ^ 63 ≤ first) :
    startOf? text.length first = some (text.startOf first) := by
  rw [startOf?, Bytes.startOf]
  split
  · rw [signed_of_le (by omega) (by omega), Option.map_some, Int.max_comm]
  · rfl

theorem countFrom?_eq (hlength : text.length < 2 ^ 63) {start count : Int} (hstart : 0 ≤ start)
    (hinside : start ≤ text.length) (hcount : -2 ^ 63 ≤ count) :
    countFrom? text.length start count = some (text.countFrom start count) := by
  rw [countFrom?, Bytes.countFrom]
  by_cases hnegative : count < 0
  · rw [if_pos hnegative, if_neg (by omega), signed_of_le (by omega) (by omega), Option.bind_eq_bind,
      Option.bind_some, signed_of_le (by omega) (by omega), Option.bind_some,
      signed_of_le (by omega) (by omega)]
  · rw [if_neg hnegative, if_pos (by omega)]

theorem takenFrom?_eq (hlength : text.length < 2 ^ 63) {start wanted : Int} (hstart : 0 ≤ start)
    (hinside : start ≤ text.length) (hfits : text.length < 2 ^ 63 - 1 ∨ start + wanted < 2 ^ 63) :
    takenFrom? text.length start wanted = some (min (text.length : Int) (start + wanted) - start) := by
  rw [takenFrom?, saturated]
  split
  · rw [signed_of_le (by omega) (by omega)]
    congr 1
    omega
  · congr 1
    omega

theorem partFrom?_eq (hlength : text.length < 2 ^ 63) {start wanted : Int} (hstart : 0 ≤ start)
    (hinside : start ≤ text.length) (hwanted : 0 ≤ wanted)
    (hfits : text.length < 2 ^ 63 - 1 ∨ start + wanted < 2 ^ 63) :
    partFrom? text text.length start wanted
      = some (text.between start.toNat (min (text.length : Int) (start + wanted)).toNat) := by
  have hstop : signed (start + (min (text.length : Int) (start + wanted) - start))
      = some (min (text.length : Int) (start + wanted)) := by
    rw [signed_of_le (by omega) (by omega)]
    congr 1
    omega
  have hposition : position (min (text.length : Int) (start + wanted))
      = some (min (text.length : Int) (start + wanted)).toNat := position_of_nonneg (by omega)
  simp only [partFrom?, takenFrom?_eq hlength hstart hinside hfits, hstop,
    position_of_nonneg hstart, hposition, Option.bind_eq_bind, Option.bind_some]
  exact slice_of_le (by omega) (by omega)

/-- No step goes wrong, and the bytes are those of the part. -/
theorem substring?_eq (hlength : text.length < 2 ^ 63) {first count : Int} (hfirst : -2 ^ 63 ≤ first)
    (hcount : -2 ^ 63 ≤ count) (hstop : text.HasStop first count) :
    substring? text first count = some (text.part first count) := by
  have hstart := text.startOf_nonneg first
  simp only [substring?, signed_of_lt hlength, Option.bind_eq_bind, Option.bind_some]
  rw [Bytes.part]
  by_cases houtside : 0 ≤ first ∧ (text.length : Int) ≤ first
  · have hsame : text.startOf first = first := if_neg (by omega)
    rw [if_pos houtside, hsame, if_pos (.inl houtside.2)]
  · have hinside : text.startOf first ≤ text.length := by
      rw [Bytes.startOf]
      split
      · omega
      · omega
    rw [if_neg houtside, startOf?_eq hlength hfirst, Option.bind_some,
      countFrom?_eq hlength hstart hinside hcount, Option.bind_some]
    by_cases hnothing : text.countFrom (text.startOf first) count < 1
    · rw [if_pos hnothing, if_pos (.inr hnothing)]
    · have hfits : text.length < 2 ^ 63 - 1 ∨ text.stopOf first count < 2 ^ 63 := by
        -- A start before zero is moved to the end only of a text that is empty.
        obtain hshort | hbehind | hfits := hstop
        · exact .inl hshort
        · rw [Bytes.startOf] at hbehind
          split at hbehind
          · omega
          · omega
        · exact .inr hfits
      rw [if_neg hnothing, partFrom?_eq hlength hstart hinside (by omega) hfits]
      split
      · rw [Bytes.between, List.drop_of_length_le (by omega), List.take_nil]
      · rfl

/-- On a text of the greatest length that a signed word can tell, the bytes from the second on, with
a count that is as great, have no end that is a signed word. -/
theorem substring?_of_longest (hlength : text.length = 2 ^ 63 - 1) :
    substring? text 1 (2 ^ 63 - 1) = none := by
  have htotal : (text.length : Int) = 2 ^ 63 - 1 := by omega
  rw [substring?, htotal]
  rfl

end Stepwise

end TextPool
