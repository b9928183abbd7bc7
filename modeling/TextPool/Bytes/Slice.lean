import TextPool.Bytes.Basic

/-!
# Parts of a text

Positions are signed 64-bit numbers: a negative one counts from the end, so `-1` is the last byte.
The readers differ in what becomes of a position before the start. `byteAt` and `find?` find nothing
there; `substring` moves it to the start. A negative count of bytes is measured back from the end:
`-1` runs to the end, `-2` stops one byte short. An empty needle occurs nowhere.
-/

namespace TextPool.Bytes

/-- The length of a text as a signed number. -/
def signedLength (text : Bytes) : Int64 :=
  Int64.ofNat text.length

/-- The place an index names, counted from the start. It may lie outside the text. -/
def place (text : Bytes) (index : Int64) : Int64 :=
  if index < 0 then text.signedLength + index else index

/-- The byte at an index, or zero, which no text holds, if the index lies outside the text. -/
def byteAt (text : Bytes) (index : Int64) : UInt8 :=
  let place := text.place index
  if place < 0 ∨ text.signedLength ≤ place then 0 else text.getD place.toNatClampNeg 0

/-- The bytes of `text` from `first` on, as many as `count` says. A count that passes the end stops
there. -/
def substring (text : Bytes) (first count : Int64) : Bytes :=
  let start := max (text.place first) 0
  if text.signedLength ≤ start then []
  else
    let rest := text.signedLength - start
    let taken := if count < 0 then rest + (count + 1) else count
    if taken < 1 then []
    else (text.drop start.toNatClampNeg).take (min taken rest).toNatClampNeg

/-- Where `needle` first occurs in bytes of which the first stands at `position`. -/
def indexFrom? (needle : Bytes) (position : Nat) : Bytes → Option Nat
  | [] => none
  | byte :: rest =>
    if needle.isPrefixOf (byte :: rest) then some position
    else indexFrom? needle (position + 1) rest

/-- The leftmost occurrence of `needle` in `text` that starts at index `first` or later. -/
def find? (text needle : Bytes) (first : Int64) : Option Nat :=
  let start := text.place first
  if start < 0 ∨ text.signedLength ≤ start ∨ needle.isEmpty then none
  else indexFrom? needle start.toNatClampNeg (text.drop start.toNatClampNeg)

/-! ### Indices outside a text -/

theorem signedLength_toInt_le (text : Bytes) : text.signedLength.toInt ≤ text.length := by
  rw [signedLength, Int64.toInt_ofNat', Int.bmod_eq_emod]
  have hmod : (text.length : Int) % Int64.size ≤ text.length := Int.ofNat_le.mpr (Nat.mod_le _ _)
  split <;> omega

theorem byteAt_eq_zero_iff {text : Bytes} (hzero : 0 ∉ text) (index : Int64) :
    text.byteAt index = 0 ↔ text.place index < 0 ∨ text.signedLength ≤ text.place index := by
  by_cases houtside : text.place index < 0 ∨ text.signedLength ≤ text.place index
  · rw [byteAt, if_pos houtside]
    exact iff_of_true rfl houtside
  · rw [byteAt, if_neg houtside]
    refine iff_of_false (fun hbyte => hzero ?_) houtside
    have hinside : (text.place index).toNatClampNeg < text.length := by
      have hlength := text.signedLength_toInt_le
      simp only [Int64.lt_iff_toInt_lt, Int64.le_iff_toInt_le, Int64.toInt_zero] at houtside
      rw [← Int64.toNat_toInt]
      omega
    rw [List.getD_eq_getElem?_getD, List.getElem?_eq_getElem hinside, Option.getD_some] at hbyte
    exact hbyte ▸ List.getElem_mem hinside

end TextPool.Bytes
