import TextPool.Proofs.Bytes.Search

/-!
# Single bytes of a text

Where an index points is said with integers (`placeOf`). For every text whose length is a signed
word, and for all words, `byteAt` gives the byte there, and zero exactly if the place lies outside
the text, for no text holds a zero (`byteAt_eq_zero_iff_of_length`). A part that begins at a byte
and is one long is that byte (`part_one`), although a part that begins before the text is moved to
its start. No step of a machine goes wrong on the way (`Stepwise.byteAt?_eq`).
-/

namespace TextPool

namespace Bytes

variable {text : Bytes} (hlength : text.length < 2 ^ 63)

include hlength

theorem outside_iff (index : Int64) :
    (text.place index < 0 ∨ text.signedLength ≤ text.place index) ↔
      (text.placeOf index.toInt < 0 ∨ text.length ≤ text.placeOf index.toInt) := by
  rw [Int64.lt_iff_toInt_lt, Int64.le_iff_toInt_le, toInt_place hlength, toInt_signedLength hlength,
    Int64.toInt_zero]

theorem byteAt_of_outside {index : Int64}
    (houtside : text.placeOf index.toInt < 0 ∨ text.length ≤ text.placeOf index.toInt) :
    text.byteAt index = 0 :=
  if_pos ((outside_iff hlength index).mpr houtside)

theorem byteAt_eq_zero_iff_of_length (hzero : 0 ∉ text) (index : Int64) :
    text.byteAt index = 0 ↔
      text.placeOf index.toInt < 0 ∨ text.length ≤ text.placeOf index.toInt := by
  rw [byteAt_eq_zero_iff hzero, outside_iff hlength]

section Inside

variable {index : Int64} (hstart : 0 ≤ text.placeOf index.toInt)
  (hend : text.placeOf index.toInt < text.length)

include hstart hend

theorem getElem?_placeOf :
    text[(text.placeOf index.toInt).toNat]? = some (text.byteAt index) := by
  have hinside : ¬(text.place index < 0 ∨ text.signedLength ≤ text.place index) := by
    rw [outside_iff hlength]
    omega
  have hbyte : text.byteAt index = text.getD (text.placeOf index.toInt).toNat 0 := by
    rw [byteAt, if_neg hinside, ← Int64.toNat_toInt, toInt_place hlength]
  rw [hbyte, List.getD_eq_getElem?_getD, List.getElem?_eq_getElem (by omega), Option.getD_some]

theorem part_one : text.part index.toInt 1 = [text.byteAt index] := by
  have hplace : text.startOf index.toInt = text.placeOf index.toInt :=
    (startOf_eq_max index.toInt).trans (Int.max_eq_left hstart)
  have hcount : text.countFrom (text.placeOf index.toInt) 1 = 1 := rfl
  have hbyte := getElem?_placeOf hlength hstart hend
  rw [part, stopOf, hplace, hcount, if_neg (by omega), between]
  generalize text.placeOf index.toInt = place at hstart hend hbyte
  have hone : (min (text.length : Int) (place + 1)).toNat - place.toNat = 1 := by omega
  obtain ⟨hlt, hget⟩ := List.getElem?_eq_some_iff.mp hbyte
  rw [hone, List.drop_eq_getElem_cons hlt, hget]
  rfl

end Inside

end Bytes

namespace Stepwise

def byteAt? (text : Bytes) (index : Int) : Option UInt8 := do
  let total ← signed text.length
  let place ← placeOf? total index
  if place < 0 ∨ total ≤ place then some 0
  else
    let place ← position place
    text[place]?

theorem byteAt?_eq {text : Bytes} (hlength : text.length < 2 ^ 63) (index : Int64) :
    byteAt? text index.toInt = some (text.byteAt index) := by
  simp only [byteAt?, signed_of_lt hlength, placeOf?_eq hlength index.le_toInt, Option.bind_eq_bind,
    Option.bind_some]
  by_cases houtside : text.placeOf index.toInt < 0 ∨ text.length ≤ text.placeOf index.toInt
  · rw [if_pos houtside, Bytes.byteAt_of_outside hlength houtside]
  · have hstart : 0 ≤ text.placeOf index.toInt := by omega
    rw [if_neg houtside, position_of_nonneg hstart, Option.bind_some]
    exact Bytes.getElem?_placeOf hlength hstart (by omega)

end Stepwise

end TextPool
