import Mathlib.Data.List.Sort
import Mathlib.Order.Bounds.Basic
import Mathlib.Order.Nat
import TextPool.Proofs.Bytes.Slice

/-!
# The leftmost occurrence

The search finds the least place from its start on at which the needle stands, and nothing exactly
if there is no such place (`find?_eq_some_iff`, `find?_eq_none_iff`). Where it starts is reckoned
with integers, for all signed words and for all texts whose length is one.

A machine looks at one window of the text after another, tells the place as a signed word, and takes
`-1` for none (`Stepwise.find?`). No step of it goes wrong, and what it tells is what the search
finds (`Stepwise.find?_eq`).
-/

namespace TextPool

namespace Bytes

/-- The places from `start` on at which `needle` stands in `text`. -/
def occurrences (text needle : Bytes) (start : Int) : Set Nat :=
  {place | start ≤ place ∧ needle <+: text.drop place}

variable {text needle : Bytes}

/-! ### Where a needle stands -/

theorem add_length_le_of_prefix {place : Nat} (hneedle : needle ≠ [])
    (hstands : needle <+: text.drop place) : place + needle.length ≤ text.length := by
  have hlength := hstands.length_le
  have hpos := List.length_pos_of_ne_nil hneedle
  rw [List.length_drop] at hlength
  omega

theorem between_eq_iff {place : Nat} :
    text.between place (place + needle.length) = needle ↔ needle <+: text.drop place := by
  rw [between, Nat.add_sub_cancel_left, List.prefix_iff_eq_take]
  exact eq_comm

theorem occurrences_of_short {start : Int} (hneedle : needle ≠ [])
    (hshort : text.length < start + needle.length) : text.occurrences needle start = ∅ := by
  rw [Set.eq_empty_iff_forall_notMem]
  intro place ⟨hstart, hstands⟩
  have hend := add_length_le_of_prefix hneedle hstands
  omega

theorem occurrences_of_zero {start : Int} (htext : 0 ∉ text) (hneedle : 0 ∈ needle) :
    text.occurrences needle start = ∅ := by
  rw [Set.eq_empty_iff_forall_notMem]
  intro place ⟨_, hstands⟩
  exact htext (List.mem_of_mem_drop (hstands.subset hneedle))

/-- Behind the least of the places are the others. -/
theorem mem_occurrences_iff_of_isLeast {start : Int} {least : Nat}
    (hleast : IsLeast (text.occurrences needle start) least) (place : Nat) :
    place ∈ text.occurrences needle start ↔
      place = least ∨ place ∈ text.occurrences needle (least + 1) := by
  have hstart := hleast.1.1
  constructor
  · intro hplace
    have hle := hleast.2 hplace
    by_cases hsame : place = least
    · exact .inl hsame
    · exact .inr ⟨by omega, hplace.2⟩
  · rintro (rfl | ⟨hbehind, hstands⟩)
    · exact hleast.1
    · exact ⟨by omega, hstands⟩

/-- The index behind a place at which the needle stands. -/
theorem placeOf_behind (hlength : text.length < 2 ^ 63) (hneedle : needle ≠ []) {place : Nat}
    {start : Int} (hplace : place ∈ text.occurrences needle start) :
    text.placeOf (Int64.ofNat place + 1).toInt = place + 1 := by
  have hend := add_length_le_of_prefix hneedle hplace.2
  have hpos := List.length_pos_of_ne_nil hneedle
  have hword : (Int64.ofNat place).toInt = place := Int64.toInt_ofNat_of_lt (by omega)
  have hone : (1 : Int64).toInt = 1 := rfl
  rw [toInt_add_of_le, hword, hone]
  · exact if_neg (by omega)
  · omega
  · omega

/-! ### The search -/

/-- The places at which `needle` stands in bytes of which the first stands at `position`. -/
def standings (needle : Bytes) (position : Nat) (bytes : Bytes) : Set Nat :=
  {place | position ≤ place ∧ needle <+: bytes.drop (place - position)}

theorem standings_drop (position : Nat) :
    needle.standings position (text.drop position) = text.occurrences needle position := by
  ext place
  have hdrop (hplace : position ≤ place) :
      (text.drop position).drop (place - position) = text.drop place := by
    rw [List.drop_drop, Nat.add_sub_cancel' hplace]
  constructor
  · intro ⟨hplace, hstands⟩
    exact ⟨Int.ofNat_le.mpr hplace, hdrop hplace ▸ hstands⟩
  · intro ⟨hplace, hstands⟩
    have hplace := Int.ofNat_le.mp hplace
    exact ⟨hplace, (hdrop hplace).symm ▸ hstands⟩

theorem standings_cons_of_not_prefix {byte : UInt8} {rest : Bytes} {position : Nat}
    (hother : ¬needle <+: byte :: rest) :
    needle.standings position (byte :: rest) = needle.standings (position + 1) rest := by
  ext place
  have hdrop (hplace : position + 1 ≤ place) :
      (byte :: rest).drop (place - position) = rest.drop (place - (position + 1)) := by
    rw [show place - position = (place - (position + 1)) + 1 by omega, List.drop_succ_cons]
  constructor
  · intro ⟨hposition, hstands⟩
    have hbehind : place ≠ position := by
      rintro rfl
      rw [Nat.sub_self, List.drop_zero] at hstands
      exact hother hstands
    have hplace : position + 1 ≤ place := by omega
    exact ⟨hplace, hdrop hplace ▸ hstands⟩
  · intro ⟨hplace, hstands⟩
    exact ⟨Nat.le_of_succ_le hplace, (hdrop hplace).symm ▸ hstands⟩

theorem indexFrom?_eq_some_iff (hneedle : needle ≠ []) {position place : Nat} {bytes : Bytes} :
    indexFrom? needle position bytes = some place ↔
      IsLeast (needle.standings position bytes) place := by
  induction bytes generalizing position with
  | nil =>
    refine iff_of_false (Option.some_ne_none place).symm fun hleast => hneedle ?_
    have hstands := hleast.1.2
    rw [List.drop_nil] at hstands
    exact List.prefix_nil.mp hstands
  | cons byte rest ih =>
    simp only [indexFrom?, List.isPrefixOf_iff_prefix]
    by_cases hstands : needle <+: byte :: rest
    · have hleast : IsLeast (needle.standings position (byte :: rest)) position := by
        refine ⟨⟨Nat.le_refl _, ?_⟩, fun other hother => hother.1⟩
        rw [Nat.sub_self]
        exact hstands
      rw [if_pos hstands, Option.some.injEq]
      exact ⟨fun heq => heq ▸ hleast, fun hother => hleast.unique hother⟩
    · rw [if_neg hstands, ih, standings_cons_of_not_prefix hstands]

theorem indexFrom?_add (before position : Nat) (bytes : Bytes) :
    indexFrom? needle (before + position) bytes
      = (indexFrom? needle position bytes).map (before + ·) := by
  induction bytes generalizing position with
  | nil => rfl
  | cons byte rest ih =>
    rw [indexFrom?, indexFrom?]
    split
    · rfl
    · exact ih (position + 1)

/-- What finds the least of some places finds nothing exactly if there are none. -/
theorem eq_none_iff_of_isLeast {found : Option Nat} {places : Set Nat}
    (hfound : ∀ place, found = some place ↔ IsLeast places place) : found = none ↔ places = ∅ := by
  classical
  rw [Option.eq_none_iff_forall_ne_some, ← Set.not_nonempty_iff_eq_empty]
  constructor
  · intro hnone hplaces
    exact hnone _ ((hfound _).mpr hplaces.isLeast_natFind)
  · intro hempty place hsome
    exact hempty ⟨place, ((hfound place).mp hsome).1⟩

section Find

variable (hlength : text.length < 2 ^ 63) {first : Int64}

include hlength

theorem find?_of_outside (houtside : text.placeOf first.toInt < 0 ∨
      text.length ≤ text.placeOf first.toInt ∨ needle = []) : text.find? needle first = none := by
  rw [← toInt_place hlength, ← toInt_signedLength hlength] at houtside
  refine if_pos ?_
  rw [Int64.lt_iff_toInt_lt, Int64.le_iff_toInt_le, List.isEmpty_iff]
  exact houtside

theorem find?_of_inside (hstart : 0 ≤ text.placeOf first.toInt)
    (hinside : text.placeOf first.toInt < text.length) (hneedle : needle ≠ []) :
    text.find? needle first = indexFrom? needle (text.placeOf first.toInt).toNat
      (text.drop (text.placeOf first.toInt).toNat) := by
  rw [← toInt_place hlength] at hstart hinside ⊢
  rw [← toInt_signedLength hlength] at hinside
  refine if_neg ?_
  rw [Int64.lt_iff_toInt_lt, Int64.le_iff_toInt_le, List.isEmpty_iff, Int64.toInt_zero]
  rintro (hbefore | hbehind | hempty)
  · omega
  · omega
  · exact hneedle hempty

theorem find?_eq_some_iff (hstart : 0 ≤ text.placeOf first.toInt) (hneedle : needle ≠ [])
    {place : Nat} : text.find? needle first = some place ↔
      IsLeast (text.occurrences needle (text.placeOf first.toInt)) place := by
  by_cases hinside : text.placeOf first.toInt < text.length
  · rw [find?_of_inside hlength hstart hinside hneedle, indexFrom?_eq_some_iff hneedle,
      standings_drop, Int.toNat_of_nonneg hstart]
  · have hbehind := not_lt.mp hinside
    have hpos := List.length_pos_of_ne_nil hneedle
    rw [find?_of_outside hlength (.inr (.inl hbehind)),
      occurrences_of_short hneedle (by omega)]
    exact iff_of_false nofun fun hleast => hleast.1

theorem find?_eq_none_iff (hstart : 0 ≤ text.placeOf first.toInt) (hneedle : needle ≠ []) :
    text.find? needle first = none ↔
      text.occurrences needle (text.placeOf first.toInt) = ∅ :=
  eq_none_iff_of_isLeast fun _ => find?_eq_some_iff hlength hstart hneedle

end Find

/-! ### All occurrences -/

def allOccurrences (text needle : Bytes) (start : Int) : List Nat :=
  (List.range text.length).filter fun place => start ≤ place ∧ needle.isPrefixOf (text.drop place)

theorem pairwise_allOccurrences (start : Int) :
    (text.allOccurrences needle start).Pairwise (· < ·) :=
  List.pairwise_lt_range.filter _

theorem mem_allOccurrences (hneedle : needle ≠ []) {start : Int} {place : Nat} :
    place ∈ text.allOccurrences needle start ↔ place ∈ text.occurrences needle start := by
  rw [allOccurrences, List.mem_filter, List.mem_range, decide_eq_true_iff,
    List.isPrefixOf_iff_prefix]
  refine ⟨fun hmem => hmem.2, fun hmem => ⟨?_, hmem⟩⟩
  have hend := add_length_le_of_prefix hneedle hmem.2
  have hpos := List.length_pos_of_ne_nil hneedle
  omega

end Bytes

/-! ### In steps that may go wrong -/

namespace Stepwise

def told : Option Nat → Int
  | some place => place
  | none => -1

/-- The first of the windows of the needle's length that is the needle. -/
def windowAt? (bytes needle : Bytes) : Option Nat :=
  (List.range (bytes.length + 1 - needle.length)).find? fun place =>
    bytes.between place (place + needle.length) = needle

def tell (start offset : Nat) : Option Int := do
  let place ← sum start offset
  signed place

def placeOf? (total first : Int) : Option Int :=
  if first < 0 then signed (total + first) else some first

def find? (text needle : Bytes) (first : Int) : Option Int := do
  let total ← signed text.length
  let start ← placeOf? total first
  if start < 0 ∨ total ≤ start ∨ needle = [] then some (told none)
  else
    let start ← position start
    let rest ← slice text start text.length
    match windowAt? rest needle with
    | none => some (told none)
    | some offset => tell start offset

variable {text needle : Bytes}

theorem windowAt?_eq_some_iff (hneedle : needle ≠ []) {bytes : Bytes} {place : Nat} :
    windowAt? bytes needle = some place ↔ IsLeast (needle.standings 0 bytes) place := by
  rw [windowAt?, List.find?_range_eq_some, List.mem_range, decide_eq_true_iff, Bytes.between_eq_iff]
  constructor
  · intro ⟨hstands, _, hbefore⟩
    refine ⟨⟨Nat.zero_le _, hstands⟩, fun other ⟨_, hother⟩ => ?_⟩
    by_contra hlt
    have hdiffers := hbefore other (Nat.lt_of_not_le hlt)
    have hother : needle <+: bytes.drop other := hother
    rw [decide_eq_true (Bytes.between_eq_iff.mpr hother)] at hdiffers
    exact Bool.noConfusion hdiffers
  · intro ⟨⟨_, hstands⟩, hleast⟩
    have hend := Bytes.add_length_le_of_prefix hneedle hstands
    refine ⟨hstands, by omega, fun other hlt => ?_⟩
    rw [Bool.not_eq_true', decide_eq_false_iff_not, Bytes.between_eq_iff]
    exact fun hother => absurd (hleast ⟨Nat.zero_le _, hother⟩) (Nat.not_le_of_lt hlt)

theorem windowAt?_eq (hneedle : needle ≠ []) (bytes : Bytes) :
    windowAt? bytes needle = Bytes.indexFrom? needle 0 bytes := by
  ext place
  rw [windowAt?_eq_some_iff hneedle, Bytes.indexFrom?_eq_some_iff hneedle]

theorem placeOf?_eq (hlength : text.length < 2 ^ 63) {first : Int} (hfirst : -2 ^ 63 ≤ first) :
    placeOf? text.length first = some (text.placeOf first) := by
  rw [placeOf?, Bytes.placeOf]
  split
  · exact signed_of_le (by omega) (by omega)
  · rfl

theorem tell_eq {start offset : Nat} (hplace : start + offset < 2 ^ 63) :
    tell start offset = some (told (some (start + offset))) := by
  have hsum : sum start offset = some (start + offset) := if_pos (by rw [Word.limit]; omega)
  rw [tell, hsum, told, Option.bind_eq_bind, Option.bind_some]
  exact signed_of_lt hplace

/-- No step goes wrong, and what is told is what the search finds. -/
theorem find?_eq (hlength : text.length < 2 ^ 63) (first : Int64) :
    find? text needle first.toInt = some (told (text.find? needle first)) := by
  simp only [find?, signed_of_lt hlength, placeOf?_eq hlength first.le_toInt, Option.bind_eq_bind,
    Option.bind_some]
  by_cases houtside : text.placeOf first.toInt < 0 ∨ text.length ≤ text.placeOf first.toInt ∨
      needle = []
  · rw [if_pos houtside, Bytes.find?_of_outside hlength houtside]
  · obtain ⟨hnonneg, hrest⟩ := not_or.mp houtside
    obtain ⟨hinside, hneedle⟩ := not_or.mp hrest
    have hstart := not_lt.mp hnonneg
    have hbefore : (text.placeOf first.toInt).toNat ≤ text.length := by omega
    rw [if_neg houtside, Bytes.find?_of_inside hlength hstart (not_le.mp hinside) hneedle,
      position_of_nonneg hstart, Option.bind_some, slice_to_end hbefore, Option.bind_some,
      windowAt?_eq hneedle]
    generalize (text.placeOf first.toInt).toNat = start at hbefore
    rw [← Nat.add_zero start, Bytes.indexFrom?_add, Nat.add_zero]
    cases hfound : Bytes.indexFrom? needle 0 (text.drop start) with
    | none => rfl
    | some offset =>
      have hleast := (Bytes.indexFrom?_eq_some_iff hneedle).mp hfound
      have hend := Bytes.add_length_le_of_prefix hneedle hleast.1.2
      have hpos := List.length_pos_of_ne_nil hneedle
      rw [List.length_drop] at hend
      exact tell_eq (by omega)

end Stepwise

end TextPool
