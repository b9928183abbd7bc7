import TextPool.Proofs.Bytes.Search
import TextPool.Proofs.Pool.Making

/-!
# Searching strings

A search of a string is the search of its text, and changes nothing, and a search for a string is
one for its text (`perform_findBytes`, `perform_find`). It finds nothing where the needle does not
stand, where it starts outside the text, and for the empty needle. In two texts put together, the
second is found behind the first. Searches that each begin behind the place that the last one found
go through all places at which the needle stands, overlapping ones too (`finds_iff`).
-/

namespace TextPool.Pool

/-- Searches for a needle, the first from an index and each other from behind the place that was
found last, find these places, and then no more. -/
inductive Finds (pool : Pool) (handle : Handle) (needle : Bytes) : Int64 → List Nat → Prop
  | done {first : Int64}
      (hnone : pool.perform (.findBytes handle needle first) = (.ok (.position none), pool)) :
      Finds pool handle needle first []
  | next {first : Int64} {place : Nat} {rest : List Nat}
      (hfound : pool.perform (.findBytes handle needle first)
        = (.ok (.position (some place)), pool))
      (hrest : Finds pool handle needle (Int64.ofNat place + 1) rest) :
      Finds pool handle needle first (place :: rest)

section Searches

variable {pool : Pool} {handle : Handle} {text needle : Bytes}

theorem perform_find {other : Handle} (hneedle : pool.text other = .ok needle) (first : Int64) :
    pool.perform (.find handle other first) = pool.perform (.findBytes handle needle first) := by
  rw [perform_of_ask rfl, perform_of_ask rfl, find, hneedle]
  rfl

variable (htext : pool.text handle = .ok text)

include htext

theorem perform_findBytes (needle : Bytes) (first : Int64) :
    pool.perform (.findBytes handle needle first)
      = (.ok (.position (text.find? needle first)), pool) := by
  rw [perform_of_ask rfl, findBytes, htext]
  rfl

theorem perform_length : pool.perform (.length handle) = (.ok (.count text.length), pool) := by
  rw [perform_of_ask rfl, length, htext]
  rfl

theorem perform_findBytes_eq_iff {first : Int64} {found : Option Nat} :
    pool.perform (.findBytes handle needle first) = (.ok (.position found), pool) ↔
      text.find? needle first = found := by
  rw [perform_findBytes htext, Prod.mk.injEq, Except.ok.injEq, Answer.position.injEq]
  exact and_iff_left rfl

variable (hlength : text.length < 2 ^ 63) (hneedle : needle ≠ [])

include hlength hneedle

/-! ### One search after another -/

theorem sorted_of_finds {first : Int64} {places : List Nat}
    (hfinds : pool.Finds handle needle first places) (hstart : 0 ≤ text.placeOf first.toInt) :
    places.Pairwise (· < ·) ∧
      ∀ place, place ∈ places ↔ place ∈ text.occurrences needle (text.placeOf first.toInt) := by
  induction hfinds with
  | done hnone =>
    have hempty := (Bytes.find?_eq_none_iff hlength hstart hneedle).mp
      ((perform_findBytes_eq_iff htext).mp hnone)
    rw [hempty]
    exact ⟨.nil, fun place => iff_of_false List.not_mem_nil (Set.notMem_empty place)⟩
  | next hfound _ ih =>
    have hleast := (Bytes.find?_eq_some_iff hlength hstart hneedle).mp
      ((perform_findBytes_eq_iff htext).mp hfound)
    have hbehind := Bytes.placeOf_behind hlength hneedle hleast.1
    rw [hbehind] at ih
    obtain ⟨hsorted, hmem⟩ := ih (by omega)
    refine ⟨List.pairwise_cons.mpr ⟨fun other hother => ?_, hsorted⟩, fun place => ?_⟩
    · have hplace := ((hmem other).mp hother).1
      omega
    · rw [List.mem_cons, hmem, Bytes.mem_occurrences_iff_of_isLeast hleast]

theorem finds_of_sorted {first : Int64} {places : List Nat} (hsorted : places.Pairwise (· < ·))
    (hstart : 0 ≤ text.placeOf first.toInt)
    (hmem : ∀ place, place ∈ places ↔
      place ∈ text.occurrences needle (text.placeOf first.toInt)) :
    pool.Finds handle needle first places := by
  induction places generalizing first with
  | nil =>
    refine .done ((perform_findBytes_eq_iff htext).mpr ?_)
    rw [Bytes.find?_eq_none_iff hlength hstart hneedle, Set.eq_empty_iff_forall_notMem]
    exact fun place hplace => List.not_mem_nil ((hmem place).mpr hplace)
  | cons least rest ih =>
    obtain ⟨hbefore, hrest⟩ := List.pairwise_cons.mp hsorted
    have hleast : IsLeast (text.occurrences needle (text.placeOf first.toInt)) least := by
      refine ⟨(hmem least).mp List.mem_cons_self, fun place hplace => ?_⟩
      obtain rfl | hlater := List.mem_cons.mp ((hmem place).mpr hplace)
      · exact Nat.le_refl _
      · exact Nat.le_of_lt (hbefore place hlater)
    have hbehind := Bytes.placeOf_behind hlength hneedle hleast.1
    refine .next ((perform_findBytes_eq_iff htext).mpr
      ((Bytes.find?_eq_some_iff hlength hstart hneedle).mpr hleast)) (ih hrest ?_ fun place => ?_)
    · omega
    · rw [hbehind]
      constructor
      · intro hplace
        have hlater := hbefore place hplace
        have hstands := ((hmem place).mp (List.mem_cons_of_mem least hplace)).2
        exact ⟨by omega, hstands⟩
      · intro hplace
        have hother := (Bytes.mem_occurrences_iff_of_isLeast hleast place).mpr (.inr hplace)
        obtain rfl | hlater := List.mem_cons.mp ((hmem place).mpr hother)
        · have hle := hplace.1
          omega
        · exact hlater

theorem finds_iff {first : Int64} (hstart : 0 ≤ text.placeOf first.toInt) {places : List Nat} :
    pool.Finds handle needle first places ↔
      places = text.allOccurrences needle (text.placeOf first.toInt) := by
  have hall : (text.allOccurrences needle (text.placeOf first.toInt)).Pairwise (· < ·) :=
    Bytes.pairwise_allOccurrences _
  constructor
  · intro hfinds
    obtain ⟨hsorted, hmem⟩ := sorted_of_finds htext hlength hneedle hfinds hstart
    refine hsorted.eq_of_mem_iff hall fun place => ?_
    rw [hmem, Bytes.mem_allOccurrences hneedle]
  · rintro rfl
    exact finds_of_sorted htext hlength hneedle hall hstart fun _ =>
      Bytes.mem_allOccurrences hneedle

end Searches

/-! ### What stands behind another text -/

/-- In the text of two, from the length of the first on, the second is found at once. -/
theorem Sound.find_of_concat {pool left : Pool} (hsound : pool.Sound) {handle other joined : Handle}
    {text tail : Bytes} (htext : pool.text handle = .ok text) (htail : pool.text other = .ok tail)
    (hlength : (text ++ tail).length < 2 ^ 63) (hnonempty : tail ≠ [])
    (hdone : pool.perform (.concat handle other) = (.ok (.made joined), left)) :
    left.perform (.length handle) = (.ok (.count text.length), left) ∧
      left.perform (.find joined other (Int64.ofNat text.length))
        = (.ok (.position (some text.length)), left) := by
  obtain ⟨_, hjoined, hkept⟩ := hsound.texts_of_concat htext htail hdone
  refine ⟨perform_length (hkept handle text htext), ?_⟩
  rw [perform_find (hkept other tail htail), perform_findBytes_eq_iff hjoined]
  have hword : (Int64.ofNat text.length).toInt = text.length := by
    rw [List.length_append] at hlength
    exact Int64.toInt_ofNat_of_lt (by omega)
  have hstart : Bytes.placeOf (text ++ tail) (Int64.ofNat text.length).toInt = text.length := by
    rw [hword]
    exact if_neg (by omega)
  rw [Bytes.find?_eq_some_iff hlength (by omega) hnonempty, hstart]
  refine ⟨⟨Int.le_refl _, ?_⟩, fun place hplace => Int.ofNat_le.mp hplace.1⟩
  rw [List.drop_left]

/-- A search finds the least place from its start on at which the needle stands, and nothing exactly
if there is none. -/
theorem find_leftmost {config : Config} {pool : Pool} (hreachable : Reachable config pool)
    {handle : Handle} {text : Bytes} (htext : pool.text handle = .ok text)
    (hlength : text.length < 2 ^ 63) :
    (∀ (needle : Bytes) (first : Int64),
      let start := text.placeOf first.toInt
      let found := text.find? needle first
      pool.perform (.findBytes handle needle first) = (.ok (.position found), pool) ∧
        (∀ other, pool.text other = .ok needle →
          pool.perform (.find handle other first) = (.ok (.position found), pool)) ∧
        Stepwise.find? text needle first.toInt = some (Stepwise.told found) ∧
        (start < 0 ∨ text.length ≤ start ∨ needle = [] → found = none) ∧
        (0 ≤ start → needle ≠ [] →
          (∀ place, found = some place ↔ IsLeast (text.occurrences needle start) place) ∧
            (found = none ↔ text.occurrences needle start = ∅) ∧
            ∀ places, pool.Finds handle needle first places ↔
              places = text.allOccurrences needle start) ∧
        (text.length < start + needle.length ∨ 0 ∈ needle → found = none)) ∧
      ∀ other tail joined left, pool.text other = .ok tail → tail ≠ [] →
        (text ++ tail).length < 2 ^ 63 →
        pool.perform (.concat handle other) = (.ok (.made joined), left) →
        left.perform (.length handle) = (.ok (.count text.length), left) ∧
          left.perform (.find joined other (Int64.ofNat text.length))
            = (.ok (.position (some text.length)), left) := by
  have hsound := (sound_of_reachable hreachable).1
  refine ⟨fun needle first => ?_, fun other tail joined left htail hnonempty hjoint hdone =>
    hsound.find_of_concat htext htail hjoint hnonempty hdone⟩
  intro start found
  have houtside : start < 0 ∨ text.length ≤ start ∨ needle = [] → found = none :=
    Bytes.find?_of_outside hlength
  refine ⟨perform_findBytes htext needle first, fun other hother => ?_,
    Stepwise.find?_eq hlength first, houtside, fun hstart hneedle => ⟨fun place => ?_, ?_,
      fun places => finds_iff htext hlength hneedle hstart⟩, fun hnowhere => ?_⟩
  · rw [perform_find hother, perform_findBytes htext]
  · exact Bytes.find?_eq_some_iff hlength hstart hneedle
  · exact Bytes.find?_eq_none_iff hlength hstart hneedle
  · by_cases hempty : needle = []
    · exact houtside (.inr (.inr hempty))
    by_cases hstart : 0 ≤ start
    · refine (Bytes.find?_eq_none_iff hlength hstart hempty).mpr ?_
      obtain hshort | hzero := hnowhere
      · exact Bytes.occurrences_of_short hempty hshort
      · exact Bytes.occurrences_of_zero (hsound.zero_notMem_text htext) hzero
    · exact houtside (.inl (not_le.mp hstart))

/-- The needle stands at two places that overlap. The least of all words is no index, and the search
from there finds nothing. -/
theorem find_leftmost_overlapping :
    let text : Bytes := [98, 97, 110, 97, 110, 97]
    let needle : Bytes := [97, 110, 97]
    let pool := (ofConfig {}).after [.allocate text, .allocate needle]
    let left := (pool.perform (.concat ⟨1⟩ ⟨2⟩)).2
    pool.perform (.find ⟨1⟩ ⟨2⟩ (-6)) = (.ok (.position (some 1)), pool) ∧
      pool.Finds ⟨1⟩ needle 0 [1, 3] ∧
      Stepwise.find? text needle Int64.minValue.toInt = some (-1) ∧
      left.perform (.find ⟨3⟩ ⟨2⟩ 6) = (.ok (.position (some 6)), left) := by
  intro text needle pool left
  have hrun : ∀ operation ∈ [Operation.allocate text, .allocate needle],
      operation.WellFormed := by
    simp only [List.forall_mem_cons]
    exact ⟨trivial, trivial, fun _ hmem => absurd hmem List.not_mem_nil⟩
  have hreachable : Reachable {} pool := ⟨_, hrun, rfl⟩
  have htext : pool.text ⟨1⟩ = .ok text := by decide +kernel
  have hneedle : pool.text ⟨2⟩ = .ok needle := by decide +kernel
  obtain ⟨hsearch, hconcat⟩ := find_leftmost hreachable htext (by decide)
  obtain ⟨_, _, _, _, hinside, _⟩ := hsearch needle 0
  obtain ⟨_, _, hfinds⟩ := hinside (by decide) (by decide)
  obtain ⟨_, hfind, _⟩ := hsearch needle (-6)
  obtain ⟨_, _, hsteps, _⟩ := hsearch needle Int64.minValue
  have hfound : text.find? needle (-6) = some 1 := by decide +kernel
  have hnone : text.find? needle Int64.minValue = none := by decide +kernel
  rw [hnone] at hsteps
  have hfirst : (pool.perform (.concat ⟨1⟩ ⟨2⟩)).1 = .ok (.made ⟨3⟩) := by decide +kernel
  have hdone : pool.perform (.concat ⟨1⟩ ⟨2⟩) = (.ok (.made ⟨3⟩), left) := by
    rw [← hfirst]
  exact ⟨(hfind ⟨2⟩ hneedle).trans (by rw [hfound]), (hfinds [1, 3]).mpr (by decide), hsteps,
    (hconcat ⟨2⟩ needle ⟨3⟩ left hneedle (by decide) (by decide) hdone).2⟩

end TextPool.Pool
