import Mathlib
import TextPool.CommandLine.Pieces

/-!
# What the lines of a file are

Cutting goes through a sequence from its end. What it finds is described without saying how: some
sequences without the separator that make up the whole again with the separator between them
(`Separates`). There is exactly one list of such sequences (`separates_iff`), so the texts of the
lines of a file are those that `LinesOf` describes, and no others (`linesOf_iff`).

An empty file has no lines. Those of another one are the pieces between its line feeds, where one at
the end of the file does not count, each without a carriage return at its end and only up to its
first zero byte. There are at most as many lines as bytes, and what the lines hold is no more than
the file.
-/

namespace TextPool

/-! ### Pieces -/

section Pieces

variable {α : Type} [DecidableEq α] {separator : α}

/-- The pieces hold no separator, and make up the sequence with a separator between any two. -/
structure Separates (separator : α) (found : List (List α)) (sequence : List α) : Prop where
  nonempty : found ≠ []
  separator_notMem : ∀ piece ∈ found, separator ∉ piece
  intercalate_eq : [separator].intercalate found = sequence

theorem pieces_ne_nil (separator : α) (sequence : List α) : pieces separator sequence ≠ [] := by
  cases sequence with
  | nil => exact List.cons_ne_nil _ _
  | cons item rest =>
    rw [pieces, List.foldr_cons]
    split
    · exact List.cons_ne_nil _ _
    · exact List.cons_ne_nil _ _

theorem pieces_cons (separator item : α) (rest : List α) :
    ∃ piece found, pieces separator rest = piece :: found ∧
      pieces separator (item :: rest)
        = if item = separator then [] :: piece :: found else (item :: piece) :: found := by
  obtain ⟨piece, found, hrest⟩ := List.exists_cons_of_ne_nil (pieces_ne_nil separator rest)
  refine ⟨piece, found, hrest, ?_⟩
  rw [pieces] at hrest
  rw [pieces, List.foldr_cons, hrest]
  rfl

theorem pieces_eq_splitOn (sequence : List α) :
    pieces separator sequence = sequence.splitOn separator := by
  induction sequence with
  | nil => rfl
  | cons item rest ih =>
    obtain ⟨piece, found, hrest, hwhole⟩ := pieces_cons separator item rest
    rw [hwhole, List.splitOn_cons_eq_if_modifyHead, ← ih, hrest, List.modifyHead_cons]
    simp only [beq_iff_eq]

theorem separator_notMem_of_mem_pieces {sequence : List α} :
    ∀ piece ∈ pieces separator sequence, separator ∉ piece := by
  induction sequence with
  | nil => exact List.forall_mem_singleton.mpr List.not_mem_nil
  | cons item rest ih =>
    obtain ⟨piece, found, hrest, hwhole⟩ := pieces_cons separator item rest
    rw [hrest, List.forall_mem_cons] at ih
    rw [hwhole]
    split
    · exact List.forall_mem_cons.mpr ⟨List.not_mem_nil, List.forall_mem_cons.mpr ih⟩
    · next hitem =>
      refine List.forall_mem_cons.mpr ⟨fun hmem => ?_, ih.2⟩
      obtain heq | hmem := List.mem_cons.mp hmem
      · exact hitem heq.symm
      · exact ih.1 hmem

/-- Cutting finds the pieces, and there is no other way to cut. -/
theorem separates_iff {found : List (List α)} {sequence : List α} :
    Separates separator found sequence ↔ found = pieces separator sequence := by
  constructor
  · rintro ⟨hnonempty, hnotMem, rfl⟩
    rw [pieces_eq_splitOn, List.splitOn_intercalate separator hnotMem hnonempty]
  · rintro rfl
    refine ⟨pieces_ne_nil separator sequence, separator_notMem_of_mem_pieces, ?_⟩
    rw [pieces_eq_splitOn]
    exact List.intercalate_splitOn separator

theorem length_pieces (sequence : List α) :
    (pieces separator sequence).length = sequence.count separator + 1 := by
  induction sequence with
  | nil => rfl
  | cons item rest ih =>
    obtain ⟨piece, found, hrest, hwhole⟩ := pieces_cons separator item rest
    rw [hrest] at ih
    rw [hwhole, List.count_cons]
    by_cases hitem : item = separator
    · rw [if_pos hitem, if_pos (beq_iff_eq.mpr hitem), List.length_cons, ih]
    · rw [if_neg hitem, if_neg (mt beq_iff_eq.mp hitem), ← ih]
      rfl

/-- Each piece with one more for its end, the pieces are as long as the sequence with its end. -/
theorem sum_length_pieces (sequence : List α) :
    ((pieces separator sequence).map fun piece => piece.length + 1).sum = sequence.length + 1 := by
  induction sequence with
  | nil => rfl
  | cons item rest ih =>
    obtain ⟨piece, found, hrest, hwhole⟩ := pieces_cons separator item rest
    rw [hrest, List.map_cons, List.sum_cons] at ih
    rw [hwhole]
    split
    · simp only [List.map_cons, List.sum_cons, List.length_nil, List.length_cons]
      omega
    · simp only [List.map_cons, List.sum_cons, List.length_cons]
      omega

end Pieces

namespace Bytes

/-! ### Lines -/

theorem length_withoutLast_le (byte : UInt8) (bytes : Bytes) :
    (bytes.withoutLast byte).length ≤ bytes.length := by
  unfold withoutLast
  split
  · rw [List.length_dropLast]
    exact Nat.sub_le _ _
  · exact Nat.le_refl _

/-- The texts of the lines of a file, in order. -/
inductive LinesOf : Bytes → List Bytes → Prop
  | none : LinesOf [] []
  | some {file : Bytes} {found : List Bytes} (hfile : file ≠ [])
      (hfound : Separates 0x0A found (file.withoutLast 0x0A)) :
      LinesOf file (found.map fun piece => (piece.withoutLast 0x0D).upToZero)

theorem linesOf_iff {file : Bytes} {texts : List Bytes} :
    file.LinesOf texts ↔ texts = file.lines.map upToZero := by
  constructor
  · intro hlines
    cases hlines with
    | none => rfl
    | some hfile hfound =>
      rw [lines, if_neg (mt List.isEmpty_iff.mp hfile), ← separates_iff.mp hfound, List.map_map]
      rfl
  · rintro rfl
    by_cases hfile : file = []
    · subst hfile
      exact .none
    · rw [lines, if_neg (mt List.isEmpty_iff.mp hfile), List.map_map]
      exact .some hfile (separates_iff.mpr rfl)

/-- A carriage return goes from the end of a line, once, and a zero byte ends the text. -/
example : (lines [97, 13, 13, 10, 10, 98, 0, 99, 13]).map upToZero = [[97, 13], [], [98]] := by
  decide

theorem length_lines_le (file : Bytes) : file.lines.length ≤ file.length := by
  unfold lines
  split
  · exact Nat.zero_le _
  · next hfile =>
    rw [List.length_map, length_pieces]
    unfold withoutLast
    split
    · next hlast =>
      have hcount := List.count_le_length (a := (0x0A : UInt8)) (l := file.dropLast)
      have hpos := List.length_pos_of_ne_nil (mt List.isEmpty_iff.mpr hfile)
      rw [List.length_dropLast] at hcount
      omega
    · next hlast =>
      -- The last byte is none of those that are counted.
      refine Nat.lt_of_le_of_ne List.count_le_length fun hall => hlast ?_
      have hnonempty : file ≠ [] := mt List.isEmpty_iff.mpr hfile
      rw [List.getLast?_eq_some_getLast hnonempty,
        ← List.count_eq_length.mp hall _ (List.getLast_mem hnonempty)]

theorem sum_length_lines_le (file : Bytes) :
    ((file.lines.map upToZero).map fun text => text.length + 1).sum ≤ file.length + 1 := by
  unfold lines
  split
  · exact Nat.zero_le _
  · have hshorter (piece : Bytes) :
        (piece.withoutLast 0x0D).upToZero.length + 1 ≤ piece.length + 1 := by
      have hcut := (List.takeWhile_sublist (l := piece.withoutLast 0x0D) (· != 0)).length_le
      exact Nat.succ_le_succ (Nat.le_trans hcut (length_withoutLast_le 0x0D piece))
    rw [List.map_map, List.map_map]
    calc ((pieces 0x0A (file.withoutLast 0x0A)).map _).sum
        ≤ ((pieces 0x0A (file.withoutLast 0x0A)).map fun piece => piece.length + 1).sum :=
          List.sum_le_sum fun piece _ => hshorter piece
      _ = (file.withoutLast 0x0A).length + 1 := sum_length_pieces _
      _ ≤ file.length + 1 := Nat.succ_le_succ (length_withoutLast_le 0x0A file)

end Bytes

end TextPool
