import TextPool.Proofs.Image.Header

/-!
# Which bytes a header is

A header is read from the first bytes of a file, all but the reserved ones, and it can be told from
the header which bytes these were (`encode_eq_cleared`). So what is written is read again, and two
files have one header exactly if they agree on those bytes (`exists_decode_both_iff`).
-/

namespace TextPool.Header

/-- The first bytes of a file, as many as a header has, with zeros for the reserved ones. -/
def cleared (file : Bytes) : Bytes :=
  (file.take length).mapIdx fun position byte => if IsReserved position then 0 else byte

theorem getElem?_cleared (file : Bytes) {position : Nat} (hposition : position < length) :
    (cleared file)[position]?
      = file[position]?.map fun byte => if IsReserved position then 0 else byte := by
  rw [cleared, List.getElem?_mapIdx, List.getElem?_take_of_lt hposition]

theorem exists_decode_iff (file : Bytes) :
    (∃ header, decode file = .ok header) ↔ length ≤ file.length := by
  constructor
  · rintro ⟨header, hheader⟩
    exact length_le_of_decode hheader
  · intro hlength
    rw [decode, if_neg (Nat.not_lt_of_le hlength)]
    exact ⟨_, rfl⟩

theorem encode_eq_cleared {file : Bytes} {header : Header} (hheader : decode file = .ok header) :
    header.encode = cleared file := by
  have hlength := length_le_of_decode hheader
  rw [encode_of_decode hheader]
  apply List.ext_getElem?
  intro position
  -- What is written are four stretches in a row, and each position lies in one of them or behind them.
  simp only [cleared, List.getElem?_append, List.length_append, List.length_take, List.length_drop,
    List.length_replicate, List.getElem?_mapIdx, List.getElem?_take, List.getElem?_drop,
    List.getElem?_replicate]
  simp only [IsReserved, length] at *
  grind

section Agreement

variable {left right : Bytes} (hleft : length ≤ left.length) (hright : length ≤ right.length)

include hleft hright

theorem cleared_eq_iff : cleared left = cleared right ↔
    ∀ position < length, ¬IsReserved position → left[position]? = right[position]? := by
  constructor
  · intro hcleared position hposition hreserved
    have hbyte := congrArg (fun bytes : Bytes => bytes[position]?) hcleared
    simpa [getElem?_cleared _ hposition, hreserved] using hbyte
  · intro hagree
    apply List.ext_getElem?
    intro position
    by_cases hposition : position < length
    · rw [getElem?_cleared left hposition, getElem?_cleared right hposition]
      by_cases hreserved : IsReserved position
      · rw [List.getElem?_eq_getElem (by omega), List.getElem?_eq_getElem (by omega)]
        simp [hreserved]
      · rw [hagree position hposition hreserved]
    · have hshort (file : Bytes) : (cleared file).length ≤ position := by
        simp only [cleared, List.length_mapIdx, List.length_take]
        omega
      rw [List.getElem?_eq_none (hshort left), List.getElem?_eq_none (hshort right)]

theorem decode_eq_iff_cleared : decode left = decode right ↔ cleared left = cleared right := by
  obtain ⟨header, hheader⟩ := (exists_decode_iff left).mpr hleft
  obtain ⟨other, hother⟩ := (exists_decode_iff right).mpr hright
  rw [hheader, hother, ← encode_eq_cleared hheader, ← encode_eq_cleared hother]
  constructor
  · intro hsame
    rw [Except.ok.inj hsame]
  · intro hsame
    calc Except.ok header
      _ = decode (header.encode ++ []) := (decode_encode_append header []).symm
      _ = decode (other.encode ++ []) := by rw [hsame]
      _ = Except.ok other := decode_encode_append other []

end Agreement

theorem exists_decode_both_iff (left right : Bytes) :
    (∃ header, decode left = .ok header ∧ decode right = .ok header) ↔
      length ≤ left.length ∧ length ≤ right.length ∧
        ∀ position < length, ¬IsReserved position → left[position]? = right[position]? := by
  constructor
  · rintro ⟨header, hheader, hother⟩
    have hleft := length_le_of_decode hheader
    have hright := length_le_of_decode hother
    have hsame := (decode_eq_iff_cleared hleft hright).mp (hheader.trans hother.symm)
    exact ⟨hleft, hright, (cleared_eq_iff hleft hright).mp hsame⟩
  · rintro ⟨hleft, hright, hagree⟩
    obtain ⟨header, hheader⟩ := (exists_decode_iff left).mpr hleft
    have hsame := (decode_eq_iff_cleared hleft hright).mpr ((cleared_eq_iff hleft hright).mpr hagree)
    exact ⟨header, hheader, hsame ▸ hheader⟩

/-- A header that is written is read again, and one that is read is written with zeros for the
reserved bytes. -/
theorem codec_exact :
    (∀ (header : Header) (rest : Bytes), decode (header.encode ++ rest) = .ok header) ∧
      (∀ file : Bytes, length ≤ file.length →
        ∃ header, decode file = .ok header ∧ header.encode = cleared file) ∧
      ∀ left right : Bytes, (∃ header, decode left = .ok header ∧ decode right = .ok header) ↔
        length ≤ left.length ∧ length ≤ right.length ∧
          ∀ position < length, ¬IsReserved position → left[position]? = right[position]? := by
  refine ⟨decode_encode_append, fun file hlength => ?_, exists_decode_both_iff⟩
  obtain ⟨header, hheader⟩ := (exists_decode_iff file).mpr hlength
  exact ⟨header, hheader, encode_eq_cleared hheader⟩

/-- A header of no table. The reserved bytes are lost when it is written again, and a byte of the
checksum makes it another one. -/
theorem codec_exact_foreign :
    let file (mark : UInt8) : Bytes :=
      [1, 2, 3, 4, 5, 6, 7, 8, 9, 10, 11, mark, 0xFF, 0xFF, 0xFF, 0xFF,
        16, 17, 18, 19, 20, 21, 22, 23, 24, 25, 26, 27, 28, 29, 30, 31,
        32, 33, 34, 35, 36, 37, 38, 39, 40, 41, 42, 43, 44, 45, 46, 47]
        ++ List.replicate 16 0xFF ++ [64]
    let written : Bytes :=
      [1, 2, 3, 4, 5, 6, 7, 8, 9, 10, 11, 12, 0, 0, 0, 0,
        16, 17, 18, 19, 20, 21, 22, 23, 24, 25, 26, 27, 28, 29, 30, 31,
        32, 33, 34, 35, 36, 37, 38, 39, 40, 41, 42, 43, 44, 45, 46, 47] ++ List.replicate 16 0
    (∃ header, decode (file 12) = .ok header ∧ decode written = .ok header ∧
        header.encode = written) ∧
      ¬∃ header, decode (file 12) = .ok header ∧ decode (file 13) = .ok header := by
  intro file written
  obtain ⟨hagain, hread, hboth⟩ := codec_exact
  constructor
  · obtain ⟨header, hheader, hwritten⟩ := hread (file 12) (by decide)
    have hcleared : cleared (file 12) = written := by decide
    rw [hcleared] at hwritten
    have hsame := hagain header []
    rw [List.append_nil, hwritten] at hsame
    exact ⟨header, hheader, hsame, hwritten⟩
  · intro hsame
    obtain ⟨_, _, hagree⟩ := (hboth (file 12) (file 13)).mp hsame
    have hbyte : (file 12)[11]? = (file 13)[11]? := hagree 11 (by decide) (by decide)
    exact absurd hbyte (by decide)

end TextPool.Header
