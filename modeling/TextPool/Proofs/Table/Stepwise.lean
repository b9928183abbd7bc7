import TextPool.Proofs.Stepwise
import TextPool.Proofs.Table.Verdict

/-!
# Reading in single steps

`Stepwise.ofSections` reads a table in the steps of a machine, each of which may go wrong, and keeps
where the texts start and where they end apart, as two lists of which nobody promises that they are
equally long. It gets stuck (`none`) at the first step that goes wrong, and no step does: for every
file that a machine can hold the reading is the one that gives spans (`Stepwise.ofSections_eq`), and
whatever is looked up in the table afterwards is found without a check (`Columns.span?_ofTable`,
`Columns.get?_ofTable`, `Columns.texts_ofTable`).
-/

namespace TextPool.Stepwise

/-! ### Readings -/

/-- A reading that gets stuck, finds a fault or has an answer. -/
abbrev Reading (α : Type) := ExceptT FormatError Option α

def answered {α : Type} (outcome : Except FormatError α) : Reading α :=
  ExceptT.mk (some outcome)

theorem answered_bind {α β : Type} (outcome : Except FormatError α) (next : α → Reading β) :
    answered outcome >>= next =
      match outcome with
      | .ok answer => next answer
      | .error fault => answered (.error fault) := by
  cases outcome <;> rfl

/-! ### The reader -/

/-- A table with the starts and the ends of its texts apart. -/
structure Columns where
  offsets : List Nat
  ends : List Nat
  blob : Bytes

def endAt (blob : Bytes) (index offset : Nat) : Reading Nat := do
  if offset < blob.length then
    match Bytes.zeroIndex? (← slice blob offset blob.length) with
    | some length => sum offset length
    | none => throw (.unterminated index offset)
  else throw (.offsetOutside index offset blob.length)

def endsFrom (blob : Bytes) : Nat → List Nat → Reading (List Nat)
  | _, [] => return []
  | index, offset :: rest => do
    let stop ← endAt blob index offset
    let stops ← endsFrom blob (index + 1) rest
    return stop :: stops

def partAt (file : Bytes) (position length : Nat) : Reading Bytes :=
  match sum position length with
  | some stop =>
    if stop ≤ file.length then slice file position stop
    else throw (.tooShort position length file.length)
  | none => throw (.tooShort position length file.length)

def wordsOf : Nat → Bytes → Option (List Nat)
  | 0, _ => return []
  | count + 1, bytes => do
    let group ← slice bytes 0 8
    let words ← wordsOf count (← slice bytes 8 bytes.length)
    return LittleEndian.decode group :: words

def ofSections (file : Bytes) (sections : Sections) : Reading Columns := do
  let length := 8 * sections.entries.toNat
  if Word.limit ≤ length then
    throw (.tooShort sections.offsetsStart.toNat (Word.limit - 1) file.length)
  let stored ← partAt file sections.offsetsStart.toNat length
  let offsets ← wordsOf sections.entries.toNat stored
  let blob ← partAt file sections.blobStart.toNat sections.blobLength.toNat
  let ends ← endsFrom blob 0 offsets
  return ⟨offsets, ends, blob⟩

namespace Columns

variable (columns : Columns)

/-- The span of an entry. Where there is an offset, the end is looked up without a check. -/
def span? (index : Nat) : Option (Option Span) :=
  match columns.offsets[index]? with
  | some start => columns.ends[index]?.map fun stop => some ⟨start, stop⟩
  | none => some none

def get? (index : Nat) : Option (Option Bytes) := do
  match ← columns.span? index with
  | some span => return some (← slice columns.blob span.start span.stop)
  | none => return none

def spans : List Span :=
  (columns.offsets.zip columns.ends).map fun (start, stop) => ⟨start, stop⟩

def texts : Option (List Bytes) := do
  let found ← (List.range columns.offsets.length).mapM columns.get?
  return found.reduceOption

def ofTable (table : StringTable) : Columns :=
  ⟨table.offsets, table.spans.map Span.stop, table.blob⟩

end Columns

/-! ### No step goes wrong -/

theorem endAt_eq {blob : Bytes} (hblob : blob.length < Word.limit) (index offset : Nat) :
    endAt blob index offset = answered ((StringTable.spanAt blob index offset).map Span.stop) := by
  rw [endAt, StringTable.spanAt]
  by_cases hinside : offset < blob.length
  · rw [if_pos hinside, if_pos hinside, slice_to_end (Nat.le_of_lt hinside)]
    change (match Bytes.zeroIndex? (blob.drop offset) with
      | some length => liftM (sum offset length)
      | none => throw (.unterminated index offset) : Reading Nat) = _
    cases hzero : Bytes.zeroIndex? (blob.drop offset) with
    | none => rfl
    | some length =>
      have hlength := (Bytes.take_of_zeroIndex? hzero).1
      rw [List.length_drop] at hlength
      have hsum : sum offset length = some (offset + length) := if_pos (by omega)
      simp only [hsum]
      rfl
  · rw [if_neg hinside, if_neg hinside]
    rfl

theorem endsFrom_eq {blob : Bytes} (hblob : blob.length < Word.limit) (index : Nat)
    (offsets : List Nat) :
    endsFrom blob index offsets
      = answered ((StringTable.spansFrom blob index offsets).map (·.map Span.stop)) := by
  induction offsets generalizing index with
  | nil => rfl
  | cons offset rest ih =>
    rw [endsFrom, endAt_eq hblob, StringTable.spansFrom, answered_bind]
    cases StringTable.spanAt blob index offset with
    | error fault => rfl
    | ok span =>
      change endsFrom blob (index + 1) rest >>= _ = _
      rw [ih, answered_bind]
      cases StringTable.spansFrom blob (index + 1) rest with
      | error fault => rfl
      | ok spans => rfl

theorem partAt_eq {file : Bytes} (hfile : file.length < Word.limit) (position length : Nat) :
    partAt file position length = answered (StringTable.partAt file position length) := by
  by_cases hfits : position + length ≤ file.length
  · have hsum : sum position length = some (position + length) := if_pos (by omega)
    have hslice := slice_of_le (Nat.le_add_right position length) hfits
    rw [StringTable.partAt_of_le hfits, partAt]
    simp only [hsum, if_pos hfits, hslice]
    rw [Bytes.between, Nat.add_sub_cancel_left]
    rfl
  · rw [StringTable.partAt_of_lt (Nat.lt_of_not_le hfits), partAt, sum]
    by_cases hsum : position + length < Word.limit
    · simp only [if_pos hsum, if_neg hfits]
      rfl
    · simp only [if_neg hsum]
      rfl

theorem wordsOf_eq {count : Nat} {bytes : Bytes} (hlength : bytes.length = 8 * count) :
    wordsOf count bytes = some (StringTable.readOffsets count bytes) := by
  induction count generalizing bytes with
  | zero => rfl
  | succ count ih =>
    have hfirst : slice bytes 0 8 = some (bytes.take 8) := slice_of_le (Nat.zero_le 8) (by omega)
    have hrest : (bytes.drop 8).length = 8 * count := by
      rw [List.length_drop]
      omega
    rw [wordsOf, hfirst, slice_to_end (by omega), StringTable.readOffsets]
    change (do return LittleEndian.decode (bytes.take 8) :: (← wordsOf count (bytes.drop 8))) = _
    rw [ih hrest]
    rfl

/-- The reading does not get stuck, and has the answer that the reading of spans has. -/
theorem ofSections_eq {file : Bytes} (hfile : file.length < Word.limit) (sections : Sections) :
    ofSections file sections
      = answered ((StringTable.ofSections file sections).map Columns.ofTable) := by
  by_cases hcount : Word.limit ≤ 8 * sections.entries.toNat
  · simp only [ofSections, StringTable.ofSections, if_pos hcount]
    rfl
  simp only [ofSections, StringTable.ofSections, if_neg hcount, partAt_eq hfile]
  rw [answered_bind]
  cases hstored : StringTable.partAt file sections.offsetsStart.toNat (8 * sections.entries.toNat) with
  | error fault => rfl
  | ok stored =>
    have hwords := wordsOf_eq (Bytes.length_of_stretch? (StringTable.partAt_eq_ok_iff.mp hstored))
    simp only [hwords]
    change answered _ >>= _ = answered ((StringTable.partAt _ _ _ >>= _).map _)
    rw [answered_bind]
    cases hpart : StringTable.partAt file sections.blobStart.toNat sections.blobLength.toNat with
    | error fault => rfl
    | ok blob =>
      have hblob : blob.length < Word.limit := by
        rw [Bytes.length_of_stretch? (StringTable.partAt_eq_ok_iff.mp hpart)]
        exact sections.blobLength.toNat_lt
      simp only [endsFrom_eq hblob, answered_bind]
      change _ = answered ((StringTable.spansFrom blob 0 _ >>= _).map _)
      cases hspans : StringTable.spansFrom blob 0
          (StringTable.readOffsets sections.entries.toNat stored) with
      | error fault => rfl
      | ok spans =>
        rw [← (StringTable.spansFrom_eq_ok hspans).1]
        rfl

/-! ### Looking up -/

namespace Columns

theorem span?_ofTable (table : StringTable) (index : Nat) :
    (ofTable table).span? index = some (table.span? index) := by
  rw [span?, ofTable, StringTable.span?, StringTable.offsets, List.getElem?_map, List.getElem?_map]
  cases table.spans[index]? <;> rfl

theorem get?_ofTable {table : StringTable} (htable : table.WellFormed) (index : Nat) :
    (ofTable table).get? index = some (table.get? index) := by
  rw [get?, span?_ofTable, StringTable.get?]
  cases hspan : table.span? index with
  | none => rfl
  | some span =>
    have hterminated := htable.terminated (List.mem_of_getElem? hspan)
    have hslice := slice_of_le hterminated.start_le (Nat.le_of_lt hterminated.stop_lt)
    change (do return some (← slice table.blob span.start span.stop)) = _
    rw [hslice]
    rfl

theorem spans_ofTable (table : StringTable) : (ofTable table).spans = table.spans := by
  rw [spans, ofTable, StringTable.offsets, List.zip_map', List.map_map]
  exact List.map_id _

theorem texts_ofTable {table : StringTable} (htable : table.WellFormed) :
    (ofTable table).texts = some table.texts := by
  have hget : (ofTable table).get? = fun index => pure table.texts[index]? := by
    funext index
    rw [get?_ofTable htable, StringTable.get?, StringTable.span?, StringTable.texts,
      List.getElem?_map]
    rfl
  have hcount : (ofTable table).offsets.length = table.texts.length := by
    rw [ofTable, StringTable.offsets, StringTable.texts, List.length_map, List.length_map]
  have hfound : (List.range table.texts.length).map (table.texts[·]?) = table.texts.map some := by
    refine List.ext_getElem (by simp) fun index hindex _ => ?_
    simp only [List.length_map, List.length_range] at hindex
    simp [List.getElem?_eq_getElem hindex]
  rw [texts, hget, hcount, List.mapM_pure, hfound]
  change some ((table.texts.map some).filterMap id) = some table.texts
  rw [List.filterMap_map, Function.id_comp, List.filterMap_some]

end Columns

/-- A reading of sections has the one answer that they call for, and no step of it or of a lookup
goes wrong. -/
theorem ofSections_verdict (file : Bytes) (sections : Sections) :
    (∀ outcome, StringTable.ofSections file sections = outcome ↔ sections.Verdict file outcome) ∧
      (file.length < Word.limit → ofSections file sections
        = answered ((StringTable.ofSections file sections).map Columns.ofTable)) ∧
      ∀ table, StringTable.ofSections file sections = .ok table →
        (∀ index, (Columns.ofTable table).span? index = some (table.span? index)) ∧
        (∀ index, (Columns.ofTable table).get? index = some (table.get? index)) ∧
        (Columns.ofTable table).spans = table.spans ∧
        (Columns.ofTable table).texts = some table.texts := by
  refine ⟨fun outcome => Sections.ofSections_eq_iff, fun hfile => ofSections_eq hfile sections, ?_⟩
  intro table hread
  have htable := StringTable.wellFormed_of_ofSections hread
  exact ⟨Columns.span?_ofTable table, Columns.get?_ofTable htable, Columns.spans_ofTable table,
    Columns.texts_ofTable htable⟩

/-- Two offsets that stand inside the blob they point into, the second at a byte behind which the
blob ends. -/
theorem ofSections_verdict_overlapping :
    let file : Bytes := [16, 0, 0, 0, 0, 0, 0, 0, 18, 0, 0, 0, 0, 0, 0, 0, 97, 0, 98]
    let sections : Sections := ⟨2, 0, 0, 19⟩
    file.length < Word.limit ∧ sections.Verdict file (.error (.unterminated 1 18)) ∧
      ofSections file sections = answered (.error (.unterminated 1 18)) := by
  intro file sections
  have hfile : file.length < Word.limit := by decide
  have hread : StringTable.ofSections file sections = .error (.unterminated 1 18) := by decide
  obtain ⟨hverdict, hsteps, _⟩ := ofSections_verdict file sections
  have hanswer := hsteps hfile
  rw [hread] at hanswer
  exact ⟨hfile, (hverdict _).mp hread, hanswer⟩

end TextPool.Stepwise
