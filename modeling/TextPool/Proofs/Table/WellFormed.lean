import Mathlib.Tactic.Common
import TextPool.Proofs.Outcome
import TextPool.Table.Sections

/-!
# What a well-formed table promises

Reading a table finds, for each offset, the span up to the first zero byte, and every span of a
table that was read is such a span (`Span.Terminated`). A well-formed table is one that reading its
own offsets and blob gives back, so its spans have the same property, and no others do
(`wellFormed_iff`); and whatever reading gives is well formed (`wellFormed_of_ofOffsets`,
`wellFormed_of_ofSections`).
-/

namespace TextPool

theorem Bytes.take_of_zeroIndex? {bytes : Bytes} {length : Nat}
    (hzero : bytes.zeroIndex? = some length) :
    length < bytes.length ∧ bytes.take length = bytes.upToZero := by
  induction bytes generalizing length with
  | nil => simp [zeroIndex?] at hzero
  | cons byte rest ih =>
    by_cases hbyte : byte = 0
    · simp only [zeroIndex?, List.findIdx?_cons, hbyte, beq_self_eq_true, if_true,
        Option.some.injEq] at hzero
      subst hzero
      simp [upToZero, hbyte]
    · simp only [zeroIndex?, List.findIdx?_cons, beq_iff_eq, hbyte, if_false,
        Option.map_eq_some_iff] at hzero
      obtain ⟨before, hrest, rfl⟩ := hzero
      obtain ⟨hlength, htake⟩ := ih hrest
      simp only [upToZero] at htake
      refine ⟨Nat.succ_lt_succ hlength, ?_⟩
      simp [upToZero, hbyte, htake]

theorem Bytes.zeroIndex?_of_lt {bytes : Bytes} (hlength : bytes.upToZero.length < bytes.length) :
    bytes.zeroIndex? = some bytes.upToZero.length := by
  induction bytes with
  | nil => exact absurd hlength (Nat.lt_irrefl 0)
  | cons byte rest ih =>
    by_cases hbyte : byte = 0
    · subst hbyte
      rfl
    · have hcut : upToZero (byte :: rest) = byte :: upToZero rest := by simp [upToZero, hbyte]
      rw [hcut, List.length_cons, List.length_cons] at hlength
      have hrest := ih (Nat.lt_of_succ_lt_succ hlength)
      rw [zeroIndex?] at hrest ⊢
      rw [hcut, List.findIdx?_cons, hrest]
      simp [hbyte]

theorem Bytes.upToZero_append_of_lt {bytes : Bytes} (hlength : bytes.upToZero.length < bytes.length)
    (more : Bytes) : upToZero (bytes ++ more) = bytes.upToZero := by
  rw [upToZero] at hlength
  rw [upToZero, List.takeWhile_append, if_neg (Nat.ne_of_lt hlength), upToZero]

/-- The span runs up to the first zero byte after its start. -/
structure Span.Terminated (blob : Bytes) (span : Span) : Prop where
  start_le : span.start ≤ span.stop
  stop_lt : span.stop < blob.length
  between_eq : blob.between span.start span.stop = Bytes.upToZero (blob.drop span.start)

theorem Span.Terminated.zero_notMem {blob : Bytes} {span : Span} (hspan : span.Terminated blob) :
    0 ∉ blob.between span.start span.stop := by
  rw [hspan.between_eq]
  exact Bytes.zero_notMem_upToZero _

theorem Span.Terminated.length_upToZero {blob : Bytes} {span : Span} (hspan : span.Terminated blob) :
    (Bytes.upToZero (blob.drop span.start)).length = span.stop - span.start := by
  rw [← hspan.between_eq]
  exact Bytes.length_between blob span.start span.stop (Nat.le_of_lt hspan.stop_lt)

theorem Span.Terminated.length_lt {blob : Bytes} {span : Span} (hspan : span.Terminated blob) :
    (Bytes.upToZero (blob.drop span.start)).length < (blob.drop span.start).length := by
  have hstart := hspan.start_le
  have hstop := hspan.stop_lt
  rw [hspan.length_upToZero, List.length_drop]
  omega

theorem Span.Terminated.append {blob : Bytes} {span : Span} (hspan : span.Terminated blob)
    (more : Bytes) : span.Terminated (blob ++ more) := by
  have hstart := hspan.start_le
  have hstop := hspan.stop_lt
  have hdrop : (blob ++ more).drop span.start = blob.drop span.start ++ more :=
    List.drop_append_of_le_length (by omega)
  refine ⟨hstart, ?_, ?_⟩
  · rw [List.length_append]
    omega
  · rw [hdrop, Bytes.upToZero_append_of_lt hspan.length_lt, ← hspan.between_eq, Bytes.between, hdrop]
    exact List.take_append_of_le_length (by rw [List.length_drop]; omega)

theorem Span.Terminated.upToZero_append {blob : Bytes} {span : Span} (hspan : span.Terminated blob)
    (more : Bytes) :
    Bytes.upToZero ((blob ++ more).drop span.start) = Bytes.upToZero (blob.drop span.start) := by
  have hstart : span.start ≤ blob.length := Nat.le_trans hspan.start_le (Nat.le_of_lt hspan.stop_lt)
  rw [List.drop_append_of_le_length hstart, Bytes.upToZero_append_of_lt hspan.length_lt]

theorem Span.Terminated.between_append {blob : Bytes} {span : Span} (hspan : span.Terminated blob)
    (more : Bytes) :
    Bytes.between (blob ++ more) span.start span.stop = blob.between span.start span.stop := by
  rw [(hspan.append more).between_eq, hspan.upToZero_append, hspan.between_eq]

namespace StringTable

theorem spanAt_eq_ok {blob : Bytes} {index offset : Nat} {span : Span}
    (hspan : spanAt blob index offset = .ok span) :
    span.start = offset ∧ span.Terminated blob := by
  simp only [spanAt] at hspan
  split at hspan
  · next hoffset =>
    cases hzero : Bytes.zeroIndex? (blob.drop offset) with
    | none => simp [hzero] at hspan
    | some length =>
      rw [hzero] at hspan
      obtain rfl := Except.ok.inj hspan
      obtain ⟨hlength, htake⟩ := Bytes.take_of_zeroIndex? hzero
      rw [List.length_drop] at hlength
      refine ⟨rfl, Nat.le_add_right _ _, by dsimp only; omega, ?_⟩
      simp only [Bytes.between, Nat.add_sub_cancel_left]
      exact htake
  · simp at hspan

theorem spanAt_of_terminated {blob : Bytes} {span : Span} (hspan : span.Terminated blob)
    (index : Nat) : spanAt blob index span.start = .ok span := by
  have hstart := hspan.start_le
  have hinside : span.start < blob.length := Nat.lt_of_le_of_lt hstart hspan.stop_lt
  have hzero : Bytes.zeroIndex? (blob.drop span.start) = some (span.stop - span.start) := by
    rw [← hspan.length_upToZero]
    exact Bytes.zeroIndex?_of_lt hspan.length_lt
  simp only [spanAt, hzero, if_pos hinside]
  rw [Nat.add_sub_cancel' hstart]

theorem spansFrom_eq_ok {blob : Bytes} {index : Nat} {offsets : List Nat} {spans : List Span}
    (hspans : spansFrom blob index offsets = .ok spans) :
    spans.map Span.start = offsets ∧ ∀ span ∈ spans, span.Terminated blob := by
  induction offsets generalizing index spans with
  | nil =>
    obtain rfl := Except.ok.inj hspans
    simp
  | cons offset rest ih =>
    simp only [spansFrom, bind_eq_ok_iff, pure_eq_ok_iff] at hspans
    obtain ⟨span, hspan, later, hlater, rfl⟩ := hspans
    obtain ⟨hstart, hterminated⟩ := spanAt_eq_ok hspan
    obtain ⟨hstarts, hall⟩ := ih hlater
    refine ⟨by rw [List.map_cons, hstart, hstarts], ?_⟩
    intro other hother
    rcases List.mem_cons.mp hother with rfl | hother
    · exact hterminated
    · exact hall other hother

theorem spansFrom_of_terminated {blob : Bytes} {spans : List Span}
    (hspans : ∀ span ∈ spans, span.Terminated blob) (index : Nat) :
    spansFrom blob index (spans.map Span.start) = .ok spans := by
  induction spans generalizing index with
  | nil => rfl
  | cons span rest ih =>
    obtain ⟨hspan, hrest⟩ := List.forall_mem_cons.mp hspans
    rw [List.map_cons, spansFrom, spanAt_of_terminated hspan, ih hrest]
    rfl

theorem ofOffsets_eq_ok {offsets : List Nat} {blob : Bytes} {table : StringTable}
    (htable : ofOffsets offsets blob = .ok table) :
    table.offsets = offsets ∧ table.blob = blob ∧ ∀ span ∈ table.spans, span.Terminated blob := by
  simp only [ofOffsets, bind_eq_ok_iff, pure_eq_ok_iff] at htable
  obtain ⟨spans, hspans, rfl⟩ := htable
  obtain ⟨hstarts, hall⟩ := spansFrom_eq_ok hspans
  exact ⟨hstarts, rfl, hall⟩

instance (table : StringTable) : Decidable table.WellFormed :=
  inferInstanceAs (Decidable (_ = _))

theorem wellFormed_of_ofOffsets {offsets : List Nat} {blob : Bytes} {table : StringTable}
    (htable : ofOffsets offsets blob = .ok table) : table.WellFormed := by
  obtain ⟨hoffsets, hblob, _⟩ := ofOffsets_eq_ok htable
  rw [WellFormed, hoffsets, hblob]
  exact htable

theorem WellFormed.terminated {table : StringTable} (htable : table.WellFormed) {span : Span}
    (hspan : span ∈ table.spans) : span.Terminated table.blob :=
  (ofOffsets_eq_ok htable).2.2 span hspan

/-- The text of an entry is what stands in the blob from its offset up to a zero byte. -/
theorem WellFormed.texts_eq {table : StringTable} (htable : table.WellFormed) :
    table.texts = table.offsets.map fun offset => Bytes.upToZero (table.blob.drop offset) := by
  rw [texts, offsets, List.map_map]
  exact List.map_congr_left fun span hspan => (htable.terminated hspan).between_eq

theorem wellFormed_iff (table : StringTable) :
    table.WellFormed ↔ ∀ span ∈ table.spans, span.Terminated table.blob := by
  constructor
  · exact fun htable span => htable.terminated
  · intro hspans
    rw [WellFormed, ofOffsets, offsets, spansFrom_of_terminated hspans]
    rfl

theorem wellFormed_of_ofSections {file : Bytes} {sections : Sections} {table : StringTable}
    (htable : ofSections file sections = .ok table) : table.WellFormed := by
  simp only [ofSections] at htable
  split at htable
  · simp [throw, throwThe, MonadExceptOf.throw, bind, Except.bind] at htable
  · simp only [bind_eq_ok_iff] at htable
    obtain ⟨stored, _, blob, _, hoffsets⟩ := htable
    exact wellFormed_of_ofOffsets hoffsets

end StringTable

end TextPool
