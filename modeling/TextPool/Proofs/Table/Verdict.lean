import TextPool.Proofs.Table.Stored

/-!
# What a reader of sections answers

The sections of a file are four numbers that nobody has checked, and what is wrong with them is
looked for in a fixed order: whether the offsets can be counted, whether the offsets and then the
blob end inside the file, and last, entry by entry, whether each offset is inside the blob with a
zero byte at it or after it. `Sections.Verdict` lists the answers in that order, each with what the
file holds when it is given, and these conditions leave no choice: a reading has the answer exactly
if the file and the sections call for it (`ofSections_eq_iff_verdict`).
-/

namespace TextPool

namespace Bytes

theorem length_upToZero_lt {bytes : Bytes} (hzero : 0 ∈ bytes) :
    bytes.upToZero.length < bytes.length := by
  have hle : bytes.upToZero.length ≤ bytes.length := (List.takeWhile_prefix _).length_le
  refine Nat.lt_of_le_of_ne hle fun hlength => ?_
  have hself : bytes.upToZero = bytes := (List.takeWhile_prefix _).eq_of_length hlength
  exact zero_notMem_upToZero bytes (hself.symm ▸ hzero)

theorem zeroIndex?_eq_none {bytes : Bytes} (hzero : 0 ∉ bytes) : bytes.zeroIndex? = none := by
  rw [zeroIndex?, List.findIdx?_eq_none_iff]
  intro byte hbyte
  exact beq_eq_false_iff_ne.mpr fun heq => hzero (heq ▸ hbyte)

end Bytes

/-! ### The text at an offset -/

def Span.ofOffset (blob : Bytes) (offset : Nat) : Span :=
  ⟨offset, offset + (Bytes.upToZero (blob.drop offset)).length⟩

theorem Span.terminated_ofOffset {blob : Bytes} {offset : Nat} (hzero : 0 ∈ blob.drop offset) :
    (Span.ofOffset blob offset).Terminated blob := by
  have hlength := Bytes.length_upToZero_lt hzero
  have htake := (Bytes.take_of_zeroIndex? (Bytes.zeroIndex?_of_lt hlength)).2
  rw [List.length_drop] at hlength
  refine ⟨Nat.le_add_right _ _, ?_, ?_⟩
  · change offset + _ < blob.length
    omega
  · rw [ofOffset, Bytes.between, Nat.add_sub_cancel_left]
    exact htake

def FormatError.ofOffset (blobLength index offset : Nat) : FormatError :=
  if blobLength ≤ offset then .offsetOutside index offset blobLength else .unterminated index offset

namespace StringTable

theorem spanAt_of_faulty {blob : Bytes} {offset : Nat} (hzero : 0 ∉ blob.drop offset)
    (index : Nat) : spanAt blob index offset = .error (.ofOffset blob.length index offset) := by
  rw [spanAt, FormatError.ofOffset]
  by_cases hinside : offset < blob.length
  · rw [if_pos hinside, if_neg (Nat.not_le_of_lt hinside), Bytes.zeroIndex?_eq_none hzero]
  · rw [if_neg hinside, if_pos (Nat.le_of_not_lt hinside)]

theorem spansFrom_of_sound {blob : Bytes} {offsets : List Nat}
    (hoffsets : ∀ offset ∈ offsets, 0 ∈ blob.drop offset) (index : Nat) :
    spansFrom blob index offsets = .ok (offsets.map (Span.ofOffset blob)) := by
  have hspans : ∀ span ∈ offsets.map (Span.ofOffset blob), span.Terminated blob := by
    intro span hspan
    obtain ⟨offset, hoffset, rfl⟩ := List.mem_map.mp hspan
    exact Span.terminated_ofOffset (hoffsets offset hoffset)
  have hread := spansFrom_of_terminated hspans index
  rwa [List.map_map, show Span.start ∘ Span.ofOffset blob = id from rfl, List.map_id] at hread

/-- The first offset at which no text starts is the one that is reported. -/
theorem spansFrom_of_faulty {blob : Bytes} {sound : List Nat} {faulty : Nat}
    (hsound : ∀ offset ∈ sound, 0 ∈ blob.drop offset) (hfaulty : 0 ∉ blob.drop faulty)
    (later : List Nat) (index : Nat) :
    spansFrom blob index (sound ++ faulty :: later)
      = .error (.ofOffset blob.length (index + sound.length) faulty) := by
  induction sound generalizing index with
  | nil =>
    rw [List.nil_append, spansFrom, spanAt_of_faulty hfaulty]
    rfl
  | cons offset rest ih =>
    obtain ⟨hoffset, hrest⟩ := List.forall_mem_cons.mp hsound
    have hspan := spanAt_of_terminated (Span.terminated_ofOffset hoffset) index
    rw [Span.ofOffset] at hspan
    rw [List.cons_append, spansFrom, hspan, List.length_cons, Nat.add_comm rest.length,
      ← Nat.add_assoc]
    change (spansFrom blob (index + 1) (rest ++ faulty :: later) >>= _) = _
    rw [ih hrest]
    rfl

/-! ### The parts of a file -/

theorem partAt_of_le {file : Bytes} {position length : Nat}
    (hfits : position + length ≤ file.length) :
    partAt file position length = .ok ((file.drop position).take length) :=
  partAt_eq_ok_iff.mpr (Bytes.stretch?_eq_some_iff.mpr ⟨hfits, rfl⟩)

theorem partAt_of_lt {file : Bytes} {position length : Nat}
    (hcut : file.length < position + length) :
    partAt file position length = .error (.tooShort position length file.length) := by
  rw [partAt, Bytes.stretch?, if_neg (Nat.not_le_of_lt hcut)]

theorem readOffsets_take (count : Nat) (bytes : Bytes) :
    readOffsets count (bytes.take (8 * count))
      = (List.range count).map fun index => LittleEndian.decode ((bytes.drop (8 * index)).take 8) := by
  induction count generalizing bytes with
  | zero => rfl
  | succ count ih =>
    have hfirst : (bytes.take (8 * (count + 1))).take 8 = bytes.take 8 := by
      rw [List.take_take, Nat.min_eq_left (by omega)]
    have hrest : (bytes.take (8 * (count + 1))).drop 8 = (bytes.drop 8).take (8 * count) := by
      rw [List.drop_take]
      rfl
    rw [readOffsets, hfirst, hrest, ih, List.range_succ_eq_map, List.map_cons, List.map_map]
    congr 1
    refine List.map_congr_left fun index _ => ?_
    rw [Function.comp_apply, List.drop_drop, Nat.succ_eq_add_one, Nat.mul_add, Nat.add_comm 8]

end StringTable

/-! ### The answers -/

namespace Sections

variable (sections : Sections) (file : Bytes)

def offsetAt (index : Nat) : Nat :=
  LittleEndian.decode ((file.drop (sections.offsetsStart.toNat + 8 * index)).take 8)

def blobIn : Bytes :=
  (file.drop sections.blobStart.toNat).take sections.blobLength.toNat

def textFrom (index : Nat) : Bytes :=
  (sections.blobIn file).drop (sections.offsetAt file index)

/-- The offsets can be counted, and both parts end inside the file. -/
structure Inside : Prop where
  length_lt : 8 * sections.entries.toNat < Word.limit
  offsets_le : sections.offsetsStart.toNat + 8 * sections.entries.toNat ≤ file.length
  blob_le : sections.blobStart.toNat + sections.blobLength.toNat ≤ file.length

/-- The entry is the first one without a zero byte in the blob, at its offset or after it. -/
structure FirstFaulty (index : Nat) : Prop where
  lt_entries : index < sections.entries.toNat
  faulty : 0 ∉ sections.textFrom file index
  earlier : ∀ other < index, 0 ∈ sections.textFrom file other

def spanOf (index : Nat) : Span :=
  .ofOffset (sections.blobIn file) (sections.offsetAt file index)

def textOf (index : Nat) : Bytes :=
  (sections.textFrom file index).upToZero

/-- The table has just the stored offsets and the blob, and shows the text of each entry. -/
structure Lists (table : StringTable) : Prop where
  blob_eq : table.blob = sections.blobIn file
  offsets_eq : table.offsets = (List.range sections.entries.toNat).map (sections.offsetAt file)
  spans_eq : table.spans = (List.range sections.entries.toNat).map (sections.spanOf file)
  texts_eq : table.texts = (List.range sections.entries.toNat).map (sections.textOf file)
  span?_eq : ∀ index, table.span? index
    = if index < sections.entries.toNat then some (sections.spanOf file index) else none
  get?_eq : ∀ index, table.get? index
    = if index < sections.entries.toNat then some (sections.textOf file index) else none
  /-- Each span ends in the blob, at the first zero byte from its start on. -/
  terminated : ∀ span ∈ table.spans, span.Terminated table.blob

/-- What a reading answers, with what it finds. -/
inductive Verdict : Except FormatError StringTable → Prop
  | uncountable (hlength : Word.limit ≤ 8 * sections.entries.toNat) :
      Verdict (.error (.tooShort sections.offsetsStart.toNat (Word.limit - 1) file.length))
  | offsetsCut (hlength : 8 * sections.entries.toNat < Word.limit)
      (hcut : file.length < sections.offsetsStart.toNat + 8 * sections.entries.toNat) :
      Verdict (.error
        (.tooShort sections.offsetsStart.toNat (8 * sections.entries.toNat) file.length))
  | blobCut (hlength : 8 * sections.entries.toNat < Word.limit)
      (hoffsets : sections.offsetsStart.toNat + 8 * sections.entries.toNat ≤ file.length)
      (hcut : file.length < sections.blobStart.toNat + sections.blobLength.toNat) :
      Verdict (.error
        (.tooShort sections.blobStart.toNat sections.blobLength.toNat file.length))
  | outside {index : Nat} (hinside : sections.Inside file)
      (hfirst : sections.FirstFaulty file index)
      (hoffset : sections.blobLength.toNat ≤ sections.offsetAt file index) :
      Verdict (.error
        (.offsetOutside index (sections.offsetAt file index) sections.blobLength.toNat))
  | unterminated {index : Nat} (hinside : sections.Inside file)
      (hfirst : sections.FirstFaulty file index)
      (hoffset : sections.offsetAt file index < sections.blobLength.toNat) :
      Verdict (.error (.unterminated index (sections.offsetAt file index)))
  | read {table : StringTable} (hinside : sections.Inside file)
      (hsound : ∀ index < sections.entries.toNat, 0 ∈ sections.textFrom file index)
      (hlists : sections.Lists file table) : Verdict (.ok table)

variable {sections file}

theorem Inside.length_blobIn (hinside : sections.Inside file) :
    (sections.blobIn file).length = sections.blobLength.toNat := by
  have hblob := hinside.blob_le
  rw [blobIn, List.length_take, List.length_drop]
  omega

theorem Inside.ofSections_eq (hinside : sections.Inside file) :
    StringTable.ofSections file sections
      = StringTable.ofOffsets ((List.range sections.entries.toNat).map (sections.offsetAt file))
          (sections.blobIn file) := by
  have hoffsets (index : Nat) :
      LittleEndian.decode (((file.drop sections.offsetsStart.toNat).drop (8 * index)).take 8)
        = sections.offsetAt file index := by
    rw [List.drop_drop, offsetAt]
  simp only [StringTable.ofSections, if_neg (Nat.not_le_of_lt hinside.length_lt),
    StringTable.partAt_of_le hinside.offsets_le, StringTable.partAt_of_le hinside.blob_le]
  change StringTable.ofOffsets (StringTable.readOffsets _ _) _ = _
  rw [StringTable.readOffsets_take, funext hoffsets, blobIn]

theorem lists_of_sound
    (hsound : ∀ index < sections.entries.toNat, 0 ∈ sections.textFrom file index) :
    sections.Lists file
      ⟨(List.range sections.entries.toNat).map (sections.spanOf file), sections.blobIn file⟩ := by
  have hspans : ∀ span ∈ (List.range sections.entries.toNat).map (sections.spanOf file),
      span.Terminated (sections.blobIn file) := by
    intro span hspan
    obtain ⟨index, hindex, rfl⟩ := List.mem_map.mp hspan
    exact Span.terminated_ofOffset (hsound index (List.mem_range.mp hindex))
  have htext : ∀ index < sections.entries.toNat,
      (sections.blobIn file).between (sections.spanOf file index).start
        (sections.spanOf file index).stop = sections.textOf file index := by
    intro index hindex
    exact (Span.terminated_ofOffset (hsound index hindex)).between_eq
  constructor
  case blob_eq => rfl
  case offsets_eq => rw [StringTable.offsets, List.map_map]; rfl
  case spans_eq => rfl
  case texts_eq =>
    rw [StringTable.texts, List.map_map]
    exact List.map_congr_left fun index hindex => htext index (List.mem_range.mp hindex)
  case span?_eq =>
    intro index
    rw [StringTable.span?, List.getElem?_map]
    split
    · next hindex => rw [List.getElem?_range hindex, Option.map_some]
    · next hindex => rw [List.getElem?_eq_none (by simpa using hindex), Option.map_none]
  case get?_eq =>
    intro index
    rw [StringTable.get?, StringTable.span?, List.getElem?_map]
    split
    · next hindex =>
      rw [List.getElem?_range hindex, Option.map_some, Option.map_some, htext index hindex]
    · next hindex =>
      rw [List.getElem?_eq_none (by simpa using hindex), Option.map_none, Option.map_none]
  case terminated => exact hspans

theorem FirstFaulty.ofOffsets_eq {index : Nat} (hfirst : sections.FirstFaulty file index) :
    StringTable.ofOffsets ((List.range sections.entries.toNat).map (sections.offsetAt file))
        (sections.blobIn file)
      = .error (.ofOffset (sections.blobIn file).length index (sections.offsetAt file index)) := by
  have hsplit : List.range sections.entries.toNat
      = List.range index ++ index :: List.range' (index + 1) (sections.entries.toNat - index - 1) := by
    have hlt := hfirst.lt_entries
    have hcount : sections.entries.toNat = index + (sections.entries.toNat - index - 1 + 1) := by
      omega
    have happend := List.range'_append_1 (s := 0) (m := index)
      (n := sections.entries.toNat - index - 1 + 1)
    rw [Nat.zero_add, ← hcount] at happend
    rw [← List.range'_succ, List.range_eq_range', List.range_eq_range', happend]
  have hsound : ∀ offset ∈ (List.range index).map (sections.offsetAt file),
      0 ∈ (sections.blobIn file).drop offset := by
    intro offset hoffset
    obtain ⟨other, hother, rfl⟩ := List.mem_map.mp hoffset
    exact hfirst.earlier other (List.mem_range.mp hother)
  have hlength : 0 + ((List.range index).map (sections.offsetAt file)).length = index := by
    rw [List.length_map, List.length_range, Nat.zero_add]
  rw [StringTable.ofOffsets, hsplit, List.map_append, List.map_cons,
    StringTable.spansFrom_of_faulty hsound hfirst.faulty, hlength]
  rfl

theorem exists_firstFaulty
    (hfaulty : ¬∀ index < sections.entries.toNat, 0 ∈ sections.textFrom file index) :
    ∃ index, sections.FirstFaulty file index := by
  have hsome : ∃ index, index < sections.entries.toNat ∧ 0 ∉ sections.textFrom file index := by
    simpa using hfaulty
  obtain ⟨hlt, hnone⟩ := Nat.find_spec hsome
  refine ⟨Nat.find hsome, hlt, hnone, fun other hother => ?_⟩
  by_contra hmissing
  exact Nat.find_min hsome hother ⟨Nat.lt_trans hother hlt, hmissing⟩

/-- The conditions of an answer are those under which it is given. -/
theorem Verdict.ofSections_eq {outcome : Except FormatError StringTable}
    (hverdict : sections.Verdict file outcome) :
    StringTable.ofSections file sections = outcome := by
  cases hverdict with
  | uncountable hlength =>
    simp only [StringTable.ofSections, if_pos hlength]
    rfl
  | offsetsCut hlength hcut =>
    simp only [StringTable.ofSections, if_neg (Nat.not_le_of_lt hlength),
      StringTable.partAt_of_lt hcut]
    rfl
  | blobCut hlength hoffsets hcut =>
    simp only [StringTable.ofSections, if_neg (Nat.not_le_of_lt hlength),
      StringTable.partAt_of_le hoffsets, StringTable.partAt_of_lt hcut]
    rfl
  | outside hinside hfirst hoffset =>
    rw [hinside.ofSections_eq, hfirst.ofOffsets_eq, hinside.length_blobIn, FormatError.ofOffset,
      if_pos hoffset]
  | unterminated hinside hfirst hoffset =>
    rw [hinside.ofSections_eq, hfirst.ofOffsets_eq, hinside.length_blobIn, FormatError.ofOffset,
      if_neg (Nat.not_le_of_lt hoffset)]
  | @read table hinside hsound hlists =>
    have hoffsets : ∀ offset ∈ (List.range sections.entries.toNat).map (sections.offsetAt file),
        0 ∈ (sections.blobIn file).drop offset := by
      intro offset hoffset
      obtain ⟨index, hindex, rfl⟩ := List.mem_map.mp hoffset
      exact hsound index (List.mem_range.mp hindex)
    obtain ⟨spans, blob⟩ := table
    obtain rfl : blob = sections.blobIn file := hlists.blob_eq
    obtain rfl : spans = _ := hlists.spans_eq
    rw [hinside.ofSections_eq, StringTable.ofOffsets, StringTable.spansFrom_of_sound hoffsets,
      List.map_map]
    rfl

/-- There is an answer for every file and all sections. -/
theorem exists_verdict (sections : Sections) (file : Bytes) :
    ∃ outcome, sections.Verdict file outcome := by
  by_cases hlength : Word.limit ≤ 8 * sections.entries.toNat
  · exact ⟨_, .uncountable hlength⟩
  have hcountable := Nat.lt_of_not_le hlength
  by_cases hoffsets : sections.offsetsStart.toNat + 8 * sections.entries.toNat ≤ file.length
  swap
  · exact ⟨_, .offsetsCut hcountable (Nat.lt_of_not_le hoffsets)⟩
  by_cases hblob : sections.blobStart.toNat + sections.blobLength.toNat ≤ file.length
  swap
  · exact ⟨_, .blobCut hcountable hoffsets (Nat.lt_of_not_le hblob)⟩
  have hinside : sections.Inside file := ⟨hcountable, hoffsets, hblob⟩
  by_cases hsound : ∀ index < sections.entries.toNat, 0 ∈ sections.textFrom file index
  · exact ⟨_, .read hinside hsound (lists_of_sound hsound)⟩
  obtain ⟨index, hfirst⟩ := exists_firstFaulty hsound
  by_cases hoffset : sections.blobLength.toNat ≤ sections.offsetAt file index
  · exact ⟨_, .outside hinside hfirst hoffset⟩
  · exact ⟨_, .unterminated hinside hfirst (Nat.lt_of_not_le hoffset)⟩

theorem ofSections_eq_iff {outcome : Except FormatError StringTable} :
    StringTable.ofSections file sections = outcome ↔ sections.Verdict file outcome := by
  refine ⟨fun hread => ?_, fun hverdict => hverdict.ofSections_eq⟩
  obtain ⟨answer, hverdict⟩ := exists_verdict sections file
  rwa [← hread, hverdict.ofSections_eq]

end Sections

end TextPool
