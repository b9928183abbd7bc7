import TextPool.Proofs.Table.WellFormed
import TextPool.Table.Builder

/-!
# Built tables are well formed

A builder never looks for the end of a text: it writes down where it put the text. While a table is
built, every span that the builder hands out or keeps for a repeated text stays terminated in the
blob, which only grows (`TableBuilder.Sound`); so the finished table is one that reading would give
(`StringTable.wellFormed_ofStrings`). With that, every way to a table ends in a well-formed one
(`StringTable.Obtained.wellFormed`).

Its texts are the strings that were put in, in their order, each up to its first zero byte
(`StringTable.texts_ofStrings`): a span that is kept for a text goes on to hold that text.
-/

namespace TextPool

theorem Bytes.between_append_zero (blob text : Bytes) :
    between (blob ++ text ++ [0]) blob.length (blob.length + text.length) = text := by
  rw [between, List.append_assoc, List.drop_left, Nat.add_sub_cancel_left, List.take_left]

theorem Span.terminated_append_zero (blob : Bytes) {text : Bytes} (htext : 0 ∉ text) :
    Span.Terminated (blob ++ text ++ [0]) ⟨blob.length, blob.length + text.length⟩ := by
  have hdrop : (blob ++ text ++ [0]).drop blob.length = text ++ [0] := by
    rw [List.append_assoc, List.drop_left]
  refine ⟨Nat.le_add_right _ _, ?_, ?_⟩
  · rw [List.length_append, List.length_append]
    exact Nat.lt_succ_self _
  · rw [Bytes.between_append_zero, hdrop, Bytes.upToZero_append _ _ htext]
    exact (List.append_nil text).symm

namespace TableBuilder

/-- Every span in the builder runs up to the first zero byte after its start. -/
structure Sound (builder : TableBuilder) : Prop where
  spans : ∀ span ∈ builder.spans.toList, span.Terminated builder.blob.toList
  known : ∀ entry ∈ builder.known, entry.2.Terminated builder.blob.toList

theorem Sound.empty : Sound {} :=
  ⟨fun _ hspan => absurd hspan List.not_mem_nil, fun _ hentry => absurd hentry List.not_mem_nil⟩

theorem mem_of_lookup {known : List (Bytes × Span)} {text : Bytes} {span : Span}
    (hlookup : known.lookup text = some span) : (text, span) ∈ known := by
  obtain ⟨before, after, hsplit, _⟩ := List.lookup_eq_some_iff.mp hlookup
  rw [hsplit]
  exact List.mem_append_right before List.mem_cons_self

theorem Sound.addText {builder : TableBuilder} (hsound : builder.Sound) {text : Bytes}
    (htext : 0 ∉ text) : (builder.addText text).Sound := by
  rw [TableBuilder.addText]
  split
  · next span hlookup =>
    refine ⟨?_, hsound.known⟩
    intro other hother
    rw [Array.toList_push, List.mem_append, List.mem_singleton] at hother
    obtain hother | rfl := hother
    · exact hsound.spans other hother
    · exact hsound.known (text, other) (mem_of_lookup hlookup)
  · -- The blob grows, so the old spans are carried over and the new one is looked at.
    have hblob : ((builder.blob ++ text).push 0).toList = builder.blob.toList ++ text ++ [0] := by
      rw [Array.toList_push, Array.toList_appendList]
    have hold {span : Span} (hspan : span.Terminated builder.blob.toList) :
        span.Terminated (builder.blob.toList ++ text ++ [0]) :=
      (hspan.append text).append [0]
    have hnew := Span.terminated_append_zero builder.blob.toList htext
    refine ⟨?_, ?_⟩
    · intro other hother
      rw [Array.toList_push, List.mem_append, List.mem_singleton] at hother
      rw [hblob]
      obtain hother | rfl := hother
      · exact hold (hsound.spans other hother)
      · exact hnew
    · intro entry hentry
      rw [hblob]
      obtain rfl | hentry := List.mem_cons.mp hentry
      · exact hnew
      · exact hold (hsound.known entry hentry)

theorem Sound.push {builder : TableBuilder} (hsound : builder.Sound) (string : Bytes) :
    (builder.push string).Sound :=
  hsound.addText (Bytes.zero_notMem_upToZero string)

theorem Sound.foldl_push {builder : TableBuilder} (hsound : builder.Sound) (strings : List Bytes) :
    (strings.foldl TableBuilder.push builder).Sound := by
  induction strings generalizing builder with
  | nil => exact hsound
  | cons string rest ih => exact ih (hsound.push string)

/-- The entries of the builder are the given texts, and every text that it knows is in the blob. -/
structure Holds (builder : TableBuilder) (texts : List Bytes) : Prop where
  sound : builder.Sound
  texts_eq : builder.finish.texts = texts
  known_eq : ∀ entry ∈ builder.known,
    Bytes.between builder.blob.toList entry.2.start entry.2.stop = entry.1

theorem Holds.empty : Holds {} [] :=
  ⟨.empty, rfl, fun _ hentry => absurd hentry List.not_mem_nil⟩

theorem Holds.addText {builder : TableBuilder} {texts : List Bytes} (hholds : builder.Holds texts)
    {text : Bytes} (htext : 0 ∉ text) : (builder.addText text).Holds (texts ++ [text]) := by
  have hsound := hholds.sound
  have htexts := hholds.texts_eq
  refine ⟨hsound.addText htext, ?_, ?_⟩
  · rw [TableBuilder.addText]
    split
    · next span hlookup =>
      rw [finish, StringTable.texts, Array.toList_push, List.map_append, List.map_singleton,
        hholds.known_eq _ (mem_of_lookup hlookup)]
      exact congrArg (· ++ [text]) htexts
    · rw [finish, StringTable.texts, Array.toList_push, Array.toList_push, Array.toList_appendList,
        List.map_append, List.map_singleton]
      congr 1
      · rw [← htexts]
        refine List.map_congr_left fun span hspan => ?_
        rw [List.append_assoc]
        exact (hsound.spans span hspan).between_append _
      · exact congrArg (fun added => [added]) (Bytes.between_append_zero builder.blob.toList text)
  · rw [TableBuilder.addText]
    split
    · exact hholds.known_eq
    · intro entry hentry
      rw [Array.toList_push, Array.toList_appendList]
      obtain rfl | hentry := List.mem_cons.mp hentry
      · exact Bytes.between_append_zero builder.blob.toList text
      · rw [List.append_assoc, (hsound.known entry hentry).between_append]
        exact hholds.known_eq entry hentry

theorem Holds.foldl_push {builder : TableBuilder} {texts : List Bytes}
    (hholds : builder.Holds texts) (strings : List Bytes) :
    (strings.foldl TableBuilder.push builder).Holds (texts ++ strings.map Bytes.upToZero) := by
  induction strings generalizing builder texts with
  | nil =>
    rw [List.map_nil, List.append_nil]
    exact hholds
  | cons string rest ih =>
    have hpushed : (builder.push string).Holds (texts ++ [string.upToZero]) :=
      hholds.addText (Bytes.zero_notMem_upToZero string)
    have hrest := ih hpushed
    rwa [List.append_assoc, List.singleton_append] at hrest

theorem Sound.wellFormed_finish {builder : TableBuilder} (hsound : builder.Sound) :
    builder.finish.WellFormed :=
  (StringTable.wellFormed_iff builder.finish).mpr hsound.spans

end TableBuilder

namespace StringTable

theorem wellFormed_ofStrings (strings : List Bytes) : (ofStrings strings).WellFormed :=
  (TableBuilder.Sound.empty.foldl_push strings).wellFormed_finish

theorem texts_ofStrings (strings : List Bytes) :
    (ofStrings strings).texts = strings.map Bytes.upToZero :=
  (TableBuilder.Holds.empty.foldl_push strings).texts_eq

theorem size_ofStrings (strings : List Bytes) : (ofStrings strings).size = strings.length := by
  have hlength := congrArg List.length (texts_ofStrings strings)
  rwa [texts, List.length_map, List.length_map] at hlength

/-- The ways to a table: from its offsets and blob, from parts of a file, and by building. -/
inductive Obtained : StringTable → Prop
  | fromOffsets {offsets : List Nat} {blob : Bytes} {table : StringTable}
      (htable : ofOffsets offsets blob = .ok table) : Obtained table
  | fromFile {file : Bytes} {sections : Sections} {table : StringTable}
      (htable : ofSections file sections = .ok table) : Obtained table
  | built (strings : List Bytes) : Obtained (ofStrings strings)

theorem Obtained.wellFormed {table : StringTable} (hobtained : table.Obtained) :
    table.WellFormed := by
  cases hobtained with
  | fromOffsets htable => exact wellFormed_of_ofOffsets htable
  | fromFile htable => exact wellFormed_of_ofSections htable
  | built strings => exact wellFormed_ofStrings strings

end StringTable

end TextPool
