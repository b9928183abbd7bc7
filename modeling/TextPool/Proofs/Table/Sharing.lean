import Mathlib
import TextPool.Proofs.Table.Builder

/-!
# Built tables hold each text once

While a table is built, three things stay in step with the texts that were put in
(`TableBuilder.Shares`): every entry has the span that is known for its text, the known texts are
the distinct ones, in the order in which they first came, and the blob is these texts with a zero
byte behind each. So entries start at one place exactly if their texts are equal
(`StringTable.offsets_ofStrings_eq_iff`), and the blob can be told from the texts alone
(`StringTable.blob_ofStrings`). Its length, in particular, does not depend on how often each of them
comes (`StringTable.length_blob_ofStrings`).
-/

namespace TextPool

/-! ### Distinct elements in the order in which they come -/

section Distinct

variable {α : Type} [BEq α] [LawfulBEq α] {elements : List α} {last : α}

theorem eraseDups_concat_of_mem (hlast : last ∈ elements) :
    (elements ++ [last]).eraseDups = elements.eraseDups := by
  have hnone : [last].removeAll elements = [] := by simp [List.removeAll, hlast]
  rw [List.eraseDups_append, hnone, List.eraseDups_nil, List.append_nil]

theorem eraseDups_concat_of_notMem (hlast : last ∉ elements) :
    (elements ++ [last]).eraseDups = elements.eraseDups ++ [last] := by
  have hnew : [last].removeAll elements = [last] := by simp [List.removeAll, hlast]
  rw [List.eraseDups_append, hnew]
  rfl

theorem nodup_eraseDups (elements : List α) : elements.eraseDups.Nodup := by
  induction elements using List.reverseRecOn with
  | nil => exact List.nodup_nil
  | append_singleton elements last ih =>
    by_cases hlast : last ∈ elements
    · rwa [eraseDups_concat_of_mem hlast]
    · rw [eraseDups_concat_of_notMem hlast]
      refine List.nodup_append.mpr ⟨ih, List.nodup_singleton last, ?_⟩
      intro element helement other hother
      rintro rfl
      exact hlast (List.mem_singleton.mp hother ▸ List.mem_eraseDups.mp helement)

end Distinct

namespace TableBuilder

/-- The texts that the builder knows, the latest first. -/
def distinct (builder : TableBuilder) : List Bytes :=
  builder.known.map Prod.fst

/-- The entries, the known texts and the blob of the builder are in step with the texts put in. -/
structure Shares (builder : TableBuilder) (texts : List Bytes) : Prop where
  /-- Each entry has the span that is known for its text. -/
  spans_eq : builder.spans.toList.map some = texts.map fun text => builder.known.lookup text
  distinct_eq : builder.distinct = texts.eraseDups.reverse
  blob_eq : builder.blob.toList = texts.eraseDups.flatMap fun text => text ++ [0]

theorem Shares.empty : Shares {} [] :=
  ⟨rfl, rfl, rfl⟩

theorem Shares.mem_distinct_iff {builder : TableBuilder} {texts : List Bytes}
    (hshares : builder.Shares texts) (text : Bytes) : text ∈ builder.distinct ↔ text ∈ texts := by
  rw [hshares.distinct_eq, List.mem_reverse, List.mem_eraseDups]

theorem mem_distinct_iff_lookup (builder : TableBuilder) (text : Bytes) :
    text ∈ builder.distinct ↔ (builder.known.lookup text).isSome = true := by
  rw [distinct, List.lookup_isSome_iff, List.mem_map]
  refine exists_congr fun entry => and_congr_right fun _ => ?_
  rw [beq_iff_eq, eq_comm]

theorem Shares.addText {builder : TableBuilder} {texts : List Bytes} (hshares : builder.Shares texts)
    (text : Bytes) : (builder.addText text).Shares (texts ++ [text]) := by
  have hknown := builder.mem_distinct_iff_lookup text
  rw [hshares.mem_distinct_iff] at hknown
  rw [TableBuilder.addText]
  split
  · next span hlookup =>
    -- The text is known, and nothing is added but an entry.
    have hmem : text ∈ texts := hknown.mpr (Option.isSome_of_eq_some hlookup)
    refine ⟨?_, ?_, ?_⟩
    · rw [Array.toList_push, List.map_append, List.map_append, hshares.spans_eq, List.map_singleton,
        List.map_singleton, hlookup]
    · rw [eraseDups_concat_of_mem hmem]
      exact hshares.distinct_eq
    · rw [eraseDups_concat_of_mem hmem]
      exact hshares.blob_eq
  · next hlookup =>
    have hnew : text ∉ texts := by
      rw [hknown, hlookup]
      exact Bool.false_ne_true
    refine ⟨?_, ?_, ?_⟩
    · -- What is known of the earlier texts is not covered up by the new one.
      have hold : ∀ other ∈ texts, other ≠ text := by
        rintro other hother rfl
        exact hnew hother
      rw [Array.toList_push, List.map_append, List.map_append, hshares.spans_eq, List.map_singleton,
        List.map_singleton, List.lookup_cons, beq_self_eq_true]
      congr 1
      refine List.map_congr_left fun other hother => ?_
      rw [List.lookup_cons, beq_eq_false_iff_ne.mpr (hold other hother)]
    · rw [eraseDups_concat_of_notMem hnew, List.reverse_concat]
      exact congrArg (text :: ·) hshares.distinct_eq
    · rw [eraseDups_concat_of_notMem hnew, List.flatMap_append, Array.toList_push,
        Array.toList_appendList, hshares.blob_eq, List.flatMap_singleton, List.append_assoc]

theorem Shares.foldl_push {builder : TableBuilder} {texts : List Bytes}
    (hshares : builder.Shares texts) (strings : List Bytes) :
    (strings.foldl TableBuilder.push builder).Shares (texts ++ strings.map Bytes.upToZero) := by
  induction strings generalizing builder texts with
  | nil =>
    rw [List.map_nil, List.append_nil]
    exact hshares
  | cons string rest ih =>
    have hrest := ih (hshares.addText string.upToZero)
    rwa [List.append_assoc, List.singleton_append] at hrest

theorem shares_ofStrings (strings : List Bytes) :
    (ofStrings strings).Shares (strings.map Bytes.upToZero) :=
  Shares.empty.foldl_push strings

/-! ### Numbers of entries -/

def addAll (builder : TableBuilder) : List Bytes → List Nat × TableBuilder
  | [] => ([], builder)
  | string :: rest =>
    let (number, longer) := builder.add string
    let (numbers, last) := longer.addAll rest
    (number :: numbers, last)

theorem size_push (builder : TableBuilder) (string : Bytes) :
    (builder.push string).size = builder.size + 1 := by
  rw [push, addText]
  split
  · exact Array.size_push _
  · exact Array.size_push _

theorem add_eq (builder : TableBuilder) (string : Bytes) :
    builder.add string = (builder.size, builder.push string) := by
  rw [add, size_push, Nat.add_sub_cancel]

theorem addAll_eq (builder : TableBuilder) (strings : List Bytes) :
    builder.addAll strings
      = (List.range' builder.size strings.length, strings.foldl push builder) := by
  induction strings generalizing builder with
  | nil => rfl
  | cons string rest ih =>
    rw [addAll, add_eq]
    dsimp only
    rw [ih, size_push]
    rfl

end TableBuilder

namespace StringTable

/-- The blob of a built table holds each distinct text once, with its zero byte. -/
theorem blob_ofStrings (strings : List Bytes) :
    (ofStrings strings).blob
      = (strings.map Bytes.upToZero).eraseDups.flatMap fun text => text ++ [0] :=
  (TableBuilder.shares_ofStrings strings).blob_eq

theorem length_blob_ofStrings (strings : List Bytes) :
    (ofStrings strings).blob.length
      = ∑ text ∈ (ofStrings strings).texts.toFinset, (text.length + 1) := by
  have hdistinct : (strings.map Bytes.upToZero).eraseDups.toFinset
      = (ofStrings strings).texts.toFinset := by
    ext text
    rw [List.mem_toFinset, List.mem_toFinset, texts_ofStrings, List.mem_eraseDups]
  rw [← hdistinct, List.sum_toFinset _ (nodup_eraseDups _), blob_ofStrings, List.length_flatMap]
  simp only [List.length_append, List.length_singleton]

theorem length_blob_ofStrings_le (strings : List Bytes) :
    (ofStrings strings).blob.length
      ≤ ((strings.map Bytes.upToZero).map fun text => text.length + 1).sum := by
  have hdedup : (strings.map Bytes.upToZero).dedup.toFinset
      = (strings.map Bytes.upToZero).toFinset := List.toFinset.ext fun _ => List.mem_dedup
  rw [length_blob_ofStrings, texts_ofStrings, ← hdedup, List.sum_toFinset _ (List.nodup_dedup _)]
  exact ((List.dedup_sublist _).map _).sum_le_sum fun _ _ => Nat.zero_le _

theorem get?_eq_texts (table : StringTable) (index : Nat) :
    table.get? index = table.texts[index]? := by
  rw [get?, span?, texts, List.getElem?_map]

/-- Two entries start at one place exactly if their texts are equal. -/
theorem offsets_ofStrings_eq_iff (strings : List Bytes) (first second : Nat) :
    let table := ofStrings strings
    table.offsets[first]? = table.offsets[second]? ↔ table.texts[first]? = table.texts[second]? := by
  intro table
  constructor
  · -- The text is what the blob holds from the offset on.
    intro hoffset
    rw [(wellFormed_ofStrings strings).texts_eq, List.getElem?_map, List.getElem?_map]
    exact congrArg _ hoffset
  · intro htext
    have hspan (index : Nat) : table.spans[index]?.map some
        = table.texts[index]?.map fun text => (TableBuilder.ofStrings strings).known.lookup text := by
      rw [← List.getElem?_map, ← List.getElem?_map, texts_ofStrings]
      exact congrArg (·[index]?) (TableBuilder.shares_ofStrings strings).spans_eq
    have hsame : table.spans[first]? = table.spans[second]? := by
      apply Option.map_injective (Option.some_injective Span)
      rw [hspan, hspan, htext]
    rw [offsets, List.getElem?_map, List.getElem?_map, hsame]

/-- Strings get the numbers from zero on, and entries share a place in the blob exactly if they hold
the same text. -/
theorem ofStrings_shared (strings : List Bytes) :
    let table := ofStrings strings
    let texts := strings.map Bytes.upToZero
    TableBuilder.addAll {} strings = (List.range strings.length, .ofStrings strings) ∧
      ofOffsets table.offsets table.blob = .ok table ∧
      (∀ index : Nat, table.get? index = texts[index]?) ∧
      (∀ first second : Nat,
        table.offsets[first]? = table.offsets[second]? ↔ texts[first]? = texts[second]?) ∧
      table.blob = texts.eraseDups.flatMap fun text => text ++ [0] := by
  intro table texts
  have htexts : table.texts = texts := texts_ofStrings strings
  refine ⟨?_, wellFormed_ofStrings strings, fun index => ?_, fun first second => ?_,
    blob_ofStrings strings⟩
  · rw [TableBuilder.addAll_eq, List.range_eq_range']
    rfl
  · rw [get?_eq_texts, htexts]
  · rw [← htexts]
    exact offsets_ofStrings_eq_iff strings first second

end StringTable

end TextPool
