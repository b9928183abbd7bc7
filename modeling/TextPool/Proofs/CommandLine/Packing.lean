import TextPool.Proofs.CommandLine.Directory
import TextPool.Proofs.CommandLine.Lines
import TextPool.Proofs.Image.Reading
import TextPool.Proofs.Pool.FirstLoad
import TextPool.Proofs.Pool.Listing
import TextPool.Proofs.Table.Sharing

/-!
# What was packed is shown again

A text file is packed, and the table file is looked at. The table holds the texts of the lines of
the file, the figures are those of such a table (`Figures.Describes`), and the listing shows the
empty string and then the texts, in order (`Listing.ofTexts`). Nothing is assumed of the file but
that there is memory for it, without which it could not have been read; that the table file can be
expressed, and that a pool has room for its entries, follows. The files may lie outside the
directory, as long as what is written there is read again.
-/

namespace TextPool

/-! ### The table of a file -/

theorem Bytes.linesOf_texts (file : Bytes) :
    file.LinesOf (StringTable.ofStrings file.lines).texts :=
  linesOf_iff.mpr (StringTable.texts_ofStrings file.lines)

/-- A packed file takes at most nine times its bytes, beside the header. -/
theorem Image.length_encode_lines_le (file : Bytes) :
    (ofTable (.ofStrings file.lines)).encode.length ≤ Header.length + (9 * file.length + 1) := by
  have hblob := Nat.le_trans (StringTable.length_blob_ofStrings_le file.lines)
    file.sum_length_lines_le
  have hsize := file.length_lines_le
  rw [length_encode_ofTable, StringTable.size_ofStrings]
  omega

/-! ### Looking at a table file -/

theorem Pool.runOn_load_of_perform {pool left : Pool} {table : StringTable} {handles : HandleRange}
    (hload : pool.perform (.load table) = (.ok (.range handles), left)) :
    (load table).runOn pool = (.ok handles, left) := by
  rw [perform, act, runOn_answer] at hload
  obtain ⟨houtcome, hleft⟩ := Prod.mk.inj hload
  generalize (load table).runOn pool = result at houtcome hleft ⊢
  obtain ⟨outcome, reached⟩ := result
  obtain rfl : reached = left := hleft
  cases outcome with
  | error failure => cases houtcome
  | ok found =>
    obtain rfl := Answer.range.inj (Except.ok.inj houtcome)
    rfl

theorem LoadedImage.ofFile_eq_ok {path : String} {file : Bytes} {image : Image}
    {handles : HandleRange} {left : Pool} (hparse : Image.parse file = .ok image)
    (hload : (Pool.ofConfig {}).perform (.load image.table) = (.ok (.range handles), left)) :
    LoadedImage.ofFile path file = .ok ⟨image, handles, left⟩ := by
  have htable := (Image.parse_eq_ok_iff.mp hparse).2.2.2
  refine bind_eq_ok_iff.mpr ⟨image, mapError_eq_ok_iff.mpr hparse, ?_⟩
  rw [Pool.loadSections, htable]
  simp only [Pool.runOn_load_of_perform hload]
  rfl

/-- The figures are those of a table of the given texts, loaded into a new pool. -/
structure Figures.Describes (figures : Figures) (texts : List Bytes) : Prop where
  strings_eq : figures.strings = texts.length
  /-- Each distinct text counts once, with its zero byte. -/
  blobBytes_eq : figures.blobBytes = ∑ text ∈ texts.toFinset, (text.length + 1)
  firstHandle_eq : figures.firstHandle = 1
  isLeast_boundary : IsLeast {count | 64 ∣ count ∧ texts.length + 1 < count} figures.boundary
  isLeast_capacity : IsLeast {count | 1024 ∣ count ∧ figures.boundary ≤ count} figures.capacity

namespace Figures.Describes

variable {figures : Figures} {texts : List Bytes} (hdescribes : figures.Describes texts)

include hdescribes

theorem text_eq : figures.text
    = "strings=" ++ toString texts.length ++ " blob_bytes="
      ++ toString (∑ text ∈ texts.toFinset, (text.length + 1))
      ++ " capacity=" ++ toString figures.capacity ++ " boundary=" ++ toString figures.boundary
      ++ "\n" := by
  have hboundary : " boundary=" = " " ++ "boundary=" := rfl
  rw [text, hdescribes.strings_eq, hdescribes.blobBytes_eq, hboundary]
  simp only [String.append_assoc]
  rfl

theorem json_eq : figures.json
    = "\x7b\"blob_bytes\":" ++ toString (∑ text ∈ texts.toFinset, (text.length + 1))
      ++ ",\"boundary\":" ++ toString figures.boundary
      ++ ",\"capacity\":" ++ toString figures.capacity
      ++ ",\"first_handle\":" ++ toString 1 ++ ",\"strings\":" ++ toString texts.length
      ++ "\x7d\n" := by
  have hfront : "\x7b\"blob_bytes\":" = "\x7b" ++ "\"blob_bytes\":" := rfl
  rw [json, hdescribes.strings_eq, hdescribes.blobBytes_eq, hdescribes.firstHandle_eq, hfront]
  simp only [String.append_assoc]
  rfl

end Figures.Describes

/-- The listing of a pool of the given capacity that holds just the given loaded texts. -/
def Listing.ofTexts (texts : List Bytes) (capacity : Nat) : String :=
  "[STRING] --ID --Uses Type-- String--------\n"
    ++ "[STRING]    0      0 STATIC \x7b\x7d\n"
    ++ String.join ((texts.zipIdx 1).map fun line =>
      "[STRING] " ++ (toString line.2).leftpad 4 ++ "      0 STATIC \x7b" ++ Utf8.display line.1
        ++ "\x7d\n")
    ++ "[STRING] ---- ------ ------ --------------\n"
    ++ ("[STRING] Total Strings Used=" ++ toString (texts.length + 1) ++ " MaxID="
      ++ toString capacity ++ "\n")

theorem Listing.entryLine_static (index : Nat) (text : String) :
    entryLine ⟨⟨index⟩, 0, .static, text⟩
      = "[STRING] " ++ (toString index).leftpad 4 ++ "      0 STATIC \x7b" ++ text ++ "\x7d\n" := by
  have hcolumns : "      0 STATIC \x7b" = " " ++ "     0" ++ " " ++ "STATIC" ++ " \x7b" := rfl
  have huses : (toString (0 : UInt64).toNat).leftpad 6 = "     0" := by decide +kernel
  rw [entryLine_eq, hcolumns]
  dsimp only
  rw [huses, if_pos rfl]
  simp only [String.append_assoc]

theorem Listing.entryLine_empty : entryLine ⟨⟨0⟩, 0, .static, Utf8.display []⟩
      = "[STRING]    0      0 STATIC \x7b\x7d\n" := by decide +kernel

theorem Listing.map_entryLine_resident (texts : List Bytes) :
    (resident texts).map entryLine
      = "[STRING]    0      0 STATIC \x7b\x7d\n" :: (texts.zipIdx 1).map fun line =>
        "[STRING] " ++ (toString line.2).leftpad 4 ++ "      0 STATIC \x7b" ++ Utf8.display line.1
          ++ "\x7d\n" := by
  rw [resident, List.zipIdx_cons, List.map_cons, List.map_cons, entryLine_empty, List.map_map]
  refine congrArg (List.cons _) (List.map_congr_left fun line _ => ?_)
  exact entryLine_static line.2 (Utf8.display line.1)

theorem Pool.Resident.dump_eq {table : StringTable} {left : Pool} (hleft : Resident table left) :
    left.dump = Listing.ofTexts table.texts left.capacity := by
  have hused : (Listing.resident table.texts).length = table.texts.length + 1 := by
    rw [Listing.resident, List.length_map, List.length_zipIdx, List.length_cons]
  rw [dump, hleft.listing_eq, hused, Listing.totals_eq, Listing.map_entryLine_resident,
    Listing.header_eq, Listing.rule_eq, String.join_cons]
  unfold Listing.ofTexts
  simp only [String.append_assoc]

/-- A file of the table of some strings can be loaded, with the figures and the listing of the texts
of the strings. -/
theorem LoadedImage.exists_ofFile {file : Bytes} {strings : List Bytes}
    (hparse : Image.parse file = .ok (Image.ofTable (.ofStrings strings)))
    (hmemory : ({} : Config).grants strings.length = true) :
    ∃ loaded : LoadedImage, (∀ path, ofFile path file = .ok loaded) ∧
      loaded.figures.Describes (StringTable.ofStrings strings).texts ∧
      loaded.pool.dump
        = Listing.ofTexts (StringTable.ofStrings strings).texts loaded.figures.capacity := by
  have hsize := StringTable.size_ofStrings strings
  obtain ⟨left, hload, hleft⟩ :=
    Pool.exists_first_load (StringTable.wellFormed_ofStrings strings) (hsize ▸ hmemory)
  have hlength : (StringTable.ofStrings strings).texts.length
      = (StringTable.ofStrings strings).size := List.length_map _
  refine ⟨_, fun path => ofFile_eq_ok hparse hload, ?_, hleft.dump_eq⟩
  constructor
  case strings_eq => exact hlength.symm
  case blobBytes_eq => exact StringTable.length_blob_ofStrings strings
  case firstHandle_eq => rfl
  case isLeast_capacity => exact hleft.isLeast_capacity
  case isLeast_boundary =>
    have hboundary := Word.isLeast_next (1 + (StringTable.ofStrings strings).size)
    rw [← hleft.boundary_eq, Nat.add_comm 1, ← hlength] at hboundary
    exact hboundary

/-! ### Packing and looking -/

/-- After a packing that succeeds, the table file holds the texts of the lines, and both ways of
looking at it succeed and print what is in it. -/
theorem Directory.read_back_of_run_pack {σ : Type} {around : Surroundings σ}
    (haround : around.ReadsBack) {directory left : Directory σ} {input output : String}
    {file : Bytes} {outcome : Outcome} (hread : directory.read around input = .ok file)
    (hmemory : ({} : Config).grants file.length = true)
    (hrun : directory.run around ["pack", input, output] = (outcome, left))
    (hstatus : outcome.status = 0) :
    ∃ (written : Bytes) (image : Image) (boundary capacity : Nat),
      left.read around output = .ok written ∧ Image.parse written = .ok image ∧
      file.LinesOf image.table.texts ∧
      IsLeast {count | 64 ∣ count ∧ image.table.texts.length + 1 < count} boundary ∧
      IsLeast {count | 1024 ∣ count ∧ boundary ≤ count} capacity ∧
      left.run around ["stats", output]
        = (⟨0, "strings=" ++ toString image.table.texts.length ++ " blob_bytes="
            ++ toString (∑ text ∈ image.table.texts.toFinset, (text.length + 1))
            ++ " capacity=" ++ toString capacity ++ " boundary=" ++ toString boundary ++ "\n", ""⟩,
          left) ∧
      left.run around ["stats", output, "json"]
        = (⟨0, "\x7b\"blob_bytes\":"
            ++ toString (∑ text ∈ image.table.texts.toFinset, (text.length + 1))
            ++ ",\"boundary\":" ++ toString boundary ++ ",\"capacity\":" ++ toString capacity
            ++ ",\"first_handle\":" ++ toString 1 ++ ",\"strings\":"
            ++ toString image.table.texts.length ++ "\x7d\n", ""⟩, left) ∧
      left.run around ["dump", output]
        = (⟨0, "[STRING] --ID --Uses Type-- String--------\n"
            ++ "[STRING]    0      0 STATIC \x7b\x7d\n"
            ++ String.join ((image.table.texts.zipIdx 1).map fun line =>
              "[STRING] " ++ (toString line.2).leftpad 4 ++ "      0 STATIC \x7b"
                ++ Utf8.display line.1 ++ "\x7d\n")
            ++ "[STRING] ---- ------ ------ --------------\n"
            ++ ("[STRING] Total Strings Used=" ++ toString (image.table.texts.length + 1)
              ++ " MaxID=" ++ toString capacity ++ "\n"), ""⟩, left) := by
  obtain ⟨houtput, hwrite⟩ := write_of_run_pack hread hrun hstatus
  have hwritten := read_of_write haround hwrite
  have hlength : file.length < 0x1000000000000 := of_decide_eq_true hmemory
  have hsize : (Image.ofTable (.ofStrings file.lines)).encode.length < Word.limit := by
    refine Nat.lt_of_le_of_lt (Image.length_encode_lines_le file) ?_
    simp only [Header.length, Word.limit]
    omega
  have hparse := Image.parse_encode_ofTable (.built file.lines) hsize
  have hlines : ({} : Config).grants file.lines.length = true :=
    decide_eq_true (Nat.lt_of_le_of_lt file.length_lines_le hlength)
  obtain ⟨loaded, hloaded, hfigures, hdump⟩ := LoadedImage.exists_ofFile hparse hlines
  have htable : (Image.ofTable (.ofStrings file.lines)).table = .ofStrings file.lines := rfl
  refine ⟨_, _, loaded.figures.boundary, loaded.figures.capacity, hwritten, hparse, file.linesOf_texts,
    hfigures.isLeast_boundary, hfigures.isLeast_capacity, ?_, ?_, ?_⟩
  · rw [htable, ← hfigures.text_eq]
    exact run_of_print (Command.ofArguments_stats houtput) hwritten
      (bind_eq_ok_iff.mpr ⟨loaded, hloaded output, rfl⟩)
  · rw [htable, ← hfigures.json_eq]
    exact run_of_print (Command.ofArguments_stats_json houtput) hwritten
      (bind_eq_ok_iff.mpr ⟨loaded, hloaded output, rfl⟩)
  · change left.run around ["dump", output] = (⟨0, Listing.ofTexts _ _, ""⟩, left)
    rw [htable, ← hdump]
    exact run_of_print (Command.ofArguments_dump houtput) hwritten
      (bind_eq_ok_iff.mpr ⟨loaded, hloaded output, rfl⟩)

/-- A line with a carriage return, an empty one, one cut at a zero byte, and the first once more,
packed into a file outside. -/
theorem Directory.read_back_of_run_pack_repeated :
    let file : Bytes := [98, 13, 10, 10, 97, 0, 120, 10, 98]
    let directory : Directory Bytes := ⟨[("lines", file)], []⟩
    let left := (directory.run .single ["pack", "lines", "../table"]).2
    directory.read .single "lines" = .ok file ∧ ({} : Config).grants file.length = true ∧
      (directory.run .single ["pack", "lines", "../table"]).1.status = 0 ∧
      left.run .single ["stats", "../table"]
        = (⟨0, "strings=4 blob_bytes=5 capacity=1024 boundary=64\n", ""⟩, left) ∧
      left.run .single ["dump", "../table"]
        = (⟨0, "[STRING] --ID --Uses Type-- String--------\n"
            ++ "[STRING]    0      0 STATIC \x7b\x7d\n"
            ++ "[STRING]    1      0 STATIC \x7bb\x7d\n"
            ++ "[STRING]    2      0 STATIC \x7b\x7d\n"
            ++ "[STRING]    3      0 STATIC \x7ba\x7d\n"
            ++ "[STRING]    4      0 STATIC \x7bb\x7d\n"
            ++ "[STRING] ---- ------ ------ --------------\n"
            ++ "[STRING] Total Strings Used=5 MaxID=1024\n", ""⟩, left) := by
  intro file directory left
  have hread : directory.read .single "lines" = .ok file := by rfl
  have hmemory : ({} : Config).grants file.length = true := by decide
  have hstatus : (directory.run .single ["pack", "lines", "../table"]).1.status = 0 := by
    decide +kernel
  have hrun : directory.run .single ["pack", "lines", "../table"]
      = ((directory.run .single ["pack", "lines", "../table"]).1, left) := rfl
  obtain ⟨written, image, boundary, capacity, hwritten, hparse, hlines, hboundary, hcapacity, hstats, _,
    hdump⟩ := read_back_of_run_pack Surroundings.readsBack_single hread hmemory hrun hstatus
  have htexts : image.table.texts = [[98], [], [97], [98]] :=
    (Bytes.linesOf_iff.mp hlines).trans (by decide)
  rw [htexts] at hboundary hstats hdump
  obtain rfl : boundary = 64 := hboundary.unique
    ⟨⟨by decide, by decide⟩, fun count hcount => Nat.le_of_dvd (Nat.zero_lt_of_lt hcount.2) hcount.1⟩
  obtain rfl : capacity = 1024 := hcapacity.unique
    ⟨⟨by decide, by decide⟩, fun count hcount => Nat.le_of_dvd (by have := hcount.2; omega) hcount.1⟩
  refine ⟨hread, hmemory, hstatus, ?_, ?_⟩
  · rw [hstats]
    refine congrArg (fun text => (Outcome.mk 0 text "", left)) ?_
    decide +kernel
  · rw [hdump]
    refine congrArg (fun text => (Outcome.mk 0 text "", left)) ?_
    decide +kernel

end TextPool
