import Mathlib.Data.String.Lemmas
import TextPool.Proofs.Bitset.Listing
import TextPool.Proofs.Pool.Missing

/-!
# What a listing shows

The handles of a listing are the list of the occupied slots (`Sound.map_index_listing`), since a
slot is occupied exactly if there is a string in it. So no string is left out and none stands twice,
and the entries say of their strings what can also be asked for one by one
(`answers_of_mem_listing`).

In the lines for people, two headings stand around one line for each string
(`Listing.entryLine_eq`), and then come the count of the strings and the capacity
(`Listing.totals_eq`). Neither request changes the pool (`listing_exact`).
-/

namespace TextPool

namespace Listing

/-! ### Lines -/

theorem rightAligned_eq (width : Nat) (text : String) :
    rightAligned width text = text.leftpad width := by
  rw [rightAligned, String.leftpad, List.leftpad, String.ofList_append, String.ofList_toList,
    String.length_toList]

theorem entryLine_eq (entry : ListingEntry) : entryLine entry
    = "[STRING] " ++ (toString entry.handle.index).leftpad 4 ++ " "
      ++ (toString entry.owners.toNat).leftpad 6 ++ " "
      ++ (if entry.kind = .static then "STATIC" else "      ")
      ++ " \x7b" ++ entry.text ++ "\x7d\n" := by
  obtain ⟨handle, owners, kind, text⟩ := entry
  have hkind : rightAligned 6 (kindColumn kind) = if kind = .static then "STATIC" else "      " := by
    cases kind <;> rfl
  have hend : "\x7d\n" = "\x7d" ++ "\n" := rfl
  rw [entryLine, line, hkind, rightAligned_eq, rightAligned_eq, hend]
  simp only [String.append_assoc]

theorem header_eq : header = "[STRING] --ID --Uses Type-- String--------\n" := rfl

theorem rule_eq : rule = "[STRING] ---- ------ ------ --------------\n" := rfl

theorem totals_eq (used capacity : Nat) : totals used capacity
    = "[STRING] Total Strings Used=" ++ toString used ++ " MaxID=" ++ toString capacity ++ "\n" := by
  have hfront : "[STRING] Total Strings Used=" = "[STRING] " ++ "Total Strings Used=" := rfl
  rw [hfront]
  simp only [totals, line, String.append_assoc]
  rfl

end Listing

namespace Pool

/-! ### Entries -/

section Entries

variable {pool : Pool}

/-- What an entry says is what questions about its handle are answered with. -/
theorem answers_of_mem_listing {listed : ListingEntry} (hlisted : listed ∈ pool.listing) :
    pool.owners listed.handle = .ok listed.owners ∧ pool.kind listed.handle = .ok listed.kind ∧
      pool.display listed.handle = .ok listed.text := by
  obtain ⟨index, _, hshown⟩ := List.mem_filterMap.mp hlisted
  split at hshown
  · next entry hentry =>
    obtain rfl := Option.some.inj hshown
    have hlooked : pool.entry ⟨index⟩ = .ok entry := entry_eq_ok_iff.mpr hentry
    simp only [Pool.owners, Pool.kind, Pool.display, Pool.text, hlooked]
    exact ⟨rfl, rfl, rfl⟩
  · exact absurd hshown.symm (Option.some_ne_none _)

/-- No occupied slot is without a string, so none is passed over. -/
theorem Sound.map_index_listing (hsound : pool.Sound) :
    pool.listing.map (·.handle.index) = pool.occupied.toList := by
  have hshown : pool.listing.map (·.handle.index) = pool.occupied.toList.filterMap some := by
    rw [listing, List.map_filterMap]
    refine List.filterMap_congr fun index hindex => ?_
    obtain ⟨entry, hentry⟩ := (hsound.contains_iff index).mp ((Bitset.mem_toList _ _).mp hindex)
    rw [hentry]
    rfl
  rw [hshown, List.filterMap_some]

theorem Sound.mem_map_listing (hsound : pool.Sound) (handle : Handle) :
    handle ∈ pool.listing.map (·.handle) ↔ pool.contains handle = true := by
  rw [contains, ← Bitset.mem_toList, ← hsound.map_index_listing, List.mem_map, List.mem_map]
  constructor
  · rintro ⟨listed, hlisted, rfl⟩
    exact ⟨listed, hlisted, rfl⟩
  · rintro ⟨listed, hlisted, hindex⟩
    exact ⟨listed, hlisted, congrArg Handle.mk hindex⟩

theorem Sound.length_listing (hsound : pool.Sound) : pool.listing.length = pool.count := by
  rw [← List.length_map, hsound.map_index_listing, Bitset.length_toList, count]

end Entries

/-- The entries are the strings that are there, each with what is answered about it, and the dump
has a line for each of them. -/
theorem listing_exact {config : Config} {pool : Pool} (hreachable : Reachable config pool) :
    (pool.listing.map (·.handle.index)).Pairwise (· < ·) ∧
      (∀ handle, (handle ∈ pool.listing.map (·.handle) ↔ pool.contains handle = true) ∧
        (handle ∈ pool.listing.map (·.handle) ↔ ∃ text, pool.text handle = .ok text)) ∧
      (∀ listed ∈ pool.listing, pool.owners listed.handle = .ok listed.owners ∧
        pool.kind listed.handle = .ok listed.kind ∧ pool.display listed.handle = .ok listed.text) ∧
      pool.listing.length = pool.count ∧
      pool.dump = "[STRING] --ID --Uses Type-- String--------\n"
        ++ String.join (pool.listing.map fun listed =>
          "[STRING] " ++ (toString listed.handle.index).leftpad 4 ++ " "
            ++ (toString listed.owners.toNat).leftpad 6 ++ " "
            ++ (if listed.kind = .static then "STATIC" else "      ")
            ++ " \x7b" ++ listed.text ++ "\x7d\n")
        ++ "[STRING] ---- ------ ------ --------------\n"
        ++ ("[STRING] Total Strings Used=" ++ toString pool.count ++ " MaxID="
          ++ toString pool.capacity ++ "\n") ∧
      pool.perform .listing = (.ok (.listing pool.listing), pool) ∧
      pool.perform .dump = (.ok (.text pool.dump), pool) := by
  have hsound := (sound_of_reachable hreachable).1
  have hlength := hsound.length_listing
  refine ⟨?_, fun handle => ⟨hsound.mem_map_listing handle, ?_⟩, fun listed => answers_of_mem_listing,
    hlength, ?_, rfl, rfl⟩
  · rw [hsound.map_index_listing]
    exact Bitset.pairwise_toList _
  · rw [hsound.mem_map_listing, hsound.contains_iff_text]
  · have hlines := List.map_congr_left fun listed (_ : listed ∈ pool.listing) =>
      Listing.entryLine_eq listed
    rw [dump, hlength, Listing.header_eq, Listing.rule_eq, Listing.totals_eq, hlines]

/-- Of two strings made after a load a sweep removes the one without an owner, and one more is
made. -/
theorem listing_exact_swept :
    let pool := (ofConfig {}).after [.load ⟨[⟨0, 1⟩], [99, 0]⟩, .allocate [97], .allocate [98],
      .retain ⟨65⟩, .sweep, .allocate [100]]
    pool.listing.map (·.handle) = [⟨0⟩, ⟨1⟩, ⟨65⟩, ⟨66⟩] ∧ pool.count = 4 ∧
      pool.contains ⟨64⟩ = false ∧ (∃ text, pool.text ⟨66⟩ = .ok text) ∧
      pool.dump = "[STRING] --ID --Uses Type-- String--------\n"
        ++ "[STRING]    0      0 STATIC \x7b\x7d\n"
        ++ "[STRING]    1      0 STATIC \x7bc\x7d\n"
        ++ "[STRING]   65      1        \x7bb\x7d\n"
        ++ "[STRING]   66      0        \x7bd\x7d\n"
        ++ "[STRING] ---- ------ ------ --------------\n"
        ++ "[STRING] Total Strings Used=4 MaxID=1024\n" ∧
      pool.perform .dump = (.ok (.text pool.dump), pool) := by
  intro pool
  have hreachable : Reachable {} pool := ⟨_, by decide, rfl⟩
  have hlisting : pool.listing = [⟨⟨0⟩, 0, .static, ""⟩, ⟨⟨1⟩, 0, .static, "c"⟩,
      ⟨⟨65⟩, 1, .dynamic, "b"⟩, ⟨⟨66⟩, 0, .dynamic, "d"⟩] := by decide +kernel
  have hcapacity : pool.capacity = 1024 := by decide +kernel
  obtain ⟨_, hlisted, _, hlength, hdump, _, hanswer⟩ := listing_exact hreachable
  have hhandles : pool.listing.map (·.handle) = [⟨0⟩, ⟨1⟩, ⟨65⟩, ⟨66⟩] := by rw [hlisting]; rfl
  have hcount : pool.count = 4 := by rw [← hlength, hlisting]; rfl
  have hswept : ¬pool.contains ⟨64⟩ = true := by
    rw [← (hlisted ⟨64⟩).1, hhandles]
    decide
  have hlast : ∃ text, pool.text ⟨66⟩ = .ok text := by
    rw [← (hlisted ⟨66⟩).2, hhandles]
    decide
  refine ⟨hhandles, hcount, Bool.eq_false_of_not_eq_true hswept, hlast, ?_, hanswer⟩
  rw [hdump, hlisting, hcount, hcapacity]
  decide +kernel

end Pool

end TextPool
