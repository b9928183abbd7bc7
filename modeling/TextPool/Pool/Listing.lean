import TextPool.Bytes.Utf8
import TextPool.Pool.Basic

/-!
# Listing a pool

Every string of a pool with its handle, its owners, its kind and its text in readable form, as a
list of entries or as lines for people who look for strings that should have gone.
-/

namespace TextPool

structure ListingEntry where
  handle : Handle
  owners : UInt64
  kind : Kind
  text : String
  deriving DecidableEq

namespace Pool

def display (pool : Pool) (handle : Handle) : Except PoolError String :=
  return Utf8.display (← pool.text handle)

/-- The strings of a pool in the order of their handles. -/
def listing (pool : Pool) : List ListingEntry :=
  pool.occupied.toList.filterMap fun index =>
    match pool.entryAt? index with
    | some entry =>
      some ⟨⟨index⟩, entry.owners, entry.text.kind, Utf8.display (pool.bytesOf entry.text)⟩
    | none => none

end Pool

/-! ### Lines -/

namespace Listing

/-- A text with spaces before it up to a width. -/
def rightAligned (width : Nat) (text : String) : String :=
  String.ofList (List.replicate (width - text.length) ' ') ++ text

/-- A line of a listing, with the mark that all of them start with. -/
def line (text : String) : String :=
  "[STRING] " ++ text ++ "\n"

def header : String :=
  line "--ID --Uses Type-- String--------"

def rule : String :=
  line "---- ------ ------ --------------"

/-- The column that tells loaded strings from made ones. -/
def kindColumn : Kind → String
  | .static => "STATIC"
  | .dynamic => ""

def entryLine (entry : ListingEntry) : String :=
  line (rightAligned 4 (toString entry.handle.index) ++ " "
    ++ rightAligned 6 (toString entry.owners.toNat) ++ " "
    ++ rightAligned 6 (kindColumn entry.kind) ++ " \x7b" ++ entry.text ++ "\x7d")

def totals (used capacity : Nat) : String :=
  line s!"Total Strings Used={used} MaxID={capacity}"

end Listing

def Pool.dump (pool : Pool) : String :=
  Listing.header ++ String.join (pool.listing.map Listing.entryLine) ++ Listing.rule
    ++ Listing.totals pool.listing.length pool.capacity

end TextPool
