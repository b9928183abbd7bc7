import TextPool.Bytes.Utf8
import TextPool.Pool.Listing
import TextPool.Pool.Loading
import TextPool.Pool.Number
import TextPool.Pool.Ownership
import TextPool.Pool.Text

/-!
# The operations of a pool

Everything that can be asked of a pool, as one type, and what each request does. A run is a list of
requests carried out one after another, where one that fails does not stop those after it; the
pools that such runs lead to are the reachable ones.
-/

namespace TextPool

inductive Operation where
  | allocate (bytes : Bytes)
  | allocateText (text : List Char)
  | allocateUpTo (count : Nat) (bytes : Bytes)
  | retain (handle : Handle)
  | release (handle : Handle)
  | sweep
  | grow (additional : Nat)
  | text (handle : Handle)
  | display (handle : Handle)
  | owners (handle : Handle)
  | kind (handle : Handle)
  | contains (handle : Handle)
  | handle (raw : Int64)
  | config
  | append (handle : Handle) (tail : Bytes)
  | appendFrom (handle source : Handle)
  | concat (left right : Handle)
  | length (handle : Handle)
  | substring (handle : Handle) (first count : Int64)
  | charAt (handle : Handle) (index : Int64)
  | byteAt (handle : Handle) (index : Int64)
  | find (handle needle : Handle) (first : Int64)
  | findBytes (handle : Handle) (needle : Bytes) (first : Int64)
  | upper (handle : Handle)
  | lower (handle : Handle)
  | strip (handle : Handle)
  | pad (handle : Handle) (width : Int64) (alignment : Alignment)
  | order (left right : Handle)
  | orderIgnoringCase (left right : Handle)
  | ofSigned (number : Int64)
  | ofUnsigned (number : UInt64)
  | ofWord (word : UInt64)
  | ofDouble (bits : UInt64)
  | ofFormatted (bits : UInt64) (format : NumberFormat)
  | readHexadecimal (handle : Handle)
  | load (table : StringTable)
  | loadSections (file : Bytes) (sections : Sections)
  | listing
  | dump

/-- A table that is to be loaded is well formed. Tables inside files need no such promise, for they
are read, and thereby checked, when they are loaded. -/
def Operation.WellFormed : Operation → Prop
  | load table => table.WellFormed
  | _ => True

/-- What a request is answered with. The answer `made` names a string that was made or lengthened,
whose text is then found in the pool. -/
inductive Answer where
  | done
  | made (handle : Handle)
  | handle (handle : Handle)
  | range (handles : HandleRange)
  | bytes (bytes : Bytes)
  | text (text : String)
  | count (count : Nat)
  | integer (number : Int64)
  | flag (holds : Bool)
  | kind (kind : Kind)
  | config (config : Config)
  | position (position : Option Nat)
  | ordering (ordering : Ordering)
  | listing (entries : List ListingEntry)
  deriving DecidableEq

namespace Pool

def act : Operation → Action Answer
  | .allocate bytes => return .made (← allocate bytes)
  | .allocateText text => return .made (← allocate (Utf8.encode text))
  | .allocateUpTo count bytes => return .made (← allocateUpTo count bytes)
  | .retain handle => do retain handle; return .done
  | .release handle => do release handle; return .done
  | .sweep => return .count (← sweep)
  | .grow additional => do grow additional; return .done
  | .text handle => return .bytes (← Action.ask (·.text handle))
  | .display handle => return .text (← Action.ask (·.display handle))
  | .owners handle => return .count (← Action.ask (·.owners handle)).toNat
  | .kind handle => return .kind (← Action.ask (·.kind handle))
  | .contains handle => Action.ask fun pool => return .flag (pool.contains handle)
  | .handle raw => return .handle (← Action.ask (·.handle raw))
  | .config => Action.ask fun pool => return .config pool.config
  | .append handle tail => return .made (← append handle tail)
  | .appendFrom handle source => return .made (← appendFrom handle source)
  | .concat left right => return .made (← concat left right)
  | .length handle => return .count (← Action.ask (·.length handle))
  | .substring handle first count => return .made (← substring handle first count)
  | .charAt handle index => return .made (← charAt handle index)
  | .byteAt handle index => return .count (← Action.ask (·.byteAt handle index)).toNat
  | .find handle needle first => return .position (← Action.ask (·.find handle needle first))
  | .findBytes handle needle first =>
    return .position (← Action.ask (·.findBytes handle needle first))
  | .upper handle => return .made (← upper handle)
  | .lower handle => return .made (← lower handle)
  | .strip handle => return .made (← strip handle)
  | .pad handle width alignment => return .made (← pad handle width alignment)
  | .order left right => return .ordering (← Action.ask (·.order left right))
  | .orderIgnoringCase left right =>
    return .ordering (← Action.ask (·.orderIgnoringCase left right))
  | .ofSigned number => return .made (← ofInteger number.toInt)
  | .ofUnsigned number => return .made (← ofInteger number.toNat)
  | .ofWord word => return .made (← ofWord word)
  | .ofDouble bits => return .made (← ofDouble (Binary64.ofBits bits))
  | .ofFormatted bits format =>
    return .made (← ofFormatted (Binary64.ofBits bits) format)
  | .readHexadecimal handle => return .integer (← Action.ask (·.readHexadecimal handle))
  | .load table => return .range (← load table)
  | .loadSections file sections => return .range (← loadSections file sections)
  | .listing => Action.ask fun pool => return .listing pool.listing
  | .dump => Action.ask fun pool => return .text pool.dump

/-- Carries out a request. The pool left behind is the one to go on with, also after a failure. -/
def perform (pool : Pool) (operation : Operation) : Except PoolError Answer × Pool :=
  (act operation).runOn pool

/-- The pool that a run of requests leaves. -/
def after (pool : Pool) (run : List Operation) : Pool :=
  run.foldl (fun pool operation => (pool.perform operation).2) pool

/-- Some run of requests, in which only well-formed tables are loaded, leads from a new pool with
these settings to this one. -/
def Reachable (config : Config) (pool : Pool) : Prop :=
  ∃ run : List Operation, (∀ operation ∈ run, operation.WellFormed) ∧
    pool = (ofConfig config).after run

end Pool

end TextPool
