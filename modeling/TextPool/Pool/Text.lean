import TextPool.Bytes.Layout
import TextPool.Bytes.Order
import TextPool.Bytes.Slice
import TextPool.Pool.Allocation

/-!
# Operations on texts

Every operation here that makes a text makes a new string for it, except the two that append: they
lengthen the string they are given, so that all its owners see the longer text, and answer its own
handle. Only made strings can be lengthened.

An operation on two handles checks them in the order in which it reads their texts.
-/

namespace TextPool.Pool

/-! ### Appending -/

/-- Appends the bytes before the first zero byte to a made string. -/
def append (handle : Handle) (tail : Bytes) : Action Handle := do
  let entry ← Action.ask (·.entry handle)
  match entry.text with
  | .static _ _ => throw (.unchangeable handle)
  | .dynamic text =>
    Action.ask (·.reserve tail.upToZero.length)
    modify (·.update handle.index { entry with text := .dynamic (text ++ tail.upToZero) })
    return handle

def appendFrom (handle source : Handle) : Action Handle := do
  append handle (← Action.ask (·.text source))

/-! ### New texts -/

/-- The text of one string followed by that of another, if there is memory for it. -/
def joined (pool : Pool) (left right : Handle) : Except PoolError Bytes := do
  let leftText ← pool.text left
  let rightText ← pool.text right
  pool.reserve (leftText.length + rightText.length)
  return leftText ++ rightText

/-- The text of a string widened to a width, if there is memory for it. -/
def padded (pool : Pool) (handle : Handle) (width : Int64) (alignment : Alignment) :
    Except PoolError Bytes := do
  let text ← pool.text handle
  pool.reserve (text.length + text.lacking width)
  return text.pad width alignment

def concat (left right : Handle) : Action Handle :=
  produce (·.joined left right)

def substring (handle : Handle) (first count : Int64) : Action Handle :=
  produce fun pool => return (← pool.text handle).substring first count

def upper (handle : Handle) : Action Handle :=
  produce fun pool => return (← pool.text handle).upper

def lower (handle : Handle) : Action Handle :=
  produce fun pool => return (← pool.text handle).lower

def strip (handle : Handle) : Action Handle :=
  produce fun pool => return (← pool.text handle).strip

def pad (handle : Handle) (width : Int64) (alignment : Alignment) : Action Handle :=
  produce (·.padded handle width alignment)

/-! ### Looking into texts -/

def length (pool : Pool) (handle : Handle) : Except PoolError Nat :=
  return (← pool.text handle).length

/-- The byte at an index of a text, zero if the index lies outside it. -/
def byteAt (pool : Pool) (handle : Handle) (index : Int64) : Except PoolError UInt8 :=
  return (← pool.text handle).byteAt index

/-- Makes a string of the byte at an index of a text. If the index lies outside it, the answer is
the empty string that is always there, and none is made. -/
def charAt (handle : Handle) (index : Int64) : Action Handle := do
  let byte ← Action.ask (·.byteAt handle index)
  if byte = 0 then return .empty else store [byte]

/-- Where given bytes first occur in a text at an index or later. -/
def findBytes (pool : Pool) (handle : Handle) (needle : Bytes) (first : Int64) :
    Except PoolError (Option Nat) :=
  return (← pool.text handle).find? needle first

/-- Where the text of one string first occurs in that of another at an index or later. -/
def find (pool : Pool) (handle needle : Handle) (first : Int64) :
    Except PoolError (Option Nat) := do
  let needleText ← pool.text needle
  pool.findBytes handle needleText first

def order (pool : Pool) (left right : Handle) : Except PoolError Ordering := do
  let leftText ← pool.text left
  let rightText ← pool.text right
  return Bytes.order leftText rightText

def orderIgnoringCase (pool : Pool) (left right : Handle) : Except PoolError Ordering := do
  let leftText ← pool.text left
  let rightText ← pool.text right
  return Bytes.orderIgnoringCase leftText rightText

end TextPool.Pool
