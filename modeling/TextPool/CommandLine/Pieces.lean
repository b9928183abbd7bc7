import TextPool.Bytes.Basic

/-!
# Lines and paths

A sequence cut at a separator: a file at its line feeds, a path at its slashes.

One line feed at the end of a file ends the last line instead of starting an empty one, and one
carriage return at the end of a line is not part of it. An empty file has no lines. In a path,
several slashes in a row count as one. A slash at the start makes it begin at the root, and a slash
at the end asks for a directory.
-/

namespace TextPool

/-- The pieces between the separators, of which there is one more than there are separators. -/
def pieces {α : Type} [DecidableEq α] (separator : α) (sequence : List α) : List (List α) :=
  sequence.foldr (fun item found =>
    if item = separator then [] :: found
    else (item :: found.headD []) :: found.tail) [[]]

namespace Bytes

/-- The bytes without the last one, if that is `byte`. -/
def withoutLast (byte : UInt8) (bytes : Bytes) : Bytes :=
  if bytes.getLast? = some byte then bytes.dropLast else bytes

def lines (file : Bytes) : List Bytes :=
  if file.isEmpty then []
  else (pieces 0x0A (file.withoutLast 0x0A)).map (withoutLast 0x0D)

end Bytes

namespace Path

def names (path : String) : List String :=
  ((pieces '/' path.toList).filter (· ≠ [])).map String.ofList

def isRooted (path : String) : Bool :=
  path.toList.head? = some '/'

def endsInSlash (path : String) : Bool :=
  path.toList.getLast? = some '/'

end Path

end TextPool
