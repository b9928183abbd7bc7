import TextPool.Bytes.Ascii

/-!
# The order of texts

Texts are ordered by their first differing byte, taken as a number, and a text that the other
continues comes first. Ignoring case means ordering the capitals.
-/

namespace TextPool.Bytes

def upper (text : Bytes) : Bytes :=
  text.map Ascii.upper

def lower (text : Bytes) : Bytes :=
  text.map Ascii.lower

/-- The order of two texts, byte by byte. -/
def order : Bytes → Bytes → Ordering
  | [], [] => .eq
  | [], _ :: _ => .lt
  | _ :: _, [] => .gt
  | left :: lefts, right :: rights => (compare left right).then (order lefts rights)

/-- The order of two texts that differ only in the case of letters if they are equal in it. -/
def orderIgnoringCase (left right : Bytes) : Ordering :=
  order left.upper right.upper

end TextPool.Bytes
