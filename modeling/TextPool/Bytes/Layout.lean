import TextPool.Bytes.Ascii

/-!
# Blanks around a text

Removing the blanks at both ends of a text, and adding spaces at one end to reach a width.
-/

namespace TextPool

/-- The edge that a text keeps when it is widened. -/
inductive Alignment where
  /-- The text stays on the left and the spaces follow it. -/
  | left
  /-- The text stays on the right and the spaces precede it. -/
  | right
  deriving DecidableEq

namespace Bytes

/-- The text without the blanks at its two ends. -/
def strip (text : Bytes) : Bytes :=
  ((text.dropWhile Ascii.isBlank).reverse.dropWhile Ascii.isBlank).reverse

/-- How many spaces a text lacks to be `width` bytes long. -/
def lacking (text : Bytes) (width : Int64) : Nat :=
  width.toNatClampNeg - text.length

/-- The text widened with spaces to `width` bytes, unchanged if it is that long. -/
def pad (text : Bytes) (width : Int64) (alignment : Alignment) : Bytes :=
  let spaces := List.replicate (text.lacking width) Ascii.space
  match alignment with
  | .left => text ++ spaces
  | .right => spaces ++ text

theorem length_pad (text : Bytes) (width : Int64) (alignment : Alignment) :
    (text.pad width alignment).length = text.length + text.lacking width := by
  cases alignment <;> simp [pad, Nat.add_comm]

end Bytes

end TextPool
