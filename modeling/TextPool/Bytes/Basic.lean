/-!
# Byte text

A text is a sequence of bytes with no zero byte in it: a zero byte is the terminator, so whatever
enters the library is cut at the first one. Nothing here knows about characters; a byte sequence
becomes readable text only through `TextPool.Bytes.Utf8`.

The rest of the library relies on two facts about the cut: what it keeps holds no zero byte
(`zero_notMem_upToZero`), and a sequence without one is kept whole (`upToZero_eq_self`).
-/

namespace TextPool

/-- A text, or a stretch of a file: any finite sequence of bytes. -/
abbrev Bytes := List UInt8

namespace Bytes

/-! ### The terminator -/

/-- The part of `bytes` that stands before its first zero byte, or all of it. -/
def upToZero (bytes : Bytes) : Bytes :=
  bytes.takeWhile (· != 0)

/-- The position of the first zero byte. -/
def zeroIndex? (bytes : Bytes) : Option Nat :=
  bytes.findIdx? (· == 0)

theorem zero_notMem_upToZero (bytes : Bytes) : 0 ∉ bytes.upToZero := by
  intro hzero
  have hkept : bytes.upToZero.all (· != 0) = true := List.all_takeWhile
  exact absurd rfl (bne_iff_ne.mp (List.all_eq_true.mp hkept 0 hzero))

theorem upToZero_append (left right : Bytes) (hleft : 0 ∉ left) :
    upToZero (left ++ right) = left ++ upToZero right :=
  List.takeWhile_append_of_pos fun _ hbyte => bne_iff_ne.mpr fun hzero => hleft (hzero ▸ hbyte)

theorem upToZero_eq_self (bytes : Bytes) (hzero : 0 ∉ bytes) : bytes.upToZero = bytes := by
  have happend := upToZero_append bytes [] hzero
  rwa [upToZero, upToZero, List.takeWhile_nil, List.append_nil] at happend

theorem upToZero_upToZero (bytes : Bytes) : bytes.upToZero.upToZero = bytes.upToZero :=
  upToZero_eq_self _ (zero_notMem_upToZero bytes)

/-! ### Stretches -/

/-- The bytes from position `start` up to, and not including, position `stop`. -/
def between (bytes : Bytes) (start stop : Nat) : Bytes :=
  (bytes.drop start).take (stop - start)

/-- The `length` bytes at position `start`, if there are that many. -/
def stretch? (bytes : Bytes) (start length : Nat) : Option Bytes :=
  if start + length ≤ bytes.length then some (bytes.between start (start + length)) else none

theorem length_between (bytes : Bytes) (start stop : Nat) (hstop : stop ≤ bytes.length) :
    (bytes.between start stop).length = stop - start := by
  simp only [between, List.length_take, List.length_drop]
  omega

end Bytes

end TextPool
