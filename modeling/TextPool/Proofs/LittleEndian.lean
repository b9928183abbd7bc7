import Mathlib.Tactic.Ring
import TextPool.Bytes.LittleEndian

/-!
# What little-endian numbers keep

A number written on a fixed count of bytes and read again is the number reduced to that width, and
every number read fits the bytes it was read from. Together with `encode_decode` this makes writing
and reading inverse to each other on numbers that fit.
-/

namespace TextPool.LittleEndian

theorem decode_encode (width number : Nat) :
    decode (encode width number) = number % 256 ^ width := by
  induction width generalizing number with
  | zero => simp only [encode, decode, Nat.pow_zero, Nat.mod_one]
  | succ width ih =>
    have hsplit : number % 256 ^ (width + 1)
        = number % 256 + 256 * (number / 256 % 256 ^ width) := by
      rw [Nat.pow_succ', Nat.mod_mul]
    rw [encode, decode, ih, UInt8.toNat_ofNat', hsplit]

theorem decode_lt (bytes : Bytes) : decode bytes < 256 ^ bytes.length := by
  induction bytes with
  | nil => exact Nat.one_pos
  | cons byte rest ih =>
    have hbyte : byte.toNat < 256 := byte.toNat_lt
    rw [decode, List.length_cons, Nat.pow_succ']
    omega

theorem decode_injective {left right : Bytes} (hlength : left.length = right.length)
    (hdecode : decode left = decode right) : left = right := by
  rw [← encode_decode left, ← encode_decode right, hlength, hdecode]

end TextPool.LittleEndian
