import TextPool.Bytes.Basic

/-!
# Little-endian numbers

A number in a file is a fixed count of bytes, least significant first. `encode` writes one and
`decode` reads one. What is read and written again is unchanged (`encode_decode`).
-/

namespace TextPool.LittleEndian

/-- The `width` low bytes of `number`, least significant first. -/
def encode : Nat → Nat → Bytes
  | 0, _ => []
  | width + 1, number => UInt8.ofNat number :: encode width (number / 256)

/-- The number whose bytes, least significant first, are given. -/
def decode : Bytes → Nat
  | [] => 0
  | byte :: rest => byte.toNat + 256 * decode rest

theorem length_encode (width number : Nat) : (encode width number).length = width := by
  induction width generalizing number with
  | zero => rfl
  | succ width ih => simp only [encode, List.length_cons, ih]

theorem encode_decode (bytes : Bytes) : encode bytes.length (decode bytes) = bytes := by
  induction bytes with
  | nil => rfl
  | cons byte rest ih =>
    have hbyte : byte.toNat < 256 := byte.toNat_lt
    rw [List.length_cons, encode, decode]
    congr 1
    · apply UInt8.toNat_inj.mp
      rw [UInt8.toNat_ofNat']
      omega
    · rw [show (byte.toNat + 256 * decode rest) / 256 = decode rest by omega, ih]

end TextPool.LittleEndian
