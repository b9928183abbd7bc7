import Mathlib.Logic.Function.Basic
import TextPool.Image.Crc32
import TextPool.Proofs.LittleEndian

/-!
# What the check cannot miss

Dividing one bit out of a remainder is linear in exclusive or and loses nothing, since the highest
bit of the polynomial tells whether the polynomial was added. So from two different remainders the
same bytes lead to two different remainders (`feed_injective`), and up to four bytes, which are the
bits of one remainder, lead from one remainder to different ones unless they are the same bytes
(`eq_of_feed_eq`). Two sequences that differ in one stretch of up to four bytes therefore have
different checks (`checksum_ne_of_stretch`), whatever stands before and behind it.
-/

namespace TextPool.Crc32

/-! ### One bit -/

theorem and_one_eq_one_iff (remainder : UInt32) :
    remainder &&& 1 = 1 ↔ remainder.toBitVec.getLsbD 0 = true := by
  rw [← UInt32.toNat_inj, UInt32.toNat_and, UInt32.toNat_one, Nat.and_one_is_mod]
  change remainder.toNat % 2 = 1 ↔ remainder.toNat.testBit 0 = true
  rw [Nat.testBit_zero, decide_eq_true_iff]

/-- Each bit is the next higher one, with that of the polynomial added if the lowest bit was set. -/
theorem getLsbD_shift (remainder : UInt32) (bit : Nat) :
    (shift remainder).toBitVec.getLsbD bit = (remainder.toBitVec.getLsbD (bit + 1) ^^
      (remainder.toBitVec.getLsbD 0 && polynomial.toBitVec.getLsbD bit)) := by
  have hhalf : (remainder >>> 1).toBitVec.getLsbD bit = remainder.toBitVec.getLsbD (bit + 1) := by
    rw [UInt32.toBitVec_shiftRight, Nat.add_comm bit 1]
    exact BitVec.getLsbD_ushiftRight ..
  cases hlow : remainder.toBitVec.getLsbD 0 with
  | false =>
    have hodd : ¬remainder &&& 1 = 1 := by
      rw [and_one_eq_one_iff, hlow]
      exact Bool.false_ne_true
    rw [shift, if_neg hodd, hhalf, Bool.false_and, Bool.xor_false]
  | true =>
    rw [shift, if_pos ((and_one_eq_one_iff remainder).mpr hlow), UInt32.toBitVec_xor,
      BitVec.getLsbD_xor, hhalf, Bool.true_and]

theorem shift_xor (left right : UInt32) : shift (left ^^^ right) = shift left ^^^ shift right := by
  apply UInt32.toBitVec_inj.mp
  apply BitVec.eq_of_getLsbD_eq
  intro bit _
  simp only [getLsbD_shift, UInt32.toBitVec_xor, BitVec.getLsbD_xor, Bool.and_xor_distrib_right,
    Bool.xor_assoc, Bool.xor_left_comm]

theorem shift_injective : Function.Injective shift := by
  intro left right hshift
  have hbit (bit : Nat) := congrArg (fun word : UInt32 => word.toBitVec.getLsbD bit) hshift
  simp only [getLsbD_shift] at hbit
  -- The polynomial has its highest bit set, and there is no bit above it to be moved there.
  have hlow : left.toBitVec.getLsbD 0 = right.toBitVec.getLsbD 0 := by
    have htop := hbit 31
    rwa [BitVec.getLsbD_of_ge _ _ (Nat.le_refl 32), BitVec.getLsbD_of_ge _ _ (Nat.le_refl 32),
      show polynomial.toBitVec.getLsbD 31 = true by decide, Bool.and_true, Bool.and_true,
      Bool.false_xor, Bool.false_xor] at htop
  apply UInt32.toBitVec_inj.mp
  apply BitVec.eq_of_getLsbD_eq
  intro bit _
  cases bit with
  | zero => exact hlow
  | succ bit =>
    have hnext := hbit bit
    rw [hlow] at hnext
    exact Bool.xor_left_inj.mp hnext

theorem shift_ofNat_of_even {number : Nat} (hnumber : 2 * number < UInt32.size) :
    shift (UInt32.ofNat (2 * number)) = UInt32.ofNat number := by
  have hdouble : (UInt32.ofNat (2 * number)).toNat = 2 * number := UInt32.toNat_ofNat_of_lt' hnumber
  have hsame : (UInt32.ofNat number).toNat = number := UInt32.toNat_ofNat_of_lt' (by omega)
  have heven : ¬UInt32.ofNat (2 * number) &&& 1 = 1 := by
    intro hodd
    have hodd := congrArg UInt32.toNat hodd
    rw [UInt32.toNat_and, hdouble, UInt32.toNat_one, Nat.and_one_is_mod] at hodd
    omega
  rw [shift, if_neg heven]
  apply UInt32.toNat_inj.mp
  rw [UInt32.toNat_shiftRight, hdouble, hsame]
  change (2 * number) >>> 1 = number
  rw [Nat.shiftRight_one]
  omega

/-! ### Several bits -/

theorem shifts_add (first second : Nat) (remainder : UInt32) :
    shifts (first + second) remainder = shifts second (shifts first remainder) := by
  induction first generalizing remainder with
  | zero => rw [Nat.zero_add, shifts]
  | succ first ih => rw [Nat.succ_add, shifts, shifts, ih]

theorem shifts_xor (count : Nat) (left right : UInt32) :
    shifts count (left ^^^ right) = shifts count left ^^^ shifts count right := by
  induction count generalizing left right with
  | zero => rfl
  | succ count ih => simp only [shifts, shift_xor, ih]

theorem shifts_injective (count : Nat) : Function.Injective (shifts count) := by
  induction count with
  | zero => exact Function.injective_id
  | succ count ih => exact ih.comp shift_injective

theorem shifts_ofNat_of_dvd (count : Nat) {number : Nat}
    (hnumber : 2 ^ count * number < UInt32.size) :
    shifts count (UInt32.ofNat (2 ^ count * number)) = UInt32.ofNat number := by
  induction count with
  | zero => rw [Nat.pow_zero, Nat.one_mul, shifts]
  | succ count ih =>
    rw [Nat.pow_succ', Nat.mul_assoc] at hnumber
    rw [shifts, Nat.pow_succ', Nat.mul_assoc, shift_ofNat_of_even hnumber]
    exact ih (by omega)

/-! ### Bytes -/

theorem step_injective (byte : UInt8) : Function.Injective (step · byte) := by
  intro left right hstep
  exact (UInt32.xor_left_inj _).mp (shifts_injective 8 hstep)

theorem feed_injective (bytes : Bytes) : Function.Injective (feed · bytes) := by
  induction bytes with
  | nil => exact Function.injective_id
  | cons byte rest ih => exact ih.comp (step_injective byte)

theorem xor_ofNat_decode (byte : UInt8) (rest : Bytes) :
    byte.toUInt32 ^^^ UInt32.ofNat (2 ^ 8 * LittleEndian.decode rest)
      = UInt32.ofNat (LittleEndian.decode (byte :: rest)) := by
  have hbyte : byte.toNat < 2 ^ 8 := byte.toNat_lt
  have hdisjoint : byte.toNat ^^^ 2 ^ 8 * LittleEndian.decode rest
      = 2 ^ 8 * LittleEndian.decode rest + byte.toNat := by
    apply Nat.eq_of_testBit_eq
    intro bit
    rw [Nat.testBit_xor, Nat.testBit_two_pow_mul_add _ hbyte, Nat.testBit_two_pow_mul]
    by_cases hbit : bit < 8
    · simp [hbit, Nat.not_le_of_lt hbit]
    · have hnone : byte.toNat.testBit bit = false := by
        apply Nat.testBit_lt_two_pow
        exact Nat.lt_of_lt_of_le hbyte (Nat.pow_le_pow_right (by decide) (Nat.le_of_not_lt hbit))
      simp [hbit, Nat.le_of_not_lt hbit, hnone]
  have hword : byte.toUInt32 = UInt32.ofNat byte.toNat := by
    apply UInt32.toNat_inj.mp
    rw [UInt8.toNat_toUInt32, UInt32.toNat_ofNat_of_lt' (Nat.lt_trans hbyte (by decide))]
  rw [hword, ← UInt32.ofNat_xor, hdisjoint, LittleEndian.decode, Nat.add_comm]
  rfl

/-- Up to four bytes are fed as the number they are the digits of, all at once. -/
theorem feed_eq_shifts (remainder : UInt32) {bytes : Bytes} (hshort : bytes.length ≤ 4) :
    feed remainder bytes
      = shifts (8 * bytes.length) (remainder ^^^ UInt32.ofNat (LittleEndian.decode bytes)) := by
  induction bytes generalizing remainder with
  | nil => exact (UInt32.xor_zero).symm
  | cons byte rest ih =>
    rw [List.length_cons] at hshort
    have hrest : 2 ^ 8 * LittleEndian.decode rest < UInt32.size := by
      have hdecode := LittleEndian.decode_lt rest
      have hpower : 256 ^ rest.length ≤ 256 ^ 3 := Nat.pow_le_pow_right (by decide) (by omega)
      rw [UInt32.size]
      omega
    have hnext : step remainder byte ^^^ UInt32.ofNat (LittleEndian.decode rest)
        = shifts 8 (remainder ^^^ UInt32.ofNat (LittleEndian.decode (byte :: rest))) := by
      rw [← xor_ofNat_decode, ← UInt32.xor_assoc, shifts_xor, shifts_ofNat_of_dvd 8 hrest, step]
    calc feed remainder (byte :: rest)
        = feed (step remainder byte) rest := rfl
      _ = shifts (8 * rest.length)
            (step remainder byte ^^^ UInt32.ofNat (LittleEndian.decode rest)) := ih _ (by omega)
      _ = shifts (8 * (byte :: rest).length)
            (remainder ^^^ UInt32.ofNat (LittleEndian.decode (byte :: rest))) := by
          rw [hnext, ← shifts_add, List.length_cons, Nat.mul_succ, Nat.add_comm]

theorem eq_of_feed_eq {remainder : UInt32} {left right : Bytes}
    (hlength : left.length = right.length) (hshort : left.length ≤ 4)
    (hfeed : feed remainder left = feed remainder right) : left = right := by
  rw [feed_eq_shifts remainder hshort, feed_eq_shifts remainder (hlength ▸ hshort), hlength] at hfeed
  have hnumber := (UInt32.xor_right_inj remainder).mp (shifts_injective _ hfeed)
  have hfits {bytes : Bytes} (hbytes : bytes.length ≤ 4) :
      LittleEndian.decode bytes < UInt32.size :=
    Nat.lt_of_lt_of_le (LittleEndian.decode_lt bytes)
      (Nat.pow_le_pow_right (by decide) hbytes)
  have hdecode := congrArg UInt32.toNat hnumber
  rw [UInt32.toNat_ofNat_of_lt' (hfits hshort), UInt32.toNat_ofNat_of_lt' (hfits (hlength ▸ hshort))]
    at hdecode
  exact LittleEndian.decode_injective hlength hdecode

/-! ### The check -/

theorem finish_injective : Function.Injective finish := by
  intro left right hfinish
  exact UInt32.not_inj.mp hfinish

/-- Two sequences of bytes that differ in one stretch of at most four have different checks. -/
theorem checksum_ne_of_stretch (front back : Bytes) {left right : Bytes}
    (hlength : left.length = right.length) (hshort : left.length ≤ 4) (hne : left ≠ right) :
    checksum (front ++ left ++ back) ≠ checksum (front ++ right ++ back) := by
  intro hchecksum
  have hfeed := finish_injective hchecksum
  simp only [feed_append] at hfeed
  exact hne (eq_of_feed_eq hlength hshort (feed_injective back hfeed))

end TextPool.Crc32
