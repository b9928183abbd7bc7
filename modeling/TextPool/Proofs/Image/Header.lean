import TextPool.Image.Header
import TextPool.Proofs.LittleEndian

/-!
# Headers are read as they were written

A number in a header is found at the position at which it was written, whatever stands before and
behind it, so a header is read back whole, whatever follows it in the file. A header that was read
and is written again has the bytes it was read from, but for the reserved ones (`encode_of_decode`).
-/

namespace TextPool.Header

/-! ### Numbers in a row of numbers -/

theorem numberAt_encode_append (width number : Nat) (rest : Bytes) :
    numberAt (LittleEndian.encode width number ++ rest) 0 width = number % 256 ^ width := by
  rw [numberAt, List.drop_zero, List.take_left' (LittleEndian.length_encode width number),
    LittleEndian.decode_encode]

theorem numberAt_append_of_le {width number position : Nat} {rest : Bytes} (other : Nat)
    (hposition : width ≤ position) :
    numberAt (LittleEndian.encode width number ++ rest) position other
      = numberAt rest (position - width) other := by
  have hfront : (LittleEndian.encode width number).length = width :=
    LittleEndian.length_encode width number
  rw [numberAt, numberAt, List.drop_append, List.drop_eq_nil_of_le (hfront.symm ▸ hposition),
    List.nil_append, hfront]

theorem ofNat_mod_four_bytes (number : UInt32) : UInt32.ofNat (number.toNat % 256 ^ 4) = number := by
  have hnumber : number.toNat < 256 ^ 4 := number.toNat_lt
  rw [Nat.mod_eq_of_lt hnumber, UInt32.ofNat_toNat]

theorem ofNat_mod_eight_bytes (number : UInt64) : UInt64.ofNat (number.toNat % 256 ^ 8) = number := by
  have hnumber : number.toNat < 256 ^ 8 := number.toNat_lt
  rw [Nat.mod_eq_of_lt hnumber, UInt64.ofNat_toNat]

/-! ### Headers -/

theorem decode_encode_append (header : Header) (rest : Bytes) :
    decode (header.encode ++ rest) = .ok header := by
  have hlength : ¬(header.encode ++ rest).length < length := by
    rw [List.length_append, length_encode]
    omega
  rw [decode, if_neg hlength]
  simp only [encode, magicBytes, List.append_assoc]
  simp (disch := decide) only [numberAt_append_of_le, Nat.sub_self, Nat.reduceSub,
    numberAt_encode_append, ofNat_mod_four_bytes, ofNat_mod_eight_bytes]

theorem length_le_of_decode {file : Bytes} {header : Header} (hheader : decode file = .ok header) :
    length ≤ file.length := by
  rw [decode] at hheader
  split at hheader
  · cases hheader
  · next hlength => exact Nat.le_of_not_lt hlength

/-! ### Writing what was read -/

theorem numberAt_lt (bytes : Bytes) (position width : Nat) :
    numberAt bytes position width < 256 ^ width := by
  have hshort : ((bytes.drop position).take width).length ≤ width := List.length_take_le _ _
  exact Nat.lt_of_lt_of_le (LittleEndian.decode_lt _) (Nat.pow_le_pow_right (by decide) hshort)

section Written

variable {file : Bytes} {position : Nat}

theorem encode_numberAt {width : Nat} (hfits : position + width ≤ file.length) :
    LittleEndian.encode width (numberAt file position width) = (file.drop position).take width := by
  have hlength : ((file.drop position).take width).length = width := by
    rw [List.length_take, List.length_drop]
    omega
  have hencode := LittleEndian.encode_decode ((file.drop position).take width)
  rw [hlength] at hencode
  exact hencode

theorem encode_four_bytes (hfits : position + 4 ≤ file.length) :
    LittleEndian.encode 4 (UInt32.ofNat (numberAt file position 4)).toNat
      = (file.drop position).take 4 := by
  rw [UInt32.toNat_ofNat_of_lt' (numberAt_lt file position 4), encode_numberAt hfits]

theorem encode_eight_bytes (hfits : position + 8 ≤ file.length) :
    LittleEndian.encode 8 (UInt64.ofNat (numberAt file position 8)).toNat
      = (file.drop position).take 8 := by
  rw [UInt64.toNat_ofNat_of_lt' (numberAt_lt file position 8), encode_numberAt hfits]

theorem replicate_eq_take_drop_iff {count : Nat} {byte : UInt8} :
    List.replicate count byte = (file.drop position).take count ↔
      ∀ other, position ≤ other → other < position + count → file[other]? = some byte := by
  constructor
  · intro hbytes other hfirst hstop
    have hplace : position + (other - position) = other := by omega
    have hbyte := congrArg (fun bytes : Bytes => bytes[other - position]?) hbytes
    rw [List.getElem?_replicate_of_lt (by omega), List.getElem?_take_of_lt (by omega),
      List.getElem?_drop, hplace] at hbyte
    exact hbyte.symm
  · intro hbytes
    apply List.ext_getElem?
    intro index
    rw [List.getElem?_replicate, List.getElem?_take, List.getElem?_drop]
    split
    · exact (hbytes _ (by omega) (by omega)).symm
    · rfl

end Written

def IsReserved (position : Nat) : Prop :=
  12 ≤ position ∧ position < 16 ∨ 48 ≤ position ∧ position < length

instance (position : Nat) : Decidable (IsReserved position) :=
  inferInstanceAs (Decidable (_ ∨ _))

theorem IsReserved.lt_length {position : Nat} (hreserved : IsReserved position) :
    position < length := by
  obtain ⟨_, hlow⟩ | ⟨_, hhigh⟩ := hreserved
  · exact Nat.lt_trans hlow (by decide)
  · exact hhigh

section Read

variable {file : Bytes} {header : Header} (hheader : decode file = .ok header)

include hheader

/-- A header that was read is written with the bytes that it was read from, and zeros for the
reserved ones. -/
theorem encode_of_decode :
    header.encode = file.take 12 ++ List.replicate 4 0 ++ (file.drop 16).take 32
      ++ List.replicate 16 0 := by
  have hlength := length_le_of_decode hheader
  have hfits {stop : Nat} (hstop : stop ≤ length) : stop ≤ file.length := Nat.le_trans hstop hlength
  rw [decode, if_neg (Nat.not_lt_of_le hlength)] at hheader
  obtain rfl := Except.ok.inj hheader
  have hfront : file.take 12 = file.take 4 ++ (file.drop 4).take 4 ++ (file.drop 8).take 4 := by
    rw [← List.take_add, ← List.take_add]
  have hmiddle : (file.drop 16).take 32 = (file.drop 16).take 8 ++ ((file.drop 16).drop 8).take 8
      ++ ((file.drop 16).drop 16).take 8 ++ ((file.drop 16).drop 24).take 8 := by
    rw [← List.take_add, ← List.take_add, ← List.take_add]
  simp only [List.drop_drop, Nat.reduceAdd] at hmiddle
  simp only [encode, magicBytes]
  rw [encode_four_bytes (hfits (by decide)), encode_four_bytes (hfits (by decide)),
    encode_four_bytes (hfits (by decide)), encode_eight_bytes (hfits (by decide)),
    encode_eight_bytes (hfits (by decide)), encode_eight_bytes (hfits (by decide)),
    encode_eight_bytes (hfits (by decide)), hfront, hmiddle]
  simp only [List.append_assoc]
  rfl

theorem encode_eq_take_iff :
    header.encode = file.take length ↔
      ∀ position, IsReserved position → file[position]? = some 0 := by
  have hlength := length_le_of_decode hheader
  have hsplit : file.take length = file.take 12 ++ (file.drop 12).take 4 ++ (file.drop 16).take 32
      ++ (file.drop 48).take 16 := by
    rw [← List.take_add, ← List.take_add, ← List.take_add]
    rfl
  have hreserved : (∀ position, IsReserved position → file[position]? = some 0) ↔
      List.replicate 4 0 = (file.drop 12).take 4 ∧ List.replicate 16 0 = (file.drop 48).take 16 := by
    rw [replicate_eq_take_drop_iff, replicate_eq_take_drop_iff]
    constructor
    · exact fun hzeros => ⟨fun other hfirst hstop => hzeros other (.inl ⟨hfirst, hstop⟩),
        fun other hfirst hstop => hzeros other (.inr ⟨hfirst, hstop⟩)⟩
    · rintro ⟨hfront, hback⟩ position (⟨hfirst, hstop⟩ | ⟨hfirst, hstop⟩)
      · exact hfront position hfirst hstop
      · exact hback position hfirst hstop
  rw [encode_of_decode hheader, hsplit, hreserved]
  constructor
  · intro hbytes
    have hback : (List.replicate 16 (0 : UInt8)).length = ((file.drop 48).take 16).length := by
      simp only [length] at hlength
      rw [List.length_replicate, List.length_take, List.length_drop]
      omega
    obtain ⟨hfront, hzeros⟩ := List.append_inj' hbytes hback
    exact ⟨List.append_cancel_left (List.append_cancel_right hfront), hzeros⟩
  · rintro ⟨hfront, hback⟩
    rw [hfront, hback]

end Read

end TextPool.Header
