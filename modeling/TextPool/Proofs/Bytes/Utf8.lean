import Mathlib.Data.List.TakeWhile
import TextPool.Bytes.Utf8

/-!
# Reading what was written

The bytes of a character are read as this character, whatever stands behind them
(`decodeFrom_encodeChar`), so the bytes of one text followed by those of another are read as both
texts (`decode_encode_append`). Only the null character is written with a zero byte. To cut bytes at
the first zero is therefore to cut the text at its first null character, never inside a character
(`upToZero_encode`).
-/

namespace TextPool.Utf8

/-! ### Reading byte by byte -/

section Lead

variable {byte : UInt8} (rest : Bytes)

theorem decodeFrom_narrow (hhigh : byte.toNat < 0x80) :
    decodeFrom none (byte :: rest) = Char.ofNat byte.toNat :: decodeFrom none rest := by
  have hlead : lead byte = ([Char.ofNat byte.toNat], none) := if_pos hhigh
  simp only [decodeFrom, step, hlead, List.singleton_append]

theorem decodeFrom_of_lead {pending : Pending} (hlead : lead byte = ([], some pending)) :
    decodeFrom none (byte :: rest) = decodeFrom (some pending) rest := by
  simp only [decodeFrom, step, hlead, List.nil_append]

theorem decodeFrom_leadTwo (hlow : 0xC2 ≤ byte.toNat) (hhigh : byte.toNat < 0xE0) :
    decodeFrom none (byte :: rest)
      = decodeFrom (some ⟨1, byte.toNat - 0xC0, 0x80, 0xBF⟩) rest := by
  apply decodeFrom_of_lead
  simp only [lead, UInt8.lt_iff_toNat_lt, UInt8.reduceToNat]
  rw [if_neg (by omega), if_neg (by omega), if_pos hhigh]

end Lead

section Behind

variable {byte : UInt8} (value : Nat) (rest : Bytes) {low high : UInt8}
  (hlow : low.toNat ≤ byte.toNat) (hhigh : byte.toNat ≤ high.toNat)

include hlow hhigh

theorem decodeFrom_last :
    decodeFrom (some ⟨1, value, low, high⟩) (byte :: rest)
      = Char.ofNat (value * 64 + (byte.toNat - 0x80)) :: decodeFrom none rest := by
  have hstep : step (some ⟨1, value, low, high⟩) byte
      = ([Char.ofNat (value * 64 + (byte.toNat - 0x80))], none) := if_pos ⟨hlow, hhigh⟩
  simp only [decodeFrom, hstep, List.singleton_append]

theorem decodeFrom_more (missing : Nat) :
    decodeFrom (some ⟨missing + 2, value, low, high⟩) (byte :: rest)
      = decodeFrom (some ⟨missing + 1, value * 64 + (byte.toNat - 0x80), 0x80, 0xBF⟩) rest := by
  have hstep : step (some ⟨missing + 2, value, low, high⟩) byte
      = ([], some ⟨missing + 1, value * 64 + (byte.toNat - 0x80), 0x80, 0xBF⟩) :=
    if_pos ⟨hlow, hhigh⟩
  simp only [decodeFrom, hstep, List.nil_append]

end Behind

section Wide

variable {first second : UInt8} (rest : Bytes) (hsecond : 0x80 ≤ second.toNat)
  (hbehind : second.toNat ≤ 0xBF)

include hsecond hbehind

/-- The second of three bytes is bounded so that fewer bytes would not do and the character is none
of the surrogates. -/
theorem decodeFrom_leadThree (hlow : 0xE0 ≤ first.toNat) (hhigh : first.toNat < 0xF0)
    (hshort : first.toNat = 0xE0 → 0xA0 ≤ second.toNat)
    (hsurrogate : first.toNat = 0xED → second.toNat ≤ 0x9F) :
    decodeFrom none (first :: second :: rest)
      = decodeFrom (some ⟨1, (first.toNat - 0xE0) * 64 + (second.toNat - 0x80), 0x80, 0xBF⟩)
          rest := by
  have hlead : lead first = ([], some ⟨2, first.toNat - 0xE0,
      if first = 0xE0 then 0xA0 else 0x80, if first = 0xED then 0x9F else 0xBF⟩) := by
    simp only [lead, UInt8.lt_iff_toNat_lt, UInt8.reduceToNat]
    rw [if_neg (by omega), if_neg (by omega), if_neg (by omega), if_pos hhigh]
  rw [decodeFrom_of_lead _ hlead, decodeFrom_more]
  · split
    · exact hshort (congrArg UInt8.toNat ‹_›)
    · exact hsecond
  · split
    · exact hsurrogate (congrArg UInt8.toNat ‹_›)
    · exact hbehind

/-- The second of four bytes is bounded so that fewer bytes would not do and the character is not
past the last one. -/
theorem decodeFrom_leadFour (hlow : 0xF0 ≤ first.toNat) (hhigh : first.toNat < 0xF5)
    (hshort : first.toNat = 0xF0 → 0x90 ≤ second.toNat)
    (hpast : first.toNat = 0xF4 → second.toNat ≤ 0x8F) :
    decodeFrom none (first :: second :: rest)
      = decodeFrom (some ⟨2, (first.toNat - 0xF0) * 64 + (second.toNat - 0x80), 0x80, 0xBF⟩)
          rest := by
  have hlead : lead first = ([], some ⟨3, first.toNat - 0xF0,
      if first = 0xF0 then 0x90 else 0x80, if first = 0xF4 then 0x8F else 0xBF⟩) := by
    simp only [lead, UInt8.lt_iff_toNat_lt, UInt8.reduceToNat]
    rw [if_neg (by omega), if_neg (by omega), if_neg (by omega), if_neg (by omega), if_pos hhigh]
  rw [decodeFrom_of_lead _ hlead, decodeFrom_more]
  · split
    · exact hshort (congrArg UInt8.toNat ‹_›)
    · exact hsecond
  · split
    · exact hpast (congrArg UInt8.toNat ‹_›)
    · exact hbehind

end Wide

/-! ### Reading the bytes of a character -/

section Character

variable {number : Nat} (rest : Bytes)

theorem toNat_byte (hnumber : number < 256) : (UInt8.ofNat number).toNat = number := by
  rw [UInt8.toNat_ofNat']
  omega

/-- A byte that stands behind the first one of its character, with the last six bits of a number. -/
def behind (number : Nat) : UInt8 :=
  UInt8.ofNat (number % 0x40 + 0x80)

theorem toNat_behind (number : Nat) : (behind number).toNat = number % 0x40 + 0x80 :=
  toNat_byte (by omega)

theorem behind_bounds (number : Nat) :
    (0x80 : UInt8).toNat ≤ (behind number).toNat ∧ (behind number).toNat ≤ (0xBF : UInt8).toNat := by
  simp only [toNat_behind, UInt8.reduceToNat]
  omega

theorem decodeFrom_two (hlow : 0x7F < number) (hhigh : number ≤ 0x7FF) :
    decodeFrom none (UInt8.ofNat (number / 64 % 0x20 + 0xC0) :: behind number :: rest)
      = Char.ofNat number :: decodeFrom none rest := by
  have hfirst : (UInt8.ofNat (number / 64 % 0x20 + 0xC0)).toNat = number / 64 % 0x20 + 0xC0 :=
    toNat_byte (by omega)
  have hnumber : (number / 64 % 0x20 + 0xC0 - 0xC0) * 64 + (number % 0x40 + 0x80 - 0x80) = number := by
    omega
  obtain ⟨hleast, hmost⟩ := behind_bounds number
  rw [decodeFrom_leadTwo _ (by omega) (by omega), decodeFrom_last _ _ hleast hmost, hfirst,
    toNat_behind, hnumber]

theorem decodeFrom_three (hlow : 0x7FF < number) (hhigh : number ≤ 0xFFFF)
    (hvalid : number < 0xD800 ∨ 0xDFFF < number) :
    decodeFrom none (UInt8.ofNat (number / 4096 % 0x10 + 0xE0) :: behind (number / 64) ::
        behind number :: rest)
      = Char.ofNat number :: decodeFrom none rest := by
  have hfirst : (UInt8.ofNat (number / 4096 % 0x10 + 0xE0)).toNat = number / 4096 % 0x10 + 0xE0 :=
    toNat_byte (by omega)
  have hsecond := toNat_behind (number / 64)
  have hnumber : ((number / 4096 % 0x10 + 0xE0 - 0xE0) * 64 + (number / 64 % 0x40 + 0x80 - 0x80))
      * 64 + (number % 0x40 + 0x80 - 0x80) = number := by
    omega
  obtain ⟨hleast, hmost⟩ := behind_bounds number
  rw [decodeFrom_leadThree, decodeFrom_last _ _ hleast hmost, hfirst, hsecond, toNat_behind, hnumber]
  all_goals omega

theorem decodeFrom_four (hlow : 0xFFFF < number) (hhigh : number ≤ 0x10FFFF) :
    decodeFrom none (UInt8.ofNat (number / 262144 % 0x08 + 0xF0) :: behind (number / 4096) ::
        behind (number / 64) :: behind number :: rest)
      = Char.ofNat number :: decodeFrom none rest := by
  have hfirst : (UInt8.ofNat (number / 262144 % 0x08 + 0xF0)).toNat = number / 262144 % 0x08 + 0xF0 :=
    toNat_byte (by omega)
  have hsecond := toNat_behind (number / 4096)
  have hnumber : (((number / 262144 % 0x08 + 0xF0 - 0xF0) * 64
      + (number / 4096 % 0x40 + 0x80 - 0x80)) * 64 + (number / 64 % 0x40 + 0x80 - 0x80)) * 64
      + (number % 0x40 + 0x80 - 0x80) = number := by
    omega
  obtain ⟨hthird, hthird'⟩ := behind_bounds (number / 64)
  obtain ⟨hlast, hlast'⟩ := behind_bounds number
  rw [decodeFrom_leadFour, decodeFrom_more _ _ hthird hthird', decodeFrom_last _ _ hlast hlast',
    hfirst, hsecond, toNat_behind, toNat_behind, hnumber]
  all_goals omega

end Character

/-- The bytes of a character are read as this character, whatever stands behind them. -/
theorem decodeFrom_encodeChar (character : Char) (rest : Bytes) :
    decodeFrom none (String.utf8EncodeChar character ++ rest) = character :: decodeFrom none rest := by
  have hvalid : character.val.toNat < 0xD800 ∨
      0xDFFF < character.val.toNat ∧ character.val.toNat < 0x110000 := character.valid
  have hcharacter : Char.ofNat character.val.toNat = character := Char.ofNat_toNat character
  rw [String.utf8EncodeChar]
  generalize character.val.toNat = number at hvalid hcharacter
  rw [← hcharacter]
  by_cases hone : number ≤ 0x7F
  · have hnumber : (UInt8.ofNat number).toNat = number := toNat_byte (by omega)
    rw [if_pos hone, List.singleton_append, decodeFrom_narrow _ (by omega), hnumber]
  by_cases htwo : number ≤ 0x7FF
  · rw [if_neg hone, if_pos htwo]
    exact decodeFrom_two rest (by omega) htwo
  by_cases hthree : number ≤ 0xFFFF
  · rw [if_neg hone, if_neg htwo, if_pos hthree]
    exact decodeFrom_three rest (by omega) hthree (by omega)
  · rw [if_neg hone, if_neg htwo, if_neg hthree]
    exact decodeFrom_four rest (by omega) (by omega)

/-! ### Texts -/

theorem encode_append (left right : List Char) :
    encode (left ++ right) = encode left ++ encode right :=
  List.flatMap_append

theorem encode_cons (first : Char) (rest : List Char) :
    encode (first :: rest) = String.utf8EncodeChar first ++ encode rest :=
  List.flatMap_cons

/-- The bytes of a text are read as this text, and none of them changes how those behind it are
read. -/
theorem decode_encode_append (text : List Char) (rest : Bytes) :
    decode (encode text ++ rest) = text ++ decode rest := by
  induction text with
  | nil => rfl
  | cons first text ih =>
    rw [decode] at ih
    rw [encode_cons, List.append_assoc, decode, decodeFrom_encodeChar, ih]
    rfl

theorem decode_encode (text : List Char) : decode (encode text) = text := by
  have hread := decode_encode_append text []
  rw [List.append_nil] at hread
  exact hread.trans (List.append_nil text)

theorem display_encode (text : List Char) : display (encode text) = String.ofList text := by
  rw [display, decode_encode]

/-! ### The terminator -/

theorem ofNat_ne_zero {number : Nat} (hlow : 0 < number) (hhigh : number < 256) :
    UInt8.ofNat number ≠ 0 := by
  intro hzero
  have hnumber := congrArg UInt8.toNat hzero
  rw [toNat_byte hhigh] at hnumber
  exact absurd hnumber (Nat.ne_of_gt hlow)

theorem zero_notMem_encodeChar {character : Char} (hcharacter : character ≠ '\x00') :
    0 ∉ String.utf8EncodeChar character := by
  have hpositive : 0 < character.val.toNat := by
    apply Nat.pos_of_ne_zero
    intro hzero
    apply hcharacter
    rw [← Char.ofNat_toNat character, Char.toNat, hzero]
  have hbytes : ∀ byte ∈ String.utf8EncodeChar character, byte ≠ 0 := by
    intro byte hbyte
    rw [String.utf8EncodeChar] at hbyte
    split_ifs at hbyte
    all_goals
      simp only [List.mem_cons, List.not_mem_nil, or_false] at hbyte
      rcases hbyte with rfl | rfl | rfl | rfl
      all_goals exact ofNat_ne_zero (by omega) (by omega)
  exact fun hmem => hbytes 0 hmem rfl

def upToNull (text : List Char) : List Char :=
  text.takeWhile (· ≠ '\x00')

theorem upToZero_encode (text : List Char) : (encode text).upToZero = encode (upToNull text) := by
  induction text with
  | nil => rfl
  | cons first rest ih =>
    by_cases hfirst : first = '\x00'
    · subst hfirst
      rfl
    · have hzero : 0 ∉ String.utf8EncodeChar first := zero_notMem_encodeChar hfirst
      have hcut : upToNull (first :: rest) = first :: upToNull rest :=
        List.takeWhile_cons_of_pos (decide_eq_true hfirst)
      rw [encode_cons, Bytes.upToZero_append _ _ hzero, ih, hcut, encode_cons]

section Whole

variable {text : List Char} (hnull : '\x00' ∉ text)

include hnull

theorem upToNull_eq_self : upToNull text = text := by
  rw [upToNull, List.takeWhile_eq_self_iff]
  intro character hmem
  exact decide_eq_true (ne_of_mem_of_not_mem hmem hnull)

end Whole

end TextPool.Utf8
