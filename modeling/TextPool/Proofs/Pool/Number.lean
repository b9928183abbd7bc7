import TextPool.Proofs.Number.Hexadecimal
import TextPool.Proofs.Number.Layout
import TextPool.Proofs.Pool.Making

/-!
# Strings of numbers

A string of a double in a layout holds the sign, the digits in their groups and the places behind
their point, all of it up to the first byte that is zero, which only the point can be
(`upToZero_layOut`). So where the point is the zero byte and there are places, it holds what stands
before the point.

What is read from a string of a word in hexadecimal digits is the word, whatever follows that is no
digit, and any sixteen digits are written again, in capitals, of the word read from them.
-/

namespace TextPool.Pool

/-! ### Doubles in a layout -/

section Formatted

open Binary64 Decimal

theorem Sound.makes_formatted {pool : Pool} (hsound : pool.Sound) (bits : UInt64)
    (format : NumberFormat) :
    pool.Makes ((ofBits bits).layOut format).upToZero (pool.perform (.ofFormatted bits format)) := by
  have hmaking : pool.perform (.ofFormatted bits format)
      = pool.making ((ofBits bits).layOut format).upToZero := runOn_store_made _ pool
  rw [hmaking]
  exact hsound.makes_making (Bytes.zero_notMem_upToZero _)

/-- Of a layout only the point can be a zero byte. -/
theorem upToZero_layOut {bits : UInt64} (hfinite : IsFinite bits) {format : NumberFormat}
    {whole fraction : Bytes} (hrenders : Renders (magnitude bits) format.places whole fraction) :
    ((ofBits bits).layOut format).upToZero
      = if format.point = 0 ∧ format.places ≠ 0 then signText bits ++ format.group whole
        else (ofBits bits).layOut format := by
  have hfront : 0 ∉ signText bits ++ format.group whole :=
    Bytes.zero_notMem_append (zero_notMem_signText bits)
      (format.zero_notMem_group (zero_notMem hrenders.isNumeral.isDigit))
  rw [layOut_of_renders hfinite hrenders, Bytes.upToZero_append _ _ hfront, NumberFormat.fraction]
  simp only [ne_eq, hrenders.places_eq_zero_iff]
  split_ifs with hnone hcut hcut
  · exact absurd (List.isEmpty_iff.mp hnone) hcut.2
  · rfl
  · rw [hcut.1]
    exact List.append_nil _
  · have hpoint : format.point ≠ 0 := fun hzero => hcut ⟨hzero, fun hnil => hnone (hnil ▸ rfl)⟩
    have hbehind : 0 ∉ format.point :: fraction :=
      List.not_mem_cons_of_ne_of_not_mem hpoint.symm (zero_notMem hrenders.isDigit)
    rw [Bytes.upToZero_eq_self _ hbehind]

/-- A finite double has a rendering, which its layout shows, and a request for a string of it makes
one of the layout, up to a point that is the zero byte. -/
theorem formatted_made {bits : UInt64} (hfinite : IsFinite bits) (format : NumberFormat) :
    let places := if format.decimals < 0 then 6 else min format.decimals.toNat 340
    (∃ whole fraction, Renders (magnitude bits) places whole fraction) ∧
      ∀ whole fraction, Renders (magnitude bits) places whole fraction →
        ∃ shown, format.Shows whole shown ∧
          (ofBits bits).layOut format
            = signText bits ++ shown ++ (if places = 0 then [] else format.point :: fraction) ∧
          Stepwise.grouped? format
              (signText bits ++ (whole ++ if places = 0 then [] else 0x2E :: fraction))
            = some ((ofBits bits).layOut format) ∧
          ∀ (config : Config) (pool : Pool), Reachable config pool →
            pool.Makes
              (if format.point = 0 ∧ places ≠ 0 then signText bits ++ shown
                else (ofBits bits).layOut format)
              (pool.perform (.ofFormatted bits format)) := by
  intro places
  refine ⟨exists_renders hfinite places, fun whole fraction hrenders => ⟨format.group whole,
    format.shows_group hrenders.isNumeral.ne_nil, ?_, ?_, fun config pool hreachable => ?_⟩⟩
  · simp only [layOut_of_renders hfinite hrenders, NumberFormat.fraction, hrenders.places_eq_zero_iff,
      List.isEmpty_iff]
  · simp only [hrenders.places_eq_zero_iff]
    exact grouped?_of_renders hfinite hrenders
  · have hmakes := (sound_of_reachable hreachable).1.makes_formatted bits format
    rw [upToZero_layOut hfinite hrenders] at hmakes
    exact hmakes

/-- -999999.9996 to three places is rounded to a number with a group more. With a zero byte as its
point the string of it ends before the places. -/
theorem formatted_made_carried :
    let format : NumberFormat := ⟨3, 0, some 0x2C⟩
    (ofConfig {}).Makes (Ascii.bytes ['-', '1', ',', '0', '0', '0', ',', '0', '0', '0'])
      ((ofConfig {}).perform (.ofFormatted 0xC12E847FFFCB923A format)) := by
  intro format
  have hfinite : IsFinite 0xC12E847FFFCB923A := by decide
  have hlayOut : (ofBits 0xC12E847FFFCB923A).layOut format
      = Ascii.bytes ['-', '1', ',', '0', '0', '0', ',', '0', '0', '0'] ++ [0, 0x30, 0x30, 0x30] := by
    decide +kernel
  obtain ⟨⟨whole, fraction, hrenders⟩, hevery⟩ := formatted_made hfinite format
  obtain ⟨shown, _, htext, _, hmakes⟩ := hevery whole fraction hrenders
  have hlength : fraction.length = 3 := hrenders.length_fraction
  have hstored := (List.append_inj' (htext.symm.trans hlayOut) (congrArg (· + 1) hlength)).1
  have hmade := hmakes {} (ofConfig {}) ⟨[], fun _ => nofun, rfl⟩
  rw [if_pos (by decide), hstored] at hmade
  exact hmade

end Formatted

/-! ### Words in hexadecimal digits -/

section Hexadecimal

open Hexadecimal

theorem zero_notMem_ofWord (word : UInt64) : 0 ∉ Hexadecimal.ofWord word :=
  fun hzero => absurd (isDigit_of_mem_ofWord hzero) (by decide)

theorem perform_readHexadecimal {pool : Pool} {handle : Handle} {text : Bytes}
    (htext : pool.text handle = .ok text) :
    pool.perform (.readHexadecimal handle) = (.ok (.integer (read text)), pool) := by
  rw [perform_of_ask rfl, readHexadecimal, htext]
  rfl

namespace Sound

variable {pool : Pool} (hsound : pool.Sound) (word : UInt64)

include hsound

theorem makes_ofWord (hmemory : pool.config.grants width = true) :
    pool.Makes (Hexadecimal.ofWord word) (pool.perform (.ofWord word)) := by
  refine hsound.makes_of_product rfl rfl (zero_notMem_ofWord word) ?_
  rw [Hexadecimal.ofWord, length_digits]
  exact hmemory

theorem readHexadecimal_of_ofWord {handle : Handle} {left : Pool}
    (hdone : pool.perform (.ofWord word) = (.ok (.made handle), left)) :
    left.perform (.readHexadecimal handle) = (.ok (.integer word.toInt64), left) := by
  have htext := (hsound.texts_of_product rfl (zero_notMem_ofWord word) hdone).2.1
  rw [perform_readHexadecimal htext, read_ofWord]

end Sound

/-- Digits at the front of a text are read as the number they spell, of which no more than the last
sixteen count, and a word written in digits is read back. -/
theorem hexadecimal_exact :
    (∀ text, (read text).toUInt64.toNat = number (run text) % 2 ^ 64 ∧
      (read text).toInt = (number (run text) : Int).bmod (2 ^ 64) ∧
      read text = read ((run text).rtake 16)) ∧
    (∀ word, (Hexadecimal.ofWord word).length = 16 ∧
      (∀ byte ∈ Hexadecimal.ofWord word, byte ∈ alphabet) ∧
      ∀ rest : Bytes, (∀ byte ∈ rest.head?, ¬IsDigit byte) →
        (read (Hexadecimal.ofWord word ++ rest)).toUInt64 = word) ∧
    (∀ digits : Bytes, digits.length = 16 → (∀ digit ∈ digits, IsDigit digit) →
      Hexadecimal.ofWord (read digits).toUInt64 = digits.map Ascii.upper) ∧
    ∀ (config : Config) (pool : Pool), Reachable config pool →
      (∀ handle text, pool.text handle = .ok text →
        pool.perform (.readHexadecimal handle) = (.ok (.integer (read text)), pool)) ∧
      ∀ word, (pool.config.grants 16 = true →
          pool.Makes (Hexadecimal.ofWord word) (pool.perform (.ofWord word))) ∧
        ∀ handle left, pool.perform (.ofWord word) = (.ok (.made handle), left) →
          left.perform (.readHexadecimal handle) = (.ok (.integer word.toInt64), left) := by
  refine ⟨fun text => ⟨toNat_read text, toInt_read text, (read_rtake text).symm⟩,
    fun word => ⟨length_digits 16 word, fun _ => mem_alphabet_of_mem_digits, fun _ => ?_⟩,
    fun digits hlength hdigits => ofWord_read hdigits hlength, fun config pool hreachable => ?_⟩
  · exact read_ofWord_append word
  · have hsound := (sound_of_reachable hreachable).1
    exact ⟨fun handle text => perform_readHexadecimal, fun word =>
      ⟨hsound.makes_ofWord word, fun handle left => hsound.readHexadecimal_of_ofWord word⟩⟩

/-- A word whose highest bit is set, behind a digit more and in front of a letter that is no digit,
its digits in small letters, and the string of it. -/
theorem hexadecimal_exact_signed :
    let digits := Ascii.bytes ['f', 'e', 'd', 'c', 'b', 'a', '9', '8', '7', '6', '5', '4', '3', '2', '1', '0']
    let pool := (ofConfig {}).after [.allocate [97]]
    let left := (pool.perform (.ofWord 0xFEDCBA9876543210)).2
    read (0x31 :: digits ++ [0x67]) = read digits ∧
      (read (Hexadecimal.ofWord 0xFEDCBA9876543210 ++ [0x67])).toUInt64 = 0xFEDCBA9876543210 ∧
      Hexadecimal.ofWord (read digits).toUInt64 = digits.map Ascii.upper ∧
      left.perform (.readHexadecimal ⟨2⟩) = (.ok (.integer (-81985529216486896)), left) := by
  intro digits pool left
  obtain ⟨hread, hword, hdigits, hpool⟩ := hexadecimal_exact
  have hrun : ∀ operation ∈ [Operation.allocate [97]], operation.WellFormed := by
    rw [List.forall_mem_singleton]
    trivial
  have hreachable : Reachable {} pool := ⟨_, hrun, rfl⟩
  have hmade : (pool.perform (.ofWord 0xFEDCBA9876543210)).1 = .ok (.made ⟨2⟩) := by decide +kernel
  have hdone : pool.perform (.ofWord 0xFEDCBA9876543210) = (.ok (.made ⟨2⟩), left) := by rw [← hmade]
  refine ⟨?_, (hword 0xFEDCBA9876543210).2.2 [0x67] ?_, hdigits digits rfl ?_,
    ((hpool {} pool hreachable).2 0xFEDCBA9876543210).2 ⟨2⟩ left hdone⟩
  · rw [(hread (0x31 :: digits ++ [0x67])).2.2]
    decide +kernel
  · rintro byte ⟨⟩
    decide
  · decide +kernel

end Hexadecimal

end TextPool.Pool
