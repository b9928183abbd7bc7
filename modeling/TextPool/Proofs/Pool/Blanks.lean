import TextPool.Proofs.Bytes.Layout
import TextPool.Proofs.Pool.Making

/-!
# Blanks around strings

The text of a string has one part only that stands between blanks and neither begins nor ends with a
blank. A request to strip the string makes one of this core (`Sound.makes_strip`), and a request to
widen it, to any word and on either side, one with the spaces that it lacks on this side, or there
is no memory for that many bytes (`Sound.makes_pad`, `perform_pad_of_refused`). What is stripped
after that is the same core again.
-/

namespace TextPool.Pool

section Requests

variable {pool : Pool} {handle : Handle} {text : Bytes} (htext : pool.text handle = .ok text)

include htext

theorem perform_pad_of_refused {width : Int64} {alignment : Alignment}
    (hmemory : pool.config.grants (text.pad width alignment).length = false) :
    pool.perform (.pad handle width alignment)
      = (.error (.exhausted (text.pad width alignment).length), pool) := by
  have hpadded : pool.padded handle width alignment
      = .error (.exhausted (text.pad width alignment).length) := by
    rw [Bytes.length_pad] at hmemory ⊢
    rw [padded, htext]
    exact congrArg (· >>= fun _ => _) (reserve_eq_error hmemory)
  rw [perform, act, runOn_answer, pad, produce, runOn_ask_bind, hpadded]
  rfl

variable (hsound : pool.Sound)

include hsound

theorem Sound.makes_strip : pool.Makes text.strip (pool.perform (.strip handle)) :=
  hsound.makes_of_transform Bytes.strip rfl rfl htext
    (Bytes.zero_notMem_strip (hsound.zero_notMem_text htext))

theorem Sound.texts_of_strip {stripped : Handle} {left : Pool}
    (hdone : pool.perform (.strip handle) = (.ok (.made stripped), left)) :
    left.Sound ∧ left.text stripped = .ok text.strip := by
  have hzero := Bytes.zero_notMem_strip (hsound.zero_notMem_text htext)
  obtain ⟨hleft, hstripped, _⟩ := hsound.texts_of_transform Bytes.strip rfl htext hzero hdone
  exact ⟨hleft, hstripped⟩

variable {width : Int64} {alignment : Alignment}

theorem Sound.makes_pad (hmemory : pool.config.grants (text.pad width alignment).length = true) :
    pool.Makes (text.pad width alignment) (pool.perform (.pad handle width alignment)) := by
  have hcheck : pool.check (Operation.pad handle width alignment).checked = .ok () := by
    rw [Operation.checked, check_cons_of_live (live_of_text htext)]
    rfl
  refine hsound.makes_of_product hcheck ?_
    (Bytes.zero_notMem_pad (hsound.zero_notMem_text htext) width alignment) hmemory
  rw [Operation.product?, textAt_of_text htext]

theorem Sound.texts_of_pad {wide : Handle} {left : Pool}
    (hdone : pool.perform (.pad handle width alignment) = (.ok (.made wide), left)) :
    left.Sound ∧ left.text wide = .ok (text.pad width alignment) := by
  have hzero := Bytes.zero_notMem_pad (hsound.zero_notMem_text htext) width alignment
  obtain ⟨hleft, hwide, _⟩ :=
    hsound.texts_of_transform (Bytes.pad · width alignment) rfl htext hzero hdone
  exact ⟨hleft, hwide⟩

end Requests

/-- A string is stripped to the one part between its blanks, and stripped to the same after it was
stripped or widened. -/
theorem strip_and_pad {config : Config} {pool : Pool} (hreachable : Reachable config pool)
    {handle : Handle} {text : Bytes} (htext : pool.text handle = .ok text) :
    ∃ core, (∀ other, text.IsCore other ↔ other = core) ∧
      ((∀ byte ∈ text, byte ∈ Ascii.blanks) → core = []) ∧ Stepwise.strip? text = some core ∧
      pool.Makes core (pool.perform (.strip handle)) ∧
      (∀ stripped left, pool.perform (.strip handle) = (.ok (.made stripped), left) →
        left.text stripped = .ok core ∧ left.Makes core (left.perform (.strip stripped))) ∧
      ∀ (width : Int64) (alignment : Alignment),
        let spaces := List.replicate (width.toInt - text.length).toNat Ascii.space
        let padded := match alignment with
          | .left => text ++ spaces
          | .right => spaces ++ text
        (padded.length : Int) = max (text.length : Int) width.toInt ∧
          (width.toInt ≤ text.length → padded = text) ∧
          (pool.config.grants padded.length = true →
            pool.Makes padded (pool.perform (.pad handle width alignment))) ∧
          (pool.config.grants padded.length = false →
            pool.perform (.pad handle width alignment) = (.error (.exhausted padded.length), pool)) ∧
          ∀ wide left, pool.perform (.pad handle width alignment) = (.ok (.made wide), left) →
            left.text wide = .ok padded ∧ left.Makes core (left.perform (.strip wide)) := by
  have hsound := (sound_of_reachable hreachable).1
  refine ⟨text.strip, fun other => Bytes.isCore_iff, Bytes.strip_of_blanks,
    Stepwise.strip?_eq text.isCore_strip, hsound.makes_strip htext, fun stripped left hdone => ?_,
    fun width alignment => ?_⟩
  · obtain ⟨hleft, hstripped⟩ := hsound.texts_of_strip htext hdone
    refine ⟨hstripped, ?_⟩
    rw [← text.strip_strip]
    exact hleft.makes_strip hstripped
  intro spaces padded
  have hpadded : text.pad width alignment = padded := text.pad_eq width alignment
  rw [← hpadded]
  refine ⟨?_, fun hwidth => Bytes.pad_of_le hwidth alignment, hsound.makes_pad htext,
    perform_pad_of_refused htext, fun wide left hdone => ?_⟩
  · rw [Bytes.length_pad, Bytes.lacking_eq]
    omega
  · obtain ⟨hleft, hwide⟩ := hsound.texts_of_pad htext hdone
    refine ⟨hwide, ?_⟩
    rw [← text.strip_pad width alignment]
    exact hleft.makes_strip hwide

/-- A text with blanks at both ends and one within, widened on the left. To the least of all words
it is not widened, and for the greatest there is no memory. -/
theorem strip_and_pad_words :
    let text : Bytes := [0x20, 0x09, 0x61, 0x20, 0x62, 0x0A]
    let pool := (ofConfig {}).after [.allocate text]
    let left := (pool.perform (.pad ⟨1⟩ 8 .right)).2
    pool.Makes [0x61, 0x20, 0x62] (pool.perform (.strip ⟨1⟩)) ∧
      left.text ⟨2⟩ = .ok (0x20 :: 0x20 :: text) ∧
      left.Makes [0x61, 0x20, 0x62] (left.perform (.strip ⟨2⟩)) ∧
      pool.Makes text (pool.perform (.pad ⟨1⟩ Int64.minValue .left)) ∧
      pool.perform (.pad ⟨1⟩ Int64.maxValue .left) = (.error (.exhausted (2 ^ 63 - 1)), pool) := by
  intro text pool left
  have hreachable : Reachable {} pool := ⟨_, by decide, rfl⟩
  have htext : pool.text ⟨1⟩ = .ok text := by decide +kernel
  obtain ⟨core, hunique, _, _, hstrip, _, hwidths⟩ := strip_and_pad hreachable htext
  have hcore : text.IsCore [0x61, 0x20, 0x62] := by
    refine ⟨⟨[0x20, 0x09], [0x0A], rfl, ?_, ?_⟩, ?_, ?_⟩
    · decide +kernel
    · decide +kernel
    · decide +kernel
    · decide +kernel
  obtain rfl := (hunique _).mp hcore
  have hmade : (pool.perform (.pad ⟨1⟩ 8 .right)).1 = .ok (.made ⟨2⟩) := by decide +kernel
  have hdone : pool.perform (.pad ⟨1⟩ 8 .right) = (.ok (.made ⟨2⟩), left) := by rw [← hmade]
  obtain ⟨_, _, _, _, hwide⟩ := hwidths 8 .right
  obtain ⟨_, hsame, hnarrow, _⟩ := hwidths Int64.minValue .left
  obtain ⟨hlength, _, _, hrefused, _⟩ := hwidths Int64.maxValue .left
  rw [hsame (by decide)] at hnarrow
  have hgreatest : max (text.length : Int) Int64.maxValue.toInt = ((2 ^ 63 - 1 : Nat) : Int) := by decide
  rw [Int.ofNat_inj.mp (hlength.trans hgreatest)] at hrefused
  exact ⟨hstrip, (hwide _ _ hdone).1, (hwide _ _ hdone).2, hnarrow (by decide +kernel),
    hrefused (by decide +kernel)⟩

end TextPool.Pool
