import TextPool.Proofs.Bytes.Utf8
import TextPool.Proofs.Pool.Appending

/-!
# Characters survive in the pool

A pool stores bytes and knows nothing of characters. Characters that are stored are shown again as
they were, up to the first null character, and where the bytes of two such strings are put together,
by a new string or by lengthening the first, the characters of both are shown, one after the other.
Nothing is shown as a replacement that was not one before.
-/

namespace TextPool.Pool

open Utf8 (encode upToNull)

def Shows (pool : Pool) (handle : Handle) (text : List Char) : Prop :=
  pool.perform (.display handle) = (.ok (.text (String.ofList text)), pool)

instance (pool : Pool) (handle : Handle) (text : List Char) : Decidable (pool.Shows handle text) :=
  inferInstanceAs (Decidable (_ = _))

/-- Two strings of characters, the first of them made, show the characters of both when they are put
together. -/
structure Joins (pool : Pool) (first second : Handle) (before behind : List Char) : Prop where
  makes : pool.config.grants (encode (before ++ behind)).length = true →
    pool.Makes (encode (before ++ behind)) (pool.perform (.concat first second))
  shows_made : ∀ joined left, pool.perform (.concat first second) = (.ok (.made joined), left) →
    left.Shows joined (before ++ behind)
  lengthens : ∃ owners, pool.Lengthens first ⟨.dynamic, encode before, owners⟩ (encode behind)
    (pool.perform (.appendFrom first second))
  shows_lengthened : ∀ answer left, pool.perform (.appendFrom first second) = (.ok answer, left) →
    answer = .made first ∧ left.Shows first (before ++ behind)

theorem shows_of_text {pool : Pool} {handle : Handle} {text : List Char}
    (htext : pool.text handle = .ok (encode text)) : pool.Shows handle text := by
  rw [Shows, perform_of_ask rfl, display, htext, ← Utf8.display_encode]
  rfl

section Sound

variable {pool : Pool} (hsound : pool.Sound)

include hsound

/-! ### One string -/

theorem Sound.makes_allocateText (text : List Char)
    (hmemory : pool.config.grants (encode (upToNull text)).length = true) :
    pool.Makes (encode (upToNull text)) (pool.perform (.allocateText text)) := by
  have hcheck : pool.check (Operation.allocateText text).checked = .ok () := rfl
  have hproduct : (Operation.allocateText text).product? pool.textAt = some (encode text) := rfl
  rw [← Utf8.upToZero_encode] at hmemory ⊢
  rw [hsound.perform_of_product hcheck hproduct hmemory]
  exact hsound.makes_making (Bytes.zero_notMem_upToZero _)

theorem Sound.holds_of_allocateText {text : List Char} {made : Handle} {left : Pool}
    (hdone : pool.perform (.allocateText text) = (.ok (.made made), left)) :
    left.Sound ∧ left.Holds made ⟨.dynamic, encode (upToNull text), 0⟩ ∧
      ∀ other held, pool.Holds other held → left.Holds other held := by
  rw [← Utf8.upToZero_encode]
  exact hsound.holds_of_made rfl hdone

/-! ### Two strings -/

theorem Sound.joins {first second : Handle} {before behind : List Char} {owners : UInt64}
    (hfirst : pool.Holds first ⟨.dynamic, encode before, owners⟩)
    (hsecond : pool.text second = .ok (encode behind)) :
    pool.Joins first second before behind := by
  have hboth := Utf8.encode_append before behind
  have hlengthens := hsound.lengthens_appendFrom hfirst hsecond
  refine ⟨fun hmemory => ?_, fun joined left hdone => ?_, ⟨owners, hlengthens⟩,
    fun answer left hdone => ?_⟩
  · rw [hboth] at hmemory ⊢
    exact hsound.makes_concat hfirst.text_eq hsecond hmemory
  · apply shows_of_text
    rw [hboth]
    exact (hsound.texts_of_concat hfirst.text_eq hsecond hdone).2.1
  · rw [hdone] at hlengthens
    cases hlengthens with
    | lengthened _ hholds =>
      refine ⟨rfl, shows_of_text ?_⟩
      rw [hboth]
      exact hholds.text_eq

/-- Strings that were made of characters one after the other, none of them a null character. -/
theorem Sound.joins_of_allocateText {before behind : List Char} (hbefore : '\x00' ∉ before)
    (hbehind : '\x00' ∉ behind) {first second : Handle} {stored later : Pool}
    (hfirst : pool.perform (.allocateText before) = (.ok (.made first), stored))
    (hsecond : stored.perform (.allocateText behind) = (.ok (.made second), later)) :
    later.Joins first second before behind := by
  obtain ⟨hstored, hmade, _⟩ := hsound.holds_of_allocateText hfirst
  obtain ⟨hlater, hother, hkept⟩ := hstored.holds_of_allocateText hsecond
  rw [Utf8.upToNull_eq_self hbefore] at hmade
  rw [Utf8.upToNull_eq_self hbehind] at hother
  exact hlater.joins (hkept first _ hmade) hother.text_eq

end Sound

/-- A string made of characters is shown as those before the first null character, and two put
together as the characters of both. -/
theorem characters_shown {config : Config} {pool : Pool} (hreachable : Reachable config pool) :
    (∀ text : List Char,
      (pool.config.grants (encode (upToNull text)).length = true →
        pool.Makes (encode (upToNull text)) (pool.perform (.allocateText text))) ∧
      ∀ made left, pool.perform (.allocateText text) = (.ok (.made made), left) →
        left.Shows made (upToNull text)) ∧
    (∀ first second before behind owners, pool.Holds first ⟨.dynamic, encode before, owners⟩ →
      pool.text second = .ok (encode behind) → pool.Joins first second before behind) ∧
    ∀ before behind : List Char, '\x00' ∉ before → '\x00' ∉ behind →
      ∀ first second stored later,
        pool.perform (.allocateText before) = (.ok (.made first), stored) →
        stored.perform (.allocateText behind) = (.ok (.made second), later) →
        later.Joins first second before behind := by
  have hsound := (sound_of_reachable hreachable).1
  refine ⟨fun text => ⟨hsound.makes_allocateText text, fun made left hdone => ?_⟩,
    fun first second before behind owners => hsound.joins,
    fun before behind hbefore hbehind first second stored later =>
      hsound.joins_of_allocateText hbefore hbehind⟩
  apply shows_of_text
  obtain ⟨_, hmade, _⟩ := hsound.holds_of_allocateText hdone
  exact hmade.text_eq

/-- Characters of one to four bytes, some of them behind a null character, and a replacement that
was stored as one. -/
theorem characters_shown_wide :
    let pool := ofConfig {}
    let cut := (pool.perform (.allocateText ['é', '€', '\x00', '😀'])).2
    let stored := (pool.perform (.allocateText ['a', 'é', '\uFFFD'])).2
    let later := (stored.perform (.allocateText ['😀', '€'])).2
    cut.Shows ⟨1⟩ ['é', '€'] ∧
      later.Joins ⟨1⟩ ⟨2⟩ ['a', 'é', '\uFFFD'] ['😀', '€'] ∧
      later.Joins ⟨2⟩ ⟨2⟩ ['😀', '€'] ['😀', '€'] := by
  intro pool cut stored later
  have hreachable : Reachable {} pool := ⟨[], by decide, rfl⟩
  have hlater : Reachable {} later :=
    ⟨[.allocateText ['a', 'é', '\uFFFD'], .allocateText ['😀', '€']], by decide, rfl⟩
  have hcut : pool.perform (.allocateText ['é', '€', '\x00', '😀']) = (.ok (.made ⟨1⟩), cut) :=
    Prod.fst_eq_iff.mp (by decide +kernel)
  have hfirst : pool.perform (.allocateText ['a', 'é', '\uFFFD']) = (.ok (.made ⟨1⟩), stored) :=
    Prod.fst_eq_iff.mp (by decide +kernel)
  have hsecond : stored.perform (.allocateText ['😀', '€']) = (.ok (.made ⟨2⟩), later) :=
    Prod.fst_eq_iff.mp (by decide +kernel)
  have hshown : upToNull ['é', '€', '\x00', '😀'] = ['é', '€'] := by decide
  obtain ⟨hone, _, htwo⟩ := characters_shown hreachable
  obtain ⟨_, htwice, _⟩ := characters_shown hlater
  exact ⟨hshown ▸ (hone _).2 ⟨1⟩ cut hcut,
    htwo _ _ (by decide) (by decide) ⟨1⟩ ⟨2⟩ stored later hfirst hsecond,
    htwice ⟨2⟩ ⟨2⟩ _ _ 0 (by decide +kernel) (by decide +kernel)⟩

end TextPool.Pool
