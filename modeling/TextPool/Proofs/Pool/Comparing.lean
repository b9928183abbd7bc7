import TextPool.Proofs.Bytes.Order
import TextPool.Proofs.Pool.Making

/-!
# Comparing strings

Two strings are compared by their texts, and nothing changes (`perform_order`,
`perform_orderIgnoringCase`). The order is that of the first byte that differs, taken as a number,
and where there is none the shorter text comes first. Ignoring case, it is that of the texts in
capitals, and two texts are one if they are of one length and differ in the case of ASCII letters
only. A copy of a string in capitals or in small letters has the same capitals as the string
(`Recases.upper_eq`), so it stands where the string does when case is ignored.
-/

namespace TextPool.Pool

/-- The request makes a copy of the string at the handle in capitals or in small letters, and this
is the text of the copy. -/
inductive Recases (handle : Handle) (text : Bytes) : Operation → Bytes → Prop
  | upper : Recases handle text (.upper handle) text.upper
  | lower : Recases handle text (.lower handle) text.lower

/-! ### Answers -/

section Answers

variable {pool : Pool} {first second : Handle} {left right : Bytes} (hleft : pool.text first = .ok left)
  (hright : pool.text second = .ok right)

include hleft hright

theorem perform_order :
    pool.perform (.order first second) = (.ok (.ordering (left.order right)), pool) := by
  rw [perform_of_ask rfl, order, hleft, hright]
  rfl

theorem perform_orderIgnoringCase :
    pool.perform (.orderIgnoringCase first second)
      = (.ok (.ordering (left.orderIgnoringCase right)), pool) := by
  rw [perform_of_ask rfl, orderIgnoringCase, hleft, hright]
  rfl

end Answers

/-! ### Copies in one case -/

section Copies

variable {handle : Handle} {text changed : Bytes} {operation : Operation}
  (hrecases : Recases handle text operation changed)

include hrecases

theorem Recases.upper_eq : changed.upper = text.upper := by
  cases hrecases with
  | upper => exact text.upper_upper
  | lower => exact text.upper_lower

theorem Recases.zero_notMem (hzero : 0 ∉ text) : 0 ∉ changed := by
  cases hrecases with
  | upper => exact Bytes.zero_notMem_upper hzero
  | lower => exact Bytes.zero_notMem_lower hzero

variable {pool : Pool} (hsound : pool.Sound) (htext : pool.text handle = .ok text)

include hsound htext

theorem Sound.makes_recased : pool.Makes changed (pool.perform operation) := by
  have hzero := hrecases.zero_notMem (hsound.zero_notMem_text htext)
  cases hrecases with
  | upper => exact hsound.makes_of_transform Bytes.upper rfl rfl htext hzero
  | lower => exact hsound.makes_of_transform Bytes.lower rfl rfl htext hzero

theorem Sound.texts_of_recased {copy : Handle} {left : Pool}
    (hdone : pool.perform operation = (.ok (.made copy), left)) :
    left.Sound ∧ left.text copy = .ok changed ∧
      ∀ other bytes, pool.text other = .ok bytes → left.text other = .ok bytes := by
  have hzero := hrecases.zero_notMem (hsound.zero_notMem_text htext)
  cases hrecases with
  | upper => exact hsound.texts_of_transform Bytes.upper rfl htext hzero hdone
  | lower => exact hsound.texts_of_transform Bytes.lower rfl htext hzero hdone

/-- A copy in one case is compared like the string of which it was made, from either side. -/
theorem Sound.orderIgnoringCase_of_recased {copy other : Handle} {bytes : Bytes} {left : Pool}
    (hother : pool.text other = .ok bytes)
    (hdone : pool.perform operation = (.ok (.made copy), left)) :
    left.perform (.orderIgnoringCase copy other)
        = (.ok (.ordering (text.orderIgnoringCase bytes)), left) ∧
      left.perform (.orderIgnoringCase other copy)
        = (.ok (.ordering (bytes.orderIgnoringCase text)), left) := by
  obtain ⟨_, hcopy, hkept⟩ := hsound.texts_of_recased hrecases htext hdone
  have hsecond := hkept other bytes hother
  have hfront : changed.orderIgnoringCase bytes = text.orderIgnoringCase bytes := by
    rw [Bytes.orderIgnoringCase, hrecases.upper_eq, Bytes.orderIgnoringCase]
  have hback : bytes.orderIgnoringCase changed = bytes.orderIgnoringCase text := by
    rw [Bytes.orderIgnoringCase, hrecases.upper_eq, Bytes.orderIgnoringCase]
  rw [← hfront, ← hback]
  exact ⟨perform_orderIgnoringCase hcopy hsecond, perform_orderIgnoringCase hsecond hcopy⟩

end Copies

/-- The texts of two copies that were made one after the other. -/
theorem Sound.texts_of_both_recased {pool middle last : Pool} (hsound : pool.Sound)
    {first second copy other : Handle} {left right changed recased : Bytes}
    (hleft : pool.text first = .ok left) (hright : pool.text second = .ok right)
    {operation later : Operation} (hrecases : Recases first left operation changed)
    (hlater : Recases second right later recased)
    (hcopy : pool.perform operation = (.ok (.made copy), middle))
    (hother : middle.perform later = (.ok (.made other), last)) :
    last.text copy = .ok changed ∧ last.text other = .ok recased := by
  obtain ⟨hmiddle, hchanged, hkept⟩ := hsound.texts_of_recased hrecases hleft hcopy
  obtain ⟨_, hrecased, hstays⟩ :=
    hmiddle.texts_of_recased hlater (hkept second right hright) hother
  exact ⟨hstays copy changed hchanged, hrecased⟩

/-- Strings are in a total order by their texts, and ignoring case in that of their capitals, in
which a copy in one case is as the string is. -/
theorem comparisons_consistent {config : Config} {pool : Pool} (hreachable : Reachable config pool)
    {first second : Handle} {left right : Bytes} (hleft : pool.text first = .ok left)
    (hright : pool.text second = .ok right) :
    (pool.perform (.order first second) = (.ok (.ordering (left.order right)), pool) ∧
      (left.order right = .eq ↔ left = right) ∧ (left.order right = .lt ↔ left.Precedes right) ∧
      right.order left = (left.order right).swap ∧
      ∀ third last, pool.text third = .ok last → (left.order right).isLE → (right.order last).isLE →
        (left.order last).isLE) ∧
    (pool.perform (.orderIgnoringCase first second)
        = (.ok (.ordering (left.orderIgnoringCase right)), pool) ∧
      left.orderIgnoringCase right
        = left.compareLex (fun left right => compare (Ascii.upper left) (Ascii.upper right)) right ∧
      (left.orderIgnoringCase right = .eq ↔ List.Forall₂ Ascii.SameLetter left right)) ∧
    (∀ copy middle other last, pool.perform (.upper first) = (.ok (.made copy), middle) →
      middle.perform (.upper second) = (.ok (.made other), last) →
      last.perform (.order copy other) = (.ok (.ordering (left.orderIgnoringCase right)), last)) ∧
    (∀ copy middle other last, pool.perform (.lower first) = (.ok (.made copy), middle) →
      middle.perform (.lower second) = (.ok (.made other), last) →
      ∃ small others, last.text copy = .ok small ∧ last.text other = .ok others ∧
        (left.orderIgnoringCase right = .eq ↔ small = others)) ∧
    ∀ operation changed, Recases first left operation changed →
      pool.Makes changed (pool.perform operation) ∧
      ∀ copy later, pool.perform operation = (.ok (.made copy), later) →
        later.perform (.orderIgnoringCase copy second)
            = (.ok (.ordering (left.orderIgnoringCase right)), later) ∧
          later.perform (.orderIgnoringCase second copy)
            = (.ok (.ordering (right.orderIgnoringCase left)), later) := by
  have hsound := (sound_of_reachable hreachable).1
  refine ⟨⟨perform_order hleft hright, Bytes.order_eq_eq_iff, Bytes.order_eq_lt_iff,
      Bytes.order_swap left right, fun third last _ => Bytes.order_trans⟩,
    ⟨perform_orderIgnoringCase hleft hright, Bytes.orderIgnoringCase_eq_compareLex left right,
      Bytes.orderIgnoringCase_eq_eq_iff⟩, fun copy middle other last hcopy hother => ?_,
    fun copy middle other last hcopy hother => ?_, fun operation changed hrecases =>
      ⟨hsound.makes_recased hrecases hleft, fun copy later hdone => ?_⟩⟩
  · obtain ⟨hcapitals, hothers⟩ :=
      hsound.texts_of_both_recased hleft hright .upper .upper hcopy hother
    exact perform_order hcapitals hothers
  · obtain ⟨hsmall, hothers⟩ :=
      hsound.texts_of_both_recased hleft hright .lower .lower hcopy hother
    refine ⟨_, _, hsmall, hothers, ?_⟩
    rw [Bytes.orderIgnoringCase_eq_eq_iff, Bytes.lower_eq_lower_iff]
  · exact hsound.orderIgnoringCase_of_recased hrecases hleft hright hdone

/-- Two texts that differ in the case of one letter, with a byte between the two cases and one that
is no letter of ASCII behind it. -/
theorem comparisons_consistent_letter :
    let pool := (ofConfig {}).after [.allocate [0x41, 0x5B, 0xE9], .allocate [0x61, 0x5B, 0xE9]]
    let middle := (pool.perform (.upper ⟨1⟩)).2
    let last := (middle.perform (.upper ⟨2⟩)).2
    pool.perform (.order ⟨1⟩ ⟨2⟩) = (.ok (.ordering .lt), pool) ∧
      Bytes.Precedes [0x41, 0x5B, 0xE9] [0x61, 0x5B, 0xE9] ∧
      pool.perform (.orderIgnoringCase ⟨1⟩ ⟨2⟩) = (.ok (.ordering .eq), pool) ∧
      List.Forall₂ Ascii.SameLetter [0x41, 0x5B, 0xE9] [0x61, 0x5B, 0xE9] ∧
      last.perform (.order ⟨3⟩ ⟨4⟩) = (.ok (.ordering .eq), last) ∧
      middle.perform (.orderIgnoringCase ⟨2⟩ ⟨3⟩) = (.ok (.ordering .eq), middle) := by
  intro pool middle last
  have hreachable : Reachable {} pool := ⟨_, by decide, rfl⟩
  have hleft : pool.text ⟨1⟩ = .ok [0x41, 0x5B, 0xE9] := by decide +kernel
  have hright : pool.text ⟨2⟩ = .ok [0x61, 0x5B, 0xE9] := by decide +kernel
  obtain ⟨⟨horder, _, hless, _⟩, ⟨hcaseless, _, hsame⟩, hcapitals, _, hcopies⟩ :=
    comparisons_consistent hreachable hleft hright
  have hfirst : (pool.perform (.upper ⟨1⟩)).1 = .ok (.made ⟨3⟩) := by decide +kernel
  have hsecond : (middle.perform (.upper ⟨2⟩)).1 = .ok (.made ⟨4⟩) := by decide +kernel
  have hcopy : pool.perform (.upper ⟨1⟩) = (.ok (.made ⟨3⟩), middle) := by rw [← hfirst]
  have hother : middle.perform (.upper ⟨2⟩) = (.ok (.made ⟨4⟩), last) := by rw [← hsecond]
  exact ⟨horder, hless.mp (by decide), hcaseless, hsame.mp (by decide),
    hcapitals _ _ _ _ hcopy hother, ((hcopies _ _ .upper).2 _ _ hcopy).2⟩

end TextPool.Pool
