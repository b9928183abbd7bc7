import Mathlib.Data.FinEnum
import Mathlib.Data.List.Forall2
import TextPool.Bytes.Order

/-!
# The order of texts is total

Of two texts that differ, that one comes first which the other continues, or which has the smaller
byte at the first place where they differ (`Precedes`, `order_eq_lt_iff`). This is the library's
order of lists, so it is total (`order_eq_compare`).

Ignoring case is to order the capitals, all at once or one by one as the texts are gone through
(`orderIgnoringCase_eq_compareLex`), and it takes two texts for one if they differ in the case of
ASCII letters only (`orderIgnoringCase_eq_eq_iff`). The two maps between the cases do not undo each
other, but either of them undoes what the other did before it, so a text whose case is changed keeps
its capitals (`upper_upper`, `upper_lower`).
-/

namespace TextPool

/-! ### The case of single bytes -/

namespace Ascii

def IsCapital (byte : UInt8) : Prop :=
  0x41 ≤ byte ∧ byte ≤ 0x5A

/-- The bytes are equal, or one is a capital and the other that letter in small. -/
def SameLetter (left right : UInt8) : Prop :=
  left = right ∨ IsCapital left ∧ right = left + 0x20 ∨ IsCapital right ∧ left = right + 0x20

theorem upper_upper (byte : UInt8) : upper (upper byte) = upper byte := by
  decide +kernel +revert

theorem upper_lower (byte : UInt8) : upper (lower byte) = upper byte := by
  decide +kernel +revert

theorem lower_upper (byte : UInt8) : lower (upper byte) = lower byte := by
  decide +kernel +revert

theorem toNat_upper (byte : UInt8) :
    (upper byte).toNat
      = if 0x61 ≤ byte.toNat ∧ byte.toNat ≤ 0x7A then byte.toNat - 0x20 else byte.toNat := by
  decide +kernel +revert

theorem upper_eq_zero_iff {byte : UInt8} : upper byte = 0 ↔ byte = 0 := by
  decide +kernel +revert

theorem lower_eq_zero_iff {byte : UInt8} : lower byte = 0 ↔ byte = 0 := by
  decide +kernel +revert

theorem upper_eq_upper_iff {left right : UInt8} :
    upper left = upper right ↔ SameLetter left right := by
  have hsmall {capital small : UInt8} : IsCapital capital ∧ small = capital + 0x20 ↔
      0x41 ≤ capital.toNat ∧ capital.toNat ≤ 0x5A ∧ small.toNat = capital.toNat + 0x20 := by
    rw [IsCapital, UInt8.le_iff_toNat_le, UInt8.le_iff_toNat_le, ← UInt8.toNat_inj (a := small),
      UInt8.toNat_add]
    simp only [UInt8.reduceToNat]
    omega
  rw [SameLetter, hsmall, hsmall, ← UInt8.toNat_inj, ← UInt8.toNat_inj, toNat_upper, toNat_upper]
  have hleft := left.toNat_lt
  have hright := right.toNat_lt
  split_ifs
  · omega
  · omega
  · omega
  · omega

theorem lower_eq_lower_iff {left right : UInt8} :
    lower left = lower right ↔ SameLetter left right := by
  rw [← upper_eq_upper_iff]
  constructor
  · intro hlower
    rw [← upper_lower left, hlower, upper_lower]
  · intro hupper
    rw [← lower_upper left, hupper, lower_upper]

end Ascii

namespace Bytes

/-! ### The order -/

/-- The second text continues the first, or the first has the smaller byte where they first
differ. -/
def Precedes (left right : Bytes) : Prop :=
  (∃ byte rest, right = left ++ byte :: rest) ∨
    ∃ common lesser greater lefts rights, left = common ++ lesser :: lefts ∧
      right = common ++ greater :: rights ∧ lesser.toNat < greater.toNat

theorem not_precedes_nil (left : Bytes) : ¬left.Precedes [] := by
  rintro (⟨byte, rest, hright⟩ | ⟨common, lesser, greater, lefts, rights, _, hright, _⟩)
  · exact List.append_ne_nil_of_right_ne_nil _ (List.cons_ne_nil _ _) hright.symm
  · exact List.append_ne_nil_of_right_ne_nil _ (List.cons_ne_nil _ _) hright.symm

theorem precedes_cons_cons_iff {left right : UInt8} {lefts rights : Bytes} :
    Precedes (left :: lefts) (right :: rights) ↔
      left.toNat < right.toNat ∨ left = right ∧ Precedes lefts rights := by
  constructor
  · rintro (⟨byte, rest, hright⟩ | ⟨common, lesser, greater, before, behind, hleft, hright, hless⟩)
    · obtain ⟨rfl, rfl⟩ := List.cons.inj hright
      exact .inr ⟨rfl, .inl ⟨byte, rest, rfl⟩⟩
    · cases common with
      | nil =>
        obtain ⟨rfl, rfl⟩ := List.cons.inj hleft
        obtain ⟨rfl, rfl⟩ := List.cons.inj hright
        exact .inl hless
      | cons first common =>
        obtain ⟨rfl, rfl⟩ := List.cons.inj hleft
        obtain ⟨rfl, rfl⟩ := List.cons.inj hright
        exact .inr ⟨rfl, .inr ⟨common, lesser, greater, before, behind, rfl, rfl, hless⟩⟩
  · rintro (hless | ⟨rfl, ⟨byte, rest, rfl⟩ | ⟨common, lesser, greater, before, behind, rfl, rfl, hless⟩⟩)
    · exact .inr ⟨[], left, right, lefts, rights, rfl, rfl, hless⟩
    · exact .inl ⟨byte, rest, rfl⟩
    · exact .inr ⟨left :: common, lesser, greater, before, behind, rfl, rfl, hless⟩

theorem order_eq_lt_iff {left right : Bytes} : left.order right = .lt ↔ left.Precedes right := by
  induction left generalizing right with
  | nil =>
    cases right with
    | nil => exact iff_of_false nofun (not_precedes_nil [])
    | cons byte rest => exact iff_of_true rfl (.inl ⟨byte, rest, rfl⟩)
  | cons left lefts ih =>
    cases right with
    | nil => exact iff_of_false nofun (not_precedes_nil _)
    | cons right rights =>
      rw [order, Ordering.then_eq_lt, ih, precedes_cons_cons_iff, Std.compare_eq_iff_eq,
        Std.compare_eq_lt, UInt8.lt_iff_toNat_lt]

theorem order_eq_compare (left right : Bytes) : left.order right = compare left right := by
  induction left generalizing right with
  | nil => cases right <;> rfl
  | cons left lefts ih =>
    cases right with
    | nil => rfl
    | cons right rights => rw [order, ih, List.compare_cons_cons]

theorem order_eq_eq_iff {left right : Bytes} : left.order right = .eq ↔ left = right := by
  rw [order_eq_compare]
  exact Std.compare_eq_iff_eq

theorem order_swap (left right : Bytes) : right.order left = (left.order right).swap := by
  rw [order_eq_compare, order_eq_compare]
  exact Std.OrientedCmp.eq_swap

theorem order_trans {first second third : Bytes} (hfirst : (first.order second).isLE)
    (hsecond : (second.order third).isLE) : (first.order third).isLE := by
  rw [order_eq_compare] at *
  exact Std.TransCmp.isLE_trans hfirst hsecond

/-! ### Ignoring case -/

theorem map_eq_map_iff_forall₂ {change : UInt8 → UInt8} {left right : Bytes} :
    left.map change = right.map change ↔
      List.Forall₂ (fun left right => change left = change right) left right := by
  have hequal : left.map change = right.map change ↔
      List.Forall₂ (· = ·) (left.map change) (right.map change) := by
    rw [List.forall₂_eq_eq_eq]
  rw [hequal, List.forall₂_map_left_iff, List.forall₂_map_right_iff]

theorem upper_eq_upper_iff {left right : Bytes} :
    left.upper = right.upper ↔ List.Forall₂ Ascii.SameLetter left right := by
  simp only [upper, map_eq_map_iff_forall₂, Ascii.upper_eq_upper_iff]

theorem lower_eq_lower_iff {left right : Bytes} :
    left.lower = right.lower ↔ List.Forall₂ Ascii.SameLetter left right := by
  simp only [lower, map_eq_map_iff_forall₂, Ascii.lower_eq_lower_iff]

theorem orderIgnoringCase_eq_eq_iff {left right : Bytes} :
    left.orderIgnoringCase right = .eq ↔ List.Forall₂ Ascii.SameLetter left right := by
  rw [orderIgnoringCase, order_eq_eq_iff, upper_eq_upper_iff]

/-- The texts can be compared capital by capital, without the texts in capitals. -/
theorem orderIgnoringCase_eq_compareLex (left right : Bytes) : left.orderIgnoringCase right
    = left.compareLex (fun left right => compare (Ascii.upper left) (Ascii.upper right)) right := by
  rw [orderIgnoringCase]
  induction left generalizing right with
  | nil => cases right <;> rfl
  | cons left lefts ih =>
    cases right with
    | nil => rfl
    | cons right rights =>
      rw [List.compareLex_cons_cons, ← ih]
      rfl

theorem upper_upper (text : Bytes) : text.upper.upper = text.upper := by
  simp only [upper, List.map_map]
  exact List.map_congr_left fun byte _ => Ascii.upper_upper byte

theorem upper_lower (text : Bytes) : text.lower.upper = text.upper := by
  simp only [upper, lower, List.map_map]
  exact List.map_congr_left fun byte _ => Ascii.upper_lower byte

theorem zero_notMem_upper {text : Bytes} (hzero : 0 ∉ text) : 0 ∉ text.upper := by
  intro hmem
  obtain ⟨byte, hbyte, hupper⟩ := List.mem_map.mp hmem
  rw [Ascii.upper_eq_zero_iff.mp hupper] at hbyte
  exact hzero hbyte

theorem zero_notMem_lower {text : Bytes} (hzero : 0 ∉ text) : 0 ∉ text.lower := by
  intro hmem
  obtain ⟨byte, hbyte, hlower⟩ := List.mem_map.mp hmem
  rw [Ascii.lower_eq_zero_iff.mp hlower] at hbyte
  exact hzero hbyte

end Bytes

end TextPool
