import Mathlib.Data.List.TakeWhile
import TextPool.Proofs.Number.Rendering
import TextPool.Proofs.Stepwise

/-!
# Layouts of doubles

A double in a layout is its rendering with its sign, its digits before the point set off in threes
and another point (`layOut_of_renders`). Setting digits off parts them into groups of three, counted
from the right, and puts the separator between the groups and nowhere else (`exists_groups`).

A machine lays out the text that it has of a number. It takes off the sign, cuts the rest at the
point, and writes one digit after another, each behind a separator if it is not the first and the
digits left can be parted in threes (`Stepwise.grouped?`). Of the rendering of a double this makes
the layout (`Binary64.grouped?_of_renders`).
-/

namespace TextPool

namespace Decimal

/-! ### Groups of three -/

/-- The digits are parted into groups of three, of which only the first may have fewer. -/
structure Groups (digits first : Bytes) (others : List Bytes) : Prop where
  append_eq : first ++ others.flatten = digits
  first_pos : 1 ≤ first.length
  first_le : first.length ≤ 3
  length_other : ∀ group ∈ others, group.length = 3

theorem Groups.length_eq {digits first : Bytes} {others : List Bytes}
    (hgroups : Groups digits first others) : digits.length = first.length + 3 * others.length := by
  have hothers : (others.map List.length).sum = 3 * others.length := by
    rw [List.map_congr_left hgroups.length_other, List.map_const', List.sum_replicate_nat, Nat.mul_comm]
  rw [← hgroups.append_eq, List.length_append, List.length_flatten, hothers]

theorem Groups.length_others {digits first : Bytes} {others : List Bytes}
    (hgroups : Groups digits first others) : others.length = (digits.length - 1) / 3 := by
  have hlength := hgroups.length_eq
  have hpos := hgroups.first_pos
  have hle := hgroups.first_le
  omega

theorem exists_groups {digits : Bytes} (hnonempty : digits ≠ []) :
    ∃ first others, Groups digits first others ∧
      ∀ separator, inThrees separator digits = [separator].intercalate (first :: others) := by
  induction digits with
  | nil => exact absurd rfl hnonempty
  | cons digit rest ih =>
    by_cases hrest : rest = []
    · subst hrest
      exact ⟨[digit], [], ⟨rfl, Nat.le_refl 1, Nat.le_add_right 1 2, fun _ => nofun⟩, fun _ => rfl⟩
    obtain ⟨first, others, hgroups, htext⟩ := ih hrest
    have hlength := hgroups.length_eq
    have hpos := hgroups.first_pos
    have hle := hgroups.first_le
    by_cases hwhole : rest.length % 3 = 0
    · -- The groups of the rest are full, and the digit begins one of its own.
      refine ⟨[digit], first :: others, ⟨?_, Nat.le_refl 1, Nat.le_add_right 1 2, ?_⟩, fun separator => ?_⟩
      · rw [List.flatten_cons, hgroups.append_eq, List.singleton_append]
      · exact List.forall_mem_cons.mpr ⟨by omega, hgroups.length_other⟩
      · rw [inThrees, if_pos ⟨hwhole, hrest⟩, htext]
        rfl
    · refine ⟨digit :: first, others, ⟨?_, ?_, ?_, hgroups.length_other⟩, fun separator => ?_⟩
      · rw [List.cons_append, hgroups.append_eq]
      · exact Nat.succ_pos _
      · rw [List.length_cons]
        omega
      · rw [inThrees, if_neg (hwhole ·.1), htext]
        cases others <;> rfl

theorem mem_inThrees {separator byte : UInt8} {digits : Bytes} (hbyte : byte ∈ inThrees separator digits) :
    byte = separator ∨ byte ∈ digits := by
  induction digits with
  | nil => exact absurd hbyte List.not_mem_nil
  | cons first rest ih =>
    rw [inThrees] at hbyte
    split_ifs at hbyte <;> simp only [List.mem_cons] at hbyte ⊢ <;> tauto

end Decimal

/-! ### Digits as a format shows them -/

/-- The digits before the point as a format shows them: as they are, or in groups of three. -/
structure NumberFormat.Shows (format : NumberFormat) (whole shown : Bytes) : Prop where
  unsplit : format.separator = none ∨ format.separator = some 0 → shown = whole
  split : ∀ separator ≠ 0, format.separator = some separator → ∃ first others,
    Decimal.Groups whole first others ∧ others.length = (whole.length - 1) / 3 ∧
      shown = [separator].intercalate (first :: others)

namespace NumberFormat

variable (format : NumberFormat) {whole : Bytes}

theorem shows_group (hnonempty : whole ≠ []) : format.Shows whole (format.group whole) := by
  constructor
  · rintro (hnone | hzero)
    · rw [group, hnone]
    · rw [group, hzero]
      exact if_pos rfl
  · intro separator hseparator hsome
    obtain ⟨first, others, hgroups, htext⟩ := Decimal.exists_groups hnonempty
    refine ⟨first, others, hgroups, hgroups.length_others, ?_⟩
    rw [group, hsome, ← htext]
    exact if_neg hseparator

theorem zero_notMem_group (hzero : 0 ∉ whole) : 0 ∉ format.group whole := by
  rw [group]
  split
  · exact hzero
  · split_ifs with hseparator
    · exact hzero
    · exact fun hmem => (Decimal.mem_inThrees hmem).elim (hseparator ·.symm) hzero

end NumberFormat

/-! ### The loop over a text -/

namespace Stepwise

/-- A text cut at the first byte of a kind, which is left out. -/
def cut (byte : UInt8) (text : Bytes) : Bytes × Option Bytes :=
  let front := text.takeWhile (· != byte)
  match text.drop front.length with
  | [] => (front, none)
  | _ :: behind => (front, some behind)

/-- What is written before a digit: the separator, if the digit is not the first of so many and
those left, itself among them, can be parted in threes. -/
def mark? (separator : Option UInt8) (count index : Nat) : Option Bytes :=
  match separator with
  | none => some []
  | some byte =>
    if 0 < index then do
      let remaining ← difference count index
      return if remaining % 3 = 0 then [byte] else []
    else some []

def marked? (separator : Option UInt8) (count : Nat) : Nat → Bytes → Bytes → Option Bytes
  | _, written, [] => some written
  | index, written, digit :: rest => do
    let mark ← mark? separator count index
    marked? separator count (index + 1) (written ++ mark ++ [digit]) rest

/-- The sign of a text, and what follows it. -/
def unsigned (text : Bytes) : Bytes × Bytes :=
  if text.head? = some Decimal.minus then ([Decimal.minus], text.tail) else ([], text)

def grouped? (format : NumberFormat) (text : Bytes) : Option Bytes := do
  let (sign, body) := unsigned text
  let (whole, fraction) := cut 0x2E body
  let written ← marked? (format.separator.filter (· != 0)) whole.length 0 sign whole
  match fraction with
  | none => return written
  | some places => return written ++ format.point :: places

theorem cut_append {byte : UInt8} {front : Bytes} (hfront : byte ∉ front) (behind : Bytes) :
    cut byte (front ++ byte :: behind) = (front, some behind) := by
  have htake : (front ++ byte :: behind).takeWhile (· != byte) = front := by
    rw [List.takeWhile_append_of_pos fun other hother =>
      bne_iff_ne.mpr (ne_of_mem_of_not_mem hother hfront), List.takeWhile_cons_of_neg (by simp),
      List.append_nil]
  simp only [cut, htake, List.drop_left]

theorem cut_of_notMem {byte : UInt8} {text : Bytes} (htext : byte ∉ text) :
    cut byte text = (text, none) := by
  have htake : text.takeWhile (· != byte) = text :=
    List.takeWhile_eq_self_iff.mpr fun other hother =>
      bne_iff_ne.mpr (ne_of_mem_of_not_mem hother htext)
  simp only [cut, htake, List.drop_length]

theorem marked?_none {count index : Nat} (written digits : Bytes) :
    marked? none count index written digits = some (written ++ digits) := by
  induction digits generalizing index written with
  | nil => exact congrArg some (List.append_nil written).symm
  | cons digit rest ih =>
    rw [marked?, mark?, Option.bind_eq_bind, Option.bind_some, ih, List.append_nil, List.append_assoc,
      List.singleton_append]

/-- Behind the first digit a separator is put in front where the digits left can be parted in
threes. -/
theorem marked?_some {separator : UInt8} {count index : Nat} (hindex : 0 < index)
    (written : Bytes) {digits : Bytes} (hcount : index + digits.length = count) :
    marked? (some separator) count index written digits
      = some (written ++ (if digits.length % 3 = 0 ∧ digits ≠ [] then [separator] else [])
          ++ Decimal.inThrees separator digits) := by
  -- The digits before are known only by their number, and that settles where the groups begin.
  induction digits generalizing index written with
  | nil => simp [marked?, Decimal.inThrees]
  | cons digit rest ih =>
    have hremaining : difference count index = some (rest.length + 1) := by
      rw [difference_of_le (by omega), ← hcount, List.length_cons, Nat.add_sub_cancel_left]
    have hnext : index + 1 + rest.length = count := by
      rw [← hcount, List.length_cons]
      omega
    have hmark : mark? (some separator) count index
        = some (if (rest.length + 1) % 3 = 0 then [separator] else []) := by
      rw [mark?, if_pos hindex, hremaining]
      rfl
    rw [marked?, hmark, Option.bind_eq_bind, Option.bind_some, ih (Nat.succ_pos index) _ hnext,
      Decimal.inThrees]
    simp only [List.length_cons, ne_eq, reduceCtorEq, not_false_eq_true, and_true]
    split_ifs <;> simp

theorem marked?_zero (separator : UInt8) (written digits : Bytes) :
    marked? (some separator) digits.length 0 written digits
      = some (written ++ Decimal.inThrees separator digits) := by
  cases digits with
  | nil => rw [marked?, Decimal.inThrees, List.append_nil]
  | cons digit rest =>
    have hmark : mark? (some separator) (digit :: rest).length 0 = some [] := rfl
    have hcount : 0 + 1 + rest.length = (digit :: rest).length := by
      rw [List.length_cons, Nat.zero_add, Nat.add_comm]
    rw [marked?, hmark, Option.bind_eq_bind, Option.bind_some, marked?_some (Nat.succ_pos 0) _ hcount,
      Decimal.inThrees]
    split_ifs <;> simp

theorem marked?_eq_group (format : NumberFormat) (written digits : Bytes) :
    marked? (format.separator.filter (· != 0)) digits.length 0 written digits
      = some (written ++ format.group digits) := by
  rw [NumberFormat.group]
  cases format.separator with
  | none => exact marked?_none written digits
  | some separator =>
    dsimp only
    by_cases hzero : separator = 0
    · rw [if_pos hzero, Option.filter_some, if_neg (by simp [hzero])]
      exact marked?_none written digits
    · rw [if_neg hzero, Option.filter_some, if_pos (by simp [hzero])]
      exact marked?_zero separator written digits

section Texts

variable {sign whole fraction : Bytes} (hsign : sign = [] ∨ sign = [Decimal.minus])
  (hwhole : Decimal.IsNumeral whole)

include hsign hwhole

theorem unsigned_append (behind : Bytes) :
    unsigned (sign ++ (whole ++ behind)) = (sign, whole ++ behind) := by
  obtain rfl | rfl := hsign
  · refine if_neg fun hminus => ?_
    rw [List.nil_append, List.head?_append_of_ne_nil _ hwhole.ne_nil] at hminus
    exact absurd (hwhole.isDigit _ (List.mem_of_head? hminus)) (by decide)
  · exact if_pos rfl

/-- The text of a number comes to its layout. -/
theorem grouped?_eq (format : NumberFormat) :
    grouped? format (sign ++ (whole ++ if fraction = [] then [] else 0x2E :: fraction))
      = some (sign ++ format.group whole ++ format.fraction fraction) := by
  have hpoint : 0x2E ∉ whole := fun hmem => absurd (hwhole.isDigit 0x2E hmem) (by decide)
  rw [grouped?, unsigned_append hsign hwhole, NumberFormat.fraction]
  by_cases hnone : fraction = []
  · subst hnone
    simp only [if_true, List.append_nil, cut_of_notMem hpoint, marked?_eq_group]
    exact congrArg some (List.append_nil _).symm
  · simp only [if_neg hnone, List.isEmpty_iff, cut_append hpoint, marked?_eq_group]
    rfl

end Texts

end Stepwise

namespace Binary64

/-! ### The text -/

def signText (bits : UInt64) : Bytes :=
  if IsSigned bits then [Decimal.minus] else []

theorem zero_notMem_signText (bits : UInt64) : 0 ∉ signText bits := by
  rw [signText]
  split <;> decide

theorem sign_ofFraction (bits : UInt64) (numerator denominator places : Nat) :
    (FixedPoint.ofFraction (decide (IsSigned bits)) numerator denominator places).sign
      = signText bits := by
  simp only [FixedPoint.sign, FixedPoint.ofFraction, decide_eq_true_eq, signText]

theorem layOut_of_renders {bits : UInt64} (hfinite : IsFinite bits) {format : NumberFormat}
    {whole fraction : Bytes}
    (hrenders : Decimal.Renders (magnitude bits) format.places whole fraction) :
    (ofBits bits).layOut format = signText bits ++ format.group whole ++ format.fraction fraction := by
  obtain ⟨numerator, denominator, hread, hdigits⟩ := exists_ofBits_of_renders hfinite hrenders
  obtain ⟨hwhole, hfraction⟩ := hdigits (decide (IsSigned bits))
  rw [hread, layOut, FixedPoint.layOut, sign_ofFraction, hwhole, hfraction]

/-- The loop over the rendered text comes to the layout. -/
theorem grouped?_of_renders {bits : UInt64} (hfinite : IsFinite bits) {format : NumberFormat}
    {whole fraction : Bytes}
    (hrenders : Decimal.Renders (magnitude bits) format.places whole fraction) :
    Stepwise.grouped? format
        (signText bits ++ (whole ++ if fraction = [] then [] else 0x2E :: fraction))
      = some ((ofBits bits).layOut format) := by
  have hsign : signText bits = [] ∨ signText bits = [Decimal.minus] := by
    rw [signText]
    split
    · exact .inr rfl
    · exact .inl rfl
  rw [Stepwise.grouped?_eq hsign hrenders.isNumeral, layOut_of_renders hfinite hrenders]

end Binary64

end TextPool
