import Mathlib.Data.FinEnum
import Mathlib.Data.List.TakeWhile
import TextPool.Bytes.Layout
import TextPool.Proofs.Stepwise

/-!
# What is left without blanks, and widths

A text is blanks, then a part that neither begins nor ends with a blank, then blanks again, and
there is one such part only (`IsCore`). It is what stripping leaves (`isCore_iff`), so a text that
was stripped, or that is widened first, is stripped to the same (`strip_strip`, `strip_pad`). A
machine that looks for the part from both ends finds it, and the places that it finds are in order
(`Stepwise.strip?_eq`).

A text is widened by as many spaces as an integer says that it lacks (`lacking_eq`).
-/

namespace TextPool

namespace Ascii

def blanks : Bytes :=
  bytes [' ', '\n', '\r', '\t']

theorem isBlank_iff {byte : UInt8} : isBlank byte = true ↔ byte ∈ blanks := by
  decide +kernel +revert

end Ascii

namespace Bytes

/-! ### Stripping -/

/-- The text is `core` between blanks, and `core` is empty or begins and ends with other bytes. -/
structure IsCore (text core : Bytes) : Prop where
  between_blanks : ∃ before behind, text = before ++ core ++ behind ∧
    (∀ byte ∈ before, byte ∈ Ascii.blanks) ∧ ∀ byte ∈ behind, byte ∈ Ascii.blanks
  head_notMem : ∀ byte ∈ core.head?, byte ∉ Ascii.blanks
  last_notMem : ∀ byte ∈ core.getLast?, byte ∉ Ascii.blanks

theorem dropWhile_blanks_append {before : Bytes} (hbefore : ∀ byte ∈ before, byte ∈ Ascii.blanks)
    (rest : Bytes) : (before ++ rest).dropWhile Ascii.isBlank = rest.dropWhile Ascii.isBlank :=
  List.dropWhile_append_of_pos fun byte hbyte => Ascii.isBlank_iff.mpr (hbefore byte hbyte)

theorem dropWhile_eq_self {text : Bytes} (hhead : ∀ byte ∈ text.head?, byte ∉ Ascii.blanks) :
    text.dropWhile Ascii.isBlank = text := by
  cases text with
  | nil => rfl
  | cons byte rest =>
    exact List.dropWhile_cons_of_neg fun hblank => hhead byte rfl (Ascii.isBlank_iff.mp hblank)

theorem head_dropWhile_notMem (text : Bytes) :
    ∀ byte ∈ (text.dropWhile Ascii.isBlank).head?, byte ∉ Ascii.blanks := by
  intro byte hbyte hblank
  have hhead := List.head?_dropWhile_not Ascii.isBlank text
  rw [Option.mem_def.mp hbyte] at hhead
  exact Bool.false_ne_true (hhead.symm.trans (Ascii.isBlank_iff.mpr hblank))

theorem isCore_strip (text : Bytes) : text.IsCore text.strip := by
  have hblank {given : Bytes} {byte : UInt8} (hbyte : byte ∈ given.takeWhile Ascii.isBlank) :
      byte ∈ Ascii.blanks := Ascii.isBlank_iff.mp (List.mem_takeWhile_imp hbyte)
  have hrest : text.strip ++ ((text.dropWhile Ascii.isBlank).reverse.takeWhile Ascii.isBlank).reverse
      = text.dropWhile Ascii.isBlank := by
    rw [strip, ← List.reverse_append, List.takeWhile_append_dropWhile, List.reverse_reverse]
  constructor
  case between_blanks =>
    refine ⟨text.takeWhile Ascii.isBlank,
      ((text.dropWhile Ascii.isBlank).reverse.takeWhile Ascii.isBlank).reverse, ?_,
      fun byte => hblank, fun byte hbyte => hblank (List.mem_reverse.mp hbyte)⟩
    rw [List.append_assoc, hrest, List.takeWhile_append_dropWhile]
  case head_notMem =>
    intro byte hbyte
    refine text.head_dropWhile_notMem byte ?_
    rw [← hrest, List.head?_append, Option.mem_def.mp hbyte]
    rfl
  case last_notMem =>
    rw [strip, List.getLast?_reverse]
    exact head_dropWhile_notMem _

theorem IsCore.strip_eq {text core : Bytes} (hcore : text.IsCore core) : text.strip = core := by
  obtain ⟨before, behind, rfl, hbefore, hbehind⟩ := hcore.between_blanks
  rw [strip, List.append_assoc, dropWhile_blanks_append hbefore]
  by_cases hempty : core = []
  · have hnothing := dropWhile_blanks_append hbehind []
    rw [List.append_nil] at hnothing
    rw [hempty, List.nil_append, hnothing]
    rfl
  · have hhead : (core ++ behind).head? = core.head? := List.head?_append_of_ne_nil core hempty
    have hlast : core.reverse.head? = core.getLast? := List.head?_reverse
    have hfront : (core ++ behind).dropWhile Ascii.isBlank = core ++ behind :=
      dropWhile_eq_self (by rw [hhead]; exact hcore.head_notMem)
    have hback : core.reverse.dropWhile Ascii.isBlank = core.reverse :=
      dropWhile_eq_self (by rw [hlast]; exact hcore.last_notMem)
    rw [hfront, List.reverse_append,
      dropWhile_blanks_append fun byte hbyte => hbehind byte (List.mem_reverse.mp hbyte), hback,
      List.reverse_reverse]

theorem isCore_iff {text core : Bytes} : text.IsCore core ↔ core = text.strip := by
  constructor
  · exact fun hcore => hcore.strip_eq.symm
  · rintro rfl
    exact text.isCore_strip

theorem strip_strip (text : Bytes) : text.strip.strip = text.strip := by
  have hcore := text.isCore_strip
  have hself : text.strip.IsCore text.strip :=
    ⟨⟨[], [], by rw [List.nil_append, List.append_nil], nofun, nofun⟩, hcore.head_notMem,
      hcore.last_notMem⟩
  exact hself.strip_eq

theorem strip_of_blanks {text : Bytes} (htext : ∀ byte ∈ text, byte ∈ Ascii.blanks) :
    text.strip = [] := by
  have hcore : text.IsCore [] := ⟨⟨text, [], by rw [List.append_nil, List.append_nil], htext, nofun⟩,
    nofun, nofun⟩
  exact hcore.strip_eq

theorem zero_notMem_strip {text : Bytes} (hzero : 0 ∉ text) : 0 ∉ text.strip := by
  obtain ⟨before, behind, htext, _, _⟩ := text.isCore_strip.between_blanks
  rw [htext, List.append_assoc, List.mem_append, not_or, List.mem_append, not_or] at hzero
  exact hzero.2.1

/-! ### Widening -/

theorem lacking_eq (text : Bytes) (width : Int64) :
    text.lacking width = (width.toInt - text.length).toNat := by
  rw [lacking, ← Int64.toNat_toInt]
  omega

theorem pad_eq (text : Bytes) (width : Int64) (alignment : Alignment) :
    text.pad width alignment =
      match alignment with
      | .left => text ++ List.replicate (width.toInt - text.length).toNat Ascii.space
      | .right => List.replicate (width.toInt - text.length).toNat Ascii.space ++ text := by
  rw [← lacking_eq]
  cases alignment <;> rfl

theorem pad_of_le {text : Bytes} {width : Int64} (hwidth : width.toInt ≤ text.length)
    (alignment : Alignment) : text.pad width alignment = text := by
  have hnone : (width.toInt - text.length).toNat = 0 := by omega
  rw [pad_eq, hnone]
  cases alignment with
  | left => exact List.append_nil text
  | right => rfl

theorem strip_pad (text : Bytes) (width : Int64) (alignment : Alignment) :
    (text.pad width alignment).strip = text.strip := by
  obtain ⟨⟨before, behind, htext, hbefore, hbehind⟩, hhead, hlast⟩ := text.isCore_strip
  have hspaces : ∀ byte ∈ List.replicate (text.lacking width) Ascii.space, byte ∈ Ascii.blanks := by
    intro byte hbyte
    rw [List.eq_of_mem_replicate hbyte]
    decide
  have hcore : (text.pad width alignment).IsCore text.strip := by
    refine ⟨?_, hhead, hlast⟩
    cases alignment with
    | left =>
      refine ⟨before, behind ++ List.replicate (text.lacking width) Ascii.space, ?_, hbefore,
        List.forall_mem_append.mpr ⟨hbehind, hspaces⟩⟩
      rw [← List.append_assoc, ← htext]
      rfl
    | right =>
      refine ⟨List.replicate (text.lacking width) Ascii.space ++ before, behind, ?_,
        List.forall_mem_append.mpr ⟨hspaces, hbefore⟩, hbehind⟩
      rw [List.append_assoc, List.append_assoc, ← List.append_assoc before, ← htext]
      rfl
  exact hcore.strip_eq

end Bytes

/-! ### Stripping by steps -/

namespace Stepwise

def firstInk? (text : Bytes) : Option Nat :=
  text.findIdx? fun byte => !Ascii.isBlank byte

/-- The bytes from the first that is no blank to the last one. Where there is none, both scans end
at the end of the text. -/
def strip? (text : Bytes) : Option Bytes :=
  let start := (firstInk? text).getD text.length
  let stop := ((firstInk? text.reverse).map (text.length - ·)).getD start
  slice text start stop

theorem firstInk?_of_blanks {text : Bytes} (htext : ∀ byte ∈ text, byte ∈ Ascii.blanks) :
    firstInk? text = none := by
  rw [firstInk?, List.findIdx?_eq_none_iff]
  intro byte hbyte
  rw [Ascii.isBlank_iff.mpr (htext byte hbyte)]
  rfl

theorem firstInk?_append {before rest : Bytes} (hbefore : ∀ byte ∈ before, byte ∈ Ascii.blanks)
    (hrest : ∀ byte ∈ rest.head?, byte ∉ Ascii.blanks) (hsome : rest ≠ []) :
    firstInk? (before ++ rest) = some before.length := by
  rw [firstInk?, List.findIdx?_append, ← firstInk?, firstInk?_of_blanks hbefore, Option.none_or]
  cases rest with
  | nil => exact absurd rfl hsome
  | cons byte rest =>
    have hink : (!Ascii.isBlank byte) = true := by
      rw [Bool.not_eq_true', ← Bool.not_eq_true, Ascii.isBlank_iff]
      exact hrest byte rfl
    rw [List.findIdx?_cons, hink]
    exact congrArg some (Nat.zero_add _)

/-- The two places are in order and inside the text, and what stands between them is the core. -/
theorem strip?_eq {text core : Bytes} (hcore : text.IsCore core) : strip? text = some core := by
  obtain ⟨⟨before, behind, rfl, hbefore, hbehind⟩, hhead, hlast⟩ := hcore
  by_cases hempty : core = []
  · subst hempty
    have hblanks : ∀ byte ∈ before ++ [] ++ behind, byte ∈ Ascii.blanks := by
      rw [List.append_nil]
      exact List.forall_mem_append.mpr ⟨hbefore, hbehind⟩
    have hbackwards : ∀ byte ∈ (before ++ [] ++ behind).reverse, byte ∈ Ascii.blanks :=
      fun byte hbyte => hblanks byte (List.mem_reverse.mp hbyte)
    simp only [strip?, firstInk?_of_blanks hblanks, firstInk?_of_blanks hbackwards, Option.map_none,
      Option.getD_none]
    rw [slice_to_end (Nat.le_refl _), List.drop_length]
  · have hfront : firstInk? (before ++ core ++ behind) = some before.length := by
      rw [List.append_assoc]
      refine firstInk?_append hbefore ?_ (List.append_ne_nil_of_left_ne_nil hempty behind)
      rw [List.head?_append_of_ne_nil _ hempty]
      exact hhead
    have hback : firstInk? (before ++ core ++ behind).reverse = some behind.length := by
      have hsome : core.reverse ≠ [] := fun hnil => hempty (List.reverse_eq_nil_iff.mp hnil)
      rw [List.reverse_append, List.reverse_append, ← List.length_reverse]
      refine firstInk?_append (fun byte hbyte => hbehind byte (List.mem_reverse.mp hbyte)) ?_
        (List.append_ne_nil_of_left_ne_nil hsome _)
      rw [List.head?_append_of_ne_nil _ hsome, List.head?_reverse]
      exact hlast
    have hlength : (before ++ core ++ behind).length - behind.length = (before ++ core).length := by
      rw [List.length_append, Nat.add_sub_cancel]
    simp only [strip?, hfront, hback, Option.map_some, Option.getD_some, hlength]
    rw [slice_of_le (by simp) (by simp), Bytes.between, List.append_assoc, List.drop_left,
      List.length_append, Nat.add_sub_cancel_left, List.take_left]

end Stepwise

end TextPool
