import Mathlib.Data.Finset.Card
import Mathlib.Data.Finset.Insert
import TextPool.Bitset.Change
import TextPool.Proofs.Bitset.Listing

/-!
# A packed set is a finite set

What a run of changes makes of a set does not depend on how the positions are packed: it is the
finite set of the positions added last and not removed since (`membersAfter`). `Represents` ties a
packed set to a finite one. A fresh set represents the empty one, and a change of a set that
represents another leaves one that represents that one changed (`Represents.perform`); the theorem
on runs follows by induction.

Two packed sets of one size with the same positions are the same: there are no more words than the
size asks for, and no bit of theirs is set past it (`ext_contains`).
-/

namespace TextPool.Bitset

/-! ### Equality -/

theorem test_word (bits : Bitset) {index bit : Nat} (hindex : index < bits.words.size)
    (hbit : bit < Word.width) :
    Word.test bits.words[index] bit = bits.contains (index * Word.width + bit) := by
  have hdiv : (index * Word.width + bit) / Word.width = index := by
    rw [Nat.mul_comm, Nat.mul_add_div (by decide), Nat.div_eq_of_lt hbit, Nat.add_zero]
  have hmod : (index * Word.width + bit) % Word.width = bit := by
    rw [Nat.mul_add_mod']
    exact Nat.mod_eq_of_lt hbit
  rw [contains, hdiv, hmod, Array.getD_eq_getD_getElem?, Array.getElem?_eq_getElem hindex,
    Option.getD_some]

theorem ext_contains {left right : Bitset} (hsize : left.size = right.size)
    (hcontains : ∀ index, left.contains index = right.contains index) : left = right := by
  have hwords : left.words = right.words := by
    apply Array.ext
    · rw [left.words_size, right.words_size, hsize]
    · intro index hleft hright
      apply UInt64.toBitVec_inj.mp
      apply BitVec.eq_of_getLsbD_eq
      intro bit hbit
      have hsame := hcontains (index * Word.width + bit)
      rw [← left.test_word hleft hbit, ← right.test_word hright hbit] at hsame
      exact hsame
  obtain ⟨words, size, hneeded⟩ := left
  obtain rfl : words = right.words := hwords
  obtain rfl : size = right.size := hsize
  rfl

theorem erase_erase_comm (bits : Bitset) (first second : Nat) :
    ((bits.erase first).2.erase second).2 = ((bits.erase second).2.erase first).2 := by
  refine ext_contains ?_ fun index => ?_
  · rw [size_erase, size_erase, size_erase, size_erase]
  · rw [contains_erase, contains_erase, contains_erase, contains_erase, size_erase, size_erase,
      Bool.and_right_comm]

/-! ### Changes of a finite set -/

def Change.apply (members : Finset Nat) : Change → Finset Nat
  | grow _ | growWithin _ _ => members
  | insert index => Insert.insert index members
  | erase index => members.erase index

def membersAfter (run : List Change) : Finset Nat :=
  run.foldl Change.apply ∅

def AddedLast (run : List Change) (index : Nat) : Prop :=
  ∃ earlier later, run = earlier ++ .insert index :: later ∧ .erase index ∉ later

theorem addedLast_concat_iff (run : List Change) (change : Change) (index : Nat) :
    AddedLast (run ++ [change]) index ↔
      change = .insert index ∨ AddedLast run index ∧ change ≠ .erase index := by
  constructor
  · rintro ⟨earlier, later, hrun, hkept⟩
    obtain rfl | ⟨before, last, rfl⟩ := later.eq_nil_or_concat'
    · obtain ⟨_, hlast⟩ := List.append_inj' hrun rfl
      exact .inl (List.singleton_inj.mp hlast)
    · rw [← List.cons_append, ← List.append_assoc] at hrun
      obtain ⟨hbefore, hlast⟩ := List.append_inj' hrun rfl
      obtain rfl := List.singleton_inj.mp hlast
      rw [List.mem_append, List.mem_singleton, not_or] at hkept
      exact .inr ⟨⟨earlier, before, hbefore, hkept.1⟩, Ne.symm hkept.2⟩
  · rintro (rfl | ⟨⟨earlier, later, rfl, hkept⟩, hchange⟩)
    · exact ⟨run, [], rfl, List.not_mem_nil⟩
    · refine ⟨earlier, later ++ [change], by rw [List.append_assoc, List.cons_append], ?_⟩
      rw [List.mem_append, List.mem_singleton, not_or]
      exact ⟨hkept, hchange.symm⟩

theorem mem_membersAfter_iff (run : List Change) (index : Nat) :
    index ∈ membersAfter run ↔ AddedLast run index := by
  induction run using List.reverseRecOn with
  | nil =>
    refine iff_of_false (Finset.notMem_empty index) ?_
    rintro ⟨earlier, later, hrun, _⟩
    exact List.append_ne_nil_of_right_ne_nil earlier (List.cons_ne_nil _ later) hrun.symm
  | append_singleton run change ih =>
    have hconcat : membersAfter (run ++ [change]) = change.apply (membersAfter run) :=
      List.foldl_append
    rw [addedLast_concat_iff, ← ih, hconcat]
    cases change with
    | grow | growWithin => simp [Change.apply]
    | insert other => simp [Change.apply, eq_comm]
    | erase other => simp [Change.apply, eq_comm, and_comm]

/-! ### Representation -/

structure Represents (bits : Bitset) (members : Finset Nat) : Prop where
  contains_iff : ∀ index, bits.contains index = true ↔ index ∈ members
  lt_size : ∀ index ∈ members, index < bits.size

/-- Whatever is asked of the packed set is answered as the finite one has it. -/
structure Agrees (bits : Bitset) (members : Finset Nat) : Prop where
  contains_iff : ∀ index, bits.contains index = true ↔ index ∈ members
  contains_of_size_le : ∀ index, bits.size ≤ index → bits.contains index = false
  /-- Positions that a growth adds are absent, also in a word that was partly in use. -/
  contains_grow : ∀ additional index, bits.size ≤ index →
    (bits.grow additional).contains index = false
  /-- Adding a position is answered with whether that changes the set. -/
  insert_iff : ∀ index < bits.size,
    (bits.insert index).1 = true ↔ Insert.insert index members ≠ members
  erase_iff : ∀ index < bits.size, (bits.erase index).1 = true ↔ members.erase index ≠ members
  count_eq : bits.count = members.card
  pairwise_toList : bits.toList.Pairwise (· < ·)
  mem_toList_iff : ∀ index, index ∈ bits.toList ↔ index ∈ members
  /-- The loop that clears one bit after another comes to this list. -/
  checkedList?_eq : bits.size < Word.limit → bits.checkedList? = some bits.toList

theorem represents_ofSize (size : Nat) : (ofSize size).Represents ∅ where
  contains_iff index := by simp [contains_ofSize]
  lt_size index hindex := absurd hindex (Finset.notMem_empty index)

namespace Represents

variable {bits : Bitset} {members : Finset Nat} (hrepresents : bits.Represents members)

include hrepresents

theorem contains_of_size_le {index : Nat} (hindex : bits.size ≤ index) :
    bits.contains index = false := by
  by_contra hcontains
  have hmember := (hrepresents.contains_iff index).mp (by simpa using hcontains)
  exact Nat.not_lt_of_le hindex (hrepresents.lt_size index hmember)

theorem mem_toList_iff (index : Nat) : index ∈ bits.toList ↔ index ∈ members := by
  rw [mem_toList, hrepresents.contains_iff]

theorem count_eq : bits.count = members.card := by
  have hmembers : bits.toList.toFinset = members := by
    ext index
    rw [List.mem_toFinset, hrepresents.mem_toList_iff]
  rw [← length_toList, ← List.toFinset_card_of_nodup bits.nodup_toList, hmembers]

/-! ### One change -/

theorem insert_eq_true_iff {index : Nat} (hindex : index < bits.size) :
    (bits.insert index).1 = true ↔ Insert.insert index members ≠ members := by
  have hcontains := hrepresents.contains_iff index
  rw [Ne, Finset.insert_eq_self, ← hcontains, Bitset.insert]
  cases bits.contains index <;> simp [hindex]

theorem erase_eq_true_iff {index : Nat} (hindex : index < bits.size) :
    (bits.erase index).1 = true ↔ members.erase index ≠ members := by
  have hcontains := hrepresents.contains_iff index
  rw [Ne, Finset.erase_eq_self, ← hcontains, Bitset.erase]
  cases bits.contains index <;> simp [hindex]

theorem insert {index : Nat} (hindex : index < bits.size) :
    (bits.insert index).2.Represents (Insert.insert index members) where
  contains_iff other := by
    rw [contains_insert, Finset.mem_insert, ← hrepresents.contains_iff, Bool.or_eq_true,
      decide_eq_true_iff, and_iff_left hindex, or_comm, eq_comm]
  lt_size other hother := by
    rw [size_insert]
    obtain rfl | hother := Finset.mem_insert.mp hother
    · exact hindex
    · exact hrepresents.lt_size other hother

theorem erase {index : Nat} (hindex : index < bits.size) :
    (bits.erase index).2.Represents (members.erase index) where
  contains_iff other := by
    rw [contains_erase, Finset.mem_erase, ← hrepresents.contains_iff, Bool.and_eq_true,
      Bool.not_eq_true', decide_eq_false_iff_not, and_iff_left hindex, and_comm, eq_comm]
  lt_size other hother := by
    rw [size_erase]
    exact hrepresents.lt_size other (Finset.mem_of_mem_erase hother)

theorem grow (additional : Nat) : (bits.grow additional).Represents members where
  contains_iff index := by rw [contains_grow, hrepresents.contains_iff]
  lt_size index hindex := Nat.lt_add_right additional (hrepresents.lt_size index hindex)

theorem perform {change : Change} (hchange : change.FitsIn bits.size) :
    (bits.perform change).2.Represents (change.apply members) := by
  cases change with
  | grow additional => exact hrepresents.grow additional
  | growWithin memory additional =>
    simp only [Bitset.perform, growWithin]
    split_ifs
    · exact hrepresents
    · exact hrepresents
    · exact hrepresents.grow additional
  | insert index => exact hrepresents.insert hchange
  | erase index => exact hrepresents.erase hchange

/-! ### Runs -/

theorem after {run : List Change} (hrun : bits.Admits run) :
    (bits.after run).Represents (run.foldl Change.apply members) := by
  induction run generalizing bits members with
  | nil => exact hrepresents
  | cons change rest ih =>
    obtain ⟨hchange, hrest⟩ := hrun
    exact ih (hrepresents.perform hchange) hrest

/-! ### What can be seen -/

theorem agrees : bits.Agrees members where
  contains_iff := hrepresents.contains_iff
  contains_of_size_le _ hindex := hrepresents.contains_of_size_le hindex
  contains_grow additional index hindex := by
    rw [Bitset.contains_grow, hrepresents.contains_of_size_le hindex]
  insert_iff _ hindex := hrepresents.insert_eq_true_iff hindex
  erase_iff _ hindex := hrepresents.erase_eq_true_iff hindex
  count_eq := hrepresents.count_eq
  pairwise_toList := bits.pairwise_toList
  mem_toList_iff := hrepresents.mem_toList_iff
  checkedList?_eq hlimit := Bitset.checkedList?_eq (Nat.le_of_lt hlimit) fun index hindex =>
    hrepresents.lt_size index ((hrepresents.mem_toList_iff index).mp hindex)

theorem eq_iff {other : Bitset} {others : Finset Nat} (hother : other.Represents others) :
    bits = other ↔ bits.size = other.size ∧ members = others := by
  constructor
  · rintro rfl
    refine ⟨rfl, Finset.ext fun index => ?_⟩
    rw [← hrepresents.contains_iff, hother.contains_iff]
  · rintro ⟨hsize, rfl⟩
    refine ext_contains hsize fun index => ?_
    rw [Bool.eq_iff_iff, hrepresents.contains_iff, hother.contains_iff]

end Represents

theorem size_perform (bits : Bitset) (change : Change) :
    (bits.perform change).2.size
      = bits.size + if (bits.perform change).1 then change.additional else 0 := by
  cases change with
  | grow additional => rfl
  | growWithin memory additional =>
    simp only [perform, growWithin]
    split_ifs <;> simp_all [Change.additional, grow]
  | insert index => rw [Change.additional, ite_self]; exact bits.size_insert index
  | erase index => rw [Change.additional, ite_self]; exact bits.size_erase index

theorem size_after (bits : Bitset) (run : List Change) :
    (bits.after run).size = bits.size + bits.gained run := by
  induction run generalizing bits with
  | nil => rfl
  | cons change rest ih =>
    rw [after, List.foldl_cons, ← after, ih, size_perform, gained, Nat.add_assoc]

/-- A set that any changes have led to is as large as its growths add up to, and answers as the
finite set of the positions added last and not removed since. -/
theorem agrees_after (size : Nat) (run : List Change) (hrun : (ofSize size).Admits run) :
    ((ofSize size).after run).size = size + (ofSize size).gained run ∧
      (∀ index, index ∈ membersAfter run ↔ AddedLast run index) ∧
      ((ofSize size).after run).Agrees (membersAfter run) ∧
      ∀ (otherSize : Nat) (otherRun : List Change), (ofSize otherSize).Admits otherRun →
        ((ofSize size).after run = (ofSize otherSize).after otherRun ↔
          ((ofSize size).after run).size = ((ofSize otherSize).after otherRun).size ∧
            membersAfter run = membersAfter otherRun) := by
  have hrepresents := (represents_ofSize size).after hrun
  have hsize : (ofSize size).size = size := Nat.zero_add size
  refine ⟨?_, mem_membersAfter_iff run, hrepresents.agrees, fun otherSize otherRun hother => ?_⟩
  · rw [size_after, hsize]
  · exact hrepresents.eq_iff ((represents_ofSize otherSize).after hother)

/-- A position taken back, a growth that needs no memory, and one refused for want of a word. -/
theorem agrees_after_grown :
    let run : List Change := [.insert 2, .grow 66, .insert 5, .insert 66, .erase 5, .growWithin 0 1,
      .growWithin 1 59]
    let grown := (ofSize 3).after run
    (ofSize 3).Admits run ∧ grown.size = 70 ∧ grown.Agrees {2, 66} ∧
      grown = (ofSize 70).after [.insert 66, .insert 2] ∧ grown.checkedList? = some [2, 66] := by
  intro run grown
  have hrun : (ofSize 3).Admits run := by
    simp only [run, Admits, Change.FitsIn]
    decide +kernel
  have hother : (ofSize 70).Admits [.insert 66, .insert 2] := by
    simp only [Admits, Change.FitsIn]
    decide +kernel
  obtain ⟨hsize, _, hagrees, hequal⟩ := agrees_after 3 run hrun
  have hmembers : membersAfter run = {2, 66} := by decide
  have hseventy : grown.size = 70 := hsize.trans (by decide +kernel)
  have hlist : grown.toList = [2, 66] := by decide +kernel
  refine ⟨hrun, hseventy, hmembers ▸ hagrees, (hequal 70 _ hother).mpr ⟨?_, hmembers⟩, ?_⟩
  · exact hseventy.trans (by decide +kernel)
  · rw [hagrees.checkedList?_eq (hseventy ▸ by decide), hlist]

end TextPool.Bitset
