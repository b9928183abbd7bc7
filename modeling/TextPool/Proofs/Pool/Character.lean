import TextPool.Proofs.Bytes.Character
import TextPool.Proofs.Pool.Making

/-!
# Characters of strings

A request for the character at an index finds a byte, and then makes a string of it, or it finds
none. It tells the two apart by the byte being zero, which is right because no string of a sound
pool holds a zero byte, be it made or loaded. Where there is no byte, the empty string is answered
and nothing changes. Where there is one, the string made is not the empty one, and a request for the
part of one byte from there on does the same (`Sound.perform_substring_one`).
-/

namespace TextPool.Pool

section Requests

variable {pool : Pool} {handle : Handle} {text : Bytes} (htext : pool.text handle = .ok text)

include htext

theorem perform_byteAt (index : Int64) :
    pool.perform (.byteAt handle index) = (.ok (.count (text.byteAt index).toNat), pool) := by
  rw [perform_of_ask rfl, byteAt, htext]
  rfl

variable (hlength : text.length < 2 ^ 63) {index : Int64}

include hlength

theorem perform_charAt_of_outside
    (houtside : text.placeOf index.toInt < 0 ∨ text.length ≤ text.placeOf index.toInt) :
    pool.perform (.charAt handle index) = (.ok (.made .empty), pool) := by
  have hasked : pool.byteAt handle index = .ok 0 := by
    rw [byteAt, htext, ← Bytes.byteAt_of_outside hlength houtside]
    rfl
  rw [perform, act, runOn_answer, charAt, runOn_ask_bind, hasked]
  rfl

section Inside

variable (hstart : 0 ≤ text.placeOf index.toInt) (hend : text.placeOf index.toInt < text.length)
  (hsound : pool.Sound)

include hstart hend

theorem product?_charAt :
    (Operation.charAt handle index).product? pool.textAt = some [text.byteAt index] := by
  rw [Operation.product?, textAt_of_text htext, if_neg]
  rw [Bytes.outside_iff hlength]
  omega

theorem product?_substring_one :
    (Operation.substring handle index 1).product? pool.textAt = some [text.byteAt index] := by
  have hone : (1 : Int64).toInt = 1 := rfl
  rw [Operation.product?, textAt_of_text htext, Bytes.substring_eq_part hlength, hone,
    Bytes.part_one hlength hstart hend]

include hsound

theorem Sound.zero_notMem_byteAt : 0 ∉ [text.byteAt index] := by
  have hinside := Bytes.byteAt_eq_zero_iff_of_length hlength (hsound.zero_notMem_text htext) index
  rw [List.mem_singleton, eq_comm, hinside]
  omega

theorem Sound.perform_charAt_of_inside :
    pool.perform (.charAt handle index) = pool.making [text.byteAt index] := by
  have hproduct := product?_charAt htext hlength hstart hend
  rw [hsound.perform_charAt (live_of_text htext) hproduct,
    Bytes.upToZero_eq_self _ (hsound.zero_notMem_byteAt htext hlength hstart hend)]

theorem Sound.makes_charAt :
    pool.Makes [text.byteAt index] (pool.perform (.charAt handle index)) := by
  rw [hsound.perform_charAt_of_inside htext hlength hstart hend]
  exact hsound.makes_making (hsound.zero_notMem_byteAt htext hlength hstart hend)

theorem Sound.perform_substring_one :
    pool.perform (.substring handle index 1) = pool.perform (.charAt handle index) := by
  have hproduct := product?_substring_one htext hlength hstart hend
  rw [hsound.perform_charAt_of_inside htext hlength hstart hend,
    perform_of_transform rfl rfl hproduct (live_of_text htext),
    Bytes.upToZero_eq_self _ (hsound.zero_notMem_byteAt htext hlength hstart hend)]

/-- The string that is made is none that was there, so it is not the empty one. -/
theorem Sound.ne_empty_of_charAt {made : Handle} {left : Pool}
    (hdone : pool.perform (.charAt handle index) = (.ok (.made made), left)) : made ≠ .empty := by
  have hmakes := hsound.makes_charAt htext hlength hstart hend
  rw [hdone] at hmakes
  cases hmakes with
  | made hroom hfree hholds hothers =>
    rintro rfl
    exact Bool.noConfusion (hfree.symm.trans hsound.contains_empty)

end Inside

end Requests

/-- The byte at a place that a word names from either end is found, or none exactly if the place
lies outside, and then a string of it is made. -/
theorem character_found {config : Config} {pool : Pool} (hreachable : Reachable config pool)
    {handle : Handle} {text : Bytes} (htext : pool.text handle = .ok text)
    (hlength : text.length < 2 ^ 63) (index : Int64) :
    let place := text.placeOf index.toInt
    let byte := text.byteAt index
    let done := pool.perform (.charAt handle index)
    Stepwise.byteAt? text index.toInt = some byte ∧
      pool.perform (.byteAt handle index) = (.ok (.count byte.toNat), pool) ∧
      (byte = 0 ↔ place < 0 ∨ text.length ≤ place) ∧
      (done.1 = .ok (.made .empty) ↔ place < 0 ∨ text.length ≤ place) ∧
      (place < 0 ∨ text.length ≤ place → done = (.ok (.made .empty), pool)) ∧
      (0 ≤ place → place < text.length →
        text[place.toNat]? = some byte ∧ pool.Makes [byte] done ∧
          pool.perform (.substring handle index 1) = done ∧
          ∀ made left, done = (.ok (.made made), left) → made ≠ .empty) := by
  intro place byte done
  have hsound := (sound_of_reachable hreachable).1
  have houtside : place < 0 ∨ text.length ≤ place → done = (.ok (.made .empty), pool) :=
    perform_charAt_of_outside htext hlength
  refine ⟨Stepwise.byteAt?_eq hlength index, perform_byteAt htext index,
    Bytes.byteAt_eq_zero_iff_of_length hlength (hsound.zero_notMem_text htext) index, ?_, houtside,
    fun hstart hend => ⟨Bytes.getElem?_placeOf hlength hstart hend,
      hsound.makes_charAt htext hlength hstart hend,
      hsound.perform_substring_one htext hlength hstart hend,
      fun made left => hsound.ne_empty_of_charAt htext hlength hstart hend⟩⟩
  constructor
  · intro hempty
    by_contra hinside
    have hdone : done = (.ok (.made .empty), done.2) := Prod.ext hempty rfl
    exact hsound.ne_empty_of_charAt htext hlength (by omega) (by omega) hdone rfl
  · exact fun hplace => congrArg Prod.fst (houtside hplace)

/-- The last byte of a loaded text is found from the end. The least of all words names no place in
it, nor does the length of the text. -/
theorem character_found_last :
    let pool := (ofConfig {}).after [.load ⟨[⟨0, 2⟩], [104, 105, 0]⟩]
    pool.perform (.byteAt ⟨1⟩ (-1)) = (.ok (.count 105), pool) ∧
      pool.Makes [105] (pool.perform (.charAt ⟨1⟩ (-1))) ∧
      pool.perform (.substring ⟨1⟩ (-1) 1) = pool.perform (.charAt ⟨1⟩ (-1)) ∧
      pool.perform (.charAt ⟨1⟩ 2) = (.ok (.made .empty), pool) ∧
      Stepwise.byteAt? [104, 105] Int64.minValue.toInt = some 0 := by
  intro pool
  have hrun : ∀ operation ∈ [Operation.load ⟨[⟨0, 2⟩], [104, 105, 0]⟩], operation.WellFormed := by
    rw [List.forall_mem_singleton]
    decide +kernel
  have hreachable : Reachable {} pool := ⟨_, hrun, rfl⟩
  have htext : pool.text ⟨1⟩ = .ok [104, 105] := by decide +kernel
  obtain ⟨_, hbyte, _, _, _, hinside⟩ := character_found hreachable htext (by decide) (-1)
  obtain ⟨_, hmakes, hsame, _⟩ := hinside (by decide) (by decide)
  obtain ⟨_, _, _, _, hbehind, _⟩ := character_found hreachable htext (by decide) 2
  obtain ⟨hsteps, _⟩ := character_found hreachable htext (by decide) Int64.minValue
  exact ⟨hbyte, hmakes, hsame, hbehind (by decide), hsteps⟩

/-- A loaded string has a character, but every slot from the boundary on is taken and there may be
no more of them. -/
theorem character_of_full_pool :
    let config : Config := { initial := 64, block := 64, maximum := some 64 }
    let pool := (ofConfig config).after [.load ⟨[⟨0, 1⟩], [97, 0]⟩]
    Reachable config pool ∧ pool.text ⟨1⟩ = .ok [97] ∧
      Bytes.placeOf [97] (0 : Int64).toInt = 0 ∧
      pool.perform (.charAt ⟨1⟩ 0) = (.error (.exhausted 64), pool) := by
  intro config pool
  have hrun : ∀ operation ∈ [Operation.load ⟨[⟨0, 1⟩], [97, 0]⟩], operation.WellFormed := by
    rw [List.forall_mem_singleton]
    decide +kernel
  refine ⟨⟨_, hrun, rfl⟩, ?_, rfl, ?_⟩
  · decide +kernel
  · decide +kernel

end TextPool.Pool
