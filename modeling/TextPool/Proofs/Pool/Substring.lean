import TextPool.Proofs.Bytes.Slice
import TextPool.Proofs.Pool.Making

/-!
# Parts of strings

What a request for a part of a string makes is a string of the part that integers tell
(`Sound.makes_substring`), and the others stay as they are. No step of a machine goes wrong on the
way as long as the end that is asked for is a signed word, which matters only where the text is as
long as such a word can tell. The part up to a place, and the one from there to the end, are
together the whole text (`Sound.texts_of_split`).
-/

namespace TextPool.Pool

namespace Sound

variable {pool : Pool} (hsound : pool.Sound) {handle : Handle} {text : Bytes}
  (htext : pool.text handle = .ok text) (hlength : text.length < 2 ^ 63)

include hsound htext hlength

theorem zero_notMem_substring (first count : Int64) : 0 ∉ text.substring first count := by
  rw [Bytes.substring_eq_part hlength]
  exact Bytes.zero_notMem_part (hsound.zero_notMem_text htext) _ _

theorem makes_substring (first count : Int64) :
    pool.Makes (text.part first.toInt count.toInt)
      (pool.perform (.substring handle first count)) := by
  rw [← Bytes.substring_eq_part hlength]
  exact hsound.makes_of_transform (Bytes.substring · first count) rfl rfl htext
    (hsound.zero_notMem_substring htext hlength first count)

theorem texts_of_substring {first count : Int64} {part : Handle} {left : Pool}
    (hdone : pool.perform (.substring handle first count) = (.ok (.made part), left)) :
    left.Sound ∧ left.text part = .ok (text.part first.toInt count.toInt) ∧
      ∀ other bytes, pool.text other = .ok bytes → left.text other = .ok bytes := by
  rw [← Bytes.substring_eq_part hlength]
  exact hsound.texts_of_transform (Bytes.substring · first count) rfl htext
    (hsound.zero_notMem_substring htext hlength first count) hdone

/-- The string up to a place, and then the rest of it, are made and can be read. -/
theorem texts_of_split {place : Nat} (hplace : place ≤ text.length) {front back : Handle}
    {middle last : Pool}
    (hfront : pool.perform (.substring handle 0 (Int64.ofNat place)) = (.ok (.made front), middle))
    (hback : middle.perform (.substring handle (Int64.ofNat place) (-1))
      = (.ok (.made back), last)) :
    last.Sound ∧ last.text front = .ok (text.take place) ∧
      last.text back = .ok (text.drop place) := by
  have hword : (Int64.ofNat place).toInt = place := Int64.toInt_ofNat_of_lt (by omega)
  have hminus : (-1 : Int64).toInt = -1 := rfl
  obtain ⟨hmiddle, hbefore, hkept⟩ := hsound.texts_of_substring htext hlength hfront
  obtain ⟨hlast, hbehind, hstays⟩ :=
    hmiddle.texts_of_substring (hkept handle text htext) hlength hback
  rw [hword, Int64.toInt_zero, Bytes.part_front hplace] at hbefore
  rw [hword, hminus, Bytes.part_back] at hbehind
  exact ⟨hlast, hstays front _ hbefore, hbehind⟩

end Sound

/-- A request for a part makes a string of the bytes that integers tell, and the parts before and
from any place on make up the text. -/
theorem substring_made {config : Config} {pool : Pool} (hreachable : Reachable config pool)
    {handle : Handle} {text : Bytes} (htext : pool.text handle = .ok text)
    (hlength : text.length < 2 ^ 63) :
    (∀ first count : Int64, text.HasStop first.toInt count.toInt →
      pool.Makes (text.part first.toInt count.toInt)
          (pool.perform (.substring handle first count)) ∧
        Stepwise.substring? text first.toInt count.toInt
          = some (text.part first.toInt count.toInt)) ∧
      ∀ place ≤ text.length, ∀ front middle back last,
        pool.perform (.substring handle 0 (Int64.ofNat place)) = (.ok (.made front), middle) →
        middle.perform (.substring handle (Int64.ofNat place) (-1)) = (.ok (.made back), last) →
        (∃ before behind, last.text front = .ok before ∧ last.text back = .ok behind ∧
          before ++ behind = text) ∧
          (last.config.grants text.length = true →
            last.Makes text (last.perform (.concat front back))) := by
  have hsound := (sound_of_reachable hreachable).1
  refine ⟨fun first count hstop => ⟨hsound.makes_substring htext hlength first count, ?_⟩,
    fun place hplace front middle back last hfront hback => ?_⟩
  · exact Stepwise.substring?_eq hlength first.le_toInt count.le_toInt hstop
  · obtain ⟨hlast, hbefore, hbehind⟩ := hsound.texts_of_split htext hlength hplace hfront hback
    have htogether := List.take_append_drop place text
    refine ⟨⟨_, _, hbefore, hbehind, htogether⟩, fun hmemory => ?_⟩
    have hmakes := hlast.makes_concat hbefore hbehind (by rw [htogether]; exact hmemory)
    rw [htogether] at hmakes
    exact hmakes

/-- A start and a count far outside the text give all of it, and a start three bytes before the end
with a count of two gives two. -/
theorem substring_made_words :
    let pool := (ofConfig {}).after [.allocate [104, 101, 108, 108, 111]]
    let middle := (pool.perform (.substring ⟨1⟩ 0 2)).2
    let last := (middle.perform (.substring ⟨1⟩ 2 (-1))).2
    pool.Makes [104, 101, 108, 108, 111]
        (pool.perform (.substring ⟨1⟩ Int64.minValue Int64.maxValue)) ∧
      pool.Makes [108, 108] (pool.perform (.substring ⟨1⟩ (-3) 2)) ∧
      Stepwise.substring? [104, 101, 108, 108, 111] (-3) 2 = some [108, 108] ∧
      last.Makes [104, 101, 108, 108, 111] (last.perform (.concat ⟨2⟩ ⟨3⟩)) := by
  intro pool middle last
  have hrun : ∀ operation ∈ [Operation.allocate [104, 101, 108, 108, 111]],
      operation.WellFormed := by
    rw [List.forall_mem_singleton]
    trivial
  have hreachable : Reachable {} pool := ⟨_, hrun, rfl⟩
  have htext : pool.text ⟨1⟩ = .ok [104, 101, 108, 108, 111] := by decide +kernel
  obtain ⟨hparts, hsplit⟩ := substring_made hreachable htext (by decide)
  have hshort : ∀ first count, Bytes.HasStop [104, 101, 108, 108, 111] first count :=
    fun _ _ => .inl (by simp)
  have hfirst : (pool.perform (.substring ⟨1⟩ 0 2)).1 = .ok (.made ⟨2⟩) := by decide +kernel
  have hsecond : (middle.perform (.substring ⟨1⟩ 2 (-1))).1 = .ok (.made ⟨3⟩) := by decide +kernel
  have hfront : pool.perform (.substring ⟨1⟩ 0 2) = (.ok (.made ⟨2⟩), middle) := by
    rw [← hfirst]
  have hback : middle.perform (.substring ⟨1⟩ 2 (-1)) = (.ok (.made ⟨3⟩), last) := by
    rw [← hsecond]
  obtain ⟨_, htogether⟩ := hsplit 2 (by decide) _ _ _ _ hfront hback
  exact ⟨(hparts Int64.minValue Int64.maxValue (hshort _ _)).1, (hparts (-3) 2 (hshort _ _)).1,
    (hparts (-3) 2 (hshort _ _)).2, htogether (by decide +kernel)⟩

/-- A loaded string in a pool that can have no more slots, and a text as long as a signed word can
tell. -/
theorem substring_of_full_pool_and_longest_text :
    let config : Config := { initial := 64, block := 64, maximum := some 64 }
    let pool := (ofConfig config).after [.load ⟨[⟨0, 1⟩], [97, 0]⟩]
    Reachable config pool ∧ pool.text ⟨1⟩ = .ok [97] ∧
      (pool.perform (.substring ⟨1⟩ 0 1)).1 = .error (.exhausted 64) ∧
      Stepwise.substring? (List.replicate (2 ^ 63 - 1) 97) 1 (2 ^ 63 - 1) = none := by
  intro config pool
  have hrun : ∀ operation ∈ [Operation.load ⟨[⟨0, 1⟩], [97, 0]⟩], operation.WellFormed := by
    rw [List.forall_mem_singleton]
    decide +kernel
  refine ⟨⟨_, hrun, rfl⟩, by decide +kernel, by decide +kernel, Stepwise.substring?_of_longest ?_⟩
  rw [List.length_replicate]

end TextPool.Pool
