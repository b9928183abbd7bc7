import TextPool.Proofs.Pool.AllocationOrder
import TextPool.Proofs.Pool.Life

/-!
# Making a string

Requests that make a string differ in the text of it only. Each of them puts the string where there
was none and leaves all others as they are, or it fails for want of a slot and changes nothing
(`Makes`). It fails only where every slot from the boundary on is taken and there can be no more.
-/

namespace TextPool.Pool

/-- What a request that makes a string of this text does. -/
inductive Makes (pool : Pool) (text : Bytes) : Except PoolError Answer × Pool → Prop
  | made {handle : Handle} {left : Pool} (hroom : ¬pool.Stuck)
      (hfree : pool.contains handle = false) (hholds : left.Holds handle ⟨.dynamic, text, 0⟩)
      (hothers : ∀ other held, pool.Holds other held → left.Holds other held) :
      Makes pool text (.ok (.made handle), left)
  | stuck (hstuck : pool.Stuck) : Makes pool text (.error (.exhausted pool.config.block), pool)

theorem Sound.makes_making {pool : Pool} (hsound : pool.Sound) {text : Bytes} (hzero : 0 ∉ text) :
    pool.Makes text (pool.making text) := by
  rw [making]
  cases hopening : pool.opening? with
  | none => exact .stuck (hsound.opening?_eq_none_iff.mp hopening)
  | some opening =>
    obtain ⟨index, room⟩ := opening
    have hopens := hsound.opens hopening
    have hfree := hopens.contains_eq_false hsound
    have hleft := hopens.sound_placeDynamic hsound hzero
    have hstrings := strings_view_of_entryAt? pool (room.placeDynamic index text) ⟨index⟩
      (some (.ofText (.dynamic text))) hopens.extension.blobs_eq (hopens.entryAt?_placeDynamic text)
    refine .made (fun hstuck => ?_) hfree ?_ fun other held hheld => ?_
    · exact Option.some_ne_none _ (hopening.symm.trans (hsound.opening?_eq_none_iff.mpr hstuck))
    · rw [hleft.holds_iff, hstrings, Function.update_self]
      rfl
    · have hother : other ≠ ⟨index⟩ := by
        rintro rfl
        exact Bool.false_ne_true (hfree.symm.trans hheld.contains_eq)
      rw [hleft.holds_iff, hstrings, Function.update_of_ne hother]
      exact hsound.holds_iff.mp hheld

/-- A request that makes a string of bytes for which there is memory makes one of them, if none is a
zero byte. -/
theorem Sound.makes_of_product {pool : Pool} (hsound : pool.Sound) {operation : Operation}
    {product : Bytes} (hcheck : pool.check operation.checked = .ok ())
    (hproduct : operation.product? pool.textAt = some product) (hzero : 0 ∉ product)
    (hmemory : pool.config.grants product.length = true) :
    pool.Makes product (pool.perform operation) := by
  have hself := Bytes.upToZero_eq_self product hzero
  rw [hsound.perform_of_product hcheck hproduct (by rw [hself]; exact hmemory), hself]
  exact hsound.makes_making hzero

/-- A request that makes a string by a change of one text needs no memory of its own for it. -/
theorem Sound.makes_of_transform {pool : Pool} (hsound : pool.Sound) {operation : Operation}
    {handle : Handle} {text : Bytes} (change : Bytes → Bytes)
    (hact : act operation = do
      return .made (← produce fun pool => return change (← pool.text handle)))
    (hproduct : operation.product? pool.textAt = some (change (pool.textAt handle)))
    (htext : pool.text handle = .ok text) (hzero : 0 ∉ change text) :
    pool.Makes (change text) (pool.perform operation) := by
  rw [perform_of_transform hact hproduct hproduct (live_of_text htext), textAt_of_text htext,
    Bytes.upToZero_eq_self _ hzero]
  exact hsound.makes_making hzero

/-! ### Texts after a request -/

section Texts

variable {pool left : Pool} {operation : Operation} {handle : Handle} {text : Bytes}
  (hsound : pool.Sound)

include hsound

theorem Sound.zero_notMem_text (htext : pool.text handle = .ok text) : 0 ∉ text := by
  rw [← textAt_of_text htext]
  exact hsound.zero_notMem_textAt handle

theorem Sound.exists_holds (htext : pool.text handle = .ok text) :
    ∃ held, pool.Holds handle held ∧ held.text = text := by
  obtain ⟨entry, hentry, hbytes⟩ := text_eq_ok_iff.mp htext
  exact ⟨pool.held entry, hsound.holds_iff.mpr (view_eq_some_iff.mpr ⟨entry, hentry, rfl⟩), hbytes⟩

/-- What is held after a request that made a string of given bytes. -/
theorem Sound.holds_of_made {made : Handle} {product : Bytes}
    (hproduct : operation.product? pool.textAt = some product)
    (hdone : pool.perform operation = (.ok (.made made), left)) :
    left.Sound ∧ left.Holds made ⟨.dynamic, product.upToZero, 0⟩ ∧
      ∀ other held, pool.Holds other held → left.Holds other held := by
  have hoperation := Operation.wellFormed_of_product? hproduct
  have heffect := pool.perform_effect operation
  have hleft := (hsound.perform hoperation).1
  rw [hdone] at heffect hleft
  have hstep := hsound.step_view (Operation.table?_of_product? hproduct) heffect
  have hmade := (hstep.strings_of_product? (pool.textAt_view ▸ hproduct)).2
  refine ⟨hleft, hleft.holds_iff.mpr hmade, fun other held hheld => ?_⟩
  have hstays : ¬pool.view.Removes other held operation := by
    rintro (_ | _)
    · cases hproduct
    · cases hproduct
  have hkept := hstep.strings_of_held (hsound.holds_iff.mp hheld) hstays
  rw [View.next_of_product? hproduct] at hkept
  exact hleft.holds_iff.mpr hkept

/-- What can be read after a request that made a string of bytes with no zero byte among them. -/
theorem Sound.texts_of_product {made : Handle} {product : Bytes}
    (hproduct : operation.product? pool.textAt = some product) (hzero : 0 ∉ product)
    (hdone : pool.perform operation = (.ok (.made made), left)) :
    left.Sound ∧ left.text made = .ok product ∧
      ∀ other bytes, pool.text other = .ok bytes → left.text other = .ok bytes := by
  obtain ⟨hleft, hmade, hkept⟩ := hsound.holds_of_made hproduct hdone
  rw [Bytes.upToZero_eq_self product hzero] at hmade
  refine ⟨hleft, hmade.text_eq, fun other bytes hbytes => ?_⟩
  obtain ⟨held, hheld, rfl⟩ := hsound.exists_holds hbytes
  exact (hkept other held hheld).text_eq

theorem Sound.texts_of_transform (change : Bytes → Bytes)
    (hproduct : operation.product? pool.textAt = some (change (pool.textAt handle)))
    (htext : pool.text handle = .ok text) (hzero : 0 ∉ change text) {made : Handle}
    (hdone : pool.perform operation = (.ok (.made made), left)) :
    left.Sound ∧ left.text made = .ok (change text) ∧
      ∀ other bytes, pool.text other = .ok bytes → left.text other = .ok bytes := by
  rw [textAt_of_text htext] at hproduct
  exact hsound.texts_of_product hproduct hzero hdone

/-! Two texts put together -/

section Concat

variable {first second : Handle} {before behind : Bytes} (hfirst : pool.text first = .ok before)
  (hsecond : pool.text second = .ok behind)

include hfirst hsecond

omit hsound in
theorem product?_concat :
    (Operation.concat first second).product? pool.textAt = some (before ++ behind) := by
  rw [Operation.product?, textAt_of_text hfirst, textAt_of_text hsecond]

theorem Sound.zero_notMem_concat : 0 ∉ before ++ behind :=
  Bytes.zero_notMem_append (hsound.zero_notMem_text hfirst) (hsound.zero_notMem_text hsecond)

theorem Sound.makes_concat (hmemory : pool.config.grants (before ++ behind).length = true) :
    pool.Makes (before ++ behind) (pool.perform (.concat first second)) := by
  have hcheck : pool.check (Operation.concat first second).checked = .ok () := by
    rw [Operation.checked, check_cons_of_live (live_of_text hfirst),
      check_cons_of_live (live_of_text hsecond)]
    rfl
  exact hsound.makes_of_product hcheck (product?_concat hfirst hsecond)
    (hsound.zero_notMem_concat hfirst hsecond) hmemory

theorem Sound.texts_of_concat {joined : Handle}
    (hdone : pool.perform (.concat first second) = (.ok (.made joined), left)) :
    left.Sound ∧ left.text joined = .ok (before ++ behind) ∧
      ∀ other bytes, pool.text other = .ok bytes → left.text other = .ok bytes :=
  hsound.texts_of_product (product?_concat hfirst hsecond) (hsound.zero_notMem_concat hfirst hsecond)
    hdone

end Concat

end Texts

end TextPool.Pool
