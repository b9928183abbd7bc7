import Mathlib.Logic.Function.Basic
import TextPool.Proofs.Pool.Placing

/-!
# What can be seen of a pool

A pool is used through handles, so what can be seen of it is what stands at each handle, with its
kind, its text and the count of its owners, and beside that the capacity and the boundary. The
cursor, the set of occupied slots, the blobs and what a text is kept as cannot be seen.

A change of one slot changes the view at one handle, and growth changes nothing in it but the
capacity.
-/

namespace TextPool

structure Held where
  kind : Kind
  text : Bytes
  owners : UInt64
  deriving DecidableEq

/-- What can be seen of a pool. -/
@[ext] structure View where
  /-- What stands at each handle. -/
  strings : Handle → Option Held
  capacity : Nat
  boundary : Nat
  /-- There are strings below the capacity only. -/
  bounded : ∀ handle, capacity ≤ handle.index → strings handle = none

namespace View

theorem lt_capacity (view : View) {handle : Handle} {held : Held}
    (hheld : view.strings handle = some held) : handle.index < view.capacity := by
  by_contra hhandle
  rw [view.bounded handle (Nat.le_of_not_lt hhandle)] at hheld
  exact Option.some_ne_none held hheld.symm

def textAt (view : View) (handle : Handle) : Bytes :=
  match view.strings handle with
  | some held => held.text
  | none => []

/-- The string at the handle was made and has no owner, and the boundary is not above it. -/
def Idle (view : View) (handle : Handle) : Prop :=
  view.boundary ≤ handle.index ∧ ∃ text, view.strings handle = some ⟨.dynamic, text, 0⟩

def Full (view : View) : Prop :=
  ∀ handle : Handle, view.boundary ≤ handle.index → handle.index < view.capacity →
    (view.strings handle).isSome

def set (view : View) (handle : Handle) (held : Option Held)
    (hhandle : handle.index < view.capacity) : View :=
  { view with
    strings := Function.update view.strings handle held
    bounded := by
      intro other hother
      rw [Function.update_of_ne (by rintro rfl; omega)]
      exact view.bounded other hother }

def without (view : View) (gone : List Handle) : View :=
  { view with
    strings := fun handle => if handle ∈ gone then none else view.strings handle
    bounded := by
      intro handle hhandle
      rw [view.bounded handle hhandle, ite_self] }

def widen (view : View) (added : Nat) : View :=
  { view with
    capacity := view.capacity + added
    bounded := fun handle hhandle =>
      view.bounded handle (Nat.le_trans (Nat.le_add_right _ _) hhandle) }

end View

namespace Pool

def held (pool : Pool) (entry : Entry) : Held :=
  ⟨entry.text.kind, pool.bytesOf entry.text, entry.owners⟩

def view (pool : Pool) : View where
  strings handle := (pool.entryAt? handle.index).map pool.held
  capacity := pool.capacity
  boundary := pool.boundary
  bounded handle hhandle := by
    cases hentry : pool.entryAt? handle.index with
    | none => rfl
    | some entry =>
      have hlt := pool.lt_capacity_of_entryAt? handle.index hentry
      omega

theorem view_eq_some_iff {pool : Pool} {handle : Handle} {held : Held} :
    pool.view.strings handle = some held ↔
      ∃ entry, pool.entryAt? handle.index = some entry ∧ pool.held entry = held :=
  Option.map_eq_some_iff

theorem view_dynamic_iff {pool : Pool} {handle : Handle} {text : Bytes} {owners : UInt64} :
    pool.view.strings handle = some ⟨.dynamic, text, owners⟩ ↔
      pool.entryAt? handle.index = some ⟨.dynamic text, owners⟩ := by
  rw [view_eq_some_iff]
  constructor
  · rintro ⟨⟨stored, count⟩, hentry, hheld⟩
    obtain ⟨hkind, htext, rfl⟩ := Held.mk.inj hheld
    cases stored with
    | static blob span => exact Kind.noConfusion hkind
    | dynamic bytes => exact hentry.trans (congrArg some (by rw [← htext]; rfl))
  · intro hentry
    exact ⟨_, hentry, rfl⟩

theorem textAt_view (pool : Pool) : pool.view.textAt = pool.textAt := by
  funext handle
  simp only [View.textAt, textAt, view]
  cases pool.entryAt? handle.index <;> rfl

theorem Sound.zero_notMem_textAt {pool : Pool} (hsound : pool.Sound) (handle : Handle) :
    0 ∉ pool.textAt handle := by
  unfold textAt
  cases hentry : pool.entryAt? handle.index with
  | none => exact List.not_mem_nil
  | some entry => exact (hsound.text hentry).zero_notMem

/-! ### After a change -/

theorem held_congr {pool other : Pool} (hblobs : other.blobs = pool.blobs) :
    other.held = pool.held := by
  funext ⟨stored, owners⟩
  cases stored with
  | static blob span => simp only [held, bytesOf, hblobs]
  | dynamic bytes => rfl

/-- A change of one slot that keeps the blobs changes what is seen at one handle. -/
theorem strings_view_of_entryAt? (pool other : Pool) (handle : Handle) (entry : Option Entry)
    (hblobs : other.blobs = pool.blobs)
    (hentry : ∀ index, other.entryAt? index
      = if handle.index = index then entry else pool.entryAt? index) :
    other.view.strings = Function.update pool.view.strings handle (entry.map pool.held) := by
  funext changed
  simp only [view, held_congr hblobs, hentry, Function.update_apply]
  by_cases hchanged : changed = handle
  · rw [if_pos (congrArg Handle.index hchanged.symm), if_pos hchanged]
  · have hindex : handle.index ≠ changed.index := fun heq =>
      hchanged (congrArg Handle.mk heq.symm)
    rw [if_neg hindex, if_neg hchanged]

theorem Extends.strings_view {pool grown : Pool} (hextends : pool.Extends grown) :
    grown.view.strings = pool.view.strings := by
  funext handle
  simp only [view, hextends.entryAt?_eq, held_congr hextends.blobs_eq]

end Pool

end TextPool
