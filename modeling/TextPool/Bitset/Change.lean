import TextPool.Bitset.Basic

/-!
# Runs of changes

Everything that can be done to a set of positions, as one type, and what becomes of a set on which
such changes are carried out one after another. Each growth that may be refused comes with the
memory there is for it, so a run of changes says what is refused along with what is asked for.
-/

namespace TextPool.Bitset

/-- A change of a set. -/
inductive Change where
  | grow (additional : Nat)
  /-- A growth that is refused if it needs words, and as many as `memory` or more. -/
  | growWithin (memory additional : Nat)
  | insert (index : Nat)
  | erase (index : Nat)
  deriving DecidableEq

namespace Change

/-- The positions that the change would add to those there are. -/
def additional : Change → Nat
  | grow additional | growWithin _ additional => additional
  | insert _ | erase _ => 0

/-- The change can be asked of a set of this size: the size after a growth can be expressed, and
positions are added and removed below the bound only. -/
def FitsIn (size : Nat) : Change → Prop
  | grow additional | growWithin _ additional => size + additional < Word.limit
  | insert index | erase index => index < size

instance (size : Nat) : (change : Change) → Decidable (change.FitsIn size)
  | grow _ | growWithin _ _ => inferInstanceAs (Decidable (_ < _))
  | insert _ | erase _ => inferInstanceAs (Decidable (_ < _))

end Change

/-- Carries out a change, and tells whether anything was done. -/
def perform (bits : Bitset) : Change → Bool × Bitset
  | .grow additional => (true, bits.grow additional)
  | .growWithin memory additional =>
    match bits.growWithin memory additional with
    | .grown grown => (true, grown)
    | _ => (false, bits)
  | .insert index => bits.insert index
  | .erase index => bits.erase index

/-- The set that a run of changes leaves. -/
def after (bits : Bitset) (run : List Change) : Bitset :=
  run.foldl (fun bits change => (bits.perform change).2) bits

/-- Each change of the run can be asked of the set when its turn comes. -/
def Admits : Bitset → List Change → Prop
  | _, [] => True
  | bits, change :: rest => change.FitsIn bits.size ∧ Admits (bits.perform change).2 rest

instance Admits.decidable : (bits : Bitset) → (run : List Change) → Decidable (bits.Admits run)
  | _, [] => isTrue trivial
  | bits, change :: rest =>
    have := Admits.decidable (bits.perform change).2 rest
    inferInstanceAs (Decidable (_ ∧ _))

/-- How many positions the growths of a run add. One that is refused adds none. -/
def gained : Bitset → List Change → Nat
  | _, [] => 0
  | bits, change :: rest =>
    (if (bits.perform change).1 then change.additional else 0) + gained (bits.perform change).2 rest

end TextPool.Bitset
