/-!
# Outcomes of several steps

A computation that may fail answers only if each of its steps does, and what is done with the answer
changes no failure. Proofs take one apart with these equations instead of looking at how failures
are passed on.
-/

namespace TextPool

theorem bind_eq_ok_iff {ε α β : Type} {first : Except ε α} {next : α → Except ε β} {answer : β} :
    first >>= next = .ok answer ↔ ∃ middle, first = .ok middle ∧ next middle = .ok answer := by
  cases first with
  | error failure => simp [bind, Except.bind]
  | ok middle => simp [bind, Except.bind]

theorem pure_eq_ok_iff {ε α : Type} {value answer : α} :
    (pure value : Except ε α) = .ok answer ↔ value = answer := by
  simp [pure, Except.pure]

theorem map_eq_ok_iff {ε α β : Type} {outcome : Except ε α} {change : α → β} {answer : β} :
    outcome.map change = .ok answer ↔ ∃ value, outcome = .ok value ∧ change value = answer := by
  cases outcome <;> simp [Except.map]

theorem map_eq_error_iff {ε α β : Type} {outcome : Except ε α} {change : α → β} {failure : ε} :
    outcome.map change = .error failure ↔ outcome = .error failure := by
  cases outcome <;> simp [Except.map]

theorem mapError_eq_ok_iff {ε δ α : Type} {outcome : Except ε α} {change : ε → δ} {answer : α} :
    outcome.mapError change = .ok answer ↔ outcome = .ok answer := by
  cases outcome with
  | error failure =>
    constructor
    · intro hok
      cases hok
    · intro hok
      cases hok
  | ok value =>
    constructor
    · exact fun hok => congrArg Except.ok (Except.ok.inj hok)
    · exact fun hok => congrArg Except.ok (Except.ok.inj hok)

end TextPool
