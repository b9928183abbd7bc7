import Mathlib.Data.List.Basic
import TextPool.CommandLine.Arguments
import TextPool.Proofs.Outcome

/-!
# What the words of a command line ask for

The words that name files settle what is asked for (`ofArguments_congr`), but for the layout of the
figures: where the other two words stand behind the command, and how often, makes no difference. A
command is carried out if no word behind it starts with two dashes and it is given as many files as
it takes (`ofArguments_eq_ok_iff`).
-/

namespace TextPool.Command

def Dashed (word : String) : Prop :=
  ['-', '-'] <+: word.toList

theorem isOption_iff {word : String} : isOption word = true ↔ Dashed word := by
  unfold isOption Dashed
  split
  · next rest hword => simp [hword]
  · next hword =>
    constructor
    · exact fun hfalse => Bool.noConfusion hfalse
    · rintro ⟨rest, hrest⟩
      exact absurd hrest.symm (hword rest)

instance (word : String) : Decidable (Dashed word) :=
  decidable_of_iff _ isOption_iff

theorem find?_isOption_eq_none {words : List String} :
    words.find? isOption = none ↔ ∀ word ∈ words, ¬Dashed word := by
  simp only [List.find?_eq_none, isOption_iff]

/-- The words that name no files have no dashes. -/
theorem find?_isOption_operands (words : List String) :
    (operands words).find? isOption = words.find? isOption := by
  rw [operands, List.find?_filter]
  congr 1
  funext word
  by_cases hkept : word ≠ "verbose" ∧ word ≠ "json"
  · simp [hkept]
  · have hplain : isOption word = false := by
      obtain rfl | rfl : word = "verbose" ∨ word = "json" := by
        by_contra hother
        exact hkept (not_or.mp hother)
      · decide
      · decide
    simp [hplain]

/-- The command without regard to the layout of the figures. -/
def plain : Command → Command
  | stats image _ => stats image false
  | command => command

/-- What the words behind a command ask for if none of them starts with dashes. -/
inductive Asks (words : List String) : String → Command → Prop
  | pack {input output : String} (hoperands : operands words = [input, output]) :
      Asks words "pack" (.pack input output)
  | dump {image : String} (hoperands : operands words = [image]) : Asks words "dump" (.dump image)
  | stats {image : String} (hoperands : operands words = [image]) :
      Asks words "stats" (.stats image (words.contains "json"))

theorem Asks.operands_eq {words : List String} {command : String} {asked : Command}
    (hasks : Asks words command asked) : ∃ rest, operands words = asked.source :: rest := by
  cases hasks with
  | pack hoperands => exact ⟨_, hoperands⟩
  | dump hoperands | stats hoperands => exact ⟨[], hoperands⟩

theorem exists_asks {command : String} {words : List String}
    (hcommand : command = "pack" ∨ command = "dump" ∨ command = "stats")
    (hpack : command = "pack" → (operands words).length = 2)
    (hlook : command = "dump" ∨ command = "stats" → (operands words).length = 1) :
    ∃ asked, Asks words command asked := by
  obtain rfl | rfl | rfl := hcommand
  · obtain ⟨input, output, hoperands⟩ := List.length_eq_two.mp (hpack rfl)
    exact ⟨_, .pack hoperands⟩
  · obtain ⟨image, hoperands⟩ := List.length_eq_one_iff.mp (hlook (.inl rfl))
    exact ⟨_, .dump hoperands⟩
  · obtain ⟨image, hoperands⟩ := List.length_eq_one_iff.mp (hlook (.inr rfl))
    exact ⟨_, .stats hoperands⟩

theorem ofWords_eq_ok_iff {command : String} {words : List String} {asked : Command} :
    ofWords command words = .ok asked ↔ Asks words command asked := by
  constructor
  · intro hasked
    unfold ofWords at hasked
    split at hasked
    · split at hasked
      · next hoperands => exact Except.ok.inj hasked ▸ .pack hoperands
      · cases hasked
    · split at hasked
      · next hoperands => exact Except.ok.inj hasked ▸ .dump hoperands
      · cases hasked
    · split at hasked
      · next hoperands => exact Except.ok.inj hasked ▸ .stats hoperands
      · cases hasked
    · cases hasked
  · intro hasks
    cases hasks with
    | pack hoperands | dump hoperands | stats hoperands => simp only [ofWords, hoperands]

theorem ofArguments_eq_ok_iff {arguments : List String} {asked : Command} :
    ofArguments arguments = .ok asked ↔ ∃ command words, arguments = command :: words ∧
      (∀ word ∈ words, ¬Dashed word) ∧ Asks words command asked := by
  constructor
  · intro hasked
    cases arguments with
    | nil => cases hasked
    | cons command words =>
      rw [ofArguments] at hasked
      cases hoption : words.find? isOption with
      | some word =>
        rw [hoption] at hasked
        cases hasked
      | none =>
        rw [hoption] at hasked
        exact ⟨command, words, rfl, find?_isOption_eq_none.mp hoption, ofWords_eq_ok_iff.mp hasked⟩
  · rintro ⟨command, words, rfl, hplain, hasks⟩
    rw [ofArguments, find?_isOption_eq_none.mpr hplain]
    exact ofWords_eq_ok_iff.mpr hasks

/-- The first word with dashes is refused before anything else is looked at. -/
theorem ofArguments_of_dashed (command : String) {before behind : List String} {word : String}
    (hbefore : ∀ other ∈ before, ¬Dashed other) (hword : Dashed word) :
    ofArguments (command :: (before ++ word :: behind)) = .error (.unknownOption word) := by
  have hfirst : (before ++ word :: behind).find? isOption = some word := by
    rw [List.find?_append, find?_isOption_eq_none.mpr hbefore, Option.none_or,
      List.find?_cons_of_pos (isOption_iff.mpr hword)]
  rw [ofArguments, hfirst]

theorem ofArguments_congr (command : String) {words others : List String}
    (hsame : operands words = operands others) :
    (ofArguments (command :: words)).map plain = (ofArguments (command :: others)).map plain := by
  have hoption : words.find? isOption = others.find? isOption := by
    rw [← find?_isOption_operands, hsame, find?_isOption_operands]
  rw [ofArguments, ofArguments, hoption]
  cases others.find? isOption with
  | some word => rfl
  | none =>
    dsimp only
    unfold ofWords
    rw [hsame]
    split
    · rfl
    · rfl
    · split
      · rfl
      · rfl
    · rfl

end TextPool.Command
