import TracedGrammar.Grammar.Basic
import TracedGrammar.Repetition.Words

/-!
# Derivations

A word derives another when each of its symbols stays or gives way to a word that it directly
stands for, and what that word derives takes its place.  In a grammar a symbol directly stands for
the right-hand sides of its rules and for the words of its sequences.
-/

namespace TracedGrammar

/-- One word derives another, where `direct` says what a symbol directly stands for. -/
inductive Derives (direct : Symbol → List Symbol → Prop) : List Symbol → List Symbol → Prop
  | nil : Derives direct [] []
  | keep (symbol : Symbol) {rest word : List Symbol} (later : Derives direct rest word) :
      Derives direct (symbol :: rest) (symbol :: word)
  | expand {symbol : Symbol} {middle first rest second : List Symbol}
      (step : direct symbol middle) (below : Derives direct middle first)
      (later : Derives direct rest second) : Derives direct (symbol :: rest) (first ++ second)

namespace Derives

variable {direct larger : Symbol → List Symbol → Prop}

theorem refl : (word : List Symbol) → Derives direct word word
  | [] => .nil
  | symbol :: word => .keep symbol (refl word)

theorem of_direct {symbol : Symbol} {word : List Symbol} (step : direct symbol word) :
    Derives direct [symbol] word := by
  simpa using Derives.expand step (refl word) .nil

theorem mono (more : ∀ symbol word, direct symbol word → larger symbol word)
    {word derived : List Symbol} (derives : Derives direct word derived) :
    Derives larger word derived := by
  induction derives with
  | nil => exact .nil
  | keep symbol _ induction => exact .keep symbol induction
  | expand step _ _ below later => exact .expand (more _ _ step) below later

theorem congr (same : ∀ symbol word, direct symbol word ↔ larger symbol word)
    {word derived : List Symbol} : Derives direct word derived ↔ Derives larger word derived := by
  constructor
  · exact mono fun symbol word => (same symbol word).mp
  · exact mono fun symbol word => (same symbol word).mpr

theorem append {first second left right : List Symbol} (former : Derives direct first left)
    (latter : Derives direct second right) : Derives direct (first ++ second) (left ++ right) := by
  induction former with
  | nil => exact latter
  | keep symbol _ induction => exact .keep symbol induction
  | expand step below _ _ later =>
      rw [List.append_assoc]
      exact .expand step below later

/-- What neighbouring words derive together comes from each of them. -/
theorem exists_of_append {first second derived : List Symbol}
    (derives : Derives direct (first ++ second) derived) :
    ∃ left right, derived = left ++ right ∧ Derives direct first left ∧
      Derives direct second right := by
  induction first generalizing derived with
  | nil => exact ⟨[], derived, rfl, .nil, derives⟩
  | cons symbol first induction =>
      cases derives with
      | keep _ later =>
          obtain ⟨left, right, rfl, former, latter⟩ := induction later
          exact ⟨symbol :: left, right, rfl, .keep symbol former, latter⟩
      | @expand _ middle above _ _ step below later =>
          obtain ⟨left, right, rfl, former, latter⟩ := induction later
          exact ⟨above ++ left, right, by simp, .expand step below former, latter⟩

theorem trans {first second third : List Symbol} (former : Derives direct first second)
    (latter : Derives direct second third) : Derives direct first third := by
  induction former generalizing third with
  | nil => exact latter
  | keep symbol _ induction =>
      cases latter with
      | keep _ later => exact .keep symbol (induction later)
      | expand step below later => exact .expand step below (induction later)
  | expand step _ _ below later =>
      obtain ⟨left, right, rfl, former, latter⟩ := latter.exists_of_append
      exact .expand step (below former) (later latter)

end Derives

variable {H : Type}

/-- A symbol directly stands for a word by one of the rules. -/
inductive DirectBy (rules : List (Rule H)) : Symbol → List Symbol → Prop
  | rule {rule : Rule H} (member : rule ∈ rules) : DirectBy rules rule.lhs rule.rhs

namespace Grammar

inductive Direct (grammar : Grammar H) : Symbol → List Symbol → Prop
  | rule {rule : Rule H} (member : rule ∈ grammar.rules) : Direct grammar rule.lhs rule.rhs
  | sequence {sequence : Sequence H} (member : sequence ∈ grammar.sequences) {word : List Symbol}
      (written : word ∈ sequence.repetition) : Direct grammar sequence.lhs word

/-- One word derives another by the rules and sequences of a grammar. -/
def Derives (grammar : Grammar H) : List Symbol → List Symbol → Prop :=
  TracedGrammar.Derives grammar.Direct

theorem direct_iff_directBy {grammar : Grammar H} (plain : grammar.sequences = [])
    {symbol : Symbol} {word : List Symbol} :
    grammar.Direct symbol word ↔ DirectBy grammar.rules symbol word := by
  constructor
  · rintro (member | member)
    · exact .rule member
    · simp [plain] at member
  · rintro ⟨member⟩
    exact .rule member

theorem derives_iff_directBy {grammar : Grammar H} (plain : grammar.sequences = [])
    {symbols word : List Symbol} :
    grammar.Derives symbols word ↔ TracedGrammar.Derives (DirectBy grammar.rules) symbols word :=
  TracedGrammar.Derives.congr fun _ _ => direct_iff_directBy plain

end Grammar

end TracedGrammar
