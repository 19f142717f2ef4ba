import TracedGrammar.History.Untracked
import TracedGrammar.Proofs.Sequence.Expanded

/-!
# The language of an expanded sequence

The rules made from a sequence derive from the symbol that it defines the words of the sequence, and
no others.
-/

namespace TracedGrammar

namespace ExpandedSequence

variable {H : Type}

/-- The defined symbol is read as the words of the sequence, and every other symbol as itself. -/
def authoredReading (sequence : Sequence H) : Interpretation :=
  fun symbol => if symbol = sequence.lhs then sequence.repetition.language else {[symbol]}

theorem reading_of_writes {expanded : ExpandedSequence H}
    (lhsMember : expanded.sequence.lhs ∈ expanded.before) {top : Bool} {symbol : Symbol}
    {written : Repetition} (writes : expanded.Writes top symbol written) :
    reading expanded.before [expanded] (authoredReading expanded.sequence) symbol =
      written.language := by
  have chained : Chained expanded.before [expanded] expanded.after := .cons expanded (.nil _)
  cases writes with
  | top =>
      rw [reading_authored chained lhsMember, authoredReading, if_pos rfl]
  | helper inOrder =>
      exact reading_helper chained List.mem_cons_self inOrder

variable [RuleHistory H]

theorem reading_closed {expanded : ExpandedSequence H}
    (lhsMember : expanded.sequence.lhs ∈ expanded.before)
    (letters : ∀ letter, expanded.sequence.repetition.IsLetter letter →
      letter ∈ expanded.before ∧ letter ≠ expanded.sequence.lhs)
    (symbol : Symbol) (middle : List Symbol) (step : DirectBy expanded.rules symbol middle) :
    let meaning := reading expanded.before [expanded] (authoredReading expanded.sequence)
    meaning.word middle ≤ meaning symbol := by
  have chained : Chained expanded.before [expanded] expanded.after := .cons expanded (.nil _)
  obtain ⟨member⟩ := step
  obtain ⟨top, symbol, written, writes, row, inside, rfl⟩ := expanded.mem_rules_iff.mp member
  have itself := reading_of_writes lhsMember writes
  change Interpretation.word _ (row.map _) ≤ reading _ _ _ symbol
  rw [itself]
  refine word_rhs_le chained List.mem_cons_self ?_ writes inside fun _ => itself
  intro letter occurs
  obtain ⟨allocated, different⟩ := letters letter occurs
  exact ⟨allocated, if_neg different⟩

theorem mem_of_derives {expanded : ExpandedSequence H}
    (lhsMember : expanded.sequence.lhs ∈ expanded.before)
    (letters : ∀ letter, expanded.sequence.repetition.IsLetter letter →
      letter ∈ expanded.before ∧ letter ≠ expanded.sequence.lhs)
    {word : List Symbol}
    (others : ∀ symbol ∈ word, symbol ∈ expanded.before ∧ symbol ≠ expanded.sequence.lhs)
    (derives : Derives (DirectBy expanded.rules) [expanded.sequence.lhs] word) :
    word ∈ expanded.sequence.repetition := by
  have chained : Chained expanded.before [expanded] expanded.after := .cons expanded (.nil _)
  have inside := derives.mem_word (reading_closed lhsMember letters) ?_
  · rw [Interpretation.word_singleton, reading_authored chained lhsMember, authoredReading,
      if_pos rfl] at inside
    exact inside
  · intro symbol member
    obtain ⟨allocated, different⟩ := others symbol member
    rw [reading_authored chained allocated, authoredReading, if_neg different]
    exact Set.mem_singleton [symbol]

end ExpandedSequence

namespace Sequence

/-- A sequence whose range is not empty can be expanded.  Over symbols that were there before, other
than the symbol that the sequence defines, its rules derive from that symbol exactly the words of
the sequence. -/
theorem derives_expand_iff {H : Type} [RuleHistory H] (sequence : Sequence H) (supply : SymbolSupply)
    (nonempty : ∀ most, sequence.repetition.most = some most → sequence.repetition.least ≤ most)
    (lhsMember : sequence.lhs ∈ supply)
    (letters : ∀ letter, sequence.repetition.IsLetter letter →
      letter ∈ supply ∧ letter ≠ sequence.lhs) :
    ∃ rules after, sequence.expand supply = .ok (rules, after) ∧
      ∀ word : List Symbol, (∀ symbol ∈ word, symbol ∈ supply ∧ symbol ≠ sequence.lhs) →
        (Derives (DirectBy rules) [sequence.lhs] word ↔ word ∈ sequence.repetition) := by
  obtain ⟨expanded, rfl, rfl⟩ := ExpandedSequence.exists_of_isValid sequence nonempty supply
  refine ⟨expanded.rules, expanded.after, expanded.expand_eq, fun word others => ?_⟩
  constructor
  · exact ExpandedSequence.mem_of_derives lhsMember letters others
  · intro member
    exact expanded.derives_of_mem (fun _ inside => .rule inside) member

/-- Three to seven items with separators between them, and perhaps one after the last. -/
def threeToSeven : Sequence Untracked where
  lhs := ⟨0⟩
  repetition := { item := ⟨1⟩, least := 3, most := some 7, separator := .liberal ⟨2⟩ }
  history := {}

theorem derives_threeToSeven_iff :
    ∃ rules after, threeToSeven.expand ⟨3⟩ = .ok (rules, after) ∧
      ∀ word : List Symbol, (∀ symbol ∈ word, symbol ∈ SymbolSupply.mk 3 ∧ symbol ≠ ⟨0⟩) →
        (Derives (DirectBy rules) [⟨0⟩] word ↔ word ∈ threeToSeven.repetition) := by
  refine derives_expand_iff threeToSeven ⟨3⟩ ?_ ?_ ?_
  · rintro most ⟨⟩
    decide
  · decide
  · rintro letter (rfl | separates)
    · decide
    · cases separates
      decide

end Sequence

end TracedGrammar
