import Mathlib
import TracedGrammar.History.Untracked
import TracedGrammar.Proofs.Expansion.Language

/-!
# When the expansion is equivalent

The expansion of a grammar derives what the grammar derives exactly when its sequences absorb
further items.  A rule beside an unbounded sequence for the same symbol is enough to break this.
-/

namespace TracedGrammar

namespace Grammar

variable {H : Type} [RuleHistory H]

/-- The expansion of a grammar is equivalent to it, over words of terminals, exactly when each
sequence that is expanded with itself can add its step to whatever its symbol derives without
deriving anything new. -/
theorem expandSequences_equivalent_iff {grammar result : Grammar H} {limits : Limits}
    (uses : grammar.UsesAllocated)
    (succeeds : (grammar.expandSequences limits).result = .ok result) :
    (∀ symbol ∈ grammar.supply, ∀ word : List Symbol,
      (∀ other ∈ word, grammar.IsTerminal other) →
        (grammar.Derives [symbol] word ↔ result.Derives [symbol] word)) ↔
      ∀ sequence ∈ grammar.sequences, sequence.repetition.IsRecursive →
        grammar.AbsorbsStep grammar.IsTerminal sequence := by
  obtain ⟨chain, expands⟩ := exists_expandsTo succeeds
  constructor
  · intro equivalent sequence member recursive word terminal derives
    have lhsMember := uses.sequence_mem _ member
    apply (equivalent sequence.lhs lhsMember word terminal).mpr
    exact expands.absorbsStep member recursive grammar.IsTerminal word terminal
      (expands.derives derives)
  · intro absorbs symbol symbolMember word terminal
    constructor
    · intro derives
      exact expands.derives derives
    · intro derives
      refine expands.derives_of_derives uses (fun _ inside => inside.1) absorbs ?_ terminal derives
      simpa using symbolMember

/-- A symbol that stands for a single 2 by a rule, and for one or more 1 by a sequence. -/
def ruleBesideSequence : Grammar Untracked where
  supply := ⟨3⟩
  rules := [⟨⟨0⟩, [⟨2⟩], {}⟩]
  sequences := [⟨⟨0⟩, { item := ⟨1⟩, least := 1 }, {}⟩]

def ruleBesideSequenceExpanded : Grammar Untracked where
  supply := ⟨3⟩
  rules := [⟨⟨0⟩, [⟨2⟩], {}⟩, ⟨⟨0⟩, [⟨1⟩], {}⟩, ⟨⟨0⟩, [⟨0⟩, ⟨1⟩], {}⟩]
  stage := .sequenceExpanded
  authoredFrom := 3
  sequencesConsumed := 1

theorem ruleBesideSequence_expands :
    (ruleBesideSequence.expandSequences {}).result = .ok ruleBesideSequenceExpanded := by
  cbv

theorem ruleBesideSequence_usesAllocated : ruleBesideSequence.UsesAllocated where
  lhs_mem := by decide
  rhs_mem := by decide
  sequence_mem := by decide
  letter_mem := by
    intro sequence member letter
    rw [List.mem_singleton.mp member]
    rintro (rfl | separates)
    · decide
    · cases separates

theorem ruleBesideSequence_equivalent_iff :
    ruleBesideSequence.UsesAllocated ∧
      (ruleBesideSequence.expandSequences {}).result = .ok ruleBesideSequenceExpanded ∧
      ((∀ symbol ∈ ruleBesideSequence.supply, ∀ word : List Symbol,
        (∀ other ∈ word, ruleBesideSequence.IsTerminal other) →
          (ruleBesideSequence.Derives [symbol] word ↔
            ruleBesideSequenceExpanded.Derives [symbol] word)) ↔
        ∀ sequence ∈ ruleBesideSequence.sequences, sequence.repetition.IsRecursive →
          ruleBesideSequence.AbsorbsStep ruleBesideSequence.IsTerminal sequence) :=
  ⟨ruleBesideSequence_usesAllocated, ruleBesideSequence_expands,
    expandSequences_equivalent_iff ruleBesideSequence_usesAllocated ruleBesideSequence_expands⟩

theorem ruleBesideSequence_not_derives :
    ¬ruleBesideSequence.Derives [⟨0⟩] [⟨2⟩, ⟨1⟩] := by
  let meaning : Interpretation := fun symbol =>
    if symbol = ⟨0⟩ then wordsWhere fun word => word = [⟨2⟩] ∨ ∀ letter ∈ word, letter = ⟨1⟩
    else {[symbol]}
  have closed : ∀ symbol middle, ruleBesideSequence.Direct symbol middle →
      meaning.word middle ≤ meaning symbol := by
    rintro symbol middle (@⟨rule, member⟩ | @⟨sequence, member, middle, written⟩)
    · rw [List.mem_singleton.mp member]
      intro word inside
      apply Or.inl
      rwa [Interpretation.word_singleton] at inside
    · rw [List.mem_singleton.mp member] at written ⊢
      have ones : ∀ letter ∈ middle, letter = ⟨1⟩ := by
        intro letter occurs
        exact (Repetition.isLetter_of_mem written occurs).resolve_right (by simp [Separator.symbol?])
      intro word inside
      rw [Interpretation.word_eq_self fun letter occurs => by rw [ones letter occurs]; rfl] at inside
      rw [show word = middle from inside]
      exact .inr ones
  have stays : ∀ symbol ∈ ([⟨2⟩, ⟨1⟩] : List Symbol), [symbol] ∈ meaning symbol := by
    intro symbol member
    have different : symbol ≠ ⟨0⟩ := by
      rintro rfl
      simp at member
    rw [show meaning symbol = {[symbol]} from if_neg different]
    exact Set.mem_singleton [symbol]
  intro derives
  have inside := derives.mem_word closed stays
  rw [Interpretation.word_singleton] at inside
  rcases inside with short | ones
  · simp at short
  · simpa using ones ⟨2⟩

/-- The expansion puts a 1 after the 2, so it is not equivalent. -/
theorem ruleBesideSequence_not_equivalent :
    ruleBesideSequence.UsesAllocated ∧
      (ruleBesideSequence.expandSequences {}).result = .ok ruleBesideSequenceExpanded ∧
      ¬∀ symbol ∈ ruleBesideSequence.supply, ∀ word : List Symbol,
        (∀ other ∈ word, ruleBesideSequence.IsTerminal other) →
          (ruleBesideSequence.Derives [symbol] word ↔
            ruleBesideSequenceExpanded.Derives [symbol] word) := by
  refine ⟨ruleBesideSequence_usesAllocated, ruleBesideSequence_expands, fun equivalent => ?_⟩
  refine ruleBesideSequence_not_derives ((equivalent ⟨0⟩ (by decide) _ ?_).mpr ?_)
  · simp only [IsTerminal, IsDefined]
    decide
  · have start : ⟨⟨0⟩, [⟨2⟩], {}⟩ ∈ ruleBesideSequenceExpanded.rules := by decide
    have longer : ⟨⟨0⟩, [⟨0⟩, ⟨1⟩], {}⟩ ∈ ruleBesideSequenceExpanded.rules := by decide
    exact (TracedGrammar.Derives.of_direct (Direct.rule longer)).trans
      ((TracedGrammar.Derives.of_direct (Direct.rule start)).append (.refl [⟨1⟩]))

end Grammar

end TracedGrammar
