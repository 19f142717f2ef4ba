import TracedGrammar.Proofs.Expansion.Pass

/-!
# The part of an expansion that belongs to a sequence

When one sequence alone defines its symbol, that symbol and the helpers of the sequence are defined
by the rules of the sequence only, and these use nothing else but its letters.
-/

namespace TracedGrammar

namespace Grammar

variable {H : Type}

/-- The symbol of a sequence, its letters and its helpers. -/
def SequencePart (chain : List (ExpandedSequence H)) (sequence : Sequence H) (symbol : Symbol) :
    Prop :=
  symbol = sequence.lhs ∨ sequence.repetition.IsLetter symbol ∨
    ∃ expanded ∈ chain, expanded.sequence = sequence ∧
      ∃ child ∈ expanded.order, expanded.symbolOf child = symbol

/-- One sequence alone defines its symbol, defined symbols and the letters of the sequence are
allocated, and its symbol is none of its letters. -/
structure IsSeparate (grammar : Grammar H) (sequence : Sequence H) : Prop where
  member : sequence ∈ grammar.sequences
  only : grammar.IsOnlyDefinition sequence
  defined : ∀ symbol, grammar.IsDefined symbol → symbol ∈ grammar.supply
  letters : ∀ letter, sequence.repetition.IsLetter letter →
    letter ∈ grammar.supply ∧ letter ≠ sequence.lhs

theorem IsSeparate.lhs_mem {grammar : Grammar H} {sequence : Sequence H}
    (separate : grammar.IsSeparate sequence) : sequence.lhs ∈ grammar.supply :=
  separate.defined _ (.inr ⟨sequence, separate.member, rfl⟩)

variable [RuleHistory H] {grammar result : Grammar H} {chain : List (ExpandedSequence H)}
  {sequence : Sequence H}

theorem part_of_mem_rhs {expanded : ExpandedSequence H} (inChain : expanded ∈ chain)
    (isSequence : expanded.sequence = sequence) {top : Bool} {symbol other : Symbol}
    {written : Repetition} (writes : expanded.Writes top symbol written) {row : List Part}
    (inRows : row ∈ written.alternatives) (occurs : other ∈ (expanded.ruleFor top symbol row).rhs) :
    SequencePart chain sequence other := by
  rcases expanded.mem_rhs_ruleFor writes inRows occurs with letter | rfl | ⟨child, inOrder, rfl⟩
  · exact .inr (.inl (isSequence ▸ letter))
  · cases writes with
    | top => exact .inl (congrArg _ isSequence)
    | helper inOrder => exact .inr (.inr ⟨expanded, inChain, isSequence, written, inOrder, rfl⟩)
  · exact .inr (.inr ⟨expanded, inChain, isSequence, child, inOrder, rfl⟩)

variable (separate : grammar.IsSeparate sequence) (expands : grammar.ExpandsTo result chain)
include separate expands

theorem IsSeparate.helper_ne_lhs {expanded : ExpandedSequence H} (inChain : expanded ∈ chain)
    {child : Repetition} (inOrder : child ∈ expanded.order) :
    expanded.symbolOf child ≠ sequence.lhs := by
  intro same
  apply expands.chained.helper_not_mem inChain inOrder
  rw [same]
  exact separate.lhs_mem

theorem IsSeparate.part_mem {symbol : Symbol} (inside : SequencePart chain sequence symbol) :
    symbol ∈ result.supply := by
  rcases inside with rfl | letter | ⟨expanded, inChain, _, child, inOrder, rfl⟩
  · exact expands.mem_supply (separate.lhs_mem)
  · exact expands.mem_supply (separate.letters symbol letter).1
  · exact expands.helper_mem inChain inOrder

theorem IsSeparate.exists_ruleFor {rule : Rule H} (member : rule ∈ result.rules)
    (inside : SequencePart chain sequence rule.lhs)
    (free : ¬sequence.repetition.IsLetter rule.lhs) :
    ∃ expanded ∈ chain, expanded.sequence = sequence ∧ ∃ top symbol written,
      expanded.Writes top symbol written ∧ ∃ row ∈ written.alternatives,
        expanded.ruleFor top symbol row = rule := by
  rcases expands.mem_rules_iff.mp member with authored | ⟨expanded, inChain, new⟩
  · exfalso
    rcases inside with same | letter | ⟨owner, inOwner, _, child, inOrder, same⟩
    · exact separate.only.rule_ne rule authored same
    · exact free letter
    · apply expands.chained.helper_not_mem inOwner inOrder
      rw [same]
      exact separate.defined _ (.inl ⟨rule, authored, rfl⟩)
  · obtain ⟨top, symbol, written, writes, row, inRows, rfl⟩ := expanded.mem_rules_iff.mp new
    refine ⟨expanded, inChain, ?_, top, symbol, written, writes, row, inRows, rfl⟩
    change SequencePart chain sequence symbol at inside
    have inSequences := expands.mem_sequences inChain
    cases writes with
    | top =>
        rcases inside with same | letter | ⟨owner, inOwner, _, child, inOrder, same⟩
        · exact separate.only.sequence_eq _ inSequences same
        · exact absurd letter free
        · refine absurd ?_ (expands.chained.helper_not_mem inOwner inOrder)
          rw [same]
          exact separate.defined _ (.inr ⟨expanded.sequence, inSequences, rfl⟩)
    | helper inOrder =>
        rcases inside with same | letter | ⟨owner, inOwner, isSequence, child, inOther, same⟩
        · exact absurd same (separate.helper_ne_lhs expands inChain inOrder)
        · exact absurd letter free
        · rw [← isSequence]
          exact congrArg _ (expands.chained.eq_of_symbolOf_eq inChain inOwner inOrder inOther
            same.symm).1

/-- The symbol of the sequence occurs again only in a step of its own. -/
theorem IsSeparate.lhs_not_mem_rhs {expanded : ExpandedSequence H} (inChain : expanded ∈ chain)
    (isSequence : expanded.sequence = sequence) {top : Bool} {symbol : Symbol}
    {written : Repetition} (writes : expanded.Writes top symbol written) {row : List Part}
    (inRows : row ∈ written.alternatives) (plain : top = true → .self ∉ row) :
    sequence.lhs ∉ (expanded.ruleFor top symbol row).rhs := by
  intro occurs
  obtain ⟨part, inRow, same⟩ := List.mem_map.mp occurs
  cases part with
  | symbol letter =>
      have isLetter := expanded.layout.isLetter_of_writes expanded.valid writes inRows inRow
      rw [isSequence] at isLetter
      exact (separate.letters letter isLetter).2 same
  | self =>
      cases writes with
      | top => exact plain rfl inRow
      | helper inOrder => exact separate.helper_ne_lhs expands inChain inOrder same
  | nested child =>
      have nested : child ∈ Part.nestedIn row := List.mem_filterMap.mpr ⟨_, inRow, rfl⟩
      exact separate.helper_ne_lhs expands inChain
        (expanded.layout.mem_order_of_writes writes inRows nested) same

end Grammar

end TracedGrammar
