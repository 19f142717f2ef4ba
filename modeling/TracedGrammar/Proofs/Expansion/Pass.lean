import TracedGrammar.Grammar.Expansion
import TracedGrammar.Language.Derivation
import TracedGrammar.Proofs.Grammar.Symbols
import TracedGrammar.Proofs.Report.Success
import TracedGrammar.Proofs.Sequence.Expanded

/-!
# What the expansion of a grammar does

When it succeeds, the rules are those that were there before and those of all sequences, which are
expanded one after the other.
-/

namespace TracedGrammar

namespace Grammar

variable {H : Type} [RuleHistory H]

/-- One grammar is the expansion of another. -/
structure ExpandsTo (grammar result : Grammar H) (chain : List (ExpandedSequence H)) : Prop where
  sequences_eq : chain.map (·.sequence) = grammar.sequences
  chained : ExpandedSequence.Chained grammar.supply chain result.supply
  rules_eq : result.rules = grammar.rules ++ chain.flatMap (·.rules)
  plain : result.sequences = []

theorem exists_expanded_of_expandSequence {limits : Limits} {kept : Nat} {draft next : Draft H}
    {sequence : Sequence H}
    (succeeds : (expandSequence limits kept draft sequence).result = .ok next) :
    ∃ expanded : ExpandedSequence H, expanded.sequence = sequence ∧
      expanded.before = draft.supply ∧ next.supply = expanded.after ∧
        next.rules.toList = draft.rules.toList ++ expanded.rules := by
  simp only [expandSequence, Reported.bind_result_eq_ok_iff] at succeeds
  obtain ⟨_, validated, _, _, written, expands, _, _, same⟩ := succeeds
  have valid := Repetition.validate_eq_ok_iff.mp validated
  obtain ⟨expanded, rfl, before⟩ :=
    ExpandedSequence.exists_of_isValid sequence valid draft.supply
  simp only [Reported.result_liftM, Draft.expand, ← before, expanded.expand_eq] at expands
  cases expands
  cases same
  exact ⟨expanded, rfl, before, rfl, Array.toList_appendList⟩

theorem exists_chain_of_fold {limits : Limits} {kept : Nat} {draft last : Draft H}
    {sequences : List (Sequence H)}
    (succeeds : (Reported.fold (expandSequence limits kept) draft sequences).result = .ok last) :
    ∃ chain : List (ExpandedSequence H), chain.map (·.sequence) = sequences ∧
      ExpandedSequence.Chained draft.supply chain last.supply ∧
        last.rules.toList = draft.rules.toList ++ chain.flatMap (·.rules) := by
  induction sequences generalizing draft with
  | nil =>
      rw [Reported.fold_nil_eq_ok_iff] at succeeds
      subst succeeds
      exact ⟨[], rfl, .nil _, by simp⟩
  | cons sequence sequences induction =>
      obtain ⟨next, first, rest⟩ := Reported.fold_cons_eq_ok_iff.mp succeeds
      obtain ⟨expanded, rfl, before, after, written⟩ := exists_expanded_of_expandSequence first
      obtain ⟨chain, rfl, chained, rules⟩ := induction rest
      refine ⟨expanded :: chain, rfl, ?_, ?_⟩
      · rw [after] at chained
        rw [← before]
        exact .cons expanded chained
      · rw [rules, written, List.flatMap_cons, List.append_assoc]

theorem exists_expandsTo {grammar result : Grammar H} {limits : Limits}
    (succeeds : (grammar.expandSequences limits).result = .ok result) :
    ∃ chain, grammar.ExpandsTo result chain := by
  simp only [expandSequences, Reported.bind_result_eq_ok_iff] at succeeds
  obtain ⟨draft, folded, _, _, same⟩ := succeeds
  cases same
  obtain ⟨chain, sequences, chained, rules⟩ := exists_chain_of_fold folded
  refine ⟨chain, sequences, chained, ?_, rfl⟩
  change grammar.rules ++ draft.rules.toList = _
  rw [rules]
  rfl

theorem stage_expandSequences {grammar result : Grammar H} {limits : Limits}
    (succeeds : (grammar.expandSequences limits).result = .ok result) :
    result.stage = max grammar.stage .sequenceExpanded := by
  simp only [expandSequences, Reported.bind_result_eq_ok_iff] at succeeds
  obtain ⟨_, _, _, _, same⟩ := succeeds
  cases same
  rfl

namespace ExpandsTo

variable {grammar result : Grammar H} {chain : List (ExpandedSequence H)}
  (expands : grammar.ExpandsTo result chain)
include expands

theorem mem_sequences {expanded : ExpandedSequence H} (inChain : expanded ∈ chain) :
    expanded.sequence ∈ grammar.sequences := by
  rw [← expands.sequences_eq]
  exact List.mem_map_of_mem inChain

theorem exists_expanded {sequence : Sequence H} (member : sequence ∈ grammar.sequences) :
    ∃ expanded ∈ chain, expanded.sequence = sequence := by
  rw [← expands.sequences_eq] at member
  exact List.mem_map.mp member

theorem mem_rules_iff {rule : Rule H} :
    rule ∈ result.rules ↔ rule ∈ grammar.rules ∨ ∃ expanded ∈ chain, rule ∈ expanded.rules := by
  rw [expands.rules_eq, List.mem_append, List.mem_flatMap]

theorem mem_supply {symbol : Symbol} (member : symbol ∈ grammar.supply) :
    symbol ∈ result.supply :=
  Nat.lt_of_lt_of_le member (expands.chained.allocated_le ExpandedSequence.before_le_after)

theorem helper_mem {expanded : ExpandedSequence H} (inChain : expanded ∈ chain)
    {other : Repetition} (inOrder : other ∈ expanded.order) :
    expanded.symbolOf other ∈ result.supply :=
  (expands.chained.helper_id inChain inOrder).2

theorem lhs_mem_of_writes (defined : ∀ symbol, grammar.IsDefined symbol → symbol ∈ grammar.supply)
    {expanded : ExpandedSequence H} (inChain : expanded ∈ chain) {top : Bool} {symbol : Symbol}
    {written : Repetition} (writes : expanded.Writes top symbol written) :
    symbol ∈ result.supply := by
  cases writes with
  | top =>
      exact expands.mem_supply
        (defined _ (.inr ⟨expanded.sequence, expands.mem_sequences inChain, rfl⟩))
  | helper inOrder => exact expands.helper_mem inChain inOrder

theorem lhs_mem (defined : ∀ symbol, grammar.IsDefined symbol → symbol ∈ grammar.supply)
    {rule : Rule H} (member : rule ∈ result.rules) : rule.lhs ∈ result.supply := by
  rcases expands.mem_rules_iff.mp member with old | ⟨expanded, inChain, new⟩
  · exact expands.mem_supply (defined _ (.inl ⟨rule, old, rfl⟩))
  · obtain ⟨top, symbol, written, writes, row, inside, rfl⟩ := expanded.mem_rules_iff.mp new
    exact expands.lhs_mem_of_writes defined inChain writes

/-- Without sequences there is nothing to expand. -/
theorem eq_of_no_sequences (without : grammar.sequences = []) :
    result.rules = grammar.rules ∧ result.supply = grammar.supply := by
  have none := expands.sequences_eq
  rw [without, List.map_eq_nil_iff] at none
  subst none
  exact ⟨expands.rules_eq.trans (List.append_nil _), expands.chained.eq_of_nil.symm⟩

theorem usesAllocated (uses : grammar.UsesAllocated) : result.UsesAllocated where
  lhs_mem := fun rule member => expands.lhs_mem uses.defined_mem member
  rhs_mem := by
    intro rule member other occurs
    rcases expands.mem_rules_iff.mp member with old | ⟨expanded, inChain, new⟩
    · exact expands.mem_supply (uses.rhs_mem rule old other occurs)
    · obtain ⟨top, symbol, written, writes, row, inside, rfl⟩ := expanded.mem_rules_iff.mp new
      rcases expanded.mem_rhs_ruleFor writes inside occurs with
        letter | rfl | ⟨child, inOrder, rfl⟩
      · exact expands.mem_supply (uses.letter_mem _ (expands.mem_sequences inChain) other letter)
      · exact expands.lhs_mem_of_writes uses.defined_mem inChain writes
      · exact expands.helper_mem inChain inOrder
  sequence_mem := by simp [expands.plain]
  letter_mem := by simp [expands.plain]

end ExpandsTo

end Grammar

end TracedGrammar
