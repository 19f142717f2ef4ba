import TracedGrammar.Chain.Binarization
import TracedGrammar.Proofs.Chain.Links
import TracedGrammar.Proofs.Report.Success
import TracedGrammar.Proofs.Symbol.Allocation

/-!
# What binarization does

When it succeeds, every rule has been replaced by its pieces, and each took its symbols from what
the rule before has left of the supply.
-/

namespace TracedGrammar

theorem Rule.long_of_admitsSplit {H : Type} [RuleHistory H] {rule : Rule H}
    (admits : rule.admitsSplit = true) : 2 < rule.rhs.length := by
  simp only [admitsSplit, Bool.and_eq_true, decide_eq_true_eq] at admits
  exact admits.1

/-- A rule with the supply that its chain takes symbols from. -/
structure SplitRule (H : Type) where
  rule : Rule H
  before : SymbolSupply

namespace SplitRule

variable {H : Type} [RuleHistory H]

def pieces (split : SplitRule H) : List (Rule H) :=
  (split.rule.binarize split.before).1.map Prod.fst

def after (split : SplitRule H) : SymbolSupply :=
  (split.rule.binarize split.before).2

def pieceAt (split : SplitRule H) (depth : Nat) : Rule H :=
  split.rule.piece (ChainRule.link split.rule.rhs split.rule.lhs split.before depth)

variable {split : SplitRule H}

theorem binarize_eq (admits : split.rule.admitsSplit = true) :
    split.rule.binarize split.before =
      ((List.range (split.rule.rhs.length - 1)).map fun depth =>
          (split.pieceAt depth,
            (ChainRule.link split.rule.rhs split.rule.lhs split.before depth).piece.part),
        ⟨split.before.allocated + (split.rule.rhs.length - 2)⟩) := by
  have long := Rule.long_of_admitsSplit admits
  rw [Rule.binarize, if_pos admits, ChainRule.chain_eq _ _ (by omega)]
  simp only [List.map_map]
  rfl

theorem pieces_eq (admits : split.rule.admitsSplit = true) :
    split.pieces = (List.range (split.rule.rhs.length - 1)).map split.pieceAt := by
  rw [pieces, binarize_eq admits, List.map_map]
  rfl

theorem after_eq (admits : split.rule.admitsSplit = true) :
    split.after = ⟨split.before.allocated + (split.rule.rhs.length - 2)⟩ := by
  rw [after, binarize_eq admits]

theorem pieces_eq_singleton (refuses : split.rule.admitsSplit = false) :
    split.pieces = [split.rule] := by
  rw [pieces, Rule.binarize, if_neg (by simp [refuses])]
  rfl

theorem rule_mem_pieces (short : split.rule.rhs.length ≤ 2) : split.rule ∈ split.pieces := by
  cases admits : split.rule.admitsSplit with
  | false =>
      rw [pieces_eq_singleton admits]
      exact List.mem_singleton_self _
  | true => exact absurd (Rule.long_of_admitsSplit admits) (Nat.not_lt.mpr short)

theorem after_eq_before (refuses : split.rule.admitsSplit = false) :
    split.after = split.before := by
  rw [after, Rule.binarize, if_neg (by simp [refuses])]

theorem before_le_after (split : SplitRule H) :
    split.before.allocated ≤ split.after.allocated := by
  cases admits : split.rule.admitsSplit with
  | false => exact Nat.le_of_eq (congrArg _ (after_eq_before admits).symm)
  | true =>
      rw [after_eq admits]
      exact Nat.le_add_right _ _

end SplitRule

namespace Grammar

variable {H : Type} [RuleHistory H]

/-- One grammar has, in place of each rule of another, its pieces. -/
structure BinarizesTo (grammar result : Grammar H) (chain : List (SplitRule H)) : Prop where
  rules_eq : chain.map (·.rule) = grammar.rules
  chained : SymbolSupply.Chained SplitRule.before SplitRule.after grammar.supply chain result.supply
  pieces_eq : result.rules = chain.flatMap (·.pieces)
  plain : result.sequences = []

/-- Whether a rule can be split depends on the number of pieces only. -/
theorem result_binarizeRule {limits : Limits} (draft : Draft H) (rule : Rule H) :
    (binarizeRule limits draft rule).result =
      limits.checkRules (draft.rules ++ (SplitRule.mk rule draft.supply).pieces).size >>= fun _ =>
        .ok ⟨(SplitRule.mk rule draft.supply).after,
          draft.rules ++ (SplitRule.mk rule draft.supply).pieces⟩ := by
  simp only [binarizeRule]
  split <;>
    simp only [Reported.result_bind, Reported.result_report, Reported.result_liftM] <;> rfl

theorem binarizeRule_eq_ok_iff {limits : Limits} {draft next : Draft H} {rule : Rule H} :
    (binarizeRule limits draft rule).result = .ok next ↔
      (⟨(SplitRule.mk rule draft.supply).after,
        draft.rules ++ (SplitRule.mk rule draft.supply).pieces⟩ : Draft H) = next ∧
        limits.checkRules next.rules.size = .ok () := by
  rw [result_binarizeRule, bind_eq_ok_iff]
  constructor
  · rintro ⟨_, accepted, same⟩
    cases same
    exact ⟨rfl, accepted⟩
  · rintro ⟨rfl, accepted⟩
    exact ⟨(), accepted, rfl⟩

theorem exists_splits_of_fold {limits : Limits} {draft last : Draft H} {rules : List (Rule H)}
    (succeeds : (Reported.fold (binarizeRule limits) draft rules).result = .ok last) :
    ∃ chain : List (SplitRule H), chain.map (·.rule) = rules ∧
      SymbolSupply.Chained SplitRule.before SplitRule.after draft.supply chain last.supply ∧
        last.rules.toList = draft.rules.toList ++ chain.flatMap (·.pieces) := by
  induction rules generalizing draft with
  | nil =>
      rw [Reported.fold_nil_eq_ok_iff] at succeeds
      subst succeeds
      exact ⟨[], rfl, .nil _, by simp⟩
  | cons rule rules induction =>
      obtain ⟨next, first, rest⟩ := Reported.fold_cons_eq_ok_iff.mp succeeds
      obtain ⟨rfl, _⟩ := binarizeRule_eq_ok_iff.mp first
      obtain ⟨chain, rfl, chained, pieces⟩ := induction rest
      refine ⟨⟨rule, draft.supply⟩ :: chain, rfl, .cons (SplitRule.mk rule draft.supply) chained, ?_⟩
      rw [pieces, Array.toList_appendList, List.flatMap_cons, List.append_assoc]

theorem exists_binarizesTo {grammar result : Grammar H} {limits : Limits}
    (succeeds : (grammar.binarize limits).result = .ok result) :
    ∃ chain, grammar.BinarizesTo result chain := by
  unfold binarize at succeeds
  split at succeeds
  · simp only [Reported.bind_result_eq_ok_iff] at succeeds
    obtain ⟨draft, folded, _, _, same⟩ := succeeds
    cases same
    obtain ⟨chain, rules, chained, pieces⟩ := exists_splits_of_fold folded
    exact ⟨chain, rules, chained, pieces, rfl⟩
  · cases succeeds

/-- Where every rule refuses a split, nothing changes. -/
theorem BinarizesTo.rules_eq_of_refuses {grammar result : Grammar H} {chain : List (SplitRule H)}
    (binarizes : grammar.BinarizesTo result chain)
    (refuses : ∀ rule ∈ grammar.rules, rule.admitsSplit = false) : result.rules = grammar.rules := by
  have alone : ∀ split ∈ chain, split.pieces = [split.rule] := by
    intro split inChain
    refine SplitRule.pieces_eq_singleton (refuses split.rule ?_)
    rw [← binarizes.rules_eq]
    exact List.mem_map_of_mem inChain
  rw [binarizes.pieces_eq, List.flatMap_congr alone, ← binarizes.rules_eq, List.map_eq_flatMap]

/-- Rules that refuse a split stay where they are, if they come first. -/
theorem BinarizesTo.prefix_of_refuses {grammar result : Grammar H} {chain : List (SplitRule H)}
    (binarizes : grammar.BinarizesTo result chain) {kept : List (Rule H)}
    (before : kept <+: grammar.rules) (refuses : ∀ rule ∈ kept, rule.admitsSplit = false) :
    kept <+: result.rules := by
  rw [binarizes.pieces_eq]
  rw [← binarizes.rules_eq] at before
  clear binarizes
  induction kept generalizing chain with
  | nil => exact List.nil_prefix
  | cons rule kept induction =>
      rw [List.forall_mem_cons] at refuses
      cases chain with
      | nil => exact absurd before (by simp)
      | cons split chain =>
          obtain ⟨rfl, rest⟩ := List.cons_prefix_cons.mp before
          rw [List.flatMap_cons, SplitRule.pieces_eq_singleton refuses.1]
          exact List.cons_prefix_cons.mpr ⟨rfl, induction rest refuses.2⟩

theorem stage_binarize {grammar result : Grammar H} {limits : Limits}
    (succeeds : (grammar.binarize limits).result = .ok result) :
    .nullingEliminated ≤ grammar.stage ∧ result.stage = max grammar.stage .binarized := by
  unfold binarize at succeeds
  split at succeeds
  · rename_i eliminated
    simp only [Reported.bind_result_eq_ok_iff] at succeeds
    obtain ⟨_, _, _, _, same⟩ := succeeds
    cases same
    exact ⟨eliminated, rfl⟩
  · cases succeeds

theorem binarized_le_stage_binarize {grammar result : Grammar H} {limits : Limits}
    (succeeds : (grammar.binarize limits).result = .ok result) : Stage.binarized ≤ result.stage := by
  rw [(stage_binarize succeeds).2]
  exact Stage.le_max_right _ _

end Grammar

end TracedGrammar
