import Mathlib
import TracedGrammar.Proofs.Precedence.Stability
import TracedGrammar.Proofs.Run.Reached

/-!
# Normal forms are stable

Each pass leaves nothing to do for itself, and no later pass makes work for an earlier one.  So after
a normalization no pass changes anything, or meets a limit.
-/

namespace TracedGrammar

theorem Limits.checkRules_zero (limits : Limits) : limits.checkRules 0 = .ok () :=
  checkRules_eq_ok_iff.mpr fun limit _ => Nat.zero_le limit

theorem Limits.checkRules_of_le {limits : Limits} {count larger : Nat}
    (accepted : limits.checkRules larger = .ok ()) (fewer : count ≤ larger) :
    limits.checkRules count = .ok () := by
  rw [checkRules_eq_ok_iff] at accepted ⊢
  exact fun limit limited => Nat.le_trans fewer (accepted limit limited)

theorem Stage.max_normalized (stage : Stage) : max .normalized stage = .normalized := by
  cases stage <;> rfl

/-- The limits that a pass has to keep, if there are any. -/
def Pass.limits? : Pass → Option Limits
  | .expandSequences limits => some limits
  | .eliminateNulling limits => some limits
  | .eliminateNullingWith _ limits => some limits
  | .binarize limits => some limits
  | .resolvePrecedence => none
  | .normalize limits => some limits

namespace Grammar

variable {H : Type} [RuleHistory H] {grammar result : Grammar H} {limits : Limits}

section Folds

omit [RuleHistory H] in
theorem size_appendList (produced : Array (Rule H)) (added : List (Rule H)) :
    (produced ++ added).size = produced.size + added.length := by
  rw [← Array.length_toList, Array.toList_appendList, List.length_append, Array.length_toList]

omit [RuleHistory H] in
theorem size_append_cons (produced : Array (Rule H)) (rule : Rule H) (rules : List (Rule H)) :
    (produced ++ [rule]).size + rules.length = produced.size + (rule :: rules).length := by
  rw [size_appendList, List.length_singleton, List.length_cons, Nat.add_assoc, Nat.add_comm 1]

theorem fold_eliminateRule_of_refuses (nullable : SymbolSet) (produced : Array (Rule H))
    {rules : List (Rule H)} (refuses : ∀ rule ∈ rules, rule.admitsElision = false)
    (accepted : limits.checkRules (produced.size + rules.length) = .ok ()) :
    (Reported.fold (eliminateRule nullable limits) produced rules).result =
      .ok (produced ++ rules) := by
  induction rules generalizing produced with
  | nil => exact Reported.fold_nil_eq_ok_iff.mpr Array.appendList_nil.symm
  | cons rule rules induction =>
      rw [List.forall_mem_cons] at refuses
      have once : limits.checkRules (produced.size + 1) = .ok () :=
        Limits.checkRules_of_le accepted (by rw [List.length_cons]; omega)
      have kept : (eliminateRule nullable limits produced rule).result = .ok (produced ++ [rule]) := by
        refine eliminateRule_eq_ok_iff.mpr ⟨[rule], ?_, rfl⟩
        rw [Rule.variants, if_neg (by simp [refuses.1]), once]
        rfl
      refine Reported.fold_cons_eq_ok_iff.mpr ⟨_, kept, ?_⟩
      rw [← size_append_cons] at accepted
      rw [induction (produced ++ [rule]) refuses.2 accepted, Array.appendList_cons,
        Array.appendList_nil, Array.appendList_cons]

theorem fold_binarizeRule_of_refuses (draft : Draft H) {rules : List (Rule H)}
    (refuses : ∀ rule ∈ rules, rule.admitsSplit = false)
    (accepted : limits.checkRules (draft.rules.size + rules.length) = .ok ()) :
    (Reported.fold (binarizeRule limits) draft rules).result =
      .ok { draft with rules := draft.rules ++ rules } := by
  induction rules generalizing draft with
  | nil => exact Reported.fold_nil_eq_ok_iff.mpr (by rw [Array.appendList_nil])
  | cons rule rules induction =>
      rw [List.forall_mem_cons] at refuses
      rw [← size_append_cons] at accepted
      have once : limits.checkRules (draft.rules ++ [rule]).size = .ok () :=
        Limits.checkRules_of_le accepted (Nat.le_add_right _ _)
      have kept : (binarizeRule limits draft rule).result =
          .ok { draft with rules := draft.rules ++ [rule] } := by
        refine binarizeRule_eq_ok_iff.mpr ⟨?_, once⟩
        rw [SplitRule.pieces_eq_singleton refuses.1, SplitRule.after_eq_before refuses.1]
      refine Reported.fold_cons_eq_ok_iff.mpr ⟨_, kept, ?_⟩
      rw [induction { draft with rules := draft.rules ++ [rule] } refuses.2 accepted,
        Array.appendList_cons, Array.appendList_nil, Array.appendList_cons]

theorem checkRules_of_fold_binarizeRule (draft : Draft H) {rules : List (Rule H)} {last : Draft H}
    (accepted : limits.checkRules draft.rules.size = .ok ())
    (succeeds : (Reported.fold (binarizeRule limits) draft rules).result = .ok last) :
    limits.checkRules last.rules.size = .ok () := by
  induction rules generalizing draft with
  | nil =>
      rw [Reported.fold_nil_eq_ok_iff] at succeeds
      rwa [← succeeds]
  | cons rule rules induction =>
      obtain ⟨next, first, rest⟩ := Reported.fold_cons_eq_ok_iff.mp succeeds
      exact induction next (binarizeRule_eq_ok_iff.mp first).2 rest

theorem checkRules_of_binarize (succeeds : (grammar.binarize limits).result = .ok result) :
    limits.checkRules result.rules.length = .ok () := by
  unfold binarize at succeeds
  split at succeeds
  · simp only [Reported.bind_result_eq_ok_iff] at succeeds
    obtain ⟨draft, folded, _, _, same⟩ := succeeds
    cases same
    exact checkRules_of_fold_binarizeRule { supply := grammar.supply } limits.checkRules_zero folded
  · cases succeeds

end Folds

section Idle

variable (plain : grammar.sequences = []) (numbered : grammar.authoredFrom = grammar.rules.length)
include plain numbered

omit [RuleHistory H] in
theorem afterPass_eq_withStage {rules : List (Rule H)} (same : rules = grammar.rules) (stage : Stage) :
    grammar.afterPass grammar.supply rules [] stage = { grammar with stage } := by
  obtain ⟨supply, kept, sequences, declared, current, authoredFrom, sequencesConsumed⟩ := grammar
  obtain rfl : sequences = [] := plain
  obtain rfl : rules = kept := same
  obtain rfl : authoredFrom = rules.length := numbered
  simp [afterPass]

theorem eliminateNullingWith_eq_of_refuses {nullable : SymbolSet}
    (late : Stage.sequenceExpanded ≤ grammar.stage)
    (refuses : ∀ rule ∈ grammar.rules, rule.admitsElision = false)
    (accepted : limits.checkRules grammar.rules.length = .ok ()) :
    (grammar.eliminateNullingWith nullable limits).result =
      .ok { grammar with stage := max grammar.stage .nullingEliminated } := by
  have folded := fold_eliminateRule_of_refuses nullable #[] refuses (by simpa using accepted)
  have kept : ((#[] : Array (Rule H)) ++ grammar.rules).toList = grammar.rules :=
    Array.toList_appendList
  rw [eliminateNullingWith, if_pos late]
  simp only [Reported.result_bind, folded]
  exact congrArg Except.ok (afterPass_eq_withStage plain numbered kept _)

theorem binarize_eq_of_refuses (late : Stage.nullingEliminated ≤ grammar.stage)
    (refuses : ∀ rule ∈ grammar.rules, rule.admitsSplit = false)
    (accepted : limits.checkRules grammar.rules.length = .ok ()) :
    (grammar.binarize limits).result =
      .ok { grammar with stage := max grammar.stage .binarized } := by
  have folded := fold_binarizeRule_of_refuses { supply := grammar.supply } refuses
    (by simpa using accepted)
  have kept : ((#[] : Array (Rule H)) ++ grammar.rules).toList = grammar.rules :=
    Array.toList_appendList
  rw [binarize, if_pos late]
  simp only [Reported.result_bind, folded]
  exact congrArg Except.ok (afterPass_eq_withStage plain numbered kept _)

theorem resolvePrecedence_eq_of_isResolved (late : Stage.binarized ≤ grammar.stage)
    (resolved : grammar.IsResolved) : grammar.resolvePrecedence.result =
      .ok { grammar with stage := max grammar.stage .precedenceResolved } := by
  have same := afterPass_eq_withStage plain numbered rfl (max grammar.stage .precedenceResolved)
  rw [← plain] at same
  rw [resolved.resolvePrecedence_eq, if_pos late, same]

end Idle

/-- Every pass has been over the grammar, and has done all that it could do. -/
structure IsNormal (limits : Limits) (grammar : Grammar H) : Prop where
  finished : grammar.stage = .normalized
  plain : grammar.sequences = []
  numbered : grammar.authoredFrom = grammar.rules.length
  accepted : limits.checkRules grammar.rules.length = .ok ()
  elided : ∀ rule ∈ grammar.rules, rule.admitsElision = false
  split : ∀ rule ∈ grammar.rules, rule.admitsSplit = false
  resolved : grammar.IsResolved

/-- No sequence of passes within the limits fails or changes anything. -/
def IsStable (limits : Limits) (grammar : Grammar H) : Prop :=
  ∀ passes : List Pass, (∀ pass ∈ passes, ∀ other ∈ pass.limits?, other = limits) →
    passes.foldlM (fun current pass => (pass.run current).result) grammar = .ok grammar

namespace IsNormal

variable (normal : grammar.IsNormal limits)
include normal

theorem le_stage (stage : Stage) : stage ≤ grammar.stage := by
  rw [normal.finished]
  cases stage <;> decide

theorem withStage_eq (stage : Stage) :
    { grammar with stage := max grammar.stage stage } = grammar := by
  rw [normal.finished, Stage.max_normalized, ← normal.finished]

theorem expandSequences_eq : (grammar.expandSequences limits).result = .ok grammar := by
  have folded : (Reported.fold (expandSequence limits grammar.rules.length)
      { supply := grammar.supply } grammar.sequences).result =
        .ok ({ supply := grammar.supply } : Draft H) := by
    rw [normal.plain]
    exact Reported.fold_nil_eq_ok_iff.mpr rfl
  have same := afterPass_eq_withStage normal.plain normal.numbered (List.append_nil grammar.rules)
    (max grammar.stage .sequenceExpanded)
  rw [normal.withStage_eq] at same
  simp only [expandSequences, Reported.result_bind, folded]
  exact congrArg Except.ok same

theorem eliminateNullingWith_eq (nullable : SymbolSet) :
    (grammar.eliminateNullingWith nullable limits).result = .ok grammar := by
  rw [eliminateNullingWith_eq_of_refuses normal.plain normal.numbered (normal.le_stage _) normal.elided
    normal.accepted, normal.withStage_eq]

theorem binarize_eq : (grammar.binarize limits).result = .ok grammar := by
  rw [binarize_eq_of_refuses normal.plain normal.numbered (normal.le_stage _) normal.split
    normal.accepted, normal.withStage_eq]

theorem resolvePrecedence_eq : grammar.resolvePrecedence.result = .ok grammar := by
  rw [resolvePrecedence_eq_of_isResolved normal.plain normal.numbered (normal.le_stage _)
    normal.resolved, normal.withStage_eq]

theorem normalize_eq : (grammar.normalize limits).result = .ok grammar := by
  have same : { grammar with stage := .normalized } = grammar := by
    rw [← normal.finished]
  simp only [normalize, Reported.bind_result_eq_ok_iff]
  exact ⟨(), rfl, grammar, normal.expandSequences_eq, grammar, normal.eliminateNullingWith_eq _,
    grammar, normal.binarize_eq, grammar, normal.resolvePrecedence_eq, congrArg Except.ok same⟩

theorem run_eq {pass : Pass} (within : ∀ other ∈ pass.limits?, other = limits) :
    (pass.run grammar).result = .ok grammar := by
  cases pass with
  | expandSequences other =>
      obtain rfl := within other rfl
      exact normal.expandSequences_eq
  | eliminateNulling other =>
      obtain rfl := within other rfl
      exact normal.eliminateNullingWith_eq _
  | eliminateNullingWith nullable other =>
      obtain rfl := within other rfl
      exact normal.eliminateNullingWith_eq nullable
  | binarize other =>
      obtain rfl := within other rfl
      exact normal.binarize_eq
  | resolvePrecedence => exact normal.resolvePrecedence_eq
  | normalize other =>
      obtain rfl := within other rfl
      exact normal.normalize_eq

theorem isStable : grammar.IsStable limits := by
  intro passes within
  induction passes with
  | nil => rfl
  | cons pass passes induction =>
      rw [List.forall_mem_cons] at within
      rw [List.foldlM_cons, normal.run_eq within.1]
      exact induction within.2

end IsNormal

theorem authoredFrom_resolvePrecedence (succeeds : grammar.resolvePrecedence.result = .ok result)
    (binarized : Stage.binarized ≤ grammar.stage) :
    result.authoredFrom = result.rules.length := by
  have late := binarized_le_stage_resolvePrecedence succeeds binarized
  obtain ⟨resolution, _, rfl⟩ := exists_resolution succeeds
  refine if_neg fun authored => ?_
  change Stage.binarized ≤ ite _ _ _ at late
  rw [authored] at late
  exact absurd late (by decide)

section Lawful

variable [LawfulRuleHistory H]

theorem EliminatesTo.admitsElision {nullable : SymbolSet} {blocks : List (List (Rule H))}
    (eliminates : grammar.EliminatesTo result nullable blocks) :
    ∀ rule ∈ result.rules, rule.admitsElision = false := by
  intro rule member
  obtain ⟨origin, _, _, _, ⟨refuses, rfl⟩ | ⟨admits, rhs, elision, rfl⟩⟩ :=
    eliminates.exists_thinned member
  · exact refuses
  · exact Rule.admitsElision_variant admits rhs elision

theorem BinarizesTo.admitsElision {chain : List (SplitRule H)}
    (binarizes : grammar.BinarizesTo result chain)
    (elided : ∀ rule ∈ grammar.rules, rule.admitsElision = false) :
    ∀ rule ∈ result.rules, rule.admitsElision = false := by
  intro piece member
  obtain ⟨split, inChain, inPieces⟩ := binarizes.mem_rules_iff.mp member
  have refuses := elided _ (binarizes.rule_mem inChain)
  rcases SplitRule.eq_or_exists_pieceAt inPieces with ⟨_, rfl⟩ | ⟨_, depth, _, rfl⟩
  · exact refuses
  · rw [SplitRule.pieceAt, Rule.admitsElision_piece, refuses]

omit [LawfulRuleHistory H] in
theorem BinarizesTo.admitsSplit {chain : List (SplitRule H)}
    (binarizes : grammar.BinarizesTo result chain) :
    ∀ rule ∈ result.rules, rule.admitsSplit = false := by
  intro piece member
  obtain ⟨split, _, inPieces⟩ := binarizes.mem_rules_iff.mp member
  rcases SplitRule.eq_or_exists_pieceAt inPieces with ⟨refuses, rfl⟩ | ⟨_, depth, bound, rfl⟩
  · exact refuses
  · have short : (split.pieceAt depth).rhs.length = 2 := ChainRule.length_rhs_link bound
    simp only [Rule.admitsSplit, short, Nat.lt_irrefl, decide_false, Bool.false_and]

theorem isNormal_of_normalize (succeeds : (grammar.normalize limits).result = .ok result) :
    result.IsNormal limits := by
  obtain ⟨expanded, eliminated, binarized, resolved, _, elimination, binarization, resolution,
    rfl⟩ := exists_passes_of_normalize succeeds
  obtain ⟨_, eliminates⟩ := exists_eliminatesTo elimination
  obtain ⟨_, binarizes⟩ := exists_binarizesTo binarization
  have views := map_resolvePrecedence hidesPrecedence_admits resolution
  have admits (rule : Rule H) (member : rule ∈ resolved.rules) :
      rule.admitsElision = false ∧ rule.admitsSplit = false := by
    have shown := List.mem_map_of_mem (f := fun rule : Rule H =>
      (rule.face, rule.admitsElision, rule.admitsSplit)) member
    rw [views] at shown
    obtain ⟨other, inBinarized, same⟩ := List.mem_map.mp shown
    simp only [Prod.mk.injEq] at same
    rw [← same.2.1, ← same.2.2]
    exact ⟨binarizes.admitsElision eliminates.admitsElision other inBinarized,
      binarizes.admitsSplit other inBinarized⟩
  have complete : resolved.IsResolved := isResolved_of_resolvePrecedence resolution
  have numbered : resolved.authoredFrom = resolved.rules.length :=
    authoredFrom_resolvePrecedence resolution (binarized_le_stage_binarize binarization)
  have accepted : limits.checkRules resolved.rules.length = .ok () := by
    have counts : resolved.rules.length = binarized.rules.length := by
      simpa using congrArg List.length views
    rw [counts]
    exact checkRules_of_binarize binarization
  exact
    { finished := rfl
      plain := (sequences_resolvePrecedence resolution).trans binarizes.plain
      numbered := numbered
      accepted := accepted
      elided := fun rule member => (admits rule member).1
      split := fun rule member => (admits rule member).2
      resolved := complete.withStage .normalized }

end Lawful

/-- A normalized grammar is stable, whether or not its histories record anything. -/
theorem isStable_of_normalize :
    (∀ (grammar result : Grammar History) (limits : Limits),
        (grammar.normalize limits).result = .ok result → result.IsStable limits) ∧
      ∀ (grammar result : Grammar Untracked) (limits : Limits),
        (grammar.normalize limits).result = .ok result → result.IsStable limits :=
  ⟨fun _ _ _ succeeds => (isNormal_of_normalize succeeds).isStable,
    fun _ _ _ succeeds => (isNormal_of_normalize succeeds).isStable⟩

/-- Sums, with a precedence for their operator, and lists of sums that may be empty. -/
def sumsAndLists (H : Type) [RuleHistory H] : Grammar H :=
  { (((({ supply := ⟨5⟩ } : Grammar H).writeRule ⟨0⟩ [⟨0⟩, ⟨1⟩, ⟨0⟩]).2.writeRule ⟨0⟩ [⟨3⟩]).2.writeSequence
      ⟨3⟩ { item := ⟨2⟩, separator := .proper ⟨4⟩ }).2 with
    declared := PrecedenceTable.empty.insert ⟨1⟩ ⟨1, .left⟩ }

theorem sumsAndLists_isStable_of_normalize :
    (∃ result, ((sumsAndLists History).normalize {}).result = .ok result ∧ result.IsStable {}) ∧
      ∃ result, ((sumsAndLists Untracked).normalize {}).result = .ok result ∧
        result.IsStable {} := by
  obtain ⟨recorded, first⟩ :=
    exists_eq_ok (by cbv : ((sumsAndLists History).normalize {}).result.toBool = true)
  obtain ⟨unrecorded, second⟩ :=
    exists_eq_ok (by cbv : ((sumsAndLists Untracked).normalize {}).result.toBool = true)
  exact ⟨⟨recorded, first, isStable_of_normalize.1 _ recorded {} first⟩,
    unrecorded, second, isStable_of_normalize.2 _ unrecorded {} second⟩

end Grammar

end TracedGrammar
