import TracedGrammar.Normalization
import TracedGrammar.Proofs.Chain.Language
import TracedGrammar.Proofs.Expansion.Language
import TracedGrammar.Proofs.Precedence.Pass

/-!
# The passes of a normalization

A normalization that succeeds has gone through an expansion, an elimination and a binarization, and
has changed nothing but precedence after that.
-/

namespace TracedGrammar

variable {H : Type}

theorem directBy_congr {first second : List (Rule H)}
    (same : first.map (fun rule => (rule.lhs, rule.rhs)) =
      second.map fun rule => (rule.lhs, rule.rhs)) {symbol : Symbol} {word : List Symbol} :
    DirectBy first symbol word ↔ DirectBy second symbol word := by
  have shape (rules : List (Rule H)) : DirectBy rules symbol word ↔
      (symbol, word) ∈ rules.map fun rule => (rule.lhs, rule.rhs) := by
    constructor
    · rintro ⟨member⟩
      exact List.mem_map.mpr ⟨_, member, rfl⟩
    · intro member
      obtain ⟨rule, inRules, found⟩ := List.mem_map.mp member
      cases found
      exact .rule inRules
  rw [shape first, shape second, same]

namespace Grammar

variable [RuleHistory H]

/-- The grammars between the passes of a normalization, with what each pass did. -/
structure NormalizesTo (grammar : Grammar H) (limits : Limits) (result : Grammar H) where
  expanded : Grammar H
  eliminated : Grammar H
  binarized : Grammar H
  sequences : List (ExpandedSequence H)
  blocks : List (List (Rule H))
  splits : List (SplitRule H)
  succeeds : (grammar.expandSequences limits).result = .ok expanded
  expands : grammar.ExpandsTo expanded sequences
  eliminates : expanded.EliminatesTo eliminated expanded.nullableSymbols blocks
  binarizes : eliminated.BinarizesTo binarized splits
  plain : result.sequences = []
  supply_eq : result.supply = binarized.supply
  view_eq : ∀ {β : Type} {view : Rule H → β}, HidesPrecedence view →
    result.rules.map view = binarized.rules.map view

theorem exists_passes_of_normalize {grammar result : Grammar H} {limits : Limits}
    (succeeds : (grammar.normalize limits).result = .ok result) :
    ∃ expanded eliminated binarized resolved,
      (grammar.expandSequences limits).result = .ok expanded ∧
      (expanded.eliminateNulling limits).result = .ok eliminated ∧
      (eliminated.binarize limits).result = .ok binarized ∧
      binarized.resolvePrecedence.result = .ok resolved ∧
      result = { resolved with stage := .normalized } := by
  simp only [normalize, Reported.bind_result_eq_ok_iff] at succeeds
  obtain ⟨_, _, expanded, expansion, eliminated, elimination, binarized, binarization, resolved,
    resolution, same⟩ := succeeds
  cases same
  exact ⟨expanded, eliminated, binarized, resolved, expansion, elimination, binarization, resolution,
    rfl⟩

theorem exists_normalizesTo {grammar result : Grammar H} {limits : Limits}
    (succeeds : (grammar.normalize limits).result = .ok result) :
    Nonempty (grammar.NormalizesTo limits result) := by
  obtain ⟨expanded, eliminated, binarized, resolved, expansion, elimination, binarization, resolution,
    rfl⟩ := exists_passes_of_normalize succeeds
  obtain ⟨sequences, expands⟩ := exists_expandsTo expansion
  obtain ⟨blocks, eliminates⟩ := exists_eliminatesTo elimination
  obtain ⟨splits, binarizes⟩ := exists_binarizesTo binarization
  refine ⟨⟨expanded, eliminated, binarized, sequences, blocks, splits, expansion, expands,
    eliminates, binarizes, ?_, ?_, ?_⟩⟩
  · exact (sequences_resolvePrecedence resolution).trans binarizes.plain
  · have same := supply_resolvePrecedence resolution
    exact same
  · intro β view hides
    have kept := map_resolvePrecedence hides resolution
    exact kept

namespace NormalizesTo

variable {grammar result : Grammar H} {limits : Limits}
  (normalizes : grammar.NormalizesTo limits result)

theorem hidesPrecedence_shape : HidesPrecedence fun rule : Rule H => (rule.lhs, rule.rhs) :=
  fun _ _ _ _ => rfl

include normalizes

theorem directBy_iff {symbol : Symbol} {word : List Symbol} :
    DirectBy result.rules symbol word ↔ DirectBy normalizes.binarized.rules symbol word :=
  directBy_congr (normalizes.view_eq hidesPrecedence_shape)

/-- Rules that are short enough after the elimination of nullable symbols stay as they are, apart
from precedence. -/
theorem exists_of_short {β : Type} {view : Rule H → β} (hides : HidesPrecedence view)
    {rule : Rule H} (member : rule ∈ normalizes.eliminated.rules) (short : rule.rhs.length ≤ 2) :
    ∃ other ∈ result.rules, view other = view rule := by
  obtain ⟨split, inChain, rfl⟩ := normalizes.binarizes.exists_split member
  have inBinarized := normalizes.binarizes.mem_rules_iff.mpr
    ⟨split, inChain, SplitRule.rule_mem_pieces short⟩
  have shown := List.mem_map_of_mem (f := view) inBinarized
  rw [← normalizes.view_eq hides] at shown
  exact List.mem_map.mp shown

end NormalizesTo

end Grammar

end TracedGrammar
