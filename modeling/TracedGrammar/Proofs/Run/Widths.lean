import TracedGrammar.Proofs.Nulling.Records
import TracedGrammar.Proofs.Run.Records
import TracedGrammar.Proofs.Run.Steps
import TracedGrammar.Proofs.Sequence.Size

/-!
# How large recorded numbers are

The numbers that passes record are places on right-hand sides and lengths of them, and they have 32
bits.  As long as no longer right-hand sides are written, passes make no longer ones and record no
larger numbers, so all of them are what they are meant to be.
-/

namespace TracedGrammar

namespace History

variable {history other : History}

/-- The numbers that have been recorded fit into 32 bits. -/
structure IsNarrow (history : History) : Prop where
  piece : ∀ piece, history.chainPiece = some piece →
    piece.depth < UInt32.size ∧ piece.fullLength < UInt32.size
  elision : ∀ elision, history.elision = some elision → elision.lengthBefore < UInt32.size

theorem IsNarrow.of_records (narrow : history.IsNarrow)
    (same : other.chainPiece = history.chainPiece ∧ other.elision = history.elision) :
    other.IsNarrow where
  piece := by
    rw [same.1]
    exact narrow.piece
  elision := by
    rw [same.2]
    exact narrow.elision

theorem holdsOfWritten_isNarrow : HoldsOfWritten IsNarrow where
  blank := ⟨nofun, nofun⟩
  ofOrigin := fun _ => ⟨nofun, nofun⟩
  setAction := fun _ _ _ narrow set => narrow.of_records (records_of_setAction set)
  setPrecedence := fun _ _ _ narrow set => narrow.of_records (records_of_setPrecedence set)

theorem IsNarrow.split (narrow : history.IsNarrow) {piece : ChainPiece}
    (inside : piece.depth < piece.fullLength) (fits : piece.fullLength < UInt32.size) :
    (history.split piece).IsNarrow where
  piece := by
    rintro _ ⟨⟩
    exact ⟨Nat.lt_trans inside fits, fits⟩
  elision := narrow.elision

theorem IsNarrow.elided (narrow : history.IsNarrow) {elision : Elision}
    (fits : elision.lengthBefore < UInt32.size) :
    { history with elision := some elision }.IsNarrow where
  piece := narrow.piece
  elision := by
    rintro _ ⟨⟩
    exact fits

end History

namespace Grammar

variable {grammar next : Grammar History} {limits : Limits}

/-- All right-hand sides are short enough for their lengths to be recorded, and so are those that have
been recorded. -/
structure IsNarrow (grammar : Grammar History) : Prop where
  rhs : ∀ rule ∈ grammar.rules, rule.rhs.length < UInt32.size
  histories : grammar.Histories History.IsNarrow

namespace IsNarrow

variable (narrow : grammar.IsNarrow)
include narrow

theorem expand (done : (grammar.expandSequences limits).result = .ok next) : next.IsNarrow := by
  obtain ⟨chain, expands⟩ := exists_expandsTo done
  refine ⟨fun rule member => ?rhs, fun rule member => ?rule, by simp [expands.plain]⟩
  case rhs =>
    rcases expands.mem_rules_iff.mp member with old | ⟨expanded, _, new⟩
    · exact narrow.rhs rule old
    · have few : rule.rhs.length ≤ 3 := by
        rcases expanded.rhs_short new with short | ⟨_, _, _, _, three⟩
        · omega
        · rw [three]
          exact Nat.le_refl 3
      exact Nat.lt_of_le_of_lt few (by decide)
  case rule =>
    rcases expands.mem_rules_iff.mp member with old | ⟨expanded, inChain, new⟩
    · exact narrow.histories.rule rule old
    · obtain ⟨production, _, rfl⟩ := List.mem_map.mp new
      exact (narrow.histories.sequence _ (expands.mem_sequences inChain)).of_records ⟨rfl, rfl⟩

theorem eliminate {nullable : SymbolSet}
    (done : (grammar.eliminateNullingWith nullable limits).result = .ok next) : next.IsNarrow := by
  obtain ⟨blocks, eliminates, makes⟩ := exists_eliminatesTo_madeFrom done
  refine ⟨fun other member => ?rhs, fun other member => ?rule, by simp [eliminates.plain]⟩
  case rhs =>
    obtain ⟨rule, inRules, _, thinned, _⟩ := eliminates.exists_thinned member
    exact Nat.lt_of_le_of_lt thinned.sublist.length_le (narrow.rhs rule inRules)
  case rule =>
    have made := Blockwise.of_forall₂ (makes.imp fun _ block made _ inside =>
      (⟨block, made, inside⟩ : ∃ block, MadeFrom nullable limits _ block ∧ _ ∈ block))
    rw [eliminates.rules_eq] at member
    obtain ⟨rule, inRules, block, made, inside⟩ := made.exists_item member
    have before := narrow.histories.rule rule inRules
    cases admits : rule.admitsElision with
    | false =>
        obtain ⟨_, made⟩ := made
        rw [(Rule.hasVariants_of_variants made).kept admits, List.mem_singleton] at inside
        rwa [inside]
    | true =>
        obtain ⟨elision, rfl, length, _⟩ := (Rule.hasRecords_of_madeFrom admits made).recorded other inside
        rw [Rule.history_variant admits]
        exact before.elided (length ▸ narrow.rhs rule inRules)

theorem binarize (done : (grammar.binarize limits).result = .ok next) : next.IsNarrow := by
  obtain ⟨chain, binarizes⟩ := exists_binarizesTo done
  refine ⟨fun piece member => ?rhs, fun piece member => ?rule, by simp [binarizes.plain]⟩
  all_goals
    obtain ⟨split, inChain, inPieces⟩ := binarizes.mem_rules_iff.mp member
    have inRules := binarizes.rule_mem inChain
  case rhs =>
    exact Nat.lt_of_le_of_lt
      (SplitRule.length_rhs_le_two Rule.admitsSplit_of_long inPieces) (by decide)
  case rule =>
    rcases SplitRule.eq_or_exists_pieceAt inPieces with ⟨_, rfl⟩ | ⟨_, depth, bound, rfl⟩
    · exact narrow.histories.rule _ inRules
    · have place : (split.linkAt depth).piece =
          ⟨if depth + 2 < split.rule.rhs.length then .right else .left, depth, split.rule.rhs.length⟩ :=
        ChainRule.piece_link
      have inside : depth < split.rule.rhs.length := by omega
      change (split.rule.history.split (split.linkAt depth).piece).IsNarrow
      rw [place]
      exact (narrow.histories.rule _ inRules).split inside (narrow.rhs _ inRules)

theorem resolve (done : grammar.resolvePrecedence.result = .ok next) : next.IsNarrow := by
  have relabels := Relabels.of_resolvePrecedence done
  refine ⟨fun rule member => ?rhs, fun rule member => ?rule, ?sequence⟩
  case rhs =>
    obtain ⟨old, inRules, same⟩ := relabels.exists_rule member
    have rhs : old.rhs = rule.rhs := congrArg (fun record => record.2.1) same
    exact rhs ▸ narrow.rhs old inRules
  case rule =>
    obtain ⟨old, inRules, same⟩ := relabels.exists_rule member
    have pieces : old.history.chainPiece = rule.history.chainPiece :=
      congrArg (fun record => record.2.2.1) same
    have elisions : old.history.elision = rule.history.elision :=
      congrArg (fun record => record.2.2.2) same
    exact (narrow.histories.rule old inRules).of_records ⟨pieces.symm, elisions.symm⟩
  case sequence =>
    rw [sequences_resolvePrecedence done]
    exact narrow.histories.sequence

end IsNarrow

theorem keptByPasses_isNarrow : KeptByPasses (IsNarrow : Grammar History → Prop) where
  expand := fun narrow done => narrow.expand done
  eliminate := fun narrow done => narrow.eliminate done
  binarize := fun narrow done => narrow.binarize done
  resolve := fun narrow done => narrow.resolve done
  finish := fun narrow _ => ⟨narrow.rhs, narrow.histories.rule, narrow.histories.sequence⟩

/-- A command gives no history by hand, and leaves only right-hand sides with lengths of 32 bits. -/
def WritesShort (grammar : Grammar History) (step : Step History) : Prop :=
  ∀ command : Command History, step = .command command → command.histories = [] ∧
    ∀ next, command.perform grammar = .ok next → ∀ rule ∈ next.rules, rule.rhs.length < UInt32.size

/-- In a run in which no right-hand side is written that is too long, nothing is ever recorded that does
not fit into 32 bits. -/
theorem isNarrow_of_arises (arises : grammar.Arises WritesShort) : grammar.IsNarrow := by
  refine keptByPasses_isNarrow.of_arises (fun supply => ⟨by simp, by simp, by simp⟩) ?_ arises
  intro grammar next command narrow permitted done
  obtain ⟨plain, short⟩ := permitted command rfl
  refine ⟨short next done, ?_⟩
  exact (edit_of_perform (by simp [plain]) done).histories History.holdsOfWritten_isNarrow
    (fun _ => id) narrow.histories

end Grammar

end TracedGrammar
