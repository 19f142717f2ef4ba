import Mathlib
import TracedGrammar.Proofs.Run.Records

/-!
# Chains in use

However a grammar is written, sorted and normalized, in several rounds, its rules stay well-formed
chains beside each other.  Its author cannot get in the way as long as histories are not given by hand
and symbols that passes have allocated are left alone.
-/

namespace TracedGrammar

namespace Grammar

variable {owned : Symbol → Prop} {grammar next : Grammar History} {splits : List (SplitRule History)}

theorem HasChains.of_relabels (inventory : grammar.HasChains splits)
    (relabels : grammar.Relabels next) : next.HasChains splits := by
  refine inventory.of_perm relabels.faces relabels.supply_eq fun sequence member => ?_
  obtain ⟨old, inSequences, same⟩ := relabels.exists_sequence member
  exact ⟨old, inSequences, congrArg Prod.fst same, congrArg (fun record => record.2.1) same⟩

theorem HasChains.of_growsTo (inventory : grammar.HasChains splits)
    (outside : ∀ symbol, owned symbol → grammar.IsOutside splits symbol)
    (grows : grammar.GrowsTo (fun history => history.isAuthored = true) next)
    (uses : grammar.AddsOver (grammar.Gained owned next) next) :
    next.HasChains splits ∧
      ∀ symbol, grammar.Gained owned next symbol → next.IsOutside splits symbol := by
  have gained (symbol : Symbol) (own : grammar.Gained owned next symbol) :
      next.IsOutside splits symbol := by
    rcases own with old | ⟨new, known⟩
    · exact (outside symbol old).mono grows.supply_le
    · exact inventory.isOutside_of_new new known
  obtain ⟨added, rules, authored⟩ := grows.rules
  obtain ⟨waiting, sequences, _⟩ := grows.sequences
  have newRules := uses.rules
  have newSequences := uses.sequences
  rw [rules, List.drop_left] at newRules
  rw [sequences, List.drop_left] at newSequences
  refine ⟨inventory.append rules grows.supply_le ?unrecorded ?rules ?sequences, gained⟩
  case unrecorded =>
    intro rule member
    exact Rule.link?_eq_none_of_isAuthored (authored rule member)
  case rules => exact fun rule member => (newRules rule member).mono gained
  case sequences =>
    intro sequence member
    rw [sequences] at member
    rcases List.mem_append.mp member with old | new
    · exact (inventory.sequence_over sequence old).mono fun _ known => known.mono grows.supply_le
    · exact (newSequences sequence new).mono gained

theorem HasChains.of_perform (inventory : grammar.HasChains splits)
    (outside : ∀ symbol, owned symbol → grammar.IsOutside splits symbol) {command : Command History}
    (permitted : command.histories = []) (done : command.perform grammar = .ok next)
    (uses : grammar.AddsOver (grammar.Gained owned next) next) :
    next.HasChains splits ∧
      ∀ symbol, grammar.Gained owned next symbol → next.IsOutside splits symbol := by
  rcases growsTo_or_relabels History.holdsOfWritten_isAuthored (by simp [permitted]) done with
    grows | ⟨relabels, _⟩
  · exact inventory.of_growsTo outside grows uses
  · refine ⟨inventory.of_relabels relabels, ?_⟩
    rintro symbol (old | ⟨new, known⟩)
    · exact (outside symbol old).of_supply_eq relabels.supply_eq
    · rw [relabels.supply_eq] at known
      exact absurd known new

/-- What holds of a grammar in use, and of the symbols that its author has allocated. -/
structure IsOrderly (owned : Symbol → Prop) (grammar : Grammar History) : Prop where
  staged : grammar.Staged
  recorded : grammar.Recorded
  chains : ∃ splits, grammar.HasChains splits ∧
    ∀ symbol, owned symbol → grammar.IsOutside splits symbol

namespace IsOrderly

variable (orderly : grammar.IsOrderly owned)
include orderly

theorem of_relabels (relabels : grammar.Relabels next)
    (stage : Stage.binarized ≤ grammar.stage ∨ next.stage = grammar.stage) : next.IsOrderly owned := by
  obtain ⟨splits, inventory, outside⟩ := orderly.chains
  refine ⟨orderly.staged.of_relabels relabels stage, orderly.recorded.of_relabels relabels,
    splits, inventory.of_relabels relabels, fun symbol own => ?_⟩
  exact (outside symbol own).of_supply_eq relabels.supply_eq

theorem command {command : Command History} (permitted : command.histories = [])
    (done : command.perform grammar = .ok next)
    (uses : grammar.AddsOver (grammar.Gained owned next) next) :
    next.IsOrderly (grammar.Gained owned next) := by
  obtain ⟨splits, inventory, outside⟩ := orderly.chains
  have chains := inventory.of_perform outside permitted done uses
  rcases growsTo_or_relabels History.holdsOfWritten_isAuthored (by simp [permitted]) done with
    grows | ⟨relabels, stage⟩
  · exact ⟨orderly.staged.of_growsTo grows, orderly.recorded.of_growsTo grows, splits, chains⟩
  · have kept := orderly.of_relabels relabels (.inr stage)
    exact ⟨kept.staged, kept.recorded, splits, chains⟩

theorem expand {limits : Limits} (done : (grammar.expandSequences limits).result = .ok next) :
    next.IsOrderly owned := by
  obtain ⟨splits, inventory, outside⟩ := orderly.chains
  obtain ⟨chain, expands⟩ := exists_expandsTo done
  refine ⟨orderly.staged.expand done, orderly.recorded.expand expands, splits,
    inventory.expand expands orderly.recorded.waiting, fun symbol own => ?_⟩
  exact (outside symbol own).mono (expands.chained.allocated_le ExpandedSequence.before_le_after)

theorem eliminate {nullable : SymbolSet} {limits : Limits}
    (done : (grammar.eliminateNullingWith nullable limits).result = .ok next) :
    next.IsOrderly owned := by
  obtain ⟨splits, inventory, outside⟩ := orderly.chains
  obtain ⟨blocks, eliminates⟩ := exists_eliminatesTo done
  refine ⟨.eliminate done, .eliminate eliminates, splits,
    inventory.eliminate eliminates orderly.recorded.admitsElision_eq_false, fun symbol own => ?_⟩
  exact (outside symbol own).of_supply_eq eliminates.supply_eq

theorem binarize {limits : Limits} (done : (grammar.binarize limits).result = .ok next) :
    next.IsOrderly owned := by
  obtain ⟨splits, inventory, outside⟩ := orderly.chains
  obtain ⟨chain, binarizes⟩ := exists_binarizesTo done
  refine ⟨orderly.staged.binarize done,
    .binarize binarizes (orderly.staged.eliminated (stage_binarize done).1), _,
    inventory.binarize binarizes, fun symbol own => ?_⟩
  exact binarizes.isOutside (outside symbol own)

end IsOrderly

theorem hasChains_start (supply : SymbolSupply) : HasChains ({ supply } : Grammar History) [] :=
  ⟨⟨.refl _, by simp, .nil, by simp⟩, by simp, by simp, by simp⟩

theorem isOutside_start {supply : SymbolSupply} {symbol : Symbol} (known : symbol ∈ supply) :
    IsOutside ({ supply } : Grammar History) [] symbol :=
  ⟨known, List.forall_mem_nil _⟩

theorem isOrderly_start (supply : SymbolSupply) :
    IsOrderly (· ∈ supply) { supply } where
  staged := .of_authored rfl
  recorded := ⟨by simp, by simp⟩
  chains := ⟨[], hasChains_start supply, fun _ => isOutside_start⟩

theorem isKept_isOrderly :
    IsKept (fun command : Command History => command.histories = [])
      (fun owned grammar => grammar.IsOrderly owned) where
  start := isOrderly_start
  command := fun orderly _ permitted done uses => orderly.command permitted done uses
  expand := fun orderly done => orderly.expand done
  eliminate := fun orderly done => orderly.eliminate done
  binarize := fun orderly done => orderly.binarize done
  resolve := by
    intro owned grammar next orderly done
    refine orderly.of_relabels (.of_resolvePrecedence done) ?_
    rw [stage_resolvePrecedence done]
    by_cases binarized : Stage.binarized ≤ grammar.stage
    · exact .inl binarized
    · exact .inr (if_neg binarized)
  finish := fun orderly binarized => orderly.of_relabels ⟨.refl _, rfl, rfl⟩ (.inl binarized)

/-- Every rule that is not below the top of a chain starts a whole chain, and every piece below a top
belongs to one of them. -/
structure HasWholeChains (grammar : Grammar History) : Prop where
  follows : ∀ (top : Nat) (rule : Rule History), grammar.rules[top]? = some rule →
    rule.isBelowTop = false → grammar.chains.Follows top (grammar.chains.pieces top)
  alone : ∀ (top : Nat) (rule : Rule History), grammar.rules[top]? = some rule →
    rule.history.chainPiece = none → grammar.chains.pieces top = [top]
  whole : ∀ (top : Nat) (rule : Rule History) (piece : ChainPiece),
    grammar.rules[top]? = some rule → rule.isBelowTop = false →
    rule.history.chainPiece = some piece →
    grammar.IsWholeChain piece.fullLength (grammar.chains.pieces top)
  existsUnique_top : ∀ (index : Nat) (rule : Rule History), grammar.rules[index]? = some rule →
    rule.isBelowTop = true →
    ∃! top, (∃ topRule, grammar.rules[top]? = some topRule ∧ topRule.isBelowTop = false) ∧
      index ∈ grammar.chains.pieces top
  index_eq_of_lhs : ∀ (index : Nat) (rule : Rule History), grammar.rules[index]? = some rule →
    rule.isBelowTop = true → ∀ (other : Nat) (otherRule : Rule History),
    grammar.rules[other]? = some otherRule → otherRule.lhs = rule.lhs → other = index

theorem HasChains.hasWholeChains (inventory : grammar.HasChains splits) : grammar.HasWholeChains where
  follows := by
    intro top rule found shallow
    rcases inventory.not_link_or_top (List.mem_of_getElem? found) shallow with
      unrecorded | ⟨split, inSplits, recorded⟩
    · obtain ⟨follows, alone, _⟩ := pieces_of_not_link found unrecorded
      rwa [alone]
    · exact (inventory.pieces_of_top inSplits found recorded).1
  alone := fun top rule found absent =>
    (pieces_of_not_link found (Option.map_eq_none_iff.mpr absent)).2.1
  whole := by
    intro top rule piece found shallow isPiece
    have recorded : rule.link? = some ⟨rule.lhs, rule.rhs, piece⟩ :=
      Option.map_eq_some_iff.mpr ⟨piece, isPiece, rfl⟩
    rcases inventory.not_link_or_top (List.mem_of_getElem? found) shallow with
      unrecorded | ⟨split, inSplits, isTop⟩
    · rw [unrecorded] at recorded
      cases recorded
    · have link := Option.some.inj (recorded.symm.trans isTop)
      have length : piece.fullLength = split.rule.rhs.length := by
        have pieces := congrArg ChainRule.piece link
        rw [SplitRule.linkAt, ChainRule.piece_link] at pieces
        exact congrArg ChainPiece.fullLength pieces
      rw [length]
      exact inventory.isWholeChain_of_top inSplits found isTop
  existsUnique_top := fun _ _ found deep => inventory.existsUnique_top found deep
  index_eq_of_lhs := fun _ _ found deep _ _ atOther same =>
    inventory.index_eq_of_lhs found atOther deep same

end Grammar

end TracedGrammar
