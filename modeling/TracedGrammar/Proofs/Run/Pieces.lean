import TracedGrammar.Proofs.Precedence.Assignment
import TracedGrammar.Proofs.Run.Chains
import TracedGrammar.Proofs.Run.Unsorted

/-!
# Histories of pieces

A rule that is split hands its history to all of its pieces.  As long as a grammar is never sorted its
author cannot label a piece, and precedence is resolved for all pieces of a chain at once.  So what is
recorded with one of them is recorded with all, except for which piece it is.
-/

namespace TracedGrammar

namespace Grammar

variable {owned : Symbol → Prop} {grammar next : Grammar History} {splits : List (SplitRule History)}

namespace KeepsHistories

variable (keeps : grammar.KeepsHistories splits)
include keeps

/-- Only what is a piece of a chain matters. -/
theorem of_pieces (pieces : ∀ rule ∈ next.rules, rule.link? ≠ none → rule ∈ grammar.rules) :
    next.KeepsHistories splits := by
  intro split inSplits
  obtain ⟨precedence, histories⟩ := keeps split inSplits
  refine ⟨precedence, fun rule member link isLink recorded => ?_⟩
  exact histories rule (pieces rule member (by simp [recorded])) link isLink recorded

theorem append {added : List (Rule History)} (rules : next.rules = grammar.rules ++ added)
    (unrecorded : ∀ rule ∈ added, rule.link? = none) : next.KeepsHistories splits := by
  refine keeps.of_pieces fun rule member recorded => ?_
  rw [rules] at member
  rcases List.mem_append.mp member with old | new
  · exact old
  · exact absurd (unrecorded rule new) recorded

theorem changeHistory (hides : grammar.HidesPieces) {handle : Handle}
    {change : History → Except GrammarError History}
    (spares : ∀ history other, change history = .ok other → other.chainPiece = history.chainPiece)
    (done : grammar.changeHistory handle change = .ok next) : next.KeepsHistories splits := by
  obtain ⟨-, changed⟩ := changed_of_changeHistory done
  cases changed with
  | sequence => exact keeps
  | @rule index rule history authored found changed =>
      refine keeps.of_pieces fun other member recorded => ?_
      rcases List.mem_or_eq_of_mem_set member with old | rfl
      · exact old
      · have whole : (grammar.rules[index]?.bind fun rule => rule.history.chainPiece) = none :=
          hides index authored
        rw [found] at whole
        exact absurd (Option.map_eq_none_iff.mpr ((spares _ _ changed).trans whole)) recorded

theorem command (hides : grammar.HidesPieces) {command : Command History}
    (plain : command.histories = []) (unsorted : command ≠ .sort)
    (done : command.perform grammar = .ok next) : next.KeepsHistories splits := by
  rcases cases_of_perform History.holdsOfWritten_isAuthored (by simp [plain]) done with
    grows | ⟨sorts, _⟩ | ⟨_, _, done⟩ | ⟨_, _, _, done⟩ | ⟨_, rfl⟩
  · obtain ⟨added, rules, authored⟩ := grows.rules
    refine keeps.append rules fun rule member => ?_
    exact Rule.link?_eq_none_of_isAuthored (authored rule member)
  · exact absurd sorts unsorted
  · exact keeps.changeHistory hides (fun _ _ set => (History.records_of_setAction set).1) done
  · exact keeps.changeHistory hides (fun _ _ set => (History.records_of_setPrecedence set).1) done
  · exact keeps

theorem eliminate {nullable : SymbolSet} {blocks : List (List (Rule History))}
    (eliminates : grammar.EliminatesTo next nullable blocks)
    (elided : ∀ rule ∈ grammar.rules, rule.link? ≠ none → rule.admitsElision = false) :
    next.KeepsHistories splits := by
  refine keeps.of_pieces fun other member recorded => ?_
  obtain ⟨rule, inRules, _, _, ⟨_, rfl⟩ | ⟨admits, _, _, rfl⟩⟩ := eliminates.exists_thinned member
  · exact inRules
  · have unrecorded : rule.link? = none := by
      by_contra isPiece
      rw [elided rule inRules isPiece] at admits
      cases admits
    exact absurd (Rule.link?_variant unrecorded admits) recorded

theorem binarize (inventory : grammar.HasLinks splits) {chain : List (SplitRule History)}
    (binarizes : grammar.BinarizesTo next chain) :
    next.KeepsHistories (splits ++ SplitRule.admitted chain) := by
  have later := inventory.binarize binarizes
  intro split inSplits
  rcases List.mem_append.mp inSplits with old | new
  · obtain ⟨precedence, histories⟩ := keeps split old
    refine ⟨precedence, fun rule member link isLink recorded => ?_⟩
    rcases inventory.piece_cases binarizes inSplits member isLink recorded with
      ⟨_, inRules⟩ | ⟨new, _⟩
    · exact histories rule inRules link isLink recorded
    · exact absurd new (later.not_mem_of_mem old)
  · refine ⟨split.rule.history.precedence, fun rule member link isLink recorded => ?_⟩
    rcases inventory.piece_cases binarizes inSplits member isLink recorded with ⟨old, _⟩ | ⟨_, rfl⟩
    · exact absurd new (later.not_mem_of_mem old)
    · rfl

/-- All pieces of a chain had the same word and the same precedence before. -/
theorem resolve (inventory : grammar.HasChains splits)
    (done : grammar.resolvePrecedence.result = .ok next) : next.KeepsHistories splits := by
  intro split inSplits
  obtain ⟨precedence, histories⟩ := keeps split inSplits
  refine ⟨precedence.or (grammar.declared.rightmost? split.rule.rhs), ?_⟩
  intro rule member link isLink recorded
  rw [inventory.rules_resolvePrecedence keeps done] at member
  obtain ⟨old, inRules, rfl⟩ := List.mem_map.mp member
  have wasPiece : old.link? = some link := recorded
  have history := histories old inRules link isLink wasPiece
  rw [ranked, inventory.wordOf_of_link inSplits isLink wasPiece, Rule.ranked, Rule.withPrecedence,
    history]

end KeepsHistories

/-- What holds of a grammar that is never sorted, and of the symbols that its author has allocated. -/
structure IsFaithful (owned : Symbol → Prop) (grammar : Grammar History) : Prop where
  staged : grammar.Staged
  recorded : grammar.Recorded
  hides : grammar.HidesPieces
  chains : ∃ splits, grammar.HasChains splits ∧ grammar.KeepsHistories splits ∧
    ∀ symbol, owned symbol → grammar.IsOutside splits symbol

namespace IsFaithful

theorem start (supply : SymbolSupply) : IsFaithful (· ∈ supply) { supply } where
  staged := .of_authored rfl
  recorded := ⟨by simp, by simp⟩
  hides := .of_worked rfl
  chains := ⟨[], hasChains_start supply, List.forall_mem_nil _, fun _ => isOutside_start⟩

variable (faithful : grammar.IsFaithful owned)
include faithful

theorem isOrderly : grammar.IsOrderly owned := by
  obtain ⟨splits, inventory, _, outside⟩ := faithful.chains
  exact ⟨faithful.staged, faithful.recorded, splits, inventory, outside⟩

theorem command {command : Command History} (plain : command.histories = [])
    (unsorted : command ≠ .sort) (done : command.perform grammar = .ok next)
    (uses : grammar.AddsOver (grammar.Gained owned next) next) :
    next.IsFaithful (grammar.Gained owned next) := by
  have orderly := faithful.isOrderly.command plain done uses
  obtain ⟨splits, inventory, keeps, outside⟩ := faithful.chains
  refine ⟨orderly.staged, orderly.recorded, faithful.hides.command unsorted plain done, splits, ?_⟩
  obtain ⟨later, gained⟩ := inventory.of_perform outside plain done uses
  exact ⟨later, keeps.command faithful.hides plain unsorted done, gained⟩

theorem expand {limits : Limits} (done : (grammar.expandSequences limits).result = .ok next) :
    next.IsFaithful owned := by
  obtain ⟨splits, inventory, keeps, outside⟩ := faithful.chains
  obtain ⟨chain, expands⟩ := exists_expandsTo done
  have waiting := faithful.recorded.waiting
  refine ⟨faithful.staged.expand done, faithful.recorded.expand expands,
    keptByPasses_hidesPieces.expand faithful.hides done, splits, inventory.expand expands waiting,
    keeps.append expands.rules_eq fun _ => expands.link?_added waiting, fun symbol own => ?_⟩
  exact (outside symbol own).mono (expands.chained.allocated_le ExpandedSequence.before_le_after)

theorem eliminate {nullable : SymbolSet} {limits : Limits}
    (done : (grammar.eliminateNullingWith nullable limits).result = .ok next) :
    next.IsFaithful owned := by
  obtain ⟨splits, inventory, keeps, outside⟩ := faithful.chains
  obtain ⟨blocks, eliminates⟩ := exists_eliminatesTo done
  have refuses := faithful.recorded.admitsElision_eq_false
  refine ⟨.eliminate done, .eliminate eliminates,
    keptByPasses_hidesPieces.eliminate faithful.hides done, splits,
    inventory.eliminate eliminates refuses, keeps.eliminate eliminates refuses,
    fun symbol own => ?_⟩
  exact (outside symbol own).of_supply_eq eliminates.supply_eq

theorem binarize {limits : Limits} (done : (grammar.binarize limits).result = .ok next) :
    next.IsFaithful owned := by
  obtain ⟨splits, inventory, keeps, outside⟩ := faithful.chains
  obtain ⟨chain, binarizes⟩ := exists_binarizesTo done
  exact ⟨faithful.staged.binarize done,
    .binarize binarizes (faithful.staged.eliminated (stage_binarize done).1),
    keptByPasses_hidesPieces.binarize faithful.hides done, _, inventory.binarize binarizes,
    keeps.binarize inventory.toHasLinks binarizes,
    fun symbol own => binarizes.isOutside (outside symbol own)⟩

theorem resolve (done : grammar.resolvePrecedence.result = .ok next) : next.IsFaithful owned := by
  have orderly := isKept_isOrderly.resolve faithful.isOrderly done
  obtain ⟨splits, inventory, keeps, outside⟩ := faithful.chains
  have relabels := Relabels.of_resolvePrecedence done
  refine ⟨orderly.staged, orderly.recorded, keptByPasses_hidesPieces.resolve faithful.hides done,
    splits, inventory.of_relabels relabels, keeps.resolve inventory done, fun symbol own => ?_⟩
  exact (outside symbol own).of_supply_eq relabels.supply_eq

theorem finish (binarized : Stage.binarized ≤ grammar.stage) :
    { grammar with stage := .normalized }.IsFaithful owned := by
  have orderly := isKept_isOrderly.finish faithful.isOrderly binarized
  obtain ⟨splits, inventory, keeps, outside⟩ := faithful.chains
  exact ⟨orderly.staged, orderly.recorded, faithful.hides, splits,
    inventory.of_relabels ⟨.refl _, rfl, rfl⟩, keeps, outside⟩

end IsFaithful

/-- No history is given by hand, and rules stay in order. -/
def Unsorted (command : Command History) : Prop :=
  command.histories = [] ∧ command ≠ .sort

theorem isKept_isFaithful :
    IsKept Unsorted (fun owned grammar => grammar.IsFaithful owned) where
  start := .start
  command := fun faithful _ permitted done uses =>
    faithful.command permitted.1 permitted.2 done uses
  expand := fun faithful done => faithful.expand done
  eliminate := fun faithful done => faithful.eliminate done
  binarize := fun faithful done => faithful.binarize done
  resolve := fun faithful done => faithful.resolve done
  finish := fun faithful binarized => faithful.finish binarized

end Grammar

end TracedGrammar
