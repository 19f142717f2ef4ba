import Mathlib
import TracedGrammar.Proofs.Run.Chains
import TracedGrammar.Proofs.Run.Inheritance

/-!
# What rules are cut from

While a grammar is written and passes are run on it, one can note beside every rule which rule
binarization has cut it from, and how many pieces there are above it.  Nothing of that is read off the
histories.  After every run the histories agree with it: a rule that was never cut is no link of a
chain, and the others are links of the chains that their sources were split into.
-/

namespace TracedGrammar

/-- Where a piece comes from: the rule that was split, and the number of pieces above it. -/
structure Cut where
  source : Rule History
  depth : Nat

/-- What the pieces of a rule are cut from.  A rule that is kept whole is cut from what it was. -/
def Rule.cuts (rule : Rule History) (cut : Option Cut) : List (Option Cut) :=
  if 2 < rule.rhs.length then
    (List.range (rule.rhs.length - 1)).map fun depth => some ⟨rule, depth⟩
  else
    [cut]

/-- The rule that a rule is cut from, if there is one, and otherwise the rule itself. -/
def Rule.uncut (rule : Rule History) (cut : Option Cut) : Rule History :=
  (cut.map Cut.source).getD rule

/-- What rules are cut from after a command.  Rules that are added are cut from none. -/
def Command.cuts (command : Command History) (grammar next : Grammar History) (cuts : List (Option Cut)) :
    List (Option Cut) :=
  match command with
  | .sort => grammar.sortBeside cuts
  | _ => cuts ++ List.replicate (next.rules.length - grammar.rules.length) none

/-- A pass succeeds, and what its rules are cut from follows from what the rules before were cut from.
Variants are cut from what their rule was. -/
inductive Pass.Cuts :
    Pass → Grammar History × List (Option Cut) → Grammar History × List (Option Cut) → Prop
  | expandSequences {limits : Limits} {grammar next : Grammar History} {cuts : List (Option Cut)}
      (done : (grammar.expandSequences limits).result = .ok next) :
      Cuts (.expandSequences limits) (grammar, cuts)
        (next, cuts ++ List.replicate (next.rules.length - grammar.rules.length) none)
  | eliminateNulling {limits : Limits} {grammar : Grammar History} {cuts : List (Option Cut)}
      {last : Grammar History × List (Option Cut)}
      (same : Cuts (.eliminateNullingWith grammar.nullableSymbols limits) (grammar, cuts) last) :
      Cuts (.eliminateNulling limits) (grammar, cuts) last
  | eliminateNullingWith {nullable : SymbolSet} {limits : Limits} {grammar next : Grammar History}
      {cuts : List (Option Cut)} {blocks : List (List (Rule History))}
      (done : (grammar.eliminateNullingWith nullable limits).result = .ok next)
      (makes : List.Forall₂ (Grammar.MadeFrom nullable limits) grammar.rules blocks)
      (written : next.rules = blocks.flatten) :
      Cuts (.eliminateNullingWith nullable limits) (grammar, cuts) (next, spread cuts blocks)
  | binarize {limits : Limits} {grammar next : Grammar History} {cuts : List (Option Cut)}
      (done : (grammar.binarize limits).result = .ok next) :
      Cuts (.binarize limits) (grammar, cuts)
        (next, (grammar.rules.zip cuts).flatMap fun noted => noted.1.cuts noted.2)
  | resolvePrecedence {grammar next : Grammar History} {cuts : List (Option Cut)}
      (done : grammar.resolvePrecedence.result = .ok next) :
      Cuts .resolvePrecedence (grammar, cuts) (next, cuts)
  | normalize {limits : Limits}
      {start expanded eliminated binarized resolved : Grammar History × List (Option Cut)}
      (expansion : Cuts (.expandSequences limits) start expanded)
      (elimination : Cuts (.eliminateNulling limits) expanded eliminated)
      (binarization : Cuts (.binarize limits) eliminated binarized)
      (resolution : Cuts .resolvePrecedence binarized resolved) :
      Cuts (.normalize limits) start ({ resolved.1 with stage := .normalized }, resolved.2)

theorem Pass.Cuts.done {pass : Pass} {start last : Grammar History × List (Option Cut)}
    (cuts : pass.Cuts start last) : (pass.run start.1).result = .ok last.1 := by
  induction cuts with
  | expandSequences done => exact done
  | eliminateNulling _ same => exact same
  | eliminateNullingWith done _ _ => exact done
  | binarize done => exact done
  | resolvePrecedence done => exact done
  | normalize _ _ _ _ expansion elimination binarization resolution =>
      simp only [run, Grammar.normalize, Reported.bind_result_eq_ok_iff]
      exact ⟨_, rfl, _, expansion, _, elimination, _, binarization, _, resolution, rfl⟩

theorem Pass.exists_cuts {pass : Pass} {grammar next : Grammar History}
    (done : (pass.run grammar).result = .ok next) (cuts : List (Option Cut)) :
    ∃ later, pass.Cuts (grammar, cuts) (next, later) := by
  have elimination {nullable : SymbolSet} {limits : Limits} {grammar next : Grammar History}
      (done : (grammar.eliminateNullingWith nullable limits).result = .ok next)
      (cuts : List (Option Cut)) :
      ∃ later, Cuts (.eliminateNullingWith nullable limits) (grammar, cuts) (next, later) := by
    obtain ⟨blocks, eliminates, makes⟩ := Grammar.exists_eliminatesTo_madeFrom done
    exact ⟨_, .eliminateNullingWith done makes eliminates.rules_eq⟩
  cases pass with
  | expandSequences limits => exact ⟨_, .expandSequences done⟩
  | eliminateNulling limits =>
      obtain ⟨later, same⟩ := elimination done cuts
      exact ⟨later, .eliminateNulling same⟩
  | eliminateNullingWith nullable limits => exact elimination done cuts
  | binarize limits => exact ⟨_, .binarize done⟩
  | resolvePrecedence => exact ⟨cuts, .resolvePrecedence done⟩
  | normalize limits =>
      obtain ⟨expanded, eliminated, binarized, resolved, expansion, eliminating, binarization,
        resolution, rfl⟩ := Grammar.exists_passes_of_normalize done
      obtain ⟨_, second⟩ := elimination eliminating _
      exact ⟨_, .normalize (.expandSequences expansion) (.eliminateNulling second)
        (.binarize binarization) (.resolvePrecedence resolution)⟩

namespace Grammar

/-- A grammar is reached, and it is known what its rules are cut from. -/
inductive ReachedWith (permits : Command History → Prop) :
    (Symbol → Prop) → Grammar History → List (Option Cut) → Prop
  | start (supply : SymbolSupply) : ReachedWith permits (· ∈ supply) { supply } []
  | command {owned : Symbol → Prop} {grammar next : Grammar History} {cuts : List (Option Cut)}
      (earlier : ReachedWith permits owned grammar cuts) (command : Command History)
      (permitted : permits command) (done : command.perform grammar = .ok next)
      (uses : grammar.AddsOver (grammar.Gained owned next) next) :
      ReachedWith permits (grammar.Gained owned next) next (command.cuts grammar next cuts)
  | pass {owned : Symbol → Prop} {grammar next : Grammar History} {cuts later : List (Option Cut)}
      (earlier : ReachedWith permits owned grammar cuts) {pass : Pass}
      (passes : pass.Cuts (grammar, cuts) (next, later)) : ReachedWith permits owned next later

variable {permits : Command History → Prop} {owned : Symbol → Prop} {grammar : Grammar History}

/-- It is always known what the rules of a grammar that has been reached are cut from. -/
theorem reached_iff_exists_cuts :
    grammar.Reached permits owned ↔ ∃ cuts, grammar.ReachedWith permits owned cuts := by
  constructor
  · intro reached
    induction reached with
    | start supply => exact ⟨[], .start supply⟩
    | command _ command permitted done uses induction =>
        obtain ⟨cuts, reached⟩ := induction
        exact ⟨_, reached.command command permitted done uses⟩
    | pass _ pass done induction =>
        obtain ⟨cuts, reached⟩ := induction
        obtain ⟨later, passes⟩ := Pass.exists_cuts done cuts
        exact ⟨later, reached.pass passes⟩
  · rintro ⟨cuts, reached⟩
    induction reached with
    | start supply => exact .start supply
    | command _ command permitted done uses induction =>
        exact induction.command command permitted done uses
    | pass _ passes induction => exact induction.pass _ passes.done

end Grammar

section Links

variable {owned : Symbol → Prop} {grammar next : Grammar History}
  {splits more : List (SplitRule History)} {recorded : Option ChainRule}
  {cut : Option Cut} {cuts : List (Option Cut)} {limits : Limits}

namespace SplitRule

/-- What is recorded of a rule that is cut from none or from another: it is no link of a chain, or it is
the link of the chain that the other was split into. -/
def IsLink (splits : List (SplitRule History)) (recorded : Option ChainRule) :
    Option Cut → Prop
  | none => recorded = none
  | some cut => ∃ split ∈ splits, split.rule = cut.source ∧ cut.depth + 2 ≤ cut.source.rhs.length ∧
      recorded = some (split.linkAt cut.depth)

theorem IsLink.append (isLink : IsLink splits recorded cut) : IsLink (splits ++ more) recorded cut := by
  cases cut with
  | none => exact isLink
  | some cut =>
      obtain ⟨split, inSplits, known⟩ := isLink
      exact ⟨split, List.mem_append_left _ inSplits, known⟩

/-- The pieces of a rule are recorded as what they are cut from. -/
theorem IsLink.pieces {split : SplitRule History} (isLink : IsLink splits split.rule.link? cut)
    (known : split.rule.admitsSplit = true → split ∈ splits) :
    List.Forall₂ (IsLink splits) (split.pieces.map Rule.link?) (split.rule.cuts cut) := by
  cases admits : split.rule.admitsSplit with
  | false =>
      have short : ¬2 < split.rule.rhs.length := fun long => by
        rw [Rule.admitsSplit_of_long long] at admits
        cases admits
      rw [pieces_eq_singleton admits, Rule.cuts, if_neg short]
      exact .cons isLink .nil
  | true =>
      rw [pieces_eq admits, Rule.cuts, if_pos (Rule.long_of_admitsSplit admits), List.map_map, List.forall₂_map_left_iff,
        List.forall₂_map_right_iff, List.forall₂_same]
      intro depth inside
      have bound : depth + 2 ≤ split.rule.rhs.length := by
        have := List.mem_range.mp inside
        omega
      exact ⟨split, known admits, rfl, bound, Rule.link?_piece _ _⟩

theorem forall₂_isLink_cuts {chain : List (SplitRule History)}
    (linked : List.Forall₂ (fun split => IsLink splits split.rule.link?) chain cuts)
    (known : ∀ split ∈ chain, split.rule.admitsSplit = true → split ∈ splits) :
    List.Forall₂ (IsLink splits) ((chain.flatMap pieces).map Rule.link?)
      (((chain.map (·.rule)).zip cuts).flatMap fun noted => noted.1.cuts noted.2) := by
  induction linked with
  | nil => exact .nil
  | cons here _ induction =>
      rw [List.forall_mem_cons] at known
      rw [List.flatMap_cons, List.map_append, List.map_cons, List.zip_cons_cons, List.flatMap_cons]
      exact List.rel_append (here.pieces known.1) (induction known.2)

end SplitRule

theorem Command.cuts_of_ne_sort {command : Command History} (unsorted : command ≠ .sort) :
    command.cuts grammar next cuts =
      cuts ++ List.replicate (next.rules.length - grammar.rules.length) none := by
  cases command with
  | sort => exact absurd rfl unsorted
  | _ => rfl

namespace Grammar

/-- The rules of a grammar are recorded as what they are cut from. -/
def LinkedBy (grammar : Grammar History) (splits : List (SplitRule History))
    (cuts : List (Option Cut)) : Prop :=
  List.Forall₂ (SplitRule.IsLink splits) (grammar.rules.map Rule.link?) cuts

namespace LinkedBy

variable (linked : grammar.LinkedBy splits cuts)
include linked

theorem append {added : List (Rule History)} (rules : next.rules = grammar.rules ++ added)
    (unrecorded : ∀ rule ∈ added, rule.link? = none) :
    next.LinkedBy splits (cuts ++ List.replicate (next.rules.length - grammar.rules.length) none) := by
  have length : (added.map Rule.link?).length = added.length := List.length_map _
  rw [LinkedBy, rules, List.map_append, List.length_append, Nat.add_sub_cancel_left, ← length]
  exact List.rel_append linked (forall₂_replicate (List.forall_mem_map.mpr unrecorded))

theorem of_links (same : next.rules.map Rule.link? = grammar.rules.map Rule.link?) :
    next.LinkedBy splits cuts := by
  rw [LinkedBy, same]
  exact linked

theorem changeHistory {handle : Handle} {change : History → Except GrammarError History}
    (spares : ∀ history other, change history = .ok other → other.chainPiece = history.chainPiece)
    (done : grammar.changeHistory handle change = .ok next) : next.LinkedBy splits cuts := by
  obtain ⟨-, changed⟩ := changed_of_changeHistory done
  cases changed with
  | sequence => exact linked
  | rule _ found changed =>
      refine linked.of_links (map_set_of_eq found ?_)
      exact congrArg (Option.map _) (spares _ _ changed)

theorem command {command : Command History} (plain : command.histories = [])
    (done : command.perform grammar = .ok next) :
    next.LinkedBy splits (command.cuts grammar next cuts) := by
  by_cases sorts : command = .sort
  · subst sorts
    cases done
    exact List.forall₂_map_left_iff.mpr (forall₂_sort (List.forall₂_map_left_iff.mp linked))
  · rw [Command.cuts_of_ne_sort sorts]
    -- What labels or declares adds no rules, so there is nothing to append.
    have unmoved (after : next.LinkedBy splits cuts) : next.LinkedBy splits
        (cuts ++ List.replicate (next.rules.length - grammar.rules.length) none) := by
      have lengths := after.length_eq.trans linked.length_eq.symm
      rw [List.length_map, List.length_map] at lengths
      rw [lengths, Nat.sub_self, List.replicate_zero, List.append_nil]
      exact after
    rcases cases_of_perform History.holdsOfWritten_isAuthored (by simp [plain]) done with
      grows | ⟨isSort, _⟩ | ⟨_, _, done⟩ | ⟨_, _, _, done⟩ | ⟨_, rfl⟩
    · obtain ⟨added, rules, authored⟩ := grows.rules
      refine linked.append rules fun rule member => ?_
      exact Rule.link?_eq_none_of_isAuthored (authored rule member)
    · exact absurd isSort sorts
    · exact unmoved (linked.changeHistory (fun _ _ set => (History.records_of_setAction set).1) done)
    · exact unmoved (linked.changeHistory (fun _ _ set => (History.records_of_setPrecedence set).1) done)
    · exact unmoved linked

/-- Only what is no piece has variants, and these are no pieces either. -/
theorem eliminate {nullable : SymbolSet} {blocks : List (List (Rule History))}
    (makes : List.Forall₂ (MadeFrom nullable limits) grammar.rules blocks)
    (written : next.rules = blocks.flatten)
    (elided : ∀ rule ∈ grammar.rules, rule.link? ≠ none → rule.admitsElision = false) :
    next.LinkedBy splits (spread cuts blocks) := by
  rw [LinkedBy, written, List.forall₂_map_left_iff]
  refine forall₂_spread (List.forall₂_map_left_iff.mp linked) (forall₂_imp_of_mem makes ?_)
  rintro rule inRules block - ⟨_, made⟩ cut isLink other member
  have variants := Rule.hasVariants_of_variants made
  cases admits : rule.admitsElision with
  | false =>
      rw [variants.kept admits, List.mem_singleton] at member
      rwa [member]
  | true =>
      have unrecorded : rule.link? = none := by
        by_contra isPiece
        rw [elided rule inRules isPiece] at admits
        cases admits
      obtain ⟨rhs, elision, _, rfl⟩ := variants.thinned admits other member
      rwa [Rule.link?_variant unrecorded admits, ← unrecorded]

/-- Every rule is split as its cuts say, and the links of what was split before are left. -/
theorem binarize {chain : List (SplitRule History)} (binarizes : grammar.BinarizesTo next chain) :
    next.LinkedBy (splits ++ SplitRule.admitted chain)
      ((grammar.rules.zip cuts).flatMap fun noted => noted.1.cuts noted.2) := by
  have known : ∀ split ∈ chain, split.rule.admitsSplit = true →
      split ∈ splits ++ SplitRule.admitted chain := fun split inChain admits =>
    List.mem_append_right _ (List.mem_filter.mpr ⟨inChain, admits⟩)
  rw [LinkedBy, ← binarizes.rules_eq, List.map_map, List.forall₂_map_left_iff] at linked
  rw [LinkedBy, ← binarizes.rules_eq, binarizes.pieces_eq]
  exact SplitRule.forall₂_isLink_cuts (linked.imp fun _ _ isLink => isLink.append) known

theorem resolve (done : grammar.resolvePrecedence.result = .ok next) : next.LinkedBy splits cuts := by
  refine linked.of_links (map_resolvePrecedence ?_ done)
  intro rule history precedence assigned
  exact congrArg (Option.map _) (History.records_of_setPrecedence assigned).1

end LinkedBy

/-- What holds of a grammar in use when it is known what its rules are cut from. -/
structure IsNoted (owned : Symbol → Prop) (grammar : Grammar History)
    (cuts : List (Option Cut)) : Prop extends IsOrderly owned grammar where
  linked : ∃ splits, grammar.HasChains splits ∧
    (∀ symbol, owned symbol → grammar.IsOutside splits symbol) ∧ grammar.LinkedBy splits cuts

namespace IsNoted

variable (noted : grammar.IsNoted owned cuts)
include noted

theorem command {command : Command History} (permitted : command.histories = [])
    (done : command.perform grammar = .ok next)
    (uses : grammar.AddsOver (grammar.Gained owned next) next) :
    next.IsNoted (grammar.Gained owned next) (command.cuts grammar next cuts) := by
  obtain ⟨splits, inventory, outside, linked⟩ := noted.linked
  obtain ⟨later, gained⟩ := inventory.of_perform outside permitted done uses
  exact ⟨noted.toIsOrderly.command permitted done uses, splits, later, gained,
    linked.command permitted done⟩

theorem expand (done : (grammar.expandSequences limits).result = .ok next) :
    next.IsNoted owned
      (cuts ++ List.replicate (next.rules.length - grammar.rules.length) none) := by
  obtain ⟨splits, inventory, outside, linked⟩ := noted.linked
  obtain ⟨chain, expands⟩ := exists_expandsTo done
  have waiting := noted.recorded.waiting
  have grows := expands.chained.allocated_le ExpandedSequence.before_le_after
  exact ⟨noted.toIsOrderly.expand done, splits, inventory.expand expands waiting,
    fun symbol own => (outside symbol own).mono grows,
    linked.append expands.rules_eq fun _ => expands.link?_added waiting⟩

theorem eliminate {nullable : SymbolSet} {blocks : List (List (Rule History))}
    (done : (grammar.eliminateNullingWith nullable limits).result = .ok next)
    (makes : List.Forall₂ (MadeFrom nullable limits) grammar.rules blocks)
    (written : next.rules = blocks.flatten) : next.IsNoted owned (spread cuts blocks) := by
  obtain ⟨splits, inventory, outside, linked⟩ := noted.linked
  obtain ⟨_, eliminates⟩ := exists_eliminatesTo done
  have refuses := noted.recorded.admitsElision_eq_false
  exact ⟨noted.toIsOrderly.eliminate done, splits, inventory.eliminate eliminates refuses,
    fun symbol own => (outside symbol own).of_supply_eq eliminates.supply_eq,
    linked.eliminate makes written refuses⟩

theorem binarize (done : (grammar.binarize limits).result = .ok next) :
    next.IsNoted owned ((grammar.rules.zip cuts).flatMap fun noted => noted.1.cuts noted.2) := by
  obtain ⟨splits, inventory, outside, linked⟩ := noted.linked
  obtain ⟨chain, binarizes⟩ := exists_binarizesTo done
  exact ⟨noted.toIsOrderly.binarize done, _, inventory.binarize binarizes,
    fun symbol own => binarizes.isOutside (outside symbol own), linked.binarize binarizes⟩

theorem resolve (done : grammar.resolvePrecedence.result = .ok next) : next.IsNoted owned cuts := by
  obtain ⟨splits, inventory, outside, linked⟩ := noted.linked
  have relabels := Relabels.of_resolvePrecedence done
  exact ⟨isKept_isOrderly.resolve noted.toIsOrderly done, splits, inventory.of_relabels relabels,
    fun symbol own => (outside symbol own).of_supply_eq relabels.supply_eq, linked.resolve done⟩

theorem finish (binarized : Stage.binarized ≤ grammar.stage) :
    { grammar with stage := .normalized }.IsNoted owned cuts := by
  obtain ⟨splits, inventory, outside, linked⟩ := noted.linked
  exact ⟨isKept_isOrderly.finish noted.toIsOrderly binarized, splits,
    inventory.of_relabels ⟨.refl _, rfl, rfl⟩, outside, linked⟩

end IsNoted

theorem IsNoted.pass {pass : Pass} {start last : Grammar History × List (Option Cut)}
    (passes : pass.Cuts start last) (noted : start.1.IsNoted owned start.2) :
    last.1.IsNoted owned last.2 := by
  induction passes with
  | expandSequences done => exact noted.expand done
  | eliminateNulling _ same => exact same noted
  | eliminateNullingWith done makes written => exact noted.eliminate done makes written
  | binarize done => exact noted.binarize done
  | resolvePrecedence done => exact noted.resolve done
  | normalize _ _ binarized resolved expansion elimination binarization resolution =>
      exact (resolution (binarization (elimination (expansion noted)))).finish
        (binarized_le_stage_resolvePrecedence resolved.done
          (binarized_le_stage_binarize binarized.done))

theorem ReachedWith.isNoted {permits : Command History → Prop}
    (reached : grammar.ReachedWith permits owned cuts)
    (plain : ∀ command, permits command → command.histories = []) : grammar.IsNoted owned cuts := by
  induction reached with
  | start supply =>
      exact ⟨isOrderly_start supply, [], hasChains_start supply, fun _ => isOutside_start, .nil⟩
  | command _ command permitted done uses induction =>
      exact induction.command (plain command permitted) done uses
  | pass _ passes induction => exact induction.pass passes

end Grammar

end Links

end TracedGrammar
