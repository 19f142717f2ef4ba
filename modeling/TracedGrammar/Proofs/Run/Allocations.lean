import Mathlib
import TracedGrammar.Proofs.Counted.Passes

/-!
# What passes allocate

Every symbol that a pass allocates is defined by one of its rules and used by another.  Helpers stay
within the rules of one sequence, and the symbols inside a chain are defined once and used once.
-/

namespace TracedGrammar

variable {H : Type}

def Rule.Mentions (rule : Rule H) (symbol : Symbol) : Prop :=
  rule.lhs = symbol ∨ symbol ∈ rule.rhs

namespace Grammar

/-- A symbol is defined by a rule and used by one. -/
def HasUse (grammar : Grammar H) (symbol : Symbol) : Prop :=
  (∃ rule ∈ grammar.rules, rule.lhs = symbol) ∧ ∃ rule ∈ grammar.rules, symbol ∈ rule.rhs

theorem UsesAllocated.not_mentions {grammar : Grammar H} (uses : grammar.UsesAllocated)
    {symbol : Symbol} (new : symbol ∉ grammar.supply) {rule : Rule H} (member : rule ∈ grammar.rules) :
    ¬rule.Mentions symbol := by
  rintro (rfl | occurs)
  · exact new (uses.lhs_mem rule member)
  · exact new (uses.rhs_mem rule member symbol occurs)

end Grammar

namespace Repetition

theorem alternatives_ne_nil (repetition : Repetition) : repetition.alternatives ≠ [] := by
  unfold alternatives runs
  repeat' split
  all_goals exact List.cons_ne_nil _ _

namespace Layout

variable {repetition : Repetition} {lhs : Symbol} {supply : SymbolSupply}
  {symbolOf : Repetition → Symbol} {order : List Repetition}
  (layout : repetition.Layout lhs supply symbolOf order)
include layout

theorem mem_order_of_isDescendant {other : Repetition} (below : other.IsDescendant repetition) :
    other ∈ order := by
  induction below using Relation.TransGen.head_induction_on with
  | single child => exact layout.children_mem _ (.inl rfl) _ child
  | head child _ inOrder => exact layout.children_mem _ (.inr inOrder) _ child

/-- What is in the order is mentioned by the whole repetition or by something else in the order. -/
theorem exists_writes_parent {other : Repetition} (inOrder : other ∈ order) :
    ∃ top symbol written, Writes repetition lhs symbolOf order top symbol written ∧
      ∃ row ∈ written.alternatives, .nested other ∈ row := by
  obtain ⟨parent, child, above⟩ := Relation.TransGen.head'_iff.mp (layout.descends other inOrder)
  obtain ⟨row, inParent, nested⟩ := List.mem_flatMap.mp child
  have mentioned : .nested other ∈ row := by
    obtain ⟨part, inRow, found⟩ := List.mem_filterMap.mp nested
    cases part with
    | symbol _ => cases found
    | self => cases found
    | nested _ =>
        cases found
        exact inRow
  rcases Relation.reflTransGen_iff_eq_or_transGen.mp above with rfl | below
  · exact ⟨true, _, _, .top, row, inParent, mentioned⟩
  · exact ⟨false, _, _, .helper (layout.mem_order_of_isDescendant below), row, inParent, mentioned⟩

theorem exists_helper {symbol : Symbol} (new : symbol ∉ supply)
    (known : symbol ∈ (repetition.expand lhs supply).2) : ∃ other ∈ order, symbolOf other = symbol := by
  rw [SymbolSupply.mem_iff] at new known
  rw [layout.allocated_eq] at known
  have inRange : symbol.id ∈ List.range' supply.allocated order.length :=
    List.mem_range'_1.mpr ⟨Nat.not_lt.mp new, known⟩
  obtain ⟨other, inOrder, same⟩ := List.mem_map.mp (layout.symbols.mem_iff.mpr inRange)
  exact ⟨other, inOrder, congrArg Symbol.mk same⟩

end Layout

end Repetition

variable [RuleHistory H]

namespace ExpandedSequence

variable {expanded : ExpandedSequence H} {symbol : Symbol}

theorem exists_rules_of_allocated (new : symbol ∉ expanded.before) (known : symbol ∈ expanded.after) :
    (∃ rule ∈ expanded.rules, rule.lhs = symbol) ∧ ∃ rule ∈ expanded.rules, symbol ∈ rule.rhs := by
  obtain ⟨other, inOrder, rfl⟩ := expanded.layout.exists_helper new known
  constructor
  · obtain ⟨row, inside⟩ := List.exists_mem_of_ne_nil _ other.alternatives_ne_nil
    exact ⟨_, expanded.mem_rules_iff.mpr ⟨false, _, other, .helper inOrder, row, inside, rfl⟩, rfl⟩
  · obtain ⟨top, lhs, written, writes, row, inside, nested⟩ :=
      expanded.layout.exists_writes_parent inOrder
    exact ⟨_, expanded.mem_rules_iff.mpr ⟨top, lhs, written, writes, row, inside, rfl⟩,
      List.mem_map_of_mem nested⟩

/-- A symbol that is neither the defined one nor a letter of the sequence occurs in its rules only if
it was allocated for them. -/
theorem allocated_of_mentions (other : symbol ≠ expanded.sequence.lhs)
    (noLetter : ¬expanded.sequence.repetition.IsLetter symbol) {rule : Rule H}
    (member : rule ∈ expanded.rules) (mentions : rule.Mentions symbol) :
    symbol ∉ expanded.before ∧ symbol ∈ expanded.after := by
  obtain ⟨top, lhs, written, writes, row, inside, rfl⟩ := expanded.mem_rules_iff.mp member
  have helper {child : Repetition} (inOrder : child ∈ expanded.order) :
      expanded.symbolOf child ∉ expanded.before ∧ expanded.symbolOf child ∈ expanded.after :=
    ⟨expanded.layout.helper_not_mem inOrder, (expanded.layout.helper_id inOrder).2⟩
  have defined (same : symbol = lhs) : symbol ∉ expanded.before ∧ symbol ∈ expanded.after := by
    cases writes with
    | top => exact absurd same other
    | helper inOrder =>
        rw [same]
        exact helper inOrder
  rcases mentions with same | occurs
  · exact defined same.symm
  · rcases expanded.mem_rhs_ruleFor writes inside occurs with letter | same | ⟨child, inOrder, rfl⟩
    · exact absurd letter noLetter
    · exact defined same
    · exact helper inOrder

end ExpandedSequence

namespace SplitRule

variable {split : SplitRule H} {supply : SymbolSupply}

theorem since_eq (admits : split.rule.admitsSplit = true) :
    split.before.since split.after = (List.range (split.rule.rhs.length - 2)).map fun depth =>
      ChainRule.symbolAt split.rule.lhs split.before (depth + 1) := by
  rw [after_eq admits, SymbolSupply.since, SymbolSupply.freshList, Nat.add_sub_cancel_left,
    List.range'_eq_map_range, List.map_map]
  rfl

theorem since_eq_nil (refuses : split.rule.admitsSplit = false) :
    split.before.since split.after = [] := by
  rw [after_eq_before refuses, SymbolSupply.since_self]

variable (earlier : supply.allocated ≤ split.before.allocated)
include earlier

theorem filter_since :
    (split.before.since split.after).filter (fun symbol => symbol ∉ supply) =
      split.before.since split.after := by
  refine List.filter_eq_self.mpr fun symbol member => ?_
  have new := (SymbolSupply.mem_since_iff.mp member).1
  rw [SymbolSupply.mem_iff] at new
  simp only [decide_eq_true_eq, SymbolSupply.mem_iff]
  omega

/-- Below the top, the pieces of a rule define the symbols that it takes from the supply. -/
theorem filter_lhs_pieces (lhs : split.rule.lhs ∈ supply) :
    (split.pieces.map Rule.lhs).filter (fun symbol => symbol ∉ supply) =
      split.before.since split.after := by
  cases admits : split.rule.admitsSplit with
  | false =>
      rw [pieces_eq_singleton admits, since_eq_nil admits]
      simp [lhs]
  | true =>
      have long := Rule.long_of_admitsSplit admits
      have defined : split.pieces.map Rule.lhs =
          split.rule.lhs :: split.before.since split.after := by
        rw [pieces_eq admits, since_eq admits, List.map_map,
          show split.rule.rhs.length - 1 = split.rule.rhs.length - 2 + 1 by omega,
          List.range_succ_eq_map, List.map_cons, List.map_map]
        exact congrArg₂ List.cons ChainRule.lhs_link
          (List.map_congr_left fun _ _ => ChainRule.lhs_link)
      rw [defined, List.filter_cons_of_neg (by simpa using lhs), filter_since earlier]

/-- Above the bottom, the pieces of a rule use the symbols that it takes from the supply. -/
theorem filter_rhs_pieces (rhs : ∀ symbol ∈ split.rule.rhs, symbol ∈ supply) :
    (split.pieces.flatMap Rule.rhs).filter (fun symbol => symbol ∉ supply) =
      split.before.since split.after := by
  have none {word : List Symbol} (inside : ∀ symbol ∈ word, symbol ∈ split.rule.rhs) :
      word.filter (fun symbol => symbol ∉ supply) = [] := by
    refine List.filter_eq_nil_iff.mpr fun symbol member => ?_
    simpa using rhs symbol (inside symbol member)
  have fresh (depth : Nat) : ChainRule.symbolAt split.rule.lhs split.before (depth + 1) ∉ supply :=
    Nat.not_lt.mpr (Nat.le_trans earlier (Nat.le_add_right _ _))
  cases admits : split.rule.admitsSplit with
  | false =>
      rw [pieces_eq_singleton admits, since_eq_nil admits, List.flatMap_singleton]
      exact none fun _ => id
  | true =>
      have long := Rule.long_of_admitsSplit admits
      have above (depth : Nat) (inside : depth ∈ List.range (split.rule.rhs.length - 2)) :
          (split.pieceAt depth).rhs.filter (fun symbol => symbol ∉ supply) =
            [ChainRule.symbolAt split.rule.lhs split.before (depth + 1)] := by
        have bound := List.mem_range.mp inside
        rw [show (split.pieceAt depth).rhs = _ :: _ from
          congrArg ChainRule.rhs (if_pos (by omega : depth + 2 < split.rule.rhs.length))]
        rw [List.filter_cons_of_pos (by simpa using fresh depth),
          none fun _ last => List.mem_of_getElem? (Option.mem_toList.mp last)]
      have bottom : (split.pieceAt (split.rule.rhs.length - 2)).rhs.filter
          (fun symbol => symbol ∉ supply) = [] := by
        rw [show (split.pieceAt (split.rule.rhs.length - 2)).rhs = _ from
          congrArg ChainRule.rhs (if_neg (by omega))]
        exact none fun _ => List.mem_of_mem_take
      rw [pieces_eq admits, since_eq admits, List.flatMap_map,
        show split.rule.rhs.length - 1 = split.rule.rhs.length - 2 + 1 by omega, List.range_succ,
        List.flatMap_append, List.filter_append, List.flatMap_singleton, bottom, List.append_nil,
        List.filter_flatMap, List.flatMap_congr above, List.map_eq_flatMap]

end SplitRule

namespace Grammar

variable {grammar next : Grammar H} {symbol : Symbol}

theorem UsesAllocated.resolvePrecedence (uses : grammar.UsesAllocated)
    (succeeds : grammar.resolvePrecedence.result = .ok next) : next.UsesAllocated := by
  have shapes := map_resolvePrecedence NormalizesTo.hidesPrecedence_shape succeeds
  have sequences := sequences_resolvePrecedence succeeds
  have supply := supply_resolvePrecedence succeeds
  have known (rule : Rule H) (member : rule ∈ next.rules) : rule.Over (· ∈ next.supply) := by
    have shown := List.mem_map_of_mem (f := fun rule : Rule H => (rule.lhs, rule.rhs)) member
    rw [shapes] at shown
    obtain ⟨old, inRules, same⟩ := List.mem_map.mp shown
    have step := uses.mem_of_directBy (.rule inRules)
    rw [(Prod.mk.inj same).1, (Prod.mk.inj same).2, ← supply] at step
    exact step
  refine ⟨fun rule member => (known rule member).1, fun rule member => (known rule member).2, ?_, ?_⟩
  · rw [sequences, supply]
    exact uses.sequence_mem
  · rw [sequences, supply]
    exact uses.letter_mem

/-- The rules of a grammar are followed by a block for each sequence of another, and a new symbol is
mentioned in one of the blocks only. -/
structure ExpandsApart (grammar next : Grammar H) (blocks : List (List (Rule H))) : Prop where
  rules_eq : next.rules = grammar.rules ++ blocks.flatten
  written : List.Forall₂ (fun sequence block => ∃ before after : SymbolSupply,
    sequence.expand before = .ok (block, after)) grammar.sequences blocks
  apart : ∀ symbol ∈ next.supply, symbol ∉ grammar.supply →
    (∀ rule ∈ grammar.rules, ¬rule.Mentions symbol) ∧
      ∃! index : Nat, ∃ block : List (Rule H), blocks[index]? = some block ∧
        ∃ rule ∈ block, rule.Mentions symbol

namespace ExpandsTo

variable {chain : List (ExpandedSequence H)} (expands : grammar.ExpandsTo next chain)
include expands

theorem hasUse_of_new (known : symbol ∈ next.supply) (new : symbol ∉ grammar.supply) :
    next.HasUse symbol := by
  obtain ⟨expanded, inChain, own⟩ := expands.chained.exists_step_of_allocated new known
  obtain ⟨⟨first, defines, lhs⟩, ⟨second, uses, rhs⟩⟩ := expanded.exists_rules_of_allocated own.1 own.2
  exact ⟨⟨first, expands.mem_rules_iff.mpr (.inr ⟨expanded, inChain, defines⟩), lhs⟩,
    ⟨second, expands.mem_rules_iff.mpr (.inr ⟨expanded, inChain, uses⟩), rhs⟩⟩

theorem expandsApart (uses : grammar.UsesAllocated) :
    grammar.ExpandsApart next (chain.map (·.rules)) where
  rules_eq := by rw [expands.rules_eq, List.flatMap_def]
  written := by
    rw [← expands.sequences_eq, List.forall₂_map_left_iff, List.forall₂_map_right_iff,
      List.forall₂_same]
    exact fun expanded _ => ⟨expanded.before, expanded.after, expanded.expand_eq⟩
  apart := by
    intro symbol known new
    refine ⟨fun rule member => uses.not_mentions new member, ?_⟩
    have allocated {expanded : ExpandedSequence H} (inChain : expanded ∈ chain)
        (mentions : ∃ rule ∈ expanded.rules, rule.Mentions symbol) :
        symbol ∉ expanded.before ∧ symbol ∈ expanded.after := by
      obtain ⟨rule, member, mentions⟩ := mentions
      have inSequences := expands.mem_sequences inChain
      refine expanded.allocated_of_mentions ?_ (fun letter => ?_) member mentions
      · rintro rfl
        exact new (uses.sequence_mem _ inSequences)
      · exact new (uses.letter_mem _ inSequences symbol letter)
    obtain ⟨expanded, inChain, own⟩ := expands.chained.exists_step_of_allocated new known
    obtain ⟨index, found⟩ := List.getElem?_of_mem inChain
    refine ⟨index, ⟨expanded.rules, by rw [List.getElem?_map, found]; rfl, ?_⟩, ?_⟩
    · obtain ⟨rule, member, defines⟩ := (expanded.exists_rules_of_allocated own.1 own.2).1
      exact ⟨rule, member, .inl defines⟩
    · rintro other ⟨block, atOther, mentions⟩
      rw [List.getElem?_map, Option.map_eq_some_iff] at atOther
      obtain ⟨second, found', rfl⟩ := atOther
      have others := allocated (List.mem_of_getElem? found') mentions
      exact expands.chained.index_eq_of_allocated ExpandedSequence.before_le_after found' found
        others.1 others.2 own.1 own.2

end ExpandsTo

namespace BinarizesTo

variable {chain : List (SplitRule H)} (binarizes : grammar.BinarizesTo next chain)
  (uses : grammar.UsesAllocated)
include binarizes uses

/-- The new symbols are defined in the order of their allocation, each once. -/
theorem filter_lhs : (next.rules.map Rule.lhs).filter (fun symbol => symbol ∉ grammar.supply) =
    grammar.supply.since next.supply := by
  rw [binarizes.pieces_eq, List.map_flatMap, List.filter_flatMap,
    ← binarizes.chained.flatMap_since SplitRule.before_le_after]
  exact List.flatMap_congr fun split inChain => SplitRule.filter_lhs_pieces
    (binarizes.chained.le_before SplitRule.before_le_after inChain)
    (uses.lhs_mem _ (binarizes.rule_mem inChain))

theorem filter_rhs : (next.rules.flatMap Rule.rhs).filter (fun symbol => symbol ∉ grammar.supply) =
    grammar.supply.since next.supply := by
  rw [binarizes.pieces_eq, List.flatMap_assoc, List.filter_flatMap,
    ← binarizes.chained.flatMap_since SplitRule.before_le_after]
  exact List.flatMap_congr fun split inChain => SplitRule.filter_rhs_pieces
    (binarizes.chained.le_before SplitRule.before_le_after inChain)
    (uses.rhs_mem _ (binarizes.rule_mem inChain))

theorem count_eq_one (known : symbol ∈ next.supply) (new : symbol ∉ grammar.supply) :
    (next.rules.map Rule.lhs).count symbol = 1 ∧ (next.rules.flatMap Rule.rhs).count symbol = 1 := by
  have once : (grammar.supply.since next.supply).count symbol = 1 :=
    List.count_eq_one_of_mem (SymbolSupply.since_nodup _ _)
      (SymbolSupply.mem_since_iff.mpr ⟨new, known⟩)
  constructor
  · rwa [← binarizes.filter_lhs uses, List.count_filter (by simpa using new)] at once
  · rwa [← binarizes.filter_rhs uses, List.count_filter (by simpa using new)] at once

theorem hasUse_of_new (known : symbol ∈ next.supply) (new : symbol ∉ grammar.supply) :
    next.HasUse symbol := by
  have once := binarizes.count_eq_one uses known new
  have positive {symbols : List Symbol} (count : symbols.count symbol = 1) : symbol ∈ symbols :=
    List.count_pos_iff.mp (by omega)
  exact ⟨List.mem_map.mp (positive once.1), List.mem_flatMap.mp (positive once.2)⟩

end BinarizesTo

/-- A single pass that has room for the symbols it allocates leaves no symbol unallocated, and none that
it allocates unused.  Symbols that an expansion allocates occur in the rules of one sequence only, and
those that a binarization allocates are defined once and used once.  The result is what a supply without
an end leads to. -/
theorem allocations_of_pass {pass : Pass} (single : ∀ limits, pass ≠ .normalize limits)
    (uses : grammar.UsesAllocated) (succeeds : Counted.run grammar pass = .ok next) :
    ((pass.run grammar).result = .ok next ∧ grammar.supply.HasRoom next.supply) ∧
      next.UsesAllocated ∧
      (∀ symbol ∈ next.supply, symbol ∉ grammar.supply → next.HasUse symbol) ∧
      (∀ limits, pass = .expandSequences limits → ∃ blocks, grammar.ExpandsApart next blocks) ∧
      ∀ limits, pass = .binarize limits → ∀ symbol ∈ next.supply, symbol ∉ grammar.supply →
        (next.rules.map Rule.lhs).count symbol = 1 ∧
          (next.rules.flatMap Rule.rhs).count symbol = 1 := by
  obtain ⟨done, room⟩ := Counted.run_eq_ok_iff.mp succeeds
  refine ⟨⟨done, room⟩, ?_⟩
  have nothing (same : next.supply = grammar.supply) (symbol : Symbol) (known : symbol ∈ next.supply)
      (new : symbol ∉ grammar.supply) : next.HasUse symbol :=
    absurd (same ▸ known) new
  have elimination {nullable : SymbolSet} {limits : Limits}
      (done : (grammar.eliminateNullingWith nullable limits).result = .ok next) :
      next.UsesAllocated ∧ next.supply = grammar.supply := by
    obtain ⟨blocks, eliminates⟩ := exists_eliminatesTo done
    exact ⟨eliminates.usesAllocated uses, eliminates.supply_eq⟩
  cases pass with
  | expandSequences limits =>
      obtain ⟨chain, expands⟩ := exists_expandsTo done
      exact ⟨expands.usesAllocated uses, fun _ => expands.hasUse_of_new,
        fun _ _ => ⟨_, expands.expandsApart uses⟩, nofun⟩
  | eliminateNulling limits =>
      obtain ⟨allocated, same⟩ := elimination done
      exact ⟨allocated, nothing same, nofun, nofun⟩
  | eliminateNullingWith nullable limits =>
      obtain ⟨allocated, same⟩ := elimination done
      exact ⟨allocated, nothing same, nofun, nofun⟩
  | binarize limits =>
      obtain ⟨chain, binarizes⟩ := exists_binarizesTo done
      exact ⟨binarizes.usesAllocated uses, fun _ => binarizes.hasUse_of_new uses, nofun,
        fun _ _ _ => binarizes.count_eq_one uses⟩
  | resolvePrecedence =>
      exact ⟨uses.resolvePrecedence done, nothing (supply_resolvePrecedence done), nofun, nofun⟩
  | normalize limits => exact absurd rfl (single limits)

/-- Two symbols that stand for the same repetition, with room for four more symbols. -/
def twinSequences : Grammar History where
  supply := ⟨4294967290⟩
  sequences :=
    [⟨⟨0⟩, { item := ⟨2⟩, least := 2 }, {}⟩, ⟨⟨1⟩, { item := ⟨2⟩, least := 2 }, {}⟩]

theorem twinSequences_usesAllocated : twinSequences.UsesAllocated where
  lhs_mem := by simp [twinSequences]
  rhs_mem := by simp [twinSequences]
  sequence_mem := by decide
  letter_mem := by
    intro sequence member letter occurs
    have only : letter = ⟨2⟩ := by
      rcases List.mem_pair.mp member with rfl | rfl
      all_goals exact occurs.resolve_right nofun
    rw [only]
    decide

/-- A rule that is long enough for two symbols inside its chain, with room for no more. -/
def fourLetters : Grammar History where
  supply := ⟨4294967292⟩
  rules := [⟨⟨0⟩, [⟨1⟩, ⟨2⟩, ⟨1⟩, ⟨2⟩], {}⟩]
  stage := .nullingEliminated

theorem fourLetters_usesAllocated : fourLetters.UsesAllocated where
  lhs_mem := by decide
  rhs_mem := by decide
  sequence_mem := by simp [fourLetters]
  letter_mem := by simp [fourLetters]

theorem twinSequences_fourLetters_allocations :
    (twinSequences.UsesAllocated ∧ ∃ next,
      Counted.run twinSequences (.expandSequences {}) = .ok next ∧ next.supply = ⟨4294967294⟩ ∧
        (∀ symbol ∈ next.supply, symbol ∉ twinSequences.supply → next.HasUse symbol) ∧
        ∃ blocks, twinSequences.ExpandsApart next blocks) ∧
      fourLetters.UsesAllocated ∧ ∃ next,
        Counted.run fourLetters (.binarize {}) = .ok next ∧ next.supply = ⟨4294967294⟩ ∧
          ∀ symbol ∈ next.supply, symbol ∉ fourLetters.supply →
            (next.rules.map Rule.lhs).count symbol = 1 ∧
              (next.rules.flatMap Rule.rhs).count symbol = 1 := by
  constructor
  · have supply : (Counted.run twinSequences (.expandSequences {})).map (·.supply) =
        .ok ⟨4294967294⟩ := by
      cbv
    obtain ⟨next, done⟩ := exists_eq_ok
      (by cbv : (Counted.run twinSequences (.expandSequences {})).toBool = true)
    rw [done] at supply
    have single : ∀ limits, Pass.expandSequences {} ≠ .normalize limits := by simp
    obtain ⟨_, _, used, apart, _⟩ := allocations_of_pass single twinSequences_usesAllocated done
    exact ⟨twinSequences_usesAllocated, next, done, Except.ok.inj supply, used, apart {} rfl⟩
  · have supply : (Counted.run fourLetters (.binarize {})).map (·.supply) = .ok ⟨4294967294⟩ := by cbv
    obtain ⟨next, done⟩ := exists_eq_ok
      (by cbv : (Counted.run fourLetters (.binarize {})).toBool = true)
    rw [done] at supply
    have single : ∀ limits, Pass.binarize {} ≠ .normalize limits := by simp
    obtain ⟨_, _, _, _, once⟩ := allocations_of_pass single fourLetters_usesAllocated done
    exact ⟨fourLetters_usesAllocated, next, done, Except.ok.inj supply, once {} rfl⟩

/-- With one symbol less the chain cannot be finished. -/
example : Counted.run { fourLetters with supply := ⟨4294967293⟩ } (.binarize {}) =
    .error .outOfSymbols := by cbv

end Grammar

end TracedGrammar
