import Mathlib
import TracedGrammar.Proofs.Chain.Tops
import TracedGrammar.Proofs.Normalization.Language
import TracedGrammar.Proofs.Nulling.Choices

/-!
# Where the rules of a normal form come from

The tops of a normalized grammar come in blocks, one for each rule that there is after the expansion of
sequences, in the same order.  The tops in a block are what is left of their rule without some of its
nullable symbols, each possible rest once, and their records say which positions are left.
-/

namespace TracedGrammar

theorem exists_groups_of_forall₂_flatten {α β γ : Type} {first : α → List β → Prop}
    {second : β → γ → Prop} {sources : List α} {blocks : List (List β)} {items : List γ}
    (made : List.Forall₂ first sources blocks) (paired : List.Forall₂ second blocks.flatten items) :
    ∃ groups : List (List γ), groups.flatten = items ∧
      List.Forall₂ (fun source group => ∃ block, first source block ∧
        List.Forall₂ second block group) sources groups := by
  induction made generalizing items with
  | nil =>
      cases paired
      exact ⟨[], rfl, .nil⟩
  | @cons source block sources blocks head _ induction =>
      have here := List.forall₂_take_append items block blocks.flatten paired.flip
      have later := List.forall₂_drop_append items block blocks.flatten paired.flip
      obtain ⟨groups, rest, others⟩ := induction later.flip
      refine ⟨items.take block.length :: groups, ?_, .cons ⟨block, head, here.flip⟩ others⟩
      rw [List.flatten_cons, rest, List.take_append_drop]

theorem thinned_filter_zipIdx {set : SymbolSet} {rhs : List Symbol} (kept : Nat → Bool) (start : Nat)
    (inside : ∀ symbol position, (symbol, position) ∈ rhs.zipIdx start → kept position = false →
      symbol ∈ set) :
    Thinned set rhs (((rhs.zipIdx start).filter fun item => kept item.2).map Prod.fst) := by
  induction rhs generalizing start with
  | nil => exact .nil
  | cons symbol rhs induction =>
      rw [List.zipIdx_cons] at inside ⊢
      have later := induction (start + 1) fun other position member =>
        inside other position (List.mem_cons_of_mem _ member)
      rw [List.filter_cons]
      cases here : kept start with
      | true => exact .keep symbol later
      | false => exact .drop (inside symbol start List.mem_cons_self here) later

namespace Grammar

/-- The chain with a given top is left of a rule without some nullable symbols, and says of each of its
symbols where it was. -/
structure DescendsFrom (grammar : Grammar History) (nullable : Symbol → Prop) (rule : Rule History)
    (top : Nat) : Prop where
  exists_rule : ∃ topRule, grammar.rules[top]? = some topRule ∧ topRule.lhs = rule.lhs ∧
    topRule.history.origin = rule.history.origin ∧ topRule.history.action = rule.history.action
  increasing : (grammar.chains.positionsBefore top).Pairwise (· < ·)
  length_eq : (grammar.chains.positionsBefore top).length = (grammar.chains.fullRhs top).length
  lt_length : ∀ position ∈ grammar.chains.positionsBefore top, position < rule.rhs.length
  symbol_eq : ∀ index position : Nat, (grammar.chains.positionsBefore top)[index]? = some position →
    (grammar.chains.fullRhs top)[index]? = rule.rhs[position]?
  missing : ∀ (symbol : Symbol) (position : Nat), rule.rhs[position]? = some symbol →
    position ∉ grammar.chains.positionsBefore top → nullable symbol

/-- The tops in a block stand for everything that can be left of a rule. -/
structure IsBlockFor (grammar : Grammar History) (nullable : Symbol → Prop) (rule : Rule History)
    (block : List Nat) : Prop where
  nonempty : block ≠ []
  descends : ∀ top ∈ block, grammar.DescendsFrom nullable rule top
  existsUnique : ∀ removed : Finset Nat,
    (∀ position ∈ removed, ∃ symbol, rule.rhs[position]? = some symbol ∧ nullable symbol) →
      ∃! top, top ∈ block ∧ grammar.chains.fullRhs top = withoutPositions removed rule.rhs

variable {grammar : Grammar History} {nullable : Symbol → Prop} {set : SymbolSet}
  {rule : Rule History}

/-- The positions that are recorded for a variant are those of its symbols. -/
theorem IsTopFor.descendsFrom {elision : Elision} {top : Nat}
    (isTop : grammar.IsTopFor (rule.variant (elision.elided.removeFrom 0 rule.rhs) elision) top)
    (admits : rule.admitsElision = true) (before : elision.lengthBefore = rule.rhs.length)
    (removable : ∀ position, elision.elided.contains position = true →
      ∃ symbol, rule.rhs[position]? = some symbol ∧ nullable symbol) :
    grammar.DescendsFrom nullable rule top := by
  obtain ⟨topRule, found, lineage⟩ := isTop.exists_rule
  have recorded : RuleHistory.elide rule.history elision =
      some { rule.history with elision := some elision } := by
    simp only [RuleHistory.elide, History.elide, Rule.admitsElision_iff.mp admits]
  simp only [Rule.lineage, Rule.variant, recorded, Option.getD_some, Prod.mk.injEq] at lineage
  obtain ⟨lhs, origin, action, elided⟩ := lineage
  have positions : grammar.chains.positionsBefore top =
      (elision.elided.keptItems 0 rule.rhs).map Prod.snd := by
    have now : grammar.chains.rules[top]? = some topRule := by
      rw [← found]
      exact List.getElem?_toArray
    rw [← PositionSet.retained_eq, ← before]
    simp only [Chains.positionsBefore, now, Option.bind_some]
    rw [show RuleHistory.elision topRule.history = some elision from elided]
  have symbols : grammar.chains.fullRhs top = (elision.elided.keptItems 0 rule.rhs).map Prod.fst := by
    rw [isTop.fullRhs_eq, ← PositionSet.removeFrom_eq]
    rfl
  have entry {symbol : Symbol} {position : Nat}
      (member : (symbol, position) ∈ elision.elided.keptItems 0 rule.rhs) :
      rule.rhs[position]? = some symbol :=
    List.mem_zipIdx_iff_getElem?.mp (List.mem_filter.mp member).1
  constructor
  case exists_rule => exact ⟨topRule, found, lhs, origin, action⟩
  case increasing =>
    rw [positions, ← PositionSet.retained_eq]
    exact List.pairwise_lt_range.filter _
  case length_eq => rw [positions, symbols, List.length_map, List.length_map]
  case lt_length =>
    rw [positions]
    intro position member
    obtain ⟨item, inside, rfl⟩ := List.mem_map.mp member
    exact (List.getElem?_eq_some_iff.mp (entry inside)).1
  case symbol_eq =>
    rw [positions, symbols]
    intro index position here
    rw [List.getElem?_map, Option.map_eq_some_iff] at here
    obtain ⟨⟨symbol, _⟩, here, rfl⟩ := here
    rw [List.getElem?_map, here, entry (List.mem_of_getElem? here)]
    rfl
  case missing =>
    rw [positions]
    intro symbol position here absent
    have taken : elision.elided.contains position = true := by
      by_contra kept
      refine absent (List.mem_map.mpr ⟨(symbol, position), List.mem_filter.mpr ⟨?_, ?_⟩, rfl⟩)
      · exact List.mem_zipIdx_iff_getElem?.mpr here
      · simpa using kept
    obtain ⟨other, same, isNullable⟩ := removable position taken
    rw [here, Option.some_inj] at same
    exact same ▸ isNullable

theorem isBlockFor_of_tops {limits : Limits} {variants : List (Rule History)} {block : List Nat}
    (admits : rule.admitsElision = true) (agree : ∀ symbol, symbol ∈ set ↔ nullable symbol)
    (made : MadeFrom set limits rule variants)
    (tops : List.Forall₂ grammar.IsTopFor variants block) : grammar.IsBlockFor nullable rule block := by
  have records := Rule.hasRecords_of_madeFrom admits made
  obtain ⟨_, succeeds⟩ := made
  have hasVariants := Rule.hasVariants_of_variants succeeds
  have symbols : block.map grammar.chains.fullRhs = variants.map Rule.rhs := by
    refine List.forall₂_eq_eq_eq ▸ ?_
    rw [List.forall₂_map_left_iff, List.forall₂_map_right_iff]
    exact tops.flip.imp fun _ _ isTop => isTop.fullRhs_eq
  have existsUnique (removed : Finset Nat)
      (removable : ∀ position ∈ removed, ∃ symbol, rule.rhs[position]? = some symbol ∧
        nullable symbol) :
      ∃! top, top ∈ block ∧ grammar.chains.fullRhs top = withoutPositions removed rule.rhs := by
    have thinned : Thinned set rule.rhs (withoutPositions removed rule.rhs) := by
      refine thinned_filter_zipIdx (fun position => position ∉ removed) 0 ?_
      intro symbol position here taken
      obtain ⟨other, there, isNullable⟩ := removable position (by simpa using taken)
      obtain rfl : symbol = other :=
        Option.some_inj.mp ((List.mem_zipIdx_iff_getElem?.mp here).symm.trans there)
      exact (agree symbol).mpr isNullable
    obtain ⟨elision, inside⟩ := hasVariants.complete admits _ thinned
    have shown : withoutPositions removed rule.rhs ∈ block.map grammar.chains.fullRhs := by
      rw [symbols]
      exact List.mem_map.mpr ⟨_, inside, rfl⟩
    obtain ⟨top, inBlock, shows⟩ := List.mem_map.mp shown
    refine ⟨top, ⟨inBlock, shows⟩, fun other ⟨otherInBlock, otherShows⟩ => ?_⟩
    -- Two tops with the same full right-hand side would be one variant twice.
    have distinct : (block.map grammar.chains.fullRhs).Nodup := symbols ▸ records.nodup
    exact List.inj_on_of_nodup_map distinct otherInBlock inBlock (otherShows.trans shows.symm)
  refine ⟨?nonempty, ?descends, existsUnique⟩
  case nonempty =>
    obtain ⟨top, ⟨inBlock, _⟩, _⟩ := existsUnique ∅ (by simp)
    exact List.ne_nil_of_mem inBlock
  case descends =>
    intro top inBlock
    obtain ⟨index, bound, rfl⟩ := List.getElem_of_mem inBlock
    have isTop := tops.get (tops.length_eq ▸ bound) bound
    obtain ⟨elision, same, before, taken⟩ := records.recorded _ (List.getElem_mem _)
    refine IsTopFor.descendsFrom (same ▸ isTop) admits before fun position contained => ?_
    obtain ⟨symbol, inSet, here⟩ := taken position contained
    exact ⟨symbol, here, (agree symbol).mp inSet⟩

/-- Where no rule is part of a chain, there are no chains. -/
theorem hasChains_nil {grammar : Grammar History} (uses : grammar.UsesAllocated)
    (unrecorded : ∀ rule ∈ grammar.rules, rule.link? = none) (plain : grammar.sequences = []) :
    grammar.HasChains [] where
  links := by rw [List.filterMap_eq_nil_iff.mpr unrecorded, List.flatMap_nil]
  admits := by simp
  apart := .nil
  allocated := by simp
  split_over := by simp
  rule_over := fun rule member _ => ⟨⟨uses.lhs_mem rule member, by simp [SplitRule.IsPlain]⟩,
    fun symbol occurs => ⟨uses.rhs_mem rule member symbol occurs, by simp [SplitRule.IsPlain]⟩⟩
  sequence_over := by simp [plain]

theorem ExpandsTo.link?_eq_none {grammar result : Grammar History}
    {chain : List (ExpandedSequence History)} (expands : grammar.ExpandsTo result chain)
    (histories : grammar.Histories fun history => history.isAuthored = true) {rule : Rule History}
    (member : rule ∈ result.rules) : rule.link? = none := by
  rcases expands.mem_rules_iff.mp member with authored | ⟨expanded, inChain, new⟩
  · exact Option.map_eq_none_iff.mpr
      (History.chainPiece_eq_none_of_isAuthored (histories.rule rule authored))
  · refine expands.link?_added (fun sequence member => ?_) (List.mem_flatMap.mpr ⟨_, inChain, new⟩)
    exact History.chainPiece_eq_none_of_isAuthored (histories.sequence sequence member)

theorem EliminatesTo.link?_eq_none {grammar result : Grammar History}
    {blocks : List (List (Rule History))} (eliminates : grammar.EliminatesTo result set blocks)
    (unrecorded : ∀ rule ∈ grammar.rules, rule.link? = none) {rule : Rule History}
    (member : rule ∈ result.rules) : rule.link? = none := by
  obtain ⟨source, inRules, _, _, ⟨_, rfl⟩ | ⟨admits, _, _, rfl⟩⟩ := eliminates.exists_thinned member
  · exact unrecorded rule inRules
  · exact Rule.link?_variant (unrecorded source inRules) admits

/-- Normalization turns every rule that there is after the expansion of sequences into one block of
tops. -/
theorem exists_blocks_of_normalize {grammar result : Grammar History} {limits : Limits}
    (authored : grammar.Authored fun _ => False) (uses : grammar.UsesAllocated)
    (succeeds : (grammar.normalize limits).result = .ok result) :
    ∃ expanded, (grammar.expandSequences limits).result = .ok expanded ∧
      ∃ blocks : List (List Nat), blocks.flatten = result.tops ∧
        List.Forall₂ (result.IsBlockFor fun symbol => expanded.Derives [symbol] []) expanded.rules
          blocks := by
  obtain ⟨expanded, eliminated, binarized, resolved, expansion, elimination, binarization, resolution,
    rfl⟩ := exists_passes_of_normalize succeeds
  obtain ⟨sequences, expands⟩ := exists_expandsTo expansion
  obtain ⟨variants, eliminates, made⟩ := exists_eliminatesTo_madeFrom elimination
  obtain ⟨splits, binarizes⟩ := exists_binarizesTo binarization
  have histories := authored.histories History.holdsOfWritten_isAuthored (by simp)
  have unrecorded (rule : Rule History) (member : rule ∈ eliminated.rules) : rule.link? = none :=
    eliminates.link?_eq_none (fun _ => expands.link?_eq_none histories) member
  have inventory : eliminated.HasChains [] :=
    hasChains_nil (eliminates.usesAllocated (expands.usesAllocated uses)) unrecorded eliminates.plain
  have tops : List.Forall₂ (Grammar.IsTopFor { resolved with stage := .normalized })
      variants.flatten resolved.tops := by
    rw [← eliminates.rules_eq]
    have stand := forall₂_isTopFor_resolvePrecedence resolution
      (binarizes.forall₂_isTopFor inventory unrecorded)
    exact stand.imp fun _ _ isTop => ⟨isTop.exists_rule, isTop.fullRhs_eq⟩
  obtain ⟨blocks, flat, paired⟩ := exists_groups_of_forall₂_flatten made tops
  refine ⟨expanded, expansion, blocks, flat, forall₂_imp_of_mem paired ?_⟩
  rintro rule member block _ ⟨others, madeFrom, stand⟩
  refine isBlockFor_of_tops (expands.admitsElision histories member) (fun symbol => ?_) madeFrom stand
  rw [mem_nullableSymbols_iff, derives_iff_directBy expands.plain]

/-- A letter after two signs that can be left out, so that different ways to leave one out look alike. -/
def optionalSigns : Grammar History :=
  ((({ supply := ⟨3⟩ } : Grammar History).writeRule ⟨0⟩ [⟨1⟩, ⟨1⟩, ⟨2⟩]).2.writeRule ⟨1⟩ []).2

theorem optionalSigns_exists_blocks_of_normalize :
    ∃ result, (optionalSigns.normalize {}).result = .ok result ∧
      ∃ expanded, (optionalSigns.expandSequences {}).result = .ok expanded ∧
        ∃ blocks : List (List Nat), blocks.flatten = result.tops ∧
          List.Forall₂ (result.IsBlockFor fun symbol => expanded.Derives [symbol] []) expanded.rules
            blocks := by
  obtain ⟨result, succeeds⟩ :=
    exists_eq_ok (by cbv : (optionalSigns.normalize {}).result.toBool = true)
  refine ⟨result, succeeds, exists_blocks_of_normalize ⟨⟨3⟩, ?_⟩ ?_ succeeds⟩
  · exact (Relation.ReflTransGen.refl.tail (.rule _ ⟨0⟩ [⟨1⟩, ⟨1⟩, ⟨2⟩])).tail (.rule _ ⟨1⟩ [])
  · exact
      { lhs_mem := by decide
        rhs_mem := by decide
        sequence_mem := by decide
        letter_mem := by rintro _ ⟨⟩ }

end Grammar

end TracedGrammar
