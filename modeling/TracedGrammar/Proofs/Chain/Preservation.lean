import TracedGrammar.Proofs.Chain.Reading
import TracedGrammar.Proofs.Expansion.Pass
import TracedGrammar.Proofs.History.Tracked
import TracedGrammar.Proofs.Nulling.Pass

/-!
# What becomes of chains

What is written outside chains does not disturb them, pieces may be moved and relabelled, and nulling
elimination keeps them as they are.  Binarization adds the chains of the rules it splits, and what is
read back from all chains is the same before and after.
-/

namespace TracedGrammar

variable {H : Type} [RuleHistory H]

namespace Rule

/-- What a rule is written with, and which piece of a chain it is. -/
def face (rule : Rule H) : Symbol × List Symbol × Option ChainPiece :=
  (rule.lhs, rule.rhs, RuleHistory.chainPiece rule.history)

theorem link?_eq_of_face {first second : Rule H} (same : first.face = second.face) :
    first.link? = second.link? :=
  congrArg (fun face => face.2.2.map fun piece => ChainRule.mk face.1 face.2.1 piece) same

theorem Over.of_face {property : Symbol → Prop} {first second : Rule H} (uses : first.Over property)
    (same : first.face = second.face) : second.Over property := by
  have lhs : first.lhs = second.lhs := congrArg Prod.fst same
  have rhs : first.rhs = second.rhs := congrArg (fun face => face.2.1) same
  rwa [Over, ← lhs, ← rhs]

theorem filterMap_link?_eq (rules : List (Rule H)) :
    rules.filterMap link? =
      (rules.map face).filterMap fun face => face.2.2.map fun piece => ⟨face.1, face.2.1, piece⟩ := by
  rw [List.filterMap_map]
  rfl

end Rule

namespace Grammar

variable {grammar next : Grammar H} {splits : List (SplitRule H)} {symbol : Symbol}

theorem IsOutside.mono (outside : grammar.IsOutside splits symbol)
    (larger : grammar.supply.allocated ≤ next.supply.allocated) : next.IsOutside splits symbol :=
  ⟨Nat.lt_of_lt_of_le outside.1 larger, outside.2⟩

theorem IsOutside.of_supply_eq (outside : grammar.IsOutside splits symbol)
    (same : next.supply = grammar.supply) : next.IsOutside splits symbol :=
  outside.mono (Nat.le_of_eq (congrArg _ same.symm))

namespace HasLinks

variable (inventory : grammar.HasLinks splits)
include inventory

theorem of_perm (faces : (next.rules.map Rule.face).Perm (grammar.rules.map Rule.face))
    (supply : next.supply = grammar.supply) : next.HasLinks splits := by
  refine ⟨List.Perm.trans ?_ inventory.links, inventory.admits, inventory.apart, ?_⟩
  · rw [Rule.filterMap_link?_eq, Rule.filterMap_link?_eq]
    exact faces.filterMap _
  · rw [supply]
    exact inventory.allocated

theorem append {added : List (Rule H)} (rules : next.rules = grammar.rules ++ added)
    (larger : grammar.supply.allocated ≤ next.supply.allocated)
    (unrecorded : ∀ rule ∈ added, rule.link? = none) : next.HasLinks splits where
  links := by
    have none : added.filterMap Rule.link? = [] := List.filterMap_eq_nil_iff.mpr unrecorded
    rw [rules, List.filterMap_append, none, List.append_nil]
    exact inventory.links
  admits := inventory.admits
  apart := inventory.apart
  allocated := fun split inSplits => Nat.le_trans (inventory.allocated split inSplits) larger

end HasLinks

namespace HasChains

variable (inventory : grammar.HasChains splits)
include inventory

theorem isOutside_of_new (new : symbol ∉ grammar.supply) (known : symbol ∈ next.supply) :
    next.IsOutside splits symbol := by
  refine ⟨known, fun split inSplits allocates => new ?_⟩
  exact Nat.lt_of_lt_of_le allocates.2 (inventory.allocated split inSplits)

theorem of_perm (faces : (next.rules.map Rule.face).Perm (grammar.rules.map Rule.face))
    (supply : next.supply = grammar.supply)
    (sequences : ∀ sequence ∈ next.sequences, ∃ old ∈ grammar.sequences,
      old.lhs = sequence.lhs ∧ old.repetition = sequence.repetition) : next.HasChains splits := by
  have outside : next.IsOutside splits = grammar.IsOutside splits := by
    unfold IsOutside
    rw [supply]
  refine ⟨inventory.toHasLinks.of_perm faces supply, ?split, ?rule, ?sequence⟩
  case split =>
    rw [outside]
    exact inventory.split_over
  case rule =>
    intro rule member unrecorded
    have shown := faces.mem_iff.mp (List.mem_map_of_mem member)
    obtain ⟨old, inRules, same⟩ := List.mem_map.mp shown
    rw [← Rule.link?_eq_of_face same] at unrecorded
    rw [outside]
    exact (inventory.rule_over old inRules unrecorded).of_face same
  case sequence =>
    intro sequence member
    obtain ⟨old, inSequences, lhs, repetition⟩ := sequences sequence member
    rw [outside, Sequence.Over, ← lhs, ← repetition]
    exact inventory.sequence_over old inSequences

theorem append {added : List (Rule H)} (rules : next.rules = grammar.rules ++ added)
    (larger : grammar.supply.allocated ≤ next.supply.allocated)
    (unrecorded : ∀ rule ∈ added, rule.link? = none)
    (uses : ∀ rule ∈ added, rule.Over (next.IsOutside splits))
    (sequences : ∀ sequence ∈ next.sequences, sequence.Over (next.IsOutside splits)) :
    next.HasChains splits where
  toHasLinks := inventory.toHasLinks.append rules larger unrecorded
  split_over := fun split inSplits =>
    (inventory.split_over split inSplits).mono fun _ outside => outside.mono larger
  rule_over := by
    intro rule member none
    rw [rules] at member
    rcases List.mem_append.mp member with old | new
    · exact (inventory.rule_over rule old none).mono fun _ outside => outside.mono larger
    · exact uses rule new
  sequence_over := sequences

end HasChains

end Grammar

namespace Rule

variable {rule : Rule History}

theorem link?_piece (rule : Rule History) (link : ChainRule) :
    (rule.piece link).link? = some link :=
  rfl

theorem link?_variant {rhs : List Symbol} {elision : Elision} (unrecorded : rule.link? = none)
    (admits : rule.admitsElision = true) : (rule.variant rhs elision).link? = none := by
  have fresh := admitsElision_iff.mp admits
  have absent : rule.history.chainPiece = none := Option.map_eq_none_iff.mp unrecorded
  refine Option.map_eq_none_iff.mpr ?_
  change ((rule.history.elide elision).getD rule.history).chainPiece = none
  rw [History.elide, fresh]
  exact absent

/-- What has been expanded from a sequence is a piece of a chain only if the sequence was. -/
theorem link?_ruleOf {sequence : Sequence History} (absent : sequence.history.chainPiece = none)
    (production : Production) : (sequence.ruleOf production).link? = none := by
  refine Option.map_eq_none_iff.mpr ?_
  exact absent

end Rule

namespace SplitRule

/-- Those of some rules that are split. -/
def admitted (chain : List (SplitRule History)) : List (SplitRule History) :=
  chain.filter fun split => split.rule.admitsSplit

theorem filterMap_link?_pieces {split : SplitRule History}
    (whole : split.rule.admitsSplit = true → split.rule.link? = none) :
    split.pieces.filterMap Rule.link? =
      split.rule.link?.toList ++ if split.rule.admitsSplit then split.links else [] := by
  cases admits : split.rule.admitsSplit with
  | true =>
      have recorded : Rule.link? ∘ split.pieceAt = some ∘ split.linkAt := rfl
      rw [pieces_eq admits, List.filterMap_map, recorded, List.filterMap_eq_map, whole admits]
      rfl
  | false =>
      rw [pieces_eq_singleton admits]
      cases found : split.rule.link? <;> simp [found]

variable {splits : List (SplitRule History)}

theorem row?_of_isPlain {rule : Rule History} (shallow : rule.isBelowTop = false)
    (plain : ∀ symbol ∈ rule.rhs, IsPlain splits symbol) :
    row? splits rule = some (rule.lhs, rule.rhs) := by
  rw [row?, shallow, flatMap_abbreviated_of_isPlain plain]
  rfl

theorem isBelowTop_pieceAt (split : SplitRule History) (depth : Nat) :
    (split.pieceAt depth).isBelowTop = (depth != 0) :=
  isBelowTop_of_linkAt (Rule.link?_piece _ _)

/-- Of the pieces of a rule only the top one is read back, and it is read as the rule was. -/
theorem filterMap_row?_of_admitsSplit {split : SplitRule History} (apart : splits.Pairwise Apart)
    (member : split ∈ splits) (plain : ∀ symbol ∈ split.rule.rhs, IsPlain splits symbol)
    (admits : split.rule.admitsSplit = true) :
    split.pieces.filterMap (row? splits) = [(split.rule.lhs, split.rule.rhs)] := by
  have top : row? splits (split.pieceAt 0) = some (split.rule.lhs, split.rule.rhs) := by
    have lhs : (split.pieceAt 0).lhs = split.rule.lhs := ChainRule.lhs_link
    rw [row?, isBelowTop_pieceAt, flatMap_rhs_top apart member plain admits, lhs]
    rfl
  have below (depth : Nat) : row? splits (split.pieceAt (depth + 1)) = none := by
    rw [row?, isBelowTop_pieceAt]
    rfl
  have long := Rule.long_of_admitsSplit admits
  rw [pieces_eq admits, List.filterMap_map,
    show split.rule.rhs.length - 1 = split.rule.rhs.length - 2 + 1 by omega,
    List.range_succ_eq_map, List.filterMap_cons, Function.comp_apply, top, List.filterMap_map]
  exact congrArg (List.cons _) (List.filterMap_eq_nil_iff.mpr fun depth _ => below depth)

end SplitRule

namespace Grammar

variable {grammar result : Grammar History} {splits : List (SplitRule History)} {symbol : Symbol}

/-- What has been expanded is no piece of a chain, as long as no sequence was. -/
theorem ExpandsTo.link?_added {chain : List (ExpandedSequence History)}
    (expands : grammar.ExpandsTo result chain)
    (authored : ∀ sequence ∈ grammar.sequences, sequence.history.chainPiece = none)
    {rule : Rule History} (new : rule ∈ chain.flatMap (·.rules)) : rule.link? = none := by
  obtain ⟨expanded, inChain, inRules⟩ := List.mem_flatMap.mp new
  obtain ⟨production, _, rfl⟩ := List.mem_map.mp inRules
  exact Rule.link?_ruleOf (authored _ (expands.mem_sequences inChain)) production

theorem filterMap_link?_flatten {nullable : SymbolSet} {rules : List (Rule History)}
    {blocks : List (List (Rule History))}
    (variants : List.Forall₂ (fun rule block => rule.HasVariants nullable block) rules blocks)
    (elided : ∀ rule ∈ rules, rule.link? ≠ none → rule.admitsElision = false) :
    blocks.flatten.filterMap Rule.link? = rules.filterMap Rule.link? := by
  induction variants with
  | nil => rfl
  | @cons rule block rules blocks hasVariants _ induction =>
      have rest := induction fun other member => elided other (List.mem_cons_of_mem _ member)
      rw [List.flatten_cons, List.filterMap_append, rest, ← List.singleton_append,
        List.filterMap_append]
      congr 1
      cases admits : rule.admitsElision with
      | false => rw [hasVariants.kept admits]
      | true =>
          have unrecorded : rule.link? = none := by
            by_contra recorded
            rw [elided rule List.mem_cons_self recorded] at admits
            cases admits
          rw [List.filterMap_eq_nil_iff.mpr fun other member => ?_,
            List.filterMap_eq_nil_iff.mpr (by simpa using unrecorded)]
          obtain ⟨rhs, elision, _, rfl⟩ := hasVariants.thinned admits other member
          exact Rule.link?_variant unrecorded admits

theorem BinarizesTo.isPlain_admitted {chain : List (SplitRule History)}
    (binarizes : grammar.BinarizesTo result chain) (known : symbol ∈ grammar.supply) :
    SplitRule.IsPlain (SplitRule.admitted chain) symbol :=
  fun split inNew => SplitRule.isPlain_of_mem binarizes.chained known split (List.mem_filter.mp inNew).1

theorem BinarizesTo.isOutside {chain : List (SplitRule History)}
    (binarizes : grammar.BinarizesTo result chain) (outside : grammar.IsOutside splits symbol) :
    result.IsOutside (splits ++ SplitRule.admitted chain) symbol := by
  have larger := binarizes.chained.allocated_le SplitRule.before_le_after
  refine ⟨Nat.lt_of_lt_of_le outside.1 larger, fun split member => ?_⟩
  rcases List.mem_append.mp member with old | new
  · exact outside.2 split old
  · exact binarizes.isPlain_admitted outside.1 split new

namespace HasLinks

variable (inventory : grammar.HasLinks splits)
include inventory

theorem expand {chain : List (ExpandedSequence History)} (expands : grammar.ExpandsTo result chain)
    (authored : ∀ sequence ∈ grammar.sequences, sequence.history.chainPiece = none) :
    result.HasLinks splits :=
  inventory.append expands.rules_eq (expands.chained.allocated_le ExpandedSequence.before_le_after)
    fun _ => expands.link?_added authored

theorem eliminate {nullable : SymbolSet} {blocks : List (List (Rule History))}
    (eliminates : grammar.EliminatesTo result nullable blocks)
    (elided : ∀ rule ∈ grammar.rules, rule.link? ≠ none → rule.admitsElision = false) :
    result.HasLinks splits where
  links := by
    rw [eliminates.rules_eq, filterMap_link?_flatten eliminates.variants elided]
    exact inventory.links
  admits := inventory.admits
  apart := inventory.apart
  allocated := by
    rw [eliminates.supply_eq]
    exact inventory.allocated

theorem link?_of_admitsSplit {rule : Rule History} (member : rule ∈ grammar.rules)
    (admits : rule.admitsSplit = true) : rule.link? = none := by
  cases recorded : rule.link? with
  | none => rfl
  | some link =>
      obtain ⟨split, _, depth, bound, rfl⟩ := inventory.exists_linkAt member recorded
      have two : (split.linkAt depth).rhs.length = 2 := ChainRule.length_rhs_link bound
      have long := Rule.long_of_admitsSplit admits
      rw [Rule.rhs_of_link recorded] at long
      omega

variable {chain : List (SplitRule History)} (binarizes : grammar.BinarizesTo result chain)
include binarizes

theorem links_binarize : (result.rules.filterMap Rule.link?).Perm
    ((splits ++ SplitRule.admitted chain).flatMap SplitRule.links) := by
  have pieces : ∀ split ∈ chain, split.pieces.filterMap Rule.link? =
      split.rule.link?.toList ++ if split.rule.admitsSplit then split.links else [] :=
    fun split inChain => SplitRule.filterMap_link?_pieces fun admits =>
      inventory.link?_of_admitsSplit (binarizes.rule_mem inChain) admits
  have old : (chain.flatMap fun split => split.rule.link?.toList) =
      grammar.rules.filterMap Rule.link? := by
    rw [← binarizes.rules_eq, List.filterMap_map, List.filterMap_eq_flatMap_toList]
    rfl
  have new : (chain.flatMap fun split => if split.rule.admitsSplit then split.links else []) =
      (SplitRule.admitted chain).flatMap SplitRule.links := by
    clear pieces old binarizes
    induction chain with
    | nil => rfl
    | cons split chain induction =>
        rw [List.flatMap_cons, induction, SplitRule.admitted, SplitRule.admitted, List.filter_cons]
        split <;> rfl
  rw [binarizes.pieces_eq, List.filterMap_flatMap, List.flatMap_congr pieces, List.flatMap_append,
    ← new]
  refine (List.flatMap_append_perm _ _ _).symm.trans ?_
  rw [old]
  exact inventory.links.append_right _

theorem binarize : result.HasLinks (splits ++ SplitRule.admitted chain) where
  links := inventory.links_binarize binarizes
  admits := by
    intro split member
    rcases List.mem_append.mp member with old | new
    · exact inventory.admits split old
    · exact (List.mem_filter.mp new).2
  apart := by
    refine List.pairwise_append.mpr ⟨inventory.apart, ?new, ?across⟩
    case new => exact (SplitRule.pairwise_apart binarizes.chained).filter _
    case across =>
      intro first inSplits second inNew
      apply SplitRule.apart_of_le
      have stop := inventory.allocated first inSplits
      have start := binarizes.chained.le_before SplitRule.before_le_after (List.mem_filter.mp inNew).1
      omega
  allocated := by
    intro split member
    rcases List.mem_append.mp member with old | new
    · have stop := inventory.allocated split old
      have larger := binarizes.chained.allocated_le SplitRule.before_le_after
      omega
    · exact binarizes.chained.after_le SplitRule.before_le_after (List.mem_filter.mp new).1
end HasLinks

namespace HasChains

variable (inventory : grammar.HasChains splits)
include inventory

theorem expand {chain : List (ExpandedSequence History)} (expands : grammar.ExpandsTo result chain)
    (authored : ∀ sequence ∈ grammar.sequences, sequence.history.chainPiece = none) :
    result.HasChains splits := by
  have larger := expands.chained.allocated_le ExpandedSequence.before_le_after
  refine inventory.append expands.rules_eq larger (fun _ => expands.link?_added authored)
    (fun rule member => ?_) (by simp [expands.plain])
  obtain ⟨expanded, inChain, new⟩ := List.mem_flatMap.mp member
  have own := (inventory.sequence_over _ (expands.mem_sequences inChain)).mono
    fun _ outside => outside.mono larger
  have helper {other : Repetition} (inOrder : other ∈ expanded.order) :
      result.IsOutside splits (expanded.symbolOf other) :=
    inventory.isOutside_of_new (expands.chained.helper_not_mem inChain inOrder)
      (expands.helper_mem inChain inOrder)
  obtain ⟨top, symbol, written, writes, row, inside, rfl⟩ := expanded.mem_rules_iff.mp new
  have lhs : result.IsOutside splits symbol := by
    cases writes with
    | top => exact own.1
    | helper inOrder => exact helper inOrder
  refine ⟨lhs, fun other occurs => ?_⟩
  rcases expanded.mem_rhs_ruleFor writes inside occurs with letter | rfl | ⟨child, inOrder, rfl⟩
  · exact own.2 other letter
  · exact lhs
  · exact helper inOrder

theorem eliminate {nullable : SymbolSet} {blocks : List (List (Rule History))}
    (eliminates : grammar.EliminatesTo result nullable blocks)
    (elided : ∀ rule ∈ grammar.rules, rule.link? ≠ none → rule.admitsElision = false) :
    result.HasChains splits where
  toHasLinks := inventory.toHasLinks.eliminate eliminates elided
  split_over := fun split inSplits =>
    (inventory.split_over split inSplits).mono fun _ outside =>
      outside.of_supply_eq eliminates.supply_eq
  rule_over := by
    intro other member unrecorded
    obtain ⟨rule, inRules, lhs, thinned, made⟩ := eliminates.exists_thinned member
    have whole : rule.link? = none := by
      rcases made with ⟨_, rfl⟩ | ⟨admits, _⟩
      · exact unrecorded
      · by_contra recorded
        rw [elided rule inRules recorded] at admits
        cases admits
    have uses := (inventory.rule_over rule inRules whole).mono
      fun _ outside => outside.of_supply_eq eliminates.supply_eq
    rw [Rule.Over, lhs]
    exact ⟨uses.1, fun symbol occurs => uses.2 symbol (thinned.sublist.subset occurs)⟩
  sequence_over := by simp [eliminates.plain]

section Binarization

variable {chain : List (SplitRule History)} (binarizes : grammar.BinarizesTo result chain)
include binarizes

theorem binarize : result.HasChains (splits ++ SplitRule.admitted chain) where
  toHasLinks := inventory.toHasLinks.binarize binarizes
  split_over := by
    intro split member
    refine Rule.Over.mono ?_ fun _ => binarizes.isOutside
    rcases List.mem_append.mp member with old | new
    · exact inventory.split_over split old
    · obtain ⟨inChain, admits⟩ := List.mem_filter.mp new
      have inRules := binarizes.rule_mem inChain
      exact inventory.rule_over _ inRules (inventory.link?_of_admitsSplit inRules admits)
  rule_over := by
    intro rule member unrecorded
    obtain ⟨split, inChain, inPieces⟩ := binarizes.mem_rules_iff.mp member
    rcases SplitRule.eq_or_exists_pieceAt inPieces with ⟨_, rfl⟩ | ⟨_, depth, _, rfl⟩
    · exact (inventory.rule_over _ (binarizes.rule_mem inChain) unrecorded).mono
        fun _ => binarizes.isOutside
    · cases unrecorded
  sequence_over := by simp [binarizes.plain]

/-- The rules that are read back from the pieces of a rule are the one that is read back from it. -/
theorem filterMap_row?_pieces {split : SplitRule History} (inChain : split ∈ chain) :
    split.pieces.filterMap (SplitRule.row? (splits ++ SplitRule.admitted chain)) =
      (SplitRule.row? splits split.rule).toList := by
  have inRules := binarizes.rule_mem inChain
  cases admits : split.rule.admitsSplit with
  | false =>
      have same : ∀ symbol ∈ split.rule.rhs,
          SplitRule.abbreviated (splits ++ SplitRule.admitted chain) symbol =
            SplitRule.abbreviated splits symbol := fun symbol occurs =>
        SplitRule.abbreviated_append (binarizes.isPlain_admitted
          (inventory.usesAllocated.rhs_mem _ inRules symbol occurs))
      rw [SplitRule.pieces_eq_singleton admits, SplitRule.row?, ← List.flatMap_congr same]
      cases deep : split.rule.isBelowTop <;> simp [SplitRule.row?, deep]
  | true =>
      have unrecorded := inventory.link?_of_admitsSplit inRules admits
      have uses := inventory.rule_over _ inRules unrecorded
      have later := inventory.binarize binarizes
      have inNew : split ∈ splits ++ SplitRule.admitted chain :=
        List.mem_append_right splits (List.mem_filter.mpr ⟨inChain, admits⟩)
      have usesLater := later.split_over split inNew
      rw [SplitRule.row?_of_isPlain (Rule.isBelowTop_of_not_link unrecorded) (isPlain_of_over uses)]
      exact SplitRule.filterMap_row?_of_admitsSplit later.apart inNew (isPlain_of_over usesLater)
        admits

/-- Binarization changes nothing in what is read back. -/
theorem unsplit_binarize : result.unsplit = grammar.unsplit := by
  rw [(inventory.binarize binarizes).unsplit_eq, inventory.unsplit_eq, binarizes.pieces_eq,
    List.filterMap_flatMap,
    List.flatMap_congr fun split inChain => inventory.filterMap_row?_pieces binarizes inChain,
    ← binarizes.rules_eq, List.filterMap_map, List.filterMap_eq_flatMap_toList]
  rfl

end Binarization

end HasChains

end Grammar

end TracedGrammar
