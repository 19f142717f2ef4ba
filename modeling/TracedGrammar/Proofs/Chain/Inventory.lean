import TracedGrammar.Proofs.Chain.Following
import TracedGrammar.Proofs.Chain.Language
import TracedGrammar.Proofs.Lists

/-!
# The chains in a grammar

After rules were split, their pieces may be sorted among other rules and get other actions and
precedence.  A grammar still has the chains of some split rules when its rules record the links of these
chains, each link once, and nothing else in it uses a symbol from inside a chain.
-/

namespace TracedGrammar

variable {H : Type}

namespace SplitRule

def linkAt (split : SplitRule H) (depth : Nat) : ChainRule :=
  ChainRule.link split.rule.rhs split.rule.lhs split.before depth

def links (split : SplitRule H) : List ChainRule :=
  (List.range (split.rule.rhs.length - 1)).map split.linkAt

theorem mem_links {split : SplitRule H} {link : ChainRule} :
    link ∈ split.links ↔ ∃ depth, depth + 2 ≤ split.rule.rhs.length ∧ split.linkAt depth = link := by
  simp only [links, List.mem_map, List.mem_range]
  refine exists_congr fun depth => and_congr_left fun _ => ?_
  omega

theorem nodup_links (split : SplitRule H) : split.links.Nodup := by
  refine List.Nodup.map (fun first second same => ?_) List.nodup_range
  have depths := congrArg (fun link => link.piece.depth) same
  simpa only [linkAt, ChainRule.depth_link] using depths

end SplitRule

variable [RuleHistory H]

namespace Rule

/-- The link of a chain, if the rule is recorded to be a piece of one. -/
def link? (rule : Rule H) : Option ChainRule :=
  (RuleHistory.chainPiece rule.history).map fun piece => ⟨rule.lhs, rule.rhs, piece⟩

variable {rule : Rule H} {link : ChainRule}

theorem lhs_of_link (recorded : rule.link? = some link) : rule.lhs = link.lhs := by
  obtain ⟨piece, _, rfl⟩ := Option.map_eq_some_iff.mp recorded
  rfl

theorem rhs_of_link (recorded : rule.link? = some link) : rule.rhs = link.rhs := by
  obtain ⟨piece, _, rfl⟩ := Option.map_eq_some_iff.mp recorded
  rfl

theorem chainPiece_of_link (recorded : rule.link? = some link) :
    RuleHistory.chainPiece rule.history = some link.piece := by
  obtain ⟨piece, found, rfl⟩ := Option.map_eq_some_iff.mp recorded
  exact found

theorem isBelowTop_of_link (recorded : rule.link? = some link) :
    rule.isBelowTop = !link.piece.isTop := by
  rw [isBelowTop, chainPiece_of_link recorded]
  rfl

theorem continuesBelow_of_link (recorded : rule.link? = some link) :
    rule.continuesBelow = (link.piece.part == .right) := by
  rw [continuesBelow, chainPiece_of_link recorded]
  rfl

theorem exists_link_of_isBelowTop (deep : rule.isBelowTop = true) :
    ∃ link, rule.link? = some link ∧ link.piece.depth ≠ 0 := by
  unfold isBelowTop at deep
  cases found : RuleHistory.chainPiece rule.history with
  | none => simp [found] at deep
  | some piece =>
      refine ⟨⟨rule.lhs, rule.rhs, piece⟩, by rw [link?, found]; rfl, ?_⟩
      simpa [found, ChainPiece.isTop] using deep

theorem continuesBelow_of_not_link (unrecorded : rule.link? = none) :
    rule.continuesBelow = false := by
  rw [continuesBelow, Option.map_eq_none_iff.mp unrecorded]
  rfl

theorem isBelowTop_of_not_link (unrecorded : rule.link? = none) : rule.isBelowTop = false := by
  rw [isBelowTop, Option.map_eq_none_iff.mp unrecorded]
  rfl

end Rule

namespace SplitRule

variable {split first second : SplitRule H} {depth : Nat}

theorem isBelowTop_of_linkAt {rule : Rule H} (recorded : rule.link? = some (split.linkAt depth)) :
    rule.isBelowTop = (depth != 0) := by
  rw [Rule.isBelowTop_of_link recorded, linkAt, ChainPiece.isTop, ChainRule.depth_link]
  rfl

theorem top_mem_links (admits : split.rule.admitsSplit = true) : split.linkAt 0 ∈ split.links :=
  mem_links.mpr ⟨0, Nat.le_of_lt (Rule.long_of_admitsSplit admits), rfl⟩

theorem allocates_lhs (admits : split.rule.admitsSplit = true)
    (bound : depth + 3 ≤ split.rule.rhs.length) :
    split.Allocates (split.linkAt (depth + 1)).lhs := by
  rw [linkAt, ChainRule.lhs_link]
  exact symbolAt_allocated admits bound

/-- Links of chains that are apart differ: each shows a symbol from inside its chain. -/
theorem Apart.disjoint (apart : first.Apart second) (admitsFirst : first.rule.admitsSplit = true)
    (admitsSecond : second.rule.admitsSplit = true) : first.links.Disjoint second.links := by
  intro link inFirst inSecond
  obtain ⟨depth, bound, rfl⟩ := mem_links.mp inFirst
  obtain ⟨other, otherBound, same⟩ := mem_links.mp inSecond
  obtain rfl : other = depth := by
    have depths := congrArg (fun link => link.piece.depth) same
    simpa only [linkAt, ChainRule.depth_link] using depths
  cases other with
  | zero =>
      have longFirst := Rule.long_of_admitsSplit admitsFirst
      have longSecond := Rule.long_of_admitsSplit admitsSecond
      have heads := congrArg (fun link => link.rhs.head?) same
      rw [linkAt, linkAt, ChainRule.link, if_pos (by omega), ChainRule.link,
        if_pos (by omega)] at heads
      have key := Option.some.inj heads
      refine apart _ (symbolAt_allocated admitsFirst longFirst) ?_
      rw [← key]
      exact symbolAt_allocated admitsSecond longSecond
  | succ depth =>
      refine apart _ (allocates_lhs admitsFirst bound) ?_
      rw [← same]
      exact allocates_lhs admitsSecond otherBound

end SplitRule

namespace Grammar

variable {grammar : Grammar H} {splits : List (SplitRule H)}

/-- A symbol is allocated, and not inside one of some chains. -/
def IsOutside (grammar : Grammar H) (splits : List (SplitRule H)) (symbol : Symbol) : Prop :=
  symbol ∈ grammar.supply ∧ SplitRule.IsPlain splits symbol

theorem isPlain_of_over {rule : Rule H} (uses : rule.Over (grammar.IsOutside splits)) :
    ∀ symbol ∈ rule.rhs, SplitRule.IsPlain splits symbol :=
  fun symbol occurs => (uses.2 symbol occurs).2

/-- The pieces in a grammar are the links of some split rules, whatever else is written with the
symbols inside their chains. -/
structure HasLinks (grammar : Grammar H) (splits : List (SplitRule H)) : Prop where
  links : (grammar.rules.filterMap Rule.link?).Perm (splits.flatMap SplitRule.links)
  admits : ∀ split ∈ splits, split.rule.admitsSplit = true
  apart : splits.Pairwise SplitRule.Apart
  allocated : ∀ split ∈ splits, split.after.allocated ≤ grammar.supply.allocated

/-- The chains in a grammar are those of some split rules. -/
structure HasChains (grammar : Grammar H) (splits : List (SplitRule H)) : Prop
    extends HasLinks grammar splits where
  split_over : ∀ split ∈ splits, split.rule.Over (grammar.IsOutside splits)
  rule_over : ∀ rule ∈ grammar.rules, rule.link? = none → rule.Over (grammar.IsOutside splits)
  sequence_over : ∀ sequence ∈ grammar.sequences, sequence.Over (grammar.IsOutside splits)

namespace HasLinks

variable (inventory : grammar.HasLinks splits) {split other : SplitRule H} {rule : Rule H}
include inventory

theorem exists_linkAt (member : rule ∈ grammar.rules) {link : ChainRule}
    (recorded : rule.link? = some link) :
    ∃ split ∈ splits, ∃ depth, depth + 2 ≤ split.rule.rhs.length ∧ split.linkAt depth = link := by
  have inLinks := inventory.links.mem_iff.mp (List.mem_filterMap.mpr ⟨rule, member, recorded⟩)
  obtain ⟨split, inSplits, inChain⟩ := List.mem_flatMap.mp inLinks
  exact ⟨split, inSplits, SplitRule.mem_links.mp inChain⟩

theorem exists_rule (inSplits : split ∈ splits) {depth : Nat}
    (bound : depth + 2 ≤ split.rule.rhs.length) :
    ∃ (index : Nat) (rule : Rule H), grammar.rules[index]? = some rule ∧
      rule.link? = some (split.linkAt depth) := by
  have inLinks : split.linkAt depth ∈ splits.flatMap SplitRule.links :=
    List.mem_flatMap.mpr ⟨split, inSplits, SplitRule.mem_links.mpr ⟨depth, bound, rfl⟩⟩
  obtain ⟨rule, member, recorded⟩ := List.mem_filterMap.mp (inventory.links.mem_iff.mpr inLinks)
  obtain ⟨index, found⟩ := List.getElem?_of_mem member
  exact ⟨index, rule, found, recorded⟩

theorem nodup_links : (grammar.rules.filterMap Rule.link?).Nodup := by
  rw [inventory.links.nodup_iff, List.nodup_flatMap]
  refine ⟨fun split _ => split.nodup_links, ?_⟩
  refine inventory.apart.imp_of_mem fun inFirst inSecond apart => ?_
  exact apart.disjoint (inventory.admits _ inFirst) (inventory.admits _ inSecond)

/-- No link is recorded twice. -/
theorem index_eq_of_link {left right : Nat} {first second : Rule H}
    (atLeft : grammar.rules[left]? = some first) (atRight : grammar.rules[right]? = some second)
    {link : ChainRule} (former : first.link? = some link) (latter : second.link? = some link) :
    left = right := by
  have distinct := List.pairwise_filterMap.mp inventory.nodup_links
  exact index_eq_of_pairwise distinct atLeft atRight
    ⟨fun differ => differ link former link latter rfl, fun differ => differ link latter link former rfl⟩

theorem exists_linkAt_below (member : rule ∈ grammar.rules) (deep : rule.isBelowTop = true) :
    ∃ split ∈ splits, ∃ depth, depth + 3 ≤ split.rule.rhs.length ∧
      rule.link? = some (split.linkAt (depth + 1)) ∧ split.Allocates rule.lhs := by
  obtain ⟨link, recorded, below⟩ := Rule.exists_link_of_isBelowTop deep
  obtain ⟨split, inSplits, depth, bound, rfl⟩ := inventory.exists_linkAt member recorded
  cases depth with
  | zero => exact absurd ChainRule.depth_link below
  | succ depth =>
      refine ⟨split, inSplits, depth, bound, recorded, ?_⟩
      rw [Rule.lhs_of_link recorded]
      exact SplitRule.allocates_lhs (inventory.admits _ inSplits) bound

/-- A rule that is not below the top of a chain is no piece, or the top piece of one of the chains. -/
theorem not_link_or_top (member : rule ∈ grammar.rules) (shallow : rule.isBelowTop = false) :
    rule.link? = none ∨ ∃ split ∈ splits, rule.link? = some (split.linkAt 0) := by
  cases recorded : rule.link? with
  | none => exact .inl rfl
  | some link =>
      obtain ⟨split, inSplits, depth, _, rfl⟩ := inventory.exists_linkAt member recorded
      rw [SplitRule.isBelowTop_of_linkAt recorded, bne_eq_false_iff_eq] at shallow
      subst shallow
      exact .inr ⟨split, inSplits, rfl⟩

/-- No chain has a link of another one. -/
theorem eq_of_mem_links (inSplits : split ∈ splits) (inOther : other ∈ splits) {link : ChainRule}
    (isLink : link ∈ split.links) (isOtherLink : link ∈ other.links) : split = other := by
  by_contra different
  have apart := inventory.apart.forall inSplits inOther different
  exact apart.disjoint (inventory.admits _ inSplits) (inventory.admits _ inOther) isLink isOtherLink

/-- Of the pieces below tops, one only has a symbol on its left-hand side. -/
theorem index_eq_of_lhs_below {left right : Nat} {first second : Rule H}
    (atLeft : grammar.rules[left]? = some first) (atRight : grammar.rules[right]? = some second)
    (deep : first.isBelowTop = true) (otherDeep : second.isBelowTop = true)
    (same : second.lhs = first.lhs) : right = left := by
  obtain ⟨split, inSplits, depth, bound, recorded, allocates⟩ :=
    inventory.exists_linkAt_below (List.mem_of_getElem? atLeft) deep
  obtain ⟨other, inOther, otherDepth, otherBound, otherRecorded, otherAllocates⟩ :=
    inventory.exists_linkAt_below (List.mem_of_getElem? atRight) otherDeep
  rw [same] at otherAllocates
  obtain rfl := SplitRule.eq_of_allocates inventory.apart inSplits inOther allocates otherAllocates
  rw [Rule.lhs_of_link recorded, Rule.lhs_of_link otherRecorded, SplitRule.linkAt,
    SplitRule.linkAt, ChainRule.lhs_link, ChainRule.lhs_link] at same
  have ids := congrArg Symbol.id same
  obtain rfl : otherDepth = depth := Nat.add_left_cancel ids
  exact inventory.index_eq_of_link atRight atLeft otherRecorded recorded

end HasLinks

namespace HasChains

variable (inventory : grammar.HasChains splits) {split other : SplitRule H} {rule : Rule H}
include inventory

theorem isOutside_lhs (member : rule ∈ grammar.rules) (shallow : rule.isBelowTop = false) :
    grammar.IsOutside splits rule.lhs := by
  rcases inventory.not_link_or_top member shallow with unrecorded | ⟨split, inSplits, recorded⟩
  · exact (inventory.rule_over rule member unrecorded).1
  · rw [Rule.lhs_of_link recorded, SplitRule.linkAt, ChainRule.lhs_link]
    exact (inventory.split_over split inSplits).1

theorem usesAllocated : grammar.UsesAllocated where
  lhs_mem := by
    intro rule member
    cases deep : rule.isBelowTop with
    | false => exact (inventory.isOutside_lhs member deep).1
    | true =>
        obtain ⟨split, inSplits, _, _, _, allocates⟩ := inventory.exists_linkAt_below member deep
        exact Nat.lt_of_lt_of_le allocates.2 (inventory.allocated split inSplits)
  rhs_mem := by
    intro rule member symbol occurs
    cases recorded : rule.link? with
    | none => exact ((inventory.rule_over rule member recorded).2 symbol occurs).1
    | some link =>
        obtain ⟨split, inSplits, depth, _, rfl⟩ := inventory.exists_linkAt member recorded
        rw [Rule.rhs_of_link recorded] at occurs
        rcases ChainRule.mem_rhs_link occurs with letter | ⟨above, rfl⟩
        · exact ((inventory.split_over split inSplits).2 symbol letter).1
        · have allocates := SplitRule.symbolAt_allocated (inventory.admits split inSplits) above
          exact Nat.lt_of_lt_of_le allocates.2 (inventory.allocated split inSplits)
  sequence_mem := fun sequence member => (inventory.sequence_over sequence member).1.1
  letter_mem := fun sequence member letter occurs =>
    ((inventory.sequence_over sequence member).2 letter occurs).1

/-- A symbol inside a chain is on the left-hand side of one piece only. -/
theorem index_eq_of_lhs {left right : Nat} {first second : Rule H}
    (atLeft : grammar.rules[left]? = some first) (atRight : grammar.rules[right]? = some second)
    (deep : first.isBelowTop = true) (same : second.lhs = first.lhs) : right = left := by
  cases otherDeep : second.isBelowTop with
  | true => exact inventory.index_eq_of_lhs_below atLeft atRight deep otherDeep same
  | false =>
      obtain ⟨split, inSplits, _, _, _, allocates⟩ :=
        inventory.exists_linkAt_below (List.mem_of_getElem? atLeft) deep
      have outside := inventory.isOutside_lhs (List.mem_of_getElem? atRight) otherDeep
      rw [same] at outside
      exact absurd allocates (outside.2 split inSplits)

end HasChains

end Grammar

end TracedGrammar
