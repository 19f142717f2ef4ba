import TracedGrammar.Proofs.Chain.Inventory

/-!
# Reading chains back

When a grammar has the chains of some split rules, the way down from a top piece goes through the
pieces of its chain and ends, and what they contribute makes up the right-hand side that was split.
-/

namespace TracedGrammar

variable {H : Type} [RuleHistory H]

namespace SplitRule

variable (split : SplitRule H) {rule : Rule H} {depth : Nat}
  (recorded : rule.link? = some (split.linkAt depth))
include recorded

theorem contribution_above (above : depth + 2 < split.rule.rhs.length) :
    rule.contribution = split.rule.rhs[split.rule.rhs.length - (depth + 1)]?.toList := by
  have continues : rule.continuesBelow = true := by
    rw [Rule.continuesBelow_of_link recorded, linkAt, ChainRule.piece_link, if_pos above]
    rfl
  obtain ⟨last, found⟩ : ∃ last, split.rule.rhs[split.rule.rhs.length - (depth + 1)]? = some last :=
    ⟨_, List.getElem?_eq_getElem (by omega)⟩
  rw [Rule.contribution, if_pos continues, Rule.rhs_of_link recorded, linkAt, ChainRule.link,
    if_pos above, found]
  rfl

theorem contribution_bottom (bottom : ¬depth + 2 < split.rule.rhs.length) :
    rule.contribution = ChainRule.wordAt split.rule.rhs depth := by
  have ends : rule.continuesBelow = false := by
    rw [Rule.continuesBelow_of_link recorded, linkAt, ChainRule.piece_link, if_neg bottom]
    rfl
  rw [Rule.contribution, if_neg (by simp [ends]), Rule.rhs_of_link recorded, linkAt, ChainRule.link,
    if_neg bottom]

/-- A rule as it was before the split, unless it is a piece below a top. -/
def row? (splits : List (SplitRule H)) (rule : Rule H) : Option (Symbol × List Symbol) :=
  if rule.isBelowTop then none else some (rule.lhs, rule.rhs.flatMap (abbreviated splits))

end SplitRule

namespace Grammar

def chains (grammar : Grammar H) : Chains H :=
  Chains.ofRules grammar.rules

def linkOf? (grammar : Grammar H) (index : Nat) : Option ChainRule :=
  grammar.rules[index]?.bind Rule.link?

/-- Which piece of a chain the rule at an index is. -/
def pieceOf? (grammar : Grammar H) (index : Nat) : Option ChainPiece :=
  grammar.rules[index]?.bind fun rule => RuleHistory.chainPiece rule.history

/-- The left-hand sides and full right-hand sides of all rules that do not define a symbol inside a
chain. -/
def unsplit (grammar : Grammar H) : List (Symbol × List Symbol) :=
  grammar.rules.zipIdx.filterMap fun item =>
    if grammar.chains.isChainSymbol item.1.lhs then none
    else some (item.1.lhs, grammar.chains.fullRhs item.2)

/-- What the rule at an index contributes to the right-hand side of its chain. -/
def contributionOf (grammar : Grammar H) (index : Nat) : List Symbol :=
  (grammar.chains.rules[index]?.map Rule.contribution).getD []

variable {grammar : Grammar H} {index : Nat} {rule : Rule H}

theorem linkOf?_eq_some_iff {link : ChainRule} : grammar.linkOf? index = some link ↔
    ∃ rule, grammar.rules[index]? = some rule ∧ rule.link? = some link :=
  Option.bind_eq_some_iff

theorem pieceOf?_eq (grammar : Grammar H) (index : Nat) :
    grammar.pieceOf? index = (grammar.linkOf? index).map ChainRule.piece := by
  unfold pieceOf? linkOf?
  cases grammar.rules[index]? with
  | none => rfl
  | some rule =>
      simp only [Option.bind_some, Rule.link?, Option.map_map]
      exact Option.map_id'.symm

theorem rules_chains (found : grammar.rules[index]? = some rule) :
    grammar.chains.rules[index]? = some rule := by
  rwa [chains, Chains.ofRules, List.getElem?_toArray]

theorem contributionOf_eq (found : grammar.rules[index]? = some rule) :
    grammar.contributionOf index = rule.contribution := by
  rw [contributionOf, rules_chains found]
  rfl

theorem next?_eq_none (found : grammar.rules[index]? = some rule)
    (ends : rule.continuesBelow = false) : grammar.chains.next? index = none := by
  simp [Chains.next?, rules_chains found, ends]

namespace HasLinks

variable {splits : List (SplitRule H)} (inventory : grammar.HasLinks splits)
include inventory

theorem below_lhs (found : grammar.rules[index]? = some rule) (deep : rule.isBelowTop = true) :
    grammar.chains.below[rule.lhs]? = some index := by
  have known : grammar.chains.isChainSymbol rule.lhs = true :=
    Chains.isChainSymbol_ofRules_iff.mpr ⟨rule, List.mem_of_getElem? found, deep, rfl⟩
  have isSome := Std.HashMap.isSome_getElem?_eq_contains.trans known
  obtain ⟨other, leads⟩ := Option.isSome_iff_exists.mp isSome
  obtain ⟨otherRule, atOther, otherDeep, same⟩ := Chains.exists_rule_of_below leads
  rw [leads, inventory.index_eq_of_lhs_below found atOther deep otherDeep same]

variable {split : SplitRule H} (inSplits : split ∈ splits)
include inSplits

theorem exists_next {depth : Nat} (above : depth + 2 < split.rule.rhs.length)
    (found : grammar.rules[index]? = some rule) (recorded : rule.link? = some (split.linkAt depth)) :
    ∃ below, ∃ other : Rule H, grammar.rules[below]? = some other ∧
      other.link? = some (split.linkAt (depth + 1)) ∧ grammar.chains.next? index = some below := by
  obtain ⟨below, other, atBelow, otherRecorded⟩ := inventory.exists_rule inSplits above
  refine ⟨below, other, atBelow, otherRecorded, ?_⟩
  have piece : (split.linkAt depth).piece.part = .right := by
    rw [SplitRule.linkAt, ChainRule.piece_link, if_pos above]
  have continues : rule.continuesBelow = true := by
    rw [Rule.continuesBelow_of_link recorded, piece]
    rfl
  have deep : other.isBelowTop = true := SplitRule.isBelowTop_of_linkAt otherRecorded
  have head : rule.rhs.head? = some other.lhs := by
    rw [Rule.rhs_of_link recorded, Rule.lhs_of_link otherRecorded, SplitRule.linkAt,
      SplitRule.linkAt, ChainRule.lhs_link, ChainRule.link, if_pos above]
    rfl
  have different : below ≠ index := by
    rintro rfl
    obtain rfl := Option.some.inj (found.symm.trans atBelow)
    have links := Option.some.inj (recorded.symm.trans otherRecorded)
    have depths := congrArg (fun link => link.piece.depth) links
    simp only [SplitRule.linkAt, ChainRule.depth_link] at depths
    omega
  simp [Chains.next?, rules_chains found, continues, head, inventory.below_lhs atBelow deep,
    different]

/-- The way down from the piece at a depth.  The induction goes up from the bottom of the chain. -/
theorem exists_way (gap depth : Nat) (bound : depth + 2 + gap = split.rule.rhs.length)
    (found : grammar.rules[index]? = some rule) (recorded : rule.link? = some (split.linkAt depth)) :
    ∃ indices, grammar.chains.Follows index indices ∧
      indices.map grammar.linkOf? = (List.range' depth (gap + 1)).map (some ∘ split.linkAt) ∧
      indices.reverse.flatMap grammar.contributionOf = ChainRule.wordAt split.rule.rhs depth := by
  have here := linkOf?_eq_some_iff.mpr ⟨rule, found, recorded⟩
  induction gap generalizing depth index rule with
  | zero =>
      have ends : rule.continuesBelow = false := by
        rw [Rule.continuesBelow_of_link recorded, SplitRule.linkAt, ChainRule.piece_link,
          if_neg (by omega)]
        rfl
      refine ⟨[index], .last (next?_eq_none found ends), by simp [here], ?_⟩
      rw [List.reverse_singleton, List.flatMap_singleton, contributionOf_eq found,
        split.contribution_bottom recorded (by omega)]
  | succ gap induction =>
      have above : depth + 2 < split.rule.rhs.length := by omega
      obtain ⟨below, other, atBelow, otherRecorded, next⟩ :=
        inventory.exists_next inSplits above found recorded
      obtain ⟨rest, follows, links, contributions⟩ := induction (depth + 1) (by omega) atBelow
        otherRecorded (linkOf?_eq_some_iff.mpr ⟨other, atBelow, otherRecorded⟩)
      refine ⟨index :: rest, .step next follows, ?_, ?_⟩
      · rw [List.range'_succ, List.map_cons, List.map_cons, here, links]
        rfl
      · rw [List.reverse_cons, List.flatMap_append, contributions, List.flatMap_singleton,
          contributionOf_eq found, split.contribution_above recorded above,
          ← ChainRule.wordAt_eq_append above]

end HasLinks

/-- Some indices are those of a whole chain, with one piece for each depth and the bottom last. -/
structure IsWholeChain (grammar : Grammar H) (fullLength : Nat) (indices : List Nat) : Prop where
  long : 2 < fullLength
  nodup : indices.Nodup
  pieces : indices.map grammar.pieceOf? =
    (List.range (fullLength - 1)).map fun depth =>
      some ⟨if depth + 2 < fullLength then .right else .left, depth, fullLength⟩

theorem lt_of_linkOf?_eq_some {link : ChainRule} (found : grammar.linkOf? index = some link) :
    index < grammar.chains.rules.size := by
  obtain ⟨rule, atIndex, _⟩ := linkOf?_eq_some_iff.mp found
  exact (Array.getElem?_eq_some_iff.mp (rules_chains atIndex)).1

/-- A rule that is no piece of a chain is a chain by itself. -/
theorem pieces_of_not_link (found : grammar.rules[index]? = some rule)
    (unrecorded : rule.link? = none) :
    grammar.chains.Follows index [index] ∧ grammar.chains.pieces index = [index] ∧
      grammar.chains.fullRhs index = rule.rhs := by
  have ends := Rule.continuesBelow_of_not_link unrecorded
  have follows := Chains.Follows.last (next?_eq_none found ends)
  have alone : grammar.chains.pieces index = [index] := by
    refine follows.pieces_eq fun other member => ?_
    rw [List.mem_singleton.mp member]
    exact (Array.getElem?_eq_some_iff.mp (rules_chains found)).1
  refine ⟨follows, alone, ?_⟩
  have contributes := contributionOf_eq found
  rw [contributionOf] at contributes
  rw [Chains.fullRhs, alone, List.reverse_singleton, List.flatMap_singleton, contributes,
    Rule.contribution, if_neg (by simp [ends])]

namespace HasLinks

variable {splits : List (SplitRule H)} (inventory : grammar.HasLinks splits)
include inventory

section Tops

variable {split : SplitRule H} (inSplits : split ∈ splits)
include inSplits

/-- From the top of a chain its pieces are found, and what was split is read back. -/
theorem pieces_of_top (found : grammar.rules[index]? = some rule)
    (recorded : rule.link? = some (split.linkAt 0)) :
    grammar.chains.Follows index (grammar.chains.pieces index) ∧
      (grammar.chains.pieces index).map grammar.linkOf? = split.links.map some ∧
      grammar.chains.fullRhs index = split.rule.rhs := by
  have long := Rule.long_of_admitsSplit (inventory.admits split inSplits)
  obtain ⟨indices, follows, links, contributions⟩ :=
    inventory.exists_way inSplits (split.rule.rhs.length - 2) 0 (by omega) found recorded
  rw [show split.rule.rhs.length - 2 + 1 = split.rule.rhs.length - 1 by omega,
    ← List.range_eq_range', ← List.map_map] at links
  have pieces : grammar.chains.pieces index = indices := by
    refine follows.pieces_eq fun other member => ?_
    have inLinks : grammar.linkOf? other ∈ split.links.map some := by
      rw [SplitRule.links, ← links]
      exact List.mem_map_of_mem member
    obtain ⟨link, _, same⟩ := List.mem_map.mp inLinks
    exact lt_of_linkOf?_eq_some same.symm
  rw [pieces]
  refine ⟨follows, links, ?_⟩
  rw [ChainRule.wordAt_zero] at contributions
  rw [Chains.fullRhs, pieces]
  exact contributions

theorem isWholeChain_of_top (found : grammar.rules[index]? = some rule)
    (recorded : rule.link? = some (split.linkAt 0)) :
    grammar.IsWholeChain split.rule.rhs.length (grammar.chains.pieces index) := by
  obtain ⟨follows, links, _⟩ := inventory.pieces_of_top inSplits found recorded
  refine ⟨Rule.long_of_admitsSplit (inventory.admits split inSplits), follows.nodup, ?_⟩
  have pieces := congrArg (List.map (Option.map ChainRule.piece)) links
  rw [List.map_map, List.map_map, SplitRule.links, List.map_map] at pieces
  rw [funext grammar.pieceOf?_eq]
  refine pieces.trans (List.map_congr_left fun depth _ => ?_)
  exact congrArg some ChainRule.piece_link

/-- The chain from a top has the pieces with its links, and no others. -/
theorem mem_pieces_iff (found : grammar.rules[index]? = some rule)
    (recorded : rule.link? = some (split.linkAt 0)) {other : Nat} :
    other ∈ grammar.chains.pieces index ↔ ∃ link ∈ split.links, grammar.linkOf? other = some link := by
  obtain ⟨_, links, _⟩ := inventory.pieces_of_top inSplits found recorded
  constructor
  · intro inPieces
    have shown := List.mem_map_of_mem (f := grammar.linkOf?) inPieces
    rw [links] at shown
    obtain ⟨link, isLink, same⟩ := List.mem_map.mp shown
    exact ⟨link, isLink, same.symm⟩
  · rintro ⟨link, isLink, here⟩
    have shown := List.mem_map_of_mem (f := some) isLink
    rw [← links] at shown
    obtain ⟨piece, inPieces, same⟩ := List.mem_map.mp shown
    obtain ⟨_, atPiece, isPiece⟩ := linkOf?_eq_some_iff.mp same
    obtain ⟨_, atOther, isOther⟩ := linkOf?_eq_some_iff.mp here
    rwa [inventory.index_eq_of_link atOther atPiece isOther isPiece]

end Tops

/-- What is found from a top is the top itself or another piece of the same chain. -/
theorem cases_of_mem_pieces {top : Nat} (found : grammar.rules[top]? = some rule)
    (shallow : rule.isBelowTop = false) (inPieces : index ∈ grammar.chains.pieces top) :
    index = top ∧ rule.link? = none ∨
      ∃ split ∈ splits, rule.link? = some (split.linkAt 0) ∧
        ∃ piece, grammar.rules[index]? = some piece ∧ ∃ link ∈ split.links, piece.link? = some link := by
  rcases inventory.not_link_or_top (List.mem_of_getElem? found) shallow with
    unrecorded | ⟨split, inSplits, recorded⟩
  · rw [(pieces_of_not_link found unrecorded).2.1, List.mem_singleton] at inPieces
    exact .inl ⟨inPieces, unrecorded⟩
  · obtain ⟨link, isLink, here⟩ := (inventory.mem_pieces_iff inSplits found recorded).mp inPieces
    obtain ⟨piece, atIndex, isPiece⟩ := linkOf?_eq_some_iff.mp here
    exact .inr ⟨split, inSplits, recorded, piece, atIndex, link, isLink, isPiece⟩

/-- Whatever goes through one piece of a chain goes through all of them. -/
theorem mem_pieces_of_mem_pieces {top : Nat} (found : grammar.rules[top]? = some rule)
    (shallow : rule.isBelowTop = false) {split : SplitRule H} (inSplits : split ∈ splits)
    {first link : ChainRule} (isFirst : first ∈ split.links) (isLink : link ∈ split.links)
    (firstHere : grammar.linkOf? index = some first) (inPieces : index ∈ grammar.chains.pieces top)
    {other : Nat} (here : grammar.linkOf? other = some link) : other ∈ grammar.chains.pieces top := by
  obtain ⟨firstRule, atFirst, isFirstPiece⟩ := linkOf?_eq_some_iff.mp firstHere
  rcases inventory.cases_of_mem_pieces found shallow inPieces with
    ⟨rfl, unrecorded⟩ | ⟨own, inOwn, recorded, piece, atIndex, ownLink, isOwn, isPiece⟩
  · rw [Option.some.inj (found.symm.trans atFirst), isFirstPiece] at unrecorded
    cases unrecorded
  · obtain rfl := Option.some.inj (atFirst.symm.trans atIndex)
    obtain rfl := Option.some.inj (isFirstPiece.symm.trans isPiece)
    obtain rfl := inventory.eq_of_mem_links inSplits inOwn isFirst isOwn
    exact (inventory.mem_pieces_iff inOwn found recorded).mpr ⟨link, isLink, here⟩

/-- Two grammars with the same chains read the same back from a rule, wherever it is. -/
theorem fullRhs_eq_fullRhs {next : Grammar H} (alike : next.HasLinks splits) {top place : Nat}
    (found : grammar.rules[top]? = some rule) (also : next.rules[place]? = some rule)
    (shallow : rule.isBelowTop = false) :
    grammar.chains.fullRhs top = next.chains.fullRhs place := by
  rcases inventory.not_link_or_top (List.mem_of_getElem? found) shallow with
    unrecorded | ⟨split, inSplits, recorded⟩
  · rw [(pieces_of_not_link found unrecorded).2.2, (pieces_of_not_link also unrecorded).2.2]
  · rw [(inventory.pieces_of_top inSplits found recorded).2.2,
      (alike.pieces_of_top inSplits also recorded).2.2]

/-- A piece below a top belongs to exactly one chain. -/
theorem existsUnique_top (found : grammar.rules[index]? = some rule)
    (deep : rule.isBelowTop = true) :
    ∃! top, (∃ topRule, grammar.rules[top]? = some topRule ∧ topRule.isBelowTop = false) ∧
      index ∈ grammar.chains.pieces top := by
  obtain ⟨split, inSplits, depth, bound, recorded, _⟩ :=
    inventory.exists_linkAt_below (List.mem_of_getElem? found) deep
  have here := linkOf?_eq_some_iff.mpr ⟨rule, found, recorded⟩
  have isLink := SplitRule.mem_links.mpr ⟨depth + 1, bound, rfl⟩
  obtain ⟨top, topRule, atTop, topRecorded⟩ := inventory.exists_rule inSplits (by omega : 0 + 2 ≤ _)
  refine ⟨top, ⟨⟨topRule, atTop, SplitRule.isBelowTop_of_linkAt topRecorded⟩, ?inside⟩, ?only⟩
  case inside => exact (inventory.mem_pieces_iff inSplits atTop topRecorded).mpr ⟨_, isLink, here⟩
  case only =>
    rintro other ⟨⟨otherRule, atOther, shallow⟩, inPieces⟩
    rcases inventory.cases_of_mem_pieces atOther shallow inPieces with
      ⟨rfl, _⟩ | ⟨otherSplit, inOther, otherRecorded, piece, atIndex, link, isOtherLink, isPiece⟩
    · rw [Option.some.inj (found.symm.trans atOther), shallow] at deep
      cases deep
    · obtain rfl := Option.some.inj (found.symm.trans atIndex)
      obtain rfl := Option.some.inj (recorded.symm.trans isPiece)
      obtain rfl := inventory.eq_of_mem_links inSplits inOther isLink isOtherLink
      exact inventory.index_eq_of_link atOther atTop otherRecorded topRecorded

end HasLinks

namespace HasChains

variable {splits : List (SplitRule H)} (inventory : grammar.HasChains splits)
include inventory

/-- The right-hand side that is read back is written with what symbols inside chains abbreviate. -/
theorem fullRhs_eq (found : grammar.rules[index]? = some rule) (shallow : rule.isBelowTop = false) :
    grammar.chains.fullRhs index = rule.rhs.flatMap (SplitRule.abbreviated splits) := by
  rcases inventory.not_link_or_top (List.mem_of_getElem? found) shallow with
    unrecorded | ⟨split, inSplits, recorded⟩
  · rw [(pieces_of_not_link found unrecorded).2.2]
    have uses := inventory.rule_over rule (List.mem_of_getElem? found) unrecorded
    exact (SplitRule.flatMap_abbreviated_of_isPlain (isPlain_of_over uses)).symm
  · have uses := inventory.split_over split inSplits
    rw [(inventory.pieces_of_top inSplits found recorded).2.2, Rule.rhs_of_link recorded]
    exact (SplitRule.flatMap_rhs_top inventory.apart inSplits (isPlain_of_over uses)
      (inventory.admits split inSplits)).symm

theorem isChainSymbol_lhs (member : rule ∈ grammar.rules) :
    grammar.chains.isChainSymbol rule.lhs = rule.isBelowTop := by
  cases deep : rule.isBelowTop with
  | true => exact Chains.isChainSymbol_ofRules_iff.mpr ⟨rule, member, deep, rfl⟩
  | false =>
      rw [← Bool.not_eq_true, chains, Chains.isChainSymbol_ofRules_iff]
      rintro ⟨other, inRules, otherDeep, same⟩
      obtain ⟨split, inSplits, _, _, _, allocates⟩ := inventory.exists_linkAt_below inRules otherDeep
      rw [same] at allocates
      exact (inventory.isOutside_lhs member deep).2 split inSplits allocates

theorem unsplit_eq : grammar.unsplit = grammar.rules.filterMap (SplitRule.row? splits) := by
  have rows : ∀ item ∈ grammar.rules.zipIdx, (if grammar.chains.isChainSymbol item.1.lhs then none
      else some (item.1.lhs, grammar.chains.fullRhs item.2)) = SplitRule.row? splits item.1 := by
    rintro ⟨rule, index⟩ member
    have found := List.mem_zipIdx_iff_getElem?.mp member
    have inRules := List.mem_of_getElem? found
    rw [SplitRule.row?, inventory.isChainSymbol_lhs inRules]
    cases deep : rule.isBelowTop with
    | true => rfl
    | false => rw [inventory.fullRhs_eq found deep]
  rw [unsplit, List.filterMap_congr rows]
  conv_rhs => rw [← List.zipIdx_map_fst 0 grammar.rules, List.filterMap_map]
  rfl

end HasChains

end Grammar

end TracedGrammar
