import Mathlib
import TracedGrammar.History.Tracked
import TracedGrammar.Proofs.Chain.Language
import TracedGrammar.Proofs.Chain.Places
import TracedGrammar.Proofs.Counted.Passes
import TracedGrammar.Proofs.Language.Concatenation

/-!
# Derivation trees by way of chains

A node for a piece below the top of a chain stands for the trees below it.  When all such nodes are
taken out of a derivation tree of the binarized grammar, what is left is one of the grammar before, and
every derivation tree of the grammar before is left by exactly one tree.
-/

namespace TracedGrammar

namespace Grammar

variable {H : Type} [RuleHistory H]

namespace BinarizesTo

open Forest (Fits contract_node_of_some contract_node_of_none)
open SplitRule (abbreviated placedPieces)

variable {grammar result : Grammar H} {chain : List (SplitRule H)}
  (binarizes : grammar.BinarizesTo result chain)
include binarizes

section Places

theorem exists_placed {index : Nat} {piece : Rule H} (found : result.rules[index]? = some piece) :
    ∃ placed, (placedPieces chain)[index]? = some placed ∧ placed.piece = piece := by
  rwa [binarizes.pieces_eq, ← SplitRule.map_piece_placedPieces, List.getElem?_map,
    Option.map_eq_some_iff] at found

theorem topOrigin_eq {index : Nat} {placed : PlacedPiece H}
    (found : (placedPieces chain)[index]? = some placed) :
    grammar.topOrigin index = placed.top? := by
  rw [topOrigin, ← SplitRule.map_top?_placedPieces binarizes.rules_eq, List.getD_eq_getElem?_getD,
    List.getElem?_map, found]
  rfl

theorem exists_index {original depth : Nat} {split : SplitRule H} {piece : Rule H}
    (atOriginal : chain[original]? = some split) (atDepth : split.pieces[depth]? = some piece) :
    ∃ index, result.rules[index]? = some piece ∧
      grammar.topOrigin index = if depth = 0 then some original else none := by
  have member : (⟨piece, original, depth⟩ : PlacedPiece H) ∈ placedPieces chain :=
    SplitRule.mem_placedPieces.mpr ⟨split, atOriginal, atDepth⟩
  obtain ⟨index, found⟩ := List.getElem?_of_mem member
  refine ⟨index, ?_, binarizes.topOrigin_eq found⟩
  rw [binarizes.pieces_eq, ← SplitRule.map_piece_placedPieces, List.getElem?_map, found]
  rfl

/-- A rule after binarization is at the index of a top piece or below one. -/
theorem exists_split_of_getElem? {index : Nat} {piece : Rule H}
    (found : result.rules[index]? = some piece) :
    ∃ original split, chain[original]? = some split ∧
      (grammar.topOrigin index = some original ∧ split.pieces[0]? = some piece ∨
        grammar.topOrigin index = none ∧ ∃ depth, split.pieces[depth + 1]? = some piece) := by
  obtain ⟨⟨_, original, depth⟩, placed, rfl⟩ := binarizes.exists_placed found
  obtain ⟨split, atOriginal, atDepth⟩ :=
    SplitRule.mem_placedPieces.mp (List.mem_of_getElem? placed)
  refine ⟨original, split, atOriginal, ?_⟩
  rw [binarizes.topOrigin_eq placed]
  cases depth with
  | zero => exact .inl ⟨rfl, atDepth⟩
  | succ depth => exact .inr ⟨rfl, depth, atDepth⟩

theorem index_eq_of_topOrigin {left right original : Nat} {first second : Rule H}
    (atLeft : result.rules[left]? = some first) (atRight : result.rules[right]? = some second)
    (leftTop : grammar.topOrigin left = some original)
    (rightTop : grammar.topOrigin right = some original) : left = right := by
  obtain ⟨former, placedLeft, rfl⟩ := binarizes.exists_placed atLeft
  obtain ⟨latter, placedRight, rfl⟩ := binarizes.exists_placed atRight
  rw [binarizes.topOrigin_eq placedLeft, PlacedPiece.top?, Option.ite_none_right_eq_some] at leftTop
  rw [binarizes.topOrigin_eq placedRight, PlacedPiece.top?, Option.ite_none_right_eq_some] at rightTop
  refine SplitRule.index_eq_of_placed placedLeft placedRight ?_ ?_
  · exact Option.some.inj (leftTop.2.trans rightTop.2.symm)
  · exact leftTop.1.trans rightTop.1.symm

/-- No two pieces below a top define the same symbol. -/
theorem index_eq_of_lhs {left right : Nat} {first second : Rule H}
    (atLeft : result.rules[left]? = some first) (atRight : result.rules[right]? = some second)
    (leftBelow : grammar.topOrigin left = none) (rightBelow : grammar.topOrigin right = none)
    (same : first.lhs = second.lhs) : left = right := by
  obtain ⟨⟨_, leftOrigin, leftDepth⟩, placedLeft, rfl⟩ := binarizes.exists_placed atLeft
  obtain ⟨⟨_, rightOrigin, rightDepth⟩, placedRight, rfl⟩ := binarizes.exists_placed atRight
  obtain ⟨former, atFormer, leftPiece⟩ :=
    SplitRule.mem_placedPieces.mp (List.mem_of_getElem? placedLeft)
  obtain ⟨latter, atLatter, rightPiece⟩ :=
    SplitRule.mem_placedPieces.mp (List.mem_of_getElem? placedRight)
  rw [binarizes.topOrigin_eq placedLeft] at leftBelow
  rw [binarizes.topOrigin_eq placedRight] at rightBelow
  cases leftDepth with
  | zero => cases leftBelow
  | succ leftDepth =>
      cases rightDepth with
      | zero => cases rightBelow
      | succ rightDepth =>
          have newLeft := SplitRule.lhs_below leftPiece
          have newRight := SplitRule.lhs_below rightPiece
          dsimp only at same atFormer atLatter leftPiece rightPiece newLeft newRight
          rw [← same] at newRight
          obtain rfl := binarizes.chained.index_eq_of_allocated SplitRule.before_le_after atFormer
            atLatter newLeft.1 newLeft.2 newRight.1 newRight.2
          obtain rfl := Option.some.inj (atFormer.symm.trans atLatter)
          have depths := SplitRule.id_lhs_below leftPiece
          rw [same, SplitRule.id_lhs_below rightPiece] at depths
          exact SplitRule.index_eq_of_placed placedLeft placedRight rfl (by dsimp only; omega)

end Places

/-- What is left of a forest fits the word in which symbols inside chains are replaced by what they
abbreviate. -/
theorem fits_contract (lhsOld : ∀ rule ∈ grammar.rules, rule.lhs ∈ grammar.supply)
    (rhsOld : ∀ rule ∈ grammar.rules, ∀ symbol ∈ rule.rhs, symbol ∈ grammar.supply)
    {forest : Forest} {word : List Symbol} (fits : Fits result.rules forest word)
    (old : ∀ symbol ∈ forest.leaves, symbol ∈ grammar.supply) :
    Fits grammar.rules (forest.contract grammar.topOrigin) (word.flatMap (abbreviated chain)) := by
  induction fits with
  | nil => exact .nil
  | leaf symbol _ induction =>
      rw [List.flatMap_cons, SplitRule.abbreviated_of_mem binarizes.chained
        (old symbol List.mem_cons_self)]
      exact .leaf symbol (induction fun other member => old other (List.mem_cons_of_mem _ member))
  | @node index piece below rest word found _ _ belowInduction restInduction =>
      have under := belowInduction fun other member => old other (List.mem_append_left _ member)
      have later := restInduction fun other member => old other (List.mem_append_right _ member)
      obtain ⟨original, split, atOriginal, place⟩ := binarizes.exists_split_of_getElem? found
      have inChain := List.mem_of_getElem? atOriginal
      have inRules := binarizes.rule_mem inChain
      rcases place with ⟨top, isTop⟩ | ⟨gone, depth, isBelow⟩
      · have foundRule : grammar.rules[original]? = some split.rule := by
          rw [← binarizes.rules_eq, List.getElem?_map, atOriginal]
          rfl
        rw [SplitRule.abbreviated_top binarizes.chained inChain (rhsOld _ inRules) isTop] at under
        rw [contract_node_of_some top, List.flatMap_cons, SplitRule.lhs_top isTop,
          SplitRule.abbreviated_of_mem binarizes.chained (lhsOld _ inRules)]
        exact .node foundRule under later
      · rw [contract_node_of_none gone, List.flatMap_cons,
          SplitRule.abbreviated_below binarizes.chained inChain (rhsOld _ inRules) isBelow]
        exact under.append later

section Chain

variable {original : Nat} {split : SplitRule H} (atOriginal : chain[original]? = some split)
  (admits : split.rule.admitsSplit = true)
include atOriginal admits

theorem exists_index_pieceAt {depth : Nat} (bound : depth + 2 ≤ split.rule.rhs.length) :
    ∃ index, result.rules[index]? = some (split.pieceAt depth) ∧
      grammar.topOrigin index = if depth = 0 then some original else none := by
  apply binarizes.exists_index atOriginal
  rw [SplitRule.pieces_eq admits, List.getElem?_map, List.getElem?_range (by omega)]
  rfl

/-- From any depth a chain can be followed down over trees for what its piece is there for.  The
induction goes up from the bottom of the chain. -/
theorem exists_below (gap depth : Nat) (bound : depth + 2 + gap = split.rule.rhs.length)
    {forest : Forest} (fits : Fits result.rules forest (ChainRule.wordAt split.rule.rhs depth)) :
    ∃ below, Fits result.rules below (split.pieceAt depth).rhs ∧
      below.contract grammar.topOrigin = forest.contract grammar.topOrigin := by
  induction gap generalizing depth forest with
  | zero =>
      refine ⟨forest, ?_, rfl⟩
      rwa [SplitRule.pieceAt, Rule.piece, ChainRule.link, if_neg (by omega)]
  | succ gap induction =>
      rw [ChainRule.wordAt_eq_append (by omega)] at fits
      obtain ⟨first, second, rfl, former, latter⟩ := fits.exists_of_append
      obtain ⟨below, fitsBelow, same⟩ := induction (depth + 1) (by omega) former
      obtain ⟨index, found, gone⟩ := binarizes.exists_index_pieceAt atOriginal admits
        (by omega : depth + 1 + 2 ≤ split.rule.rhs.length)
      refine ⟨.node index below .nil ++ second, ?_, ?_⟩
      · rw [SplitRule.pieceAt, Rule.piece, ChainRule.link, if_pos (by omega)]
        have tree := Fits.node found fitsBelow .nil
        rw [SplitRule.pieceAt, Rule.piece, ChainRule.lhs_link] at tree
        exact tree.append latter
      · rw [Forest.contract_append, contract_node_of_none gone, Forest.contract_append, same,
          Forest.contract, Forest.append_nil]

end Chain

/-- Every rule has a tree of its pieces over any trees for its right-hand side. -/
theorem exists_tree {original : Nat} {rule : Rule H} (found : grammar.rules[original]? = some rule)
    {forest : Forest} (fits : Fits result.rules forest rule.rhs) :
    ∃ index piece below, result.rules[index]? = some piece ∧ piece.lhs = rule.lhs ∧
      grammar.topOrigin index = some original ∧ Fits result.rules below piece.rhs ∧
      below.contract grammar.topOrigin = forest.contract grammar.topOrigin := by
  rw [← binarizes.rules_eq, List.getElem?_map, Option.map_eq_some_iff] at found
  obtain ⟨split, atOriginal, rfl⟩ := found
  cases admits : split.rule.admitsSplit with
  | false =>
      have whole : split.pieces[0]? = some split.rule := by
        rw [SplitRule.pieces_eq_singleton admits]
        rfl
      obtain ⟨index, atIndex, top⟩ := binarizes.exists_index atOriginal whole
      exact ⟨index, split.rule, forest, atIndex, rfl, top, fits, rfl⟩
  | true =>
      have long := Rule.long_of_admitsSplit admits
      obtain ⟨index, atIndex, top⟩ := binarizes.exists_index_pieceAt atOriginal admits
        (by omega : 0 + 2 ≤ split.rule.rhs.length)
      rw [← @ChainRule.wordAt_zero split.rule.rhs] at fits
      obtain ⟨below, fitsBelow, same⟩ := binarizes.exists_below atOriginal admits
        (split.rule.rhs.length - 2) 0 (by omega) fits
      exact ⟨index, _, below, atIndex, ChainRule.lhs_link, top, fitsBelow, same⟩

/-- Every forest is what is left of one of the binarized grammar. -/
theorem exists_contract_eq {forest : Forest} {word : List Symbol}
    (fits : Fits grammar.rules forest word) :
    ∃ longer, Fits result.rules longer word ∧ longer.contract grammar.topOrigin = forest := by
  induction fits with
  | nil => exact ⟨.nil, .nil, rfl⟩
  | leaf symbol _ induction =>
      obtain ⟨longer, fits, rfl⟩ := induction
      exact ⟨.leaf symbol longer, .leaf symbol fits, rfl⟩
  | node found _ _ belowInduction restInduction =>
      obtain ⟨under, fitsUnder, rfl⟩ := belowInduction
      obtain ⟨later, fitsLater, rfl⟩ := restInduction
      obtain ⟨index, piece, below, atIndex, lhs, top, fitsBelow, same⟩ :=
        binarizes.exists_tree found fitsUnder
      refine ⟨.node index below later, ?_, ?_⟩
      · rw [← lhs]
        exact .node atIndex fitsBelow fitsLater
      · rw [contract_node_of_some top, same]

theorem exists_topOrigin_iff (lhsOld : ∀ rule ∈ grammar.rules, rule.lhs ∈ grammar.supply)
    {index : Nat} {piece : Rule H} (found : result.rules[index]? = some piece) :
    (∃ original, grammar.topOrigin index = some original) ↔ piece.lhs ∈ grammar.supply := by
  obtain ⟨original, split, atOriginal, place⟩ := binarizes.exists_split_of_getElem? found
  have inChain := List.mem_of_getElem? atOriginal
  rcases place with ⟨top, isTop⟩ | ⟨gone, depth, isBelow⟩
  · have inRules := binarizes.rule_mem inChain
    simp [top, SplitRule.lhs_top isTop, lhsOld _ inRules]
  · simp [gone, binarizes.lhs_below inChain isBelow]

/-- Different forests leave different forests, as long as no symbol inside a chain is a leaf. -/
theorem eq_of_contract_eq (lhsOld : ∀ rule ∈ grammar.rules, rule.lhs ∈ grammar.supply)
    (rhsOld : ∀ rule ∈ grammar.rules, ∀ symbol ∈ rule.rhs, symbol ∈ grammar.supply)
    {first second : Forest} {word : List Symbol} (former : Fits result.rules first word)
    (latter : Fits result.rules second word)
    (oldFormer : ∀ symbol ∈ first.leaves, symbol ∈ grammar.supply)
    (oldLatter : ∀ symbol ∈ second.leaves, symbol ∈ grammar.supply)
    (same : first.contract grammar.topOrigin = second.contract grammar.topOrigin) :
    first = second := by
  induction former generalizing second with
  | nil =>
      cases latter
      rfl
  | leaf symbol _ induction =>
      cases latter with
      | leaf _ later =>
          obtain ⟨_, rest⟩ := Forest.leaf.inj same
          rw [induction later (fun other member => oldFormer other (List.mem_cons_of_mem _ member))
            (fun other member => oldLatter other (List.mem_cons_of_mem _ member)) rest]
      | node found _ _ =>
          have old := oldFormer _ List.mem_cons_self
          obtain ⟨original, top⟩ := (binarizes.exists_topOrigin_iff lhsOld found).mpr old
          rw [contract_node_of_some top] at same
          cases same
  | @node index piece below rest word found under later belowInduction restInduction =>
      have belowOld := fun other member => oldFormer other (List.mem_append_left _ member)
      have restOld := fun other member => oldFormer other (List.mem_append_right _ member)
      generalize lhs : piece.lhs = symbol at latter
      cases latter with
      | leaf _ _ =>
          have old := oldLatter _ List.mem_cons_self
          rw [← lhs] at old
          obtain ⟨original, top⟩ := (binarizes.exists_topOrigin_iff lhsOld found).mpr old
          rw [contract_node_of_some top] at same
          cases same
      | @node other otherPiece otherBelow otherRest _ otherFound otherUnder otherLater =>
          have otherBelowOld := fun other member => oldLatter other (List.mem_append_left _ member)
          have otherRestOld := fun other member => oldLatter other (List.mem_append_right _ member)
          have tops : (∃ original, grammar.topOrigin index = some original) ↔
              ∃ original, grammar.topOrigin other = some original := by
            rw [binarizes.exists_topOrigin_iff lhsOld found,
              binarizes.exists_topOrigin_iff lhsOld otherFound, lhs]
          cases top : grammar.topOrigin index with
          | some original =>
              obtain ⟨otherOriginal, otherTop⟩ := tops.mp ⟨original, top⟩
              rw [contract_node_of_some top, contract_node_of_some otherTop] at same
              obtain ⟨rfl, sameBelow, sameRest⟩ := Forest.node.inj same
              obtain rfl := binarizes.index_eq_of_topOrigin found otherFound top otherTop
              obtain rfl := Option.some.inj (found.symm.trans otherFound)
              rw [belowInduction otherUnder belowOld otherBelowOld sameBelow,
                restInduction otherLater restOld otherRestOld sameRest]
          | none =>
              have otherTop : grammar.topOrigin other = none := by
                simpa [top, ← Option.ne_none_iff_exists'] using tops
              obtain rfl := binarizes.index_eq_of_lhs found otherFound top otherTop lhs
              obtain rfl := Option.some.inj (found.symm.trans otherFound)
              rw [contract_node_of_none top, contract_node_of_none top] at same
              have width := (binarizes.fits_contract lhsOld rhsOld under belowOld).width_eq
              have otherWidth :=
                (binarizes.fits_contract lhsOld rhsOld otherUnder otherBelowOld).width_eq
              obtain ⟨sameBelow, sameRest⟩ := Forest.append_inj same (width.trans otherWidth.symm)
              rw [belowInduction otherUnder belowOld otherBelowOld sameBelow,
                restInduction otherLater restOld otherRestOld sameRest]

/-- The trees of a symbol over a word, both from before the split, are in one-to-one correspondence. -/
theorem bijOn_trees (lhsOld : ∀ rule ∈ grammar.rules, rule.lhs ∈ grammar.supply)
    (rhsOld : ∀ rule ∈ grammar.rules, ∀ symbol ∈ rule.rhs, symbol ∈ grammar.supply) {symbol : Symbol}
    (old : symbol ∈ grammar.supply) {word : List Symbol}
    (oldWord : ∀ other ∈ word, other ∈ grammar.supply) :
    Set.BijOn (Forest.contract grammar.topOrigin) (result.trees symbol word)
      (grammar.trees symbol word) := by
  refine ⟨?mapsTo, ?injOn, ?surjOn⟩
  case mapsTo =>
    rintro forest ⟨fits, rfl⟩
    have contracted := binarizes.fits_contract lhsOld rhsOld fits oldWord
    rw [List.flatMap_singleton, SplitRule.abbreviated_of_mem binarizes.chained old] at contracted
    exact ⟨contracted, Forest.leaves_contract forest⟩
  case injOn =>
    rintro first ⟨former, leaves⟩ second ⟨latter, otherLeaves⟩ same
    refine binarizes.eq_of_contract_eq lhsOld rhsOld former latter ?_ ?_ same
    · rwa [leaves]
    · rwa [otherLeaves]
  case surjOn =>
    rintro forest ⟨fits, rfl⟩
    obtain ⟨longer, fitsLonger, rfl⟩ := binarizes.exists_contract_eq fits
    exact ⟨longer, ⟨fitsLonger, (Forest.leaves_contract longer).symm⟩, rfl⟩

end BinarizesTo

/-- When the rules of a grammar use allocated symbols only, and there is room for the symbols inside
chains, its derivation trees and those of the binarized grammar are in one-to-one correspondence, for
every symbol and every word from before the split.  To get back, the nodes below the tops of chains are
taken out, and the nodes of top pieces become nodes of the rules that were split.  The result is what a
supply without an end leads to. -/
theorem binarize_bijOn_trees {grammar result : Grammar H} {limits : Limits}
    (lhsOld : ∀ rule ∈ grammar.rules, rule.lhs ∈ grammar.supply)
    (rhsOld : ∀ rule ∈ grammar.rules, ∀ symbol ∈ rule.rhs, symbol ∈ grammar.supply)
    (succeeds : Counted.binarize grammar limits = .ok result) {symbol : Symbol}
    (old : symbol ∈ grammar.supply) {word : List Symbol}
    (oldWord : ∀ other ∈ word, other ∈ grammar.supply) :
    (grammar.binarize limits).result = .ok result ∧ grammar.supply.HasRoom result.supply ∧
      Set.BijOn (Forest.contract grammar.topOrigin) (result.trees symbol word)
        (grammar.trees symbol word) ∧
      (TracedGrammar.Derives (DirectBy result.rules) [symbol] word ↔
        TracedGrammar.Derives (DirectBy grammar.rules) [symbol] word) := by
  obtain ⟨done, room⟩ := (Counted.binarize_succeedsWithin grammar limits).eq_ok_iff.mp succeeds
  obtain ⟨chain, binarizes⟩ := exists_binarizesTo done
  have bijection := binarizes.bijOn_trees lhsOld rhsOld old oldWord
  refine ⟨done, room, bijection, ?_⟩
  rw [← Forest.exists_fits_iff_derives, ← Forest.exists_fits_iff_derives]
  constructor
  · rintro ⟨forest, tree⟩
    exact ⟨_, bijection.mapsTo tree⟩
  · rintro ⟨forest, tree⟩
    obtain ⟨longer, longerTree, _⟩ := bijection.surjOn tree
    exact ⟨longer, longerTree⟩

/-- An operator between two operands, with its rule written twice, and with room for two more symbols. -/
def twiceBetween : Grammar History :=
  { supply := ⟨4294967292⟩
    rules :=
      [⟨⟨0⟩, [⟨0⟩, ⟨1⟩, ⟨0⟩], { elision := some ⟨.empty, 3, 1⟩ }⟩,
        ⟨⟨0⟩, [⟨0⟩, ⟨1⟩, ⟨0⟩], { elision := some ⟨.empty, 3, 1⟩ }⟩,
        ⟨⟨0⟩, [⟨2⟩], { elision := some ⟨.empty, 1, 1⟩ }⟩]
    stage := .nullingEliminated
    authoredFrom := 3 }

theorem twiceBetween_binarize_bijOn_trees :
    ∃ result, Counted.binarize twiceBetween {} = .ok result ∧
      (twiceBetween.binarize {}).result = .ok result ∧ twiceBetween.supply.HasRoom result.supply ∧
        Set.BijOn (Forest.contract twiceBetween.topOrigin)
          (result.trees ⟨0⟩ [⟨2⟩, ⟨1⟩, ⟨2⟩, ⟨1⟩, ⟨0⟩])
          (twiceBetween.trees ⟨0⟩ [⟨2⟩, ⟨1⟩, ⟨2⟩, ⟨1⟩, ⟨0⟩]) ∧
        (TracedGrammar.Derives (DirectBy result.rules) [⟨0⟩] [⟨2⟩, ⟨1⟩, ⟨2⟩, ⟨1⟩, ⟨0⟩] ↔
          TracedGrammar.Derives (DirectBy twiceBetween.rules) [⟨0⟩] [⟨2⟩, ⟨1⟩, ⟨2⟩, ⟨1⟩, ⟨0⟩]) := by
  obtain ⟨result, succeeds⟩ :=
    exists_eq_ok (by cbv : (Counted.binarize twiceBetween {}).toBool = true)
  exact ⟨result, succeeds, binarize_bijOn_trees (by decide) (by decide) succeeds (by decide)
    (by decide)⟩

/-- With one symbol less the second chain cannot be finished. -/
example : Counted.binarize { twiceBetween with supply := ⟨4294967293⟩ } {} =
    .error .outOfSymbols := by cbv

end Grammar

end TracedGrammar
