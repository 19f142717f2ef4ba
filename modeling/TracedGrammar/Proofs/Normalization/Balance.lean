import TracedGrammar.Proofs.Language.Weights
import TracedGrammar.Proofs.Normalization.Passes

/-!
# Passes keep the balance

When symbols that are left out have no weight, the variants of a rule have the balance of the rule.
When a symbol inside a chain weighs what it abbreviates, the top piece of a chain has the balance of
the rule that was split, and other pieces are in balance without a mark.
-/

namespace TracedGrammar

variable {H : Type} {inside frozen : Symbol → Prop} {weight : Symbol → Nat} {marked : Rule H → Bool}

theorem Thinned.weigh_eq {set : SymbolSet} {word rest : List Symbol} (thinned : Thinned set word rest)
    (light : ∀ symbol ∈ word, symbol ∈ set → weight symbol = 0) :
    weigh weight rest = weigh weight word := by
  induction thinned with
  | nil => rfl
  | keep symbol _ induction =>
      rw [weigh_cons, weigh_cons,
        induction fun other member => light other (List.mem_cons_of_mem _ member)]
  | drop member _ induction =>
      rw [weigh_cons, light _ List.mem_cons_self member, Nat.zero_add,
        induction fun other inside => light other (List.mem_cons_of_mem _ inside)]

/-- Only left-hand sides, right-hand sides and marks count. -/
theorem Balanced.of_map_eq {first second : List (Rule H)}
    (balanced : Balanced first inside frozen weight marked)
    (same : second.map (fun rule => (rule.lhs, rule.rhs, marked rule)) =
      first.map fun rule => (rule.lhs, rule.rhs, marked rule)) :
    Balanced second inside frozen weight marked := by
  have origin {rule : Rule H} (member : rule ∈ second) : ∃ other ∈ first,
      other.lhs = rule.lhs ∧ other.rhs = rule.rhs ∧ marked other = marked rule := by
    have shown := List.mem_map_of_mem (f := fun rule => (rule.lhs, rule.rhs, marked rule)) member
    rw [same] at shown
    obtain ⟨other, inFirst, equal⟩ := List.mem_map.mp shown
    simp only [Prod.mk.injEq] at equal
    exact ⟨other, inFirst, equal⟩
  constructor
  · intro rule member insideLhs free
    obtain ⟨other, inFirst, lhs, rhs, _⟩ := origin member
    rw [← lhs] at insideLhs free
    rw [← rhs]
    exact balanced.stays other inFirst insideLhs free
  · intro rule member insideLhs free
    obtain ⟨other, inFirst, lhs, rhs, mark⟩ := origin member
    rw [← lhs] at insideLhs free
    rw [← rhs, ← mark, ← lhs]
    exact balanced.weigh_rhs other inFirst insideLhs free

namespace Grammar

variable [RuleHistory H] {grammar result : Grammar H}

theorem EliminatesTo.balanced {nullable : SymbolSet} {blocks : List (List (Rule H))}
    (eliminates : grammar.EliminatesTo result nullable blocks)
    (kept : ∀ rule rhs elision, marked (Rule.variant rule rhs elision) = marked rule)
    (light : ∀ rule ∈ grammar.rules, inside rule.lhs → ¬frozen rule.lhs →
      rule.admitsElision = true → ∀ symbol ∈ rule.rhs, symbol ∈ nullable → weight symbol = 0)
    (balanced : Balanced grammar.rules inside frozen weight marked) :
    Balanced result.rules inside frozen weight marked := by
  constructor
  · intro other member insideLhs free symbol occurs
    obtain ⟨rule, inRules, lhs, thinned, _⟩ := eliminates.exists_thinned member
    rw [lhs] at insideLhs free
    exact balanced.stays rule inRules insideLhs free symbol (thinned.sublist.subset occurs)
  · intro other member insideLhs free
    obtain ⟨rule, inRules, lhs, thinned, ⟨_, rfl⟩ | ⟨admits, rhs, elision, rfl⟩⟩ :=
      eliminates.exists_thinned member
    · exact balanced.weigh_rhs other inRules insideLhs free
    · rw [kept, thinned.weigh_eq (light rule inRules insideLhs free admits)]
      exact balanced.weigh_rhs rule inRules insideLhs free

/-- A symbol of some part, or one inside the chain of a rule of that part. -/
def InsideChains (inside frozen : Symbol → Prop) (chain : List (SplitRule H)) (symbol : Symbol) :
    Prop :=
  inside symbol ∨ ∃ split ∈ chain, inside split.rule.lhs ∧ ¬frozen split.rule.lhs ∧
    symbol ∉ split.before ∧ symbol ∈ split.after

section Binarization

variable {chain : List (SplitRule H)} (binarizes : grammar.BinarizesTo result chain)
  (lhsOld : ∀ rule ∈ grammar.rules, rule.lhs ∈ grammar.supply)
  (old : ∀ symbol, inside symbol → symbol ∈ grammar.supply)
include binarizes lhsOld old

theorem BinarizesTo.inside_of_piece {split : SplitRule H} (inChain : split ∈ chain) {piece : Rule H}
    (member : piece ∈ split.pieces) (insidePiece : InsideChains inside frozen chain piece.lhs)
    (free : ¬frozen piece.lhs) : inside split.rule.lhs ∧ ¬frozen split.rule.lhs := by
  have known := lhsOld _ (binarizes.rule_mem inChain)
  have ofOld {symbol : Symbol} (allocated : symbol ∈ grammar.supply)
      (insideSymbol : InsideChains inside frozen chain symbol) : inside symbol := by
    rcases insideSymbol with here | ⟨other, inOther, _, _, new, _⟩
    · exact here
    · have := binarizes.chained.le_before SplitRule.before_le_after inOther
      rw [SymbolSupply.mem_iff] at new allocated
      omega
  rcases SplitRule.eq_or_exists_pieceAt member with ⟨_, rfl⟩ | ⟨admits, depth, bound, rfl⟩
  · exact ⟨ofOld known insidePiece, free⟩
  · rw [SplitRule.pieceAt, Rule.piece, ChainRule.lhs_link] at insidePiece free
    cases depth with
    | zero => exact ⟨ofOld known insidePiece, free⟩
    | succ depth =>
        obtain ⟨new, allocated⟩ :=
          SplitRule.symbolAt_allocated admits (by omega : depth + 2 < split.rule.rhs.length)
        rcases insidePiece with here | ⟨other, inOther, insideOther, freeOther, fresh, has⟩
        · have seen : ChainRule.symbolAt split.rule.lhs split.before (depth + 1) ∈ grammar.supply :=
            old _ here
          have := binarizes.chained.le_before SplitRule.before_le_after inChain
          rw [SymbolSupply.mem_iff] at new seen
          omega
        · obtain rfl := binarizes.chained.eq_of_allocated SplitRule.before_le_after inOther inChain
            fresh has new allocated
          exact ⟨insideOther, freeOther⟩

variable (inBalance : Balanced grammar.rules inside frozen weight marked)
include inBalance

/-- Pieces stay inside, where new symbols are inside chains. -/
theorem BinarizesTo.mem_rhs_piece {split : SplitRule H} (inChain : split ∈ chain) {piece : Rule H}
    (member : piece ∈ split.pieces) (insidePiece : InsideChains inside frozen chain piece.lhs)
    (free : ¬frozen piece.lhs) {symbol : Symbol} (occurs : symbol ∈ piece.rhs) :
    InsideChains inside frozen chain symbol := by
  obtain ⟨insideLhs, freeLhs⟩ :=
    binarizes.inside_of_piece lhsOld old inChain member insidePiece free
  have stays := inBalance.stays _ (binarizes.rule_mem inChain) insideLhs freeLhs
  rcases SplitRule.eq_or_exists_pieceAt member with ⟨_, rfl⟩ | ⟨admits, depth, bound, rfl⟩
  · exact .inl (stays symbol occurs)
  · rw [SplitRule.pieceAt, Rule.piece, ChainRule.link] at occurs
    split at occurs
    · rename_i above
      rcases List.mem_cons.mp occurs with rfl | last
      · obtain ⟨new, allocated⟩ := SplitRule.symbolAt_allocated admits above
        exact .inr ⟨split, inChain, insideLhs, freeLhs, new, allocated⟩
      · exact .inl (stays symbol (List.mem_of_getElem? (Option.mem_toList.mp last)))
    · exact .inl (stays symbol (List.mem_of_mem_take occurs))

variable
  (top : ∀ (rule : Rule H) (link : ChainRule), link.piece.depth = 0 →
    marked (rule.piece link) = marked rule)
  (below : ∀ (rule : Rule H) (link : ChainRule), rule.admitsSplit = true →
    link.piece.depth ≠ 0 → marked (rule.piece link) = false)
include top below

theorem BinarizesTo.weigh_rhs_piece {split : SplitRule H} (inChain : split ∈ chain) {piece : Rule H}
    (member : piece ∈ split.pieces) (insidePiece : InsideChains inside frozen chain piece.lhs)
    (free : ¬frozen piece.lhs) :
    weigh weight (piece.rhs.flatMap (SplitRule.abbreviated chain)) + (marked piece).toNat =
      weigh weight (SplitRule.abbreviated chain piece.lhs) := by
  obtain ⟨insideLhs, freeLhs⟩ :=
    binarizes.inside_of_piece lhsOld old inChain member insidePiece free
  have inRules := binarizes.rule_mem inChain
  have balance := inBalance.weigh_rhs _ inRules insideLhs freeLhs
  have rhsOld : ∀ symbol ∈ split.rule.rhs, symbol ∈ grammar.supply := fun symbol occurs =>
    old symbol (inBalance.stays _ inRules insideLhs freeLhs symbol occurs)
  have lhsItself : SplitRule.abbreviated chain split.rule.lhs = [split.rule.lhs] :=
    SplitRule.abbreviated_of_mem binarizes.chained (lhsOld _ inRules)
  rcases SplitRule.eq_or_exists_pieceAt member with ⟨_, rfl⟩ | ⟨admits, depth, bound, rfl⟩
  · rw [SplitRule.flatMap_abbreviated_of_forall_mem binarizes.chained rhsOld, lhsItself]
    exact balance
  · have lhs : (split.pieceAt depth).lhs =
        ChainRule.symbolAt split.rule.lhs split.before depth := ChainRule.lhs_link
    rw [SplitRule.flatMap_rhs_pieceAt_of_forall_mem binarizes.chained inChain rhsOld admits, lhs]
    cases depth with
    | zero =>
        rw [SplitRule.pieceAt, top _ _ ChainRule.depth_link, ChainRule.symbolAt, lhsItself,
          ChainRule.wordAt, Nat.sub_zero, List.take_length]
        exact balance
    | succ depth =>
        have unmarked : marked (split.pieceAt (depth + 1)) = false := by
          apply below _ _ admits
          rw [ChainRule.depth_link]
          exact Nat.succ_ne_zero depth
        rw [unmarked, SplitRule.abbreviated_symbolAt (SplitRule.pairwise_apart binarizes.chained) inChain admits
          (by omega)]
        rfl

theorem BinarizesTo.balanced :
    Balanced result.rules (InsideChains inside frozen chain) frozen
      (fun symbol => weigh weight (SplitRule.abbreviated chain symbol)) marked := by
  constructor
  · intro piece member insidePiece free symbol occurs
    obtain ⟨split, inChain, inPieces⟩ := binarizes.mem_rules_iff.mp member
    exact binarizes.mem_rhs_piece lhsOld old inBalance inChain inPieces insidePiece free occurs
  · intro piece member insidePiece free
    obtain ⟨split, inChain, inPieces⟩ := binarizes.mem_rules_iff.mp member
    rw [← weigh_flatMap]
    exact binarizes.weigh_rhs_piece lhsOld old inBalance top below inChain inPieces insidePiece free

end Binarization

end Grammar

end TracedGrammar
