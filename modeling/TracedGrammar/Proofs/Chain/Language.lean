import Mathlib.Data.List.Pairwise
import TracedGrammar.Proofs.Chain.Pass
import TracedGrammar.Proofs.Grammar.Symbols
import TracedGrammar.Proofs.Nulling.Language

/-!
# What derives by way of chains

The pieces of a rule derive its right-hand side from its left-hand side.  A symbol inside a chain
abbreviates the beginning of a right-hand side, and when it is replaced by what it abbreviates, the
top piece of a chain does what the rule did, and all other pieces do nothing.
-/

namespace TracedGrammar

namespace SplitRule

variable {H : Type} [RuleHistory H] {split : SplitRule H}

theorem pieceAt_mem (admits : split.rule.admitsSplit = true) {depth : Nat}
    (bound : depth + 2 ≤ split.rule.rhs.length) : split.pieceAt depth ∈ split.pieces := by
  rw [pieces_eq admits]
  exact List.mem_map_of_mem (List.mem_range.mpr (by omega))

/-- A symbol is allocated for the inside of a chain. -/
def Allocates (split : SplitRule H) (symbol : Symbol) : Prop :=
  symbol ∉ split.before ∧ symbol ∈ split.after

instance (split : SplitRule H) (symbol : Symbol) : Decidable (split.Allocates symbol) :=
  inferInstanceAs (Decidable (_ ∧ _))

theorem symbolAt_allocated (admits : split.rule.admitsSplit = true) {depth : Nat}
    (above : depth + 2 < split.rule.rhs.length) :
    split.Allocates (ChainRule.symbolAt split.rule.lhs split.before (depth + 1)) := by
  rw [Allocates, after_eq admits]
  simp only [SymbolSupply.mem_iff, ChainRule.symbolAt]
  omega

theorem getElem?_pieces {depth : Nat} {piece : Rule H} (found : split.pieces[depth]? = some piece) :
    split.rule.admitsSplit = false ∧ depth = 0 ∧ piece = split.rule ∨
      split.rule.admitsSplit = true ∧ depth + 2 ≤ split.rule.rhs.length ∧
        split.pieceAt depth = piece := by
  cases admits : split.rule.admitsSplit with
  | false =>
      rw [pieces_eq_singleton admits, List.getElem?_singleton, Option.ite_none_right_eq_some] at found
      exact .inl ⟨rfl, found.1, (Option.some.inj found.2).symm⟩
  | true =>
      rw [pieces_eq admits, List.getElem?_map, Option.map_eq_some_iff] at found
      obtain ⟨_, inRange, rfl⟩ := found
      obtain ⟨bound, rfl⟩ := List.getElem?_eq_some_iff.mp inRange
      rw [List.length_range] at bound
      exact .inr ⟨rfl, by omega, by rw [List.getElem_range]⟩

theorem lhs_top {piece : Rule H} (found : split.pieces[0]? = some piece) :
    piece.lhs = split.rule.lhs := by
  rcases getElem?_pieces found with ⟨_, _, rfl⟩ | ⟨_, _, rfl⟩
  · rfl
  · exact ChainRule.lhs_link

theorem id_lhs_below {depth : Nat} {piece : Rule H}
    (found : split.pieces[depth + 1]? = some piece) :
    piece.lhs.id = split.before.allocated + depth := by
  rcases getElem?_pieces found with ⟨_, impossible, _⟩ | ⟨_, _, rfl⟩
  · cases impossible
  · exact congrArg Symbol.id ChainRule.lhs_link

theorem lhs_below {depth : Nat} {piece : Rule H} (found : split.pieces[depth + 1]? = some piece) :
    piece.lhs ∉ split.before ∧ piece.lhs ∈ split.after := by
  rcases getElem?_pieces found with ⟨_, impossible, _⟩ | ⟨admits, bound, _⟩
  · cases impossible
  · rw [SymbolSupply.mem_iff, SymbolSupply.mem_iff, after_eq admits, id_lhs_below found]
    dsimp only
    omega

theorem eq_or_exists_pieceAt {piece : Rule H} (member : piece ∈ split.pieces) :
    split.rule.admitsSplit = false ∧ piece = split.rule ∨
      split.rule.admitsSplit = true ∧ ∃ depth, depth + 2 ≤ split.rule.rhs.length ∧
        split.pieceAt depth = piece := by
  obtain ⟨depth, found⟩ := List.getElem?_of_mem member
  rcases getElem?_pieces found with ⟨refuses, _, same⟩ | ⟨admits, bound, same⟩
  · exact .inl ⟨refuses, same⟩
  · exact .inr ⟨admits, depth, bound, same⟩

/-- The pieces derive what the rule derives directly.  The induction goes up from the bottom of the
chain. -/
theorem derives_rhs (split : SplitRule H) :
    Derives (DirectBy split.pieces) [split.rule.lhs] split.rule.rhs := by
  cases admits : split.rule.admitsSplit with
  | false =>
      rw [pieces_eq_singleton admits]
      exact .of_direct (.rule (List.mem_singleton_self _))
  | true =>
      have long := Rule.long_of_admitsSplit admits
      have fromDepth (gap depth : Nat) (bound : depth + 2 + gap = split.rule.rhs.length) :
          Derives (DirectBy split.pieces)
            [ChainRule.symbolAt split.rule.lhs split.before depth]
            (ChainRule.wordAt split.rule.rhs depth) := by
        induction gap generalizing depth with
        | zero =>
            have step := DirectBy.rule (pieceAt_mem admits (by omega : depth + 2 ≤ _))
            rw [pieceAt, Rule.piece, ChainRule.lhs_link, ChainRule.link, if_neg (by omega)] at step
            exact .of_direct step
        | succ gap induction =>
            have step := DirectBy.rule (pieceAt_mem admits (by omega : depth + 2 ≤ _))
            rw [pieceAt, Rule.piece, ChainRule.lhs_link, ChainRule.link, if_pos (by omega)] at step
            rw [ChainRule.wordAt_eq_append (by omega)]
            have below := induction (depth + 1) (by omega)
            exact (Derives.of_direct step).trans (below.append (.refl _))
      have top := fromDepth (split.rule.rhs.length - 2) 0 (by omega)
      rwa [ChainRule.wordAt_zero] at top

/-- What a symbol abbreviates: the beginning of a right-hand side when a chain has allocated it, and
else itself. -/
def abbreviated (chain : List (SplitRule H)) (symbol : Symbol) : List Symbol :=
  match chain.find? fun split => decide (symbol ∉ split.before ∧ symbol ∈ split.after) with
  | none => [symbol]
  | some split =>
      ChainRule.wordAt split.rule.rhs (symbol.id - split.before.allocated + 1)

/-- No symbol is inside both chains. -/
def Apart (first second : SplitRule H) : Prop :=
  ∀ symbol, first.Allocates symbol → ¬second.Allocates symbol

instance : Std.Symm (Apart (H := H)) :=
  ⟨fun _ _ apart symbol later earlier => apart symbol earlier later⟩

theorem apart_of_le {first second : SplitRule H}
    (ordered : first.after.allocated ≤ second.before.allocated) : first.Apart second := by
  rintro symbol ⟨_, early⟩ ⟨late, _⟩
  rw [SymbolSupply.mem_iff] at early late
  omega

/-- A symbol is inside none of some chains. -/
def IsPlain (chain : List (SplitRule H)) (symbol : Symbol) : Prop :=
  ∀ split ∈ chain, ¬split.Allocates symbol

section Apart

variable {chain : List (SplitRule H)}

theorem IsPlain.find?_eq_none {symbol : Symbol} (plain : IsPlain chain symbol) :
    chain.find? (fun split => decide (symbol ∉ split.before ∧ symbol ∈ split.after)) = none :=
  List.find?_eq_none.mpr fun split inChain allocates =>
    plain split inChain (of_decide_eq_true allocates)

theorem abbreviated_of_isPlain {symbol : Symbol} (plain : IsPlain chain symbol) :
    abbreviated chain symbol = [symbol] := by
  rw [abbreviated, plain.find?_eq_none]

theorem abbreviated_append {more : List (SplitRule H)} {symbol : Symbol}
    (plain : IsPlain more symbol) : abbreviated (chain ++ more) symbol = abbreviated chain symbol := by
  rw [abbreviated, abbreviated, List.find?_append, plain.find?_eq_none, Option.or_none]

theorem flatMap_abbreviated_of_isPlain {word : List Symbol}
    (plain : ∀ symbol ∈ word, IsPlain chain symbol) : word.flatMap (abbreviated chain) = word := by
  induction word with
  | nil => rfl
  | cons symbol word induction =>
      rw [List.flatMap_cons, abbreviated_of_isPlain (plain symbol List.mem_cons_self),
        induction fun other member => plain other (List.mem_cons_of_mem _ member)]
      rfl

variable (apart : chain.Pairwise Apart) (inChain : split ∈ chain)
include apart inChain

theorem eq_of_allocates {other : SplitRule H} (inOther : other ∈ chain) {symbol : Symbol}
    (allocates : split.Allocates symbol) (alike : other.Allocates symbol) : split = other := by
  by_contra different
  exact apart.forall inChain inOther different symbol allocates alike

theorem abbreviated_symbolAt (admits : split.rule.admitsSplit = true) {depth : Nat}
    (above : depth + 2 < split.rule.rhs.length) :
    abbreviated chain (ChainRule.symbolAt split.rule.lhs split.before (depth + 1)) =
      ChainRule.wordAt split.rule.rhs (depth + 1) := by
  let symbol := ChainRule.symbolAt split.rule.lhs split.before (depth + 1)
  have own : split.Allocates symbol := symbolAt_allocated admits above
  have found : chain.find? (fun other => decide (symbol ∉ other.before ∧ symbol ∈ other.after)) =
      some split := by
    cases result : chain.find? fun other => decide (symbol ∉ other.before ∧ symbol ∈ other.after) with
    | none =>
        rw [List.find?_eq_none] at result
        exact absurd (decide_eq_true own) (result split inChain)
    | some other =>
        have allocates := of_decide_eq_true (List.find?_some result :)
        rw [eq_of_allocates apart inChain (List.mem_of_find?_eq_some result) own allocates]
  change abbreviated chain symbol = _
  rw [abbreviated, found]
  change ChainRule.wordAt _ (split.before.allocated + depth - split.before.allocated + 1) = _
  rw [Nat.add_sub_cancel_left]

theorem flatMap_rhs_pieceAt (plain : ∀ symbol ∈ split.rule.rhs, IsPlain chain symbol)
    (admits : split.rule.admitsSplit = true) {depth : Nat} :
    (split.pieceAt depth).rhs.flatMap (abbreviated chain) =
      ChainRule.wordAt split.rule.rhs depth := by
  rw [pieceAt, Rule.piece, ChainRule.link]
  split
  · rename_i above
    rw [List.flatMap_cons, abbreviated_symbolAt apart inChain admits above,
      ChainRule.wordAt_eq_append above]
    congr 1
    apply flatMap_abbreviated_of_isPlain
    intro symbol member
    exact plain symbol (List.mem_of_getElem? (Option.mem_toList.mp member))
  · apply flatMap_abbreviated_of_isPlain
    intro symbol member
    exact plain symbol (List.mem_of_mem_take member)

theorem flatMap_rhs_top (plain : ∀ symbol ∈ split.rule.rhs, IsPlain chain symbol)
    (admits : split.rule.admitsSplit = true) :
    (split.pieceAt 0).rhs.flatMap (abbreviated chain) = split.rule.rhs := by
  rw [flatMap_rhs_pieceAt apart inChain plain admits, ChainRule.wordAt_zero]

end Apart

section Chained

variable {supply last : SymbolSupply} {chain : List (SplitRule H)}
  (chained : SymbolSupply.Chained before after supply chain last)
include chained

theorem pairwise_apart : chain.Pairwise Apart :=
  (chained.pairwise before_le_after).imp apart_of_le

theorem isPlain_of_mem {symbol : Symbol} (old : symbol ∈ supply) : IsPlain chain symbol := by
  intro split inChain allocates
  have start := chained.le_before before_le_after inChain
  have new := allocates.1
  rw [SymbolSupply.mem_iff] at old new
  omega

theorem abbreviated_of_mem {symbol : Symbol} (old : symbol ∈ supply) :
    abbreviated chain symbol = [symbol] :=
  abbreviated_of_isPlain (isPlain_of_mem chained old)

theorem flatMap_abbreviated_of_forall_mem {word : List Symbol}
    (old : ∀ symbol ∈ word, symbol ∈ supply) : word.flatMap (abbreviated chain) = word :=
  flatMap_abbreviated_of_isPlain fun symbol member => isPlain_of_mem chained (old symbol member)

variable (inChain : split ∈ chain) (old : ∀ symbol ∈ split.rule.rhs, symbol ∈ supply)
include inChain old

theorem flatMap_rhs_pieceAt_of_forall_mem (admits : split.rule.admitsSplit = true) {depth : Nat} :
    (split.pieceAt depth).rhs.flatMap (abbreviated chain) = ChainRule.wordAt split.rule.rhs depth :=
  flatMap_rhs_pieceAt (pairwise_apart chained) inChain
    (fun symbol member => isPlain_of_mem chained (old symbol member)) admits

theorem abbreviated_top {piece : Rule H} (found : split.pieces[0]? = some piece) :
    piece.rhs.flatMap (abbreviated chain) = split.rule.rhs := by
  rcases getElem?_pieces found with ⟨_, _, rfl⟩ | ⟨admits, _, rfl⟩
  · exact flatMap_abbreviated_of_forall_mem chained old
  · rw [flatMap_rhs_pieceAt_of_forall_mem chained inChain old admits, ChainRule.wordAt_zero]

theorem abbreviated_below {depth : Nat} {piece : Rule H}
    (found : split.pieces[depth + 1]? = some piece) :
    abbreviated chain piece.lhs = piece.rhs.flatMap (abbreviated chain) := by
  rcases getElem?_pieces found with ⟨_, impossible, _⟩ | ⟨admits, bound, rfl⟩
  · cases impossible
  · have lhs : (split.pieceAt (depth + 1)).lhs = _ := ChainRule.lhs_link
    rw [flatMap_rhs_pieceAt_of_forall_mem chained inChain old admits, lhs,
      abbreviated_symbolAt (pairwise_apart chained) inChain admits (by omega)]

/-- The top piece does what the rule does, and other pieces do nothing. -/
theorem derives_abbreviated (lhsOld : split.rule.lhs ∈ supply) {piece : Rule H}
    (member : piece ∈ split.pieces) :
    Derives (DirectBy [split.rule]) (abbreviated chain piece.lhs)
      (piece.rhs.flatMap (abbreviated chain)) := by
  obtain ⟨depth, found⟩ := List.getElem?_of_mem member
  cases depth with
  | zero =>
      rw [abbreviated_top chained inChain old found, lhs_top found,
        abbreviated_of_mem chained lhsOld]
      exact .of_direct (.rule (List.mem_singleton_self _))
  | succ depth =>
      rw [abbreviated_below chained inChain old found]
      exact .refl _

end Chained

theorem ne_nil_iff {piece : Rule H} (member : piece ∈ split.pieces) :
    piece.rhs ≠ [] ↔ split.rule.rhs ≠ [] := by
  rcases eq_or_exists_pieceAt member with ⟨_, rfl⟩ | ⟨_, depth, bound, rfl⟩
  · rfl
  · have two : (split.pieceAt depth).rhs.length = 2 := ChainRule.length_rhs_link bound
    exact iff_of_true (List.ne_nil_of_length_pos (by omega)) (List.ne_nil_of_length_pos (by omega))

theorem length_rhs_le_two (splits : 2 < split.rule.rhs.length → split.rule.admitsSplit = true)
    {piece : Rule H} (member : piece ∈ split.pieces) : piece.rhs.length ≤ 2 := by
  rcases eq_or_exists_pieceAt member with ⟨refuses, rfl⟩ | ⟨_, depth, bound, rfl⟩
  · by_contra long
    rw [splits (by omega)] at refuses
    cases refuses
  · exact Nat.le_of_eq (ChainRule.length_rhs_link bound)

end SplitRule

namespace Grammar

variable {H : Type} [RuleHistory H]

namespace BinarizesTo

variable {grammar result : Grammar H} {chain : List (SplitRule H)}
  (binarizes : grammar.BinarizesTo result chain)
include binarizes

theorem mem_rules_iff {piece : Rule H} :
    piece ∈ result.rules ↔ ∃ split ∈ chain, piece ∈ split.pieces := by
  rw [binarizes.pieces_eq, List.mem_flatMap]

theorem exists_split {rule : Rule H} (member : rule ∈ grammar.rules) :
    ∃ split ∈ chain, split.rule = rule := by
  rw [← binarizes.rules_eq] at member
  exact List.mem_map.mp member

theorem rule_mem {split : SplitRule H} (inChain : split ∈ chain) : split.rule ∈ grammar.rules := by
  rw [← binarizes.rules_eq]
  exact List.mem_map_of_mem inChain

theorem lhs_below {split : SplitRule H} (inChain : split ∈ chain) {depth : Nat} {piece : Rule H}
    (found : split.pieces[depth + 1]? = some piece) : piece.lhs ∉ grammar.supply := by
  have new := (SplitRule.lhs_below found).1
  have start := binarizes.chained.le_before SplitRule.before_le_after inChain
  rw [SymbolSupply.mem_iff] at new ⊢
  omega

theorem lhs_piece {split : SplitRule H} (inChain : split ∈ chain) {piece : Rule H}
    (member : piece ∈ split.pieces) :
    piece.lhs = split.rule.lhs ∨ piece.lhs ∉ grammar.supply := by
  obtain ⟨depth, found⟩ := List.getElem?_of_mem member
  cases depth with
  | zero => exact .inl (SplitRule.lhs_top found)
  | succ depth => exact .inr (binarizes.lhs_below inChain found)

theorem length_rhs_le_two
    (splits : ∀ rule ∈ grammar.rules, 2 < rule.rhs.length → rule.admitsSplit = true)
    {piece : Rule H} (member : piece ∈ result.rules) : piece.rhs.length ≤ 2 := by
  obtain ⟨split, inChain, inPieces⟩ := binarizes.mem_rules_iff.mp member
  exact split.length_rhs_le_two (splits _ (binarizes.rule_mem inChain)) inPieces

theorem mem_supply {symbol : Symbol} (old : symbol ∈ grammar.supply) : symbol ∈ result.supply :=
  Nat.lt_of_lt_of_le old (binarizes.chained.allocated_le SplitRule.before_le_after)

theorem symbolAt_mem {split : SplitRule H} (inChain : split ∈ chain)
    (admits : split.rule.admitsSplit = true) (lhsOld : split.rule.lhs ∈ grammar.supply) {depth : Nat}
    (above : depth + 1 < split.rule.rhs.length) :
    ChainRule.symbolAt split.rule.lhs split.before depth ∈ result.supply := by
  cases depth with
  | zero => exact binarizes.mem_supply lhsOld
  | succ depth =>
      exact Nat.lt_of_lt_of_le (SplitRule.symbolAt_allocated admits above).2
        (binarizes.chained.after_le SplitRule.before_le_after inChain)

theorem usesAllocated (uses : grammar.UsesAllocated) : result.UsesAllocated where
  lhs_mem := by
    intro piece member
    obtain ⟨split, inChain, inPieces⟩ := binarizes.mem_rules_iff.mp member
    have lhsOld := uses.lhs_mem _ (binarizes.rule_mem inChain)
    rcases SplitRule.eq_or_exists_pieceAt inPieces with ⟨_, rfl⟩ | ⟨admits, depth, bound, rfl⟩
    · exact binarizes.mem_supply lhsOld
    · rw [SplitRule.pieceAt, Rule.piece, ChainRule.lhs_link]
      exact binarizes.symbolAt_mem inChain admits lhsOld bound
  rhs_mem := by
    intro piece member symbol occurs
    obtain ⟨split, inChain, inPieces⟩ := binarizes.mem_rules_iff.mp member
    have lhsOld := uses.lhs_mem _ (binarizes.rule_mem inChain)
    have rhsOld := uses.rhs_mem _ (binarizes.rule_mem inChain)
    rcases SplitRule.eq_or_exists_pieceAt inPieces with ⟨_, rfl⟩ | ⟨admits, depth, bound, rfl⟩
    · exact binarizes.mem_supply (rhsOld symbol occurs)
    · rcases ChainRule.mem_rhs_link occurs with letter | ⟨above, rfl⟩
      · exact binarizes.mem_supply (rhsOld symbol letter)
      · exact binarizes.symbolAt_mem inChain admits lhsOld above
  sequence_mem := by simp [binarizes.plain]
  letter_mem := by simp [binarizes.plain]

/-- Chains change nothing in what derives by rules, all of them or only those with a right-hand side,
together with other steps between old symbols. -/
theorem derives_beside_iff (strict : Prop) (uses : grammar.UsesAllocated)
    {extra : Symbol → List Symbol → Prop}
    (oldExtra : ∀ symbol middle, extra symbol middle →
      symbol ∈ grammar.supply ∧ ∀ other ∈ middle, other ∈ grammar.supply)
    {symbols word : List Symbol} (oldSymbols : ∀ symbol ∈ symbols, symbol ∈ grammar.supply)
    (oldWord : ∀ symbol ∈ word, symbol ∈ grammar.supply) :
    TracedGrammar.Derives (Beside strict result.rules extra) symbols word ↔
      TracedGrammar.Derives (Beside strict grammar.rules extra) symbols word := by
  constructor
  · intro derives
    rw [← SplitRule.flatMap_abbreviated_of_forall_mem binarizes.chained oldSymbols,
      ← SplitRule.flatMap_abbreviated_of_forall_mem binarizes.chained oldWord]
    apply derives.flatMap
    rintro symbol middle (⟨⟨member⟩, nonempty⟩ | other)
    · obtain ⟨split, inChain, inPieces⟩ := binarizes.mem_rules_iff.mp member
      have inBefore := binarizes.rule_mem inChain
      refine (SplitRule.derives_abbreviated binarizes.chained inChain
        (uses.rhs_mem _ inBefore) (uses.lhs_mem _ inBefore) inPieces).mono ?_
      rintro _ _ ⟨same⟩
      rw [List.mem_singleton.mp same]
      exact .inl ⟨.rule inBefore, fun only => (SplitRule.ne_nil_iff inPieces).mp (nonempty only)⟩
    · obtain ⟨lhsOld, rhsOld⟩ := oldExtra symbol middle other
      rw [SplitRule.abbreviated_of_mem binarizes.chained lhsOld,
        SplitRule.flatMap_abbreviated_of_forall_mem binarizes.chained rhsOld]
      exact .of_direct (.inr other)
  · apply TracedGrammar.Derives.lift
    rintro symbol middle (⟨⟨member⟩, nonempty⟩ | other)
    · obtain ⟨split, inChain, rfl⟩ := binarizes.exists_split member
      apply split.derives_rhs.mono
      rintro symbol middle ⟨inPieces⟩
      exact .inl ⟨.rule (binarizes.mem_rules_iff.mpr ⟨split, inChain, inPieces⟩),
        fun only => (SplitRule.ne_nil_iff inPieces).mpr (nonempty only)⟩
    · exact .of_direct (.inr other)

theorem derives_nonemptyRules_iff (uses : grammar.UsesAllocated) {symbols word : List Symbol}
    (oldSymbols : ∀ symbol ∈ symbols, symbol ∈ grammar.supply)
    (oldWord : ∀ symbol ∈ word, symbol ∈ grammar.supply) :
    TracedGrammar.Derives (DirectBy result.nonemptyRules) symbols word ↔
      TracedGrammar.Derives (DirectBy grammar.nonemptyRules) symbols word := by
  have alone (some : Grammar H) : TracedGrammar.Derives (DirectBy some.nonemptyRules) symbols word ↔
      TracedGrammar.Derives (Beside True some.rules fun _ _ => False) symbols word :=
    TracedGrammar.Derives.congr fun _ _ => by simp [directBy_nonemptyRules_iff, Beside]
  rw [alone, alone]
  exact binarizes.derives_beside_iff True uses (by simp) oldSymbols oldWord

end BinarizesTo

end Grammar

end TracedGrammar
