import TracedGrammar.Proofs.Run.Pieces

/-!
# How histories are refined

A pass makes a block of rules from each rule or sequence that it works on.  It records something only
where nothing of the kind has been recorded before, so the histories of a block say all that was said
before, and a derivation can be traced back through any number of passes.
-/

namespace TracedGrammar

namespace History

variable {before after last : History}

/-- Two histories have one origin and one action, and the later one has all that has been recorded in
the earlier one. -/
structure Refines (before after : History) : Prop where
  origin : after.origin = before.origin
  action : after.action = before.action
  precedence : ∀ precedence, before.precedence = some precedence → after.precedence = some precedence
  elision : ∀ elision, before.elision = some elision → after.elision = some elision
  unrolling : ∀ unrolling, before.unrolling = some unrolling → after.unrolling = some unrolling
  chainPiece : ∀ piece, before.chainPiece = some piece → after.chainPiece = some piece

namespace Refines

theorem refl (history : History) : history.Refines history :=
  ⟨rfl, rfl, fun _ => id, fun _ => id, fun _ => id, fun _ => id⟩

theorem trans (first : before.Refines after) (second : after.Refines last) : before.Refines last where
  origin := second.origin.trans first.origin
  action := second.action.trans first.action
  precedence := fun _ known => second.precedence _ (first.precedence _ known)
  elision := fun _ known => second.elision _ (first.elision _ known)
  unrolling := fun _ known => second.unrolling _ (first.unrolling _ known)
  chainPiece := fun _ known => second.chainPiece _ (first.chainPiece _ known)

end Refines

theorem refines_elided (absent : before.elision = none) (elision : Elision) :
    before.Refines { before with elision := some elision } :=
  { Refines.refl before with elision := by simp [absent] }

theorem refines_split (absent : before.chainPiece = none) (piece : ChainPiece) :
    before.Refines (before.split piece) :=
  { Refines.refl before with chainPiece := by simp [absent] }

theorem refines_unroll (absent : before.unrolling = none) (unrolling : Unrolling) :
    before.Refines (before.unroll unrolling) :=
  { Refines.refl before with unrolling := by simp [absent] }

end History

namespace Rule

variable {rule : Rule History}

/-- Whether a rule was written as a rule and not as a sequence. -/
def IsPlain (rule : Rule History) : Prop :=
  rule.history.unrolling = none

theorem refines_ranked (table : PrecedenceTable) (word : List Symbol) :
    rule.history.Refines (rule.ranked table word).history :=
  { History.Refines.refl rule.history with
    precedence := by
      intro precedence known
      simp [ranked, withPrecedence, known] }

end Rule

/-- A rule or a sequence of a grammar. -/
inductive Entry
  | rule (rule : Rule History)
  | sequence (sequence : Sequence History)

namespace Entry

variable {supply : SymbolSupply}

def lhs : Entry → Symbol
  | .rule given => given.lhs
  | .sequence given => given.lhs

def history : Entry → History
  | .rule given => given.history
  | .sequence given => given.history

def IsPlain : Entry → Prop
  | .rule given => given.IsPlain
  | .sequence _ => False

/-- An entry descends from another one, by a pass over a grammar that had allocated some symbols.  It
defines the same symbol or one that was allocated for it. -/
structure Descent (supply : SymbolSupply) (source entry : Entry) : Prop where
  lhs : entry.lhs = source.lhs ∨ entry.lhs ∉ supply
  refines : source.history.Refines entry.history
  plain : entry.IsPlain ↔ source.IsPlain

namespace Descent

theorem refl (supply : SymbolSupply) (entry : Entry) : Descent supply entry entry :=
  ⟨.inl rfl, .refl _, .rfl⟩

theorem trans {later : SymbolSupply} (grows : supply.allocated ≤ later.allocated)
    {source middle entry : Entry} (first : Descent supply source middle)
    (second : Descent later middle entry) : Descent supply source entry where
  lhs := by
    rcases second.lhs with same | new
    · rw [same]
      exact first.lhs
    · exact .inr fun known => new (Nat.lt_of_lt_of_le known grows)
  refines := first.refines.trans second.refines
  plain := second.plain.trans first.plain

end Descent

end Entry

namespace Grammar

variable {owned : Symbol → Prop} {grammar next last : Grammar History}
  {splits : List (SplitRule History)} {limits : Limits}

def entries (grammar : Grammar History) : List Entry :=
  grammar.rules.map .rule ++ grammar.sequences.map .sequence

theorem entries_of_no_sequences (plain : grammar.sequences = []) :
    grammar.entries = grammar.rules.map .rule := by
  rw [entries, plain, List.map_nil, List.append_nil]

/-- A grammar consists, entry by entry, of what descends from another. -/
structure RefinesTo (grammar next : Grammar History) : Prop where
  supply_le : grammar.supply.allocated ≤ next.supply.allocated
  descent : Blockwise (Entry.Descent grammar.supply) grammar.entries next.entries

namespace RefinesTo

theorem refl (grammar : Grammar History) : grammar.RefinesTo grammar :=
  ⟨Nat.le_refl _, .refl (Entry.Descent.refl _) _⟩

theorem trans (first : grammar.RefinesTo next) (second : next.RefinesTo last) :
    grammar.RefinesTo last where
  supply_le := Nat.le_trans first.supply_le second.supply_le
  descent := first.descent.trans second.descent (Entry.Descent.trans first.supply_le)

end RefinesTo

/-- Variants define what their rule does.  They are made of rules only that are no variants yet. -/
theorem descent_variant {rule : Rule History} (admits : rule.admitsElision = true) (rhs : List Symbol)
    (elision : Elision) :
    Entry.Descent grammar.supply (.rule rule) (.rule (rule.variant rhs elision)) := by
  refine ⟨.inl rfl, ?_, ?_⟩
  · change rule.history.Refines (rule.variant rhs elision).history
    rw [Rule.history_variant admits]
    exact History.refines_elided (Rule.admitsElision_iff.mp admits) elision
  · change (rule.variant rhs elision).history.unrolling = none ↔ _
    rw [Rule.history_variant admits]
    exact .rfl

/-- The rules of a sequence define its symbol or helpers, and each of them records what it is. -/
theorem ExpandsTo.refinesTo {chain : List (ExpandedSequence History)}
    (expands : grammar.ExpandsTo next chain)
    (waiting : ∀ sequence ∈ grammar.sequences, sequence.history.unrolling = none) :
    grammar.RefinesTo next where
  supply_le := expands.chained.allocated_le ExpandedSequence.before_le_after
  descent := by
    rw [entries_of_no_sequences expands.plain, expands.rules_eq, List.map_append, entries,
      ← expands.sequences_eq, List.map_map, List.map_flatMap]
    refine .append (.refl (Entry.Descent.refl _) _) (.map_flatMap ?_)
    intro expanded inChain entry member
    obtain ⟨rule, inRules, rfl⟩ := List.mem_map.mp member
    obtain ⟨top, symbol, written, writes, row, _, rfl⟩ := expanded.mem_rules_iff.mp inRules
    refine ⟨?lhs, ?refines, ?plain⟩
    case lhs =>
      cases writes with
      | top => exact .inl rfl
      | helper inOrder => exact .inr (expands.chained.helper_not_mem inChain inOrder)
    case refines => exact History.refines_unroll (waiting _ (expands.mem_sequences inChain)) _
    case plain => exact iff_of_false (Option.some_ne_none _) id

theorem EliminatesTo.refinesTo {nullable : SymbolSet} {blocks : List (List (Rule History))}
    (eliminates : grammar.EliminatesTo next nullable blocks) (plain : grammar.sequences = []) :
    grammar.RefinesTo next where
  supply_le := Nat.le_of_eq (congrArg _ eliminates.supply_eq.symm)
  descent := by
    rw [entries_of_no_sequences plain, entries_of_no_sequences eliminates.plain, eliminates.rules_eq]
    refine .map (.of_forall₂ (eliminates.variants.imp fun rule block variants other member => ?_))
    cases admits : rule.admitsElision with
    | false =>
        rw [variants.kept admits, List.mem_singleton] at member
        rw [member]
        exact .refl _ _
    | true =>
        obtain ⟨rhs, elision, _, rfl⟩ := variants.thinned admits other member
        exact descent_variant admits rhs elision

/-- Only what is no piece yet is split, and all pieces but the top define symbols of their own. -/
theorem BinarizesTo.refinesTo {chain : List (SplitRule History)}
    (binarizes : grammar.BinarizesTo next chain) (inventory : grammar.HasLinks splits)
    (plain : grammar.sequences = []) : grammar.RefinesTo next where
  supply_le := binarizes.chained.allocated_le SplitRule.before_le_after
  descent := by
    rw [entries_of_no_sequences plain, entries_of_no_sequences binarizes.plain, binarizes.pieces_eq,
      ← binarizes.rules_eq]
    refine .map (.map_flatMap fun split inChain piece member => ?_)
    rcases SplitRule.eq_or_exists_pieceAt member with ⟨_, rfl⟩ | ⟨admits, depth, bound, rfl⟩
    · exact .refl _ _
    · have unrecorded := inventory.link?_of_admitsSplit (binarizes.rule_mem inChain) admits
      refine ⟨?lhs, History.refines_split (Option.map_eq_none_iff.mp unrecorded) _, .rfl⟩
      case lhs =>
        change (split.pieceAt depth).lhs = split.rule.lhs ∨ (split.pieceAt depth).lhs ∉ grammar.supply
        rw [show (split.pieceAt depth).lhs = _ from ChainRule.lhs_link]
        cases depth with
        | zero => exact .inl rfl
        | succ depth =>
            have before := binarizes.chained.le_before SplitRule.before_le_after inChain
            have new := (SplitRule.symbolAt_allocated admits (by omega : depth + 2 < _)).1
            exact .inr fun known => new (Nat.lt_of_lt_of_le known before)

theorem HasChains.refinesTo_of_resolvePrecedence (inventory : grammar.HasChains splits)
    (keeps : grammar.KeepsHistories splits) (done : grammar.resolvePrecedence.result = .ok next) :
    grammar.RefinesTo next where
  supply_le := Nat.le_of_eq (congrArg _ (supply_resolvePrecedence done).symm)
  descent := by
    rw [entries, entries, inventory.rules_resolvePrecedence keeps done,
      sequences_resolvePrecedence done]
    refine .append (.map (.map_right (fun rule => ?_) _)) (.refl (Entry.Descent.refl _) _)
    exact ⟨.inl rfl, Rule.refines_ranked _ _, .rfl⟩

end Grammar

end TracedGrammar
