import TracedGrammar.Proofs.Repetition.Helpers
import TracedGrammar.Proofs.Symbol.Allocation
import TracedGrammar.Sequence

/-!
# Expanded sequences

An expanded sequence comes with the layout of its expansion.  When sequences are expanded one after
the other, each takes its helpers from the supply that the one before has left, so no two of them
share a helper.
-/

namespace TracedGrammar

structure ExpandedSequence (H : Type) where
  sequence : Sequence H
  valid : sequence.repetition.IsValid
  before : SymbolSupply
  symbolOf : Repetition → Symbol
  order : List Repetition
  layout : sequence.repetition.Layout sequence.lhs before symbolOf order

namespace ExpandedSequence

variable {H : Type}

def after (expanded : ExpandedSequence H) : SymbolSupply :=
  (expanded.sequence.repetition.expand expanded.sequence.lhs expanded.before).2

/-- The symbols of the expansion with the repetitions that their rules write. -/
def Writes (expanded : ExpandedSequence H) : Bool → Symbol → Repetition → Prop :=
  Repetition.Layout.Writes expanded.sequence.repetition expanded.sequence.lhs expanded.symbolOf
    expanded.order

section Rules

variable [RuleHistory H]

def rules (expanded : ExpandedSequence H) : List (Rule H) :=
  (expanded.sequence.repetition.expand expanded.sequence.lhs expanded.before).1.map
    expanded.sequence.ruleOf

def ruleFor (expanded : ExpandedSequence H) (top : Bool) (symbol : Symbol) (row : List Part) :
    Rule H :=
  expanded.sequence.ruleOf (Production.ofRow expanded.symbolOf symbol top row)

theorem rhs_ruleFor_step (expanded : ExpandedSequence H) (top : Bool) (symbol : Symbol)
    (letters : List Symbol) :
    (expanded.ruleFor top symbol (.self :: letters.map .symbol)).rhs = symbol :: letters := by
  simp [ruleFor, Sequence.ruleOf, Production.ofRow, Part.symbolIn, Function.comp_def]

theorem expand_eq (expanded : ExpandedSequence H) :
    expanded.sequence.expand expanded.before = .ok (expanded.rules, expanded.after) := by
  unfold Sequence.expand
  rw [Repetition.validate_eq_ok_iff.mpr expanded.valid]
  rfl

theorem mem_rules_iff (expanded : ExpandedSequence H) {rule : Rule H} :
    rule ∈ expanded.rules ↔ ∃ top symbol written, expanded.Writes top symbol written ∧
      ∃ row ∈ written.alternatives, expanded.ruleFor top symbol row = rule := by
  rw [rules, List.mem_map]
  constructor
  · rintro ⟨production, member, rfl⟩
    obtain ⟨top, symbol, written, writes, row, inside, rfl⟩ :=
      expanded.layout.mem_productions_iff.mp member
    exact ⟨top, symbol, written, writes, row, inside, rfl⟩
  · rintro ⟨top, symbol, written, writes, row, inside, rfl⟩
    exact ⟨_, expanded.layout.mem_productions_iff.mpr
      ⟨top, symbol, written, writes, row, inside, rfl⟩, rfl⟩

theorem step_mem_rules (expanded : ExpandedSequence H)
    (recursive : expanded.sequence.repetition.IsRecursive) :
    expanded.ruleFor true expanded.sequence.lhs
      (.self :: expanded.sequence.repetition.step.map .symbol) ∈ expanded.rules :=
  expanded.mem_rules_iff.mpr ⟨true, _, _, .top, _, Repetition.step_mem_alternatives recursive, rfl⟩

theorem mem_rhs_ruleFor (expanded : ExpandedSequence H) {top : Bool} {symbol other : Symbol}
    {written : Repetition} (writes : expanded.Writes top symbol written) {row : List Part}
    (inside : row ∈ written.alternatives) (member : other ∈ (expanded.ruleFor top symbol row).rhs) :
    expanded.sequence.repetition.IsLetter other ∨ other = symbol ∨
      ∃ child ∈ expanded.order, expanded.symbolOf child = other := by
  obtain ⟨part, inRow, rfl⟩ := List.mem_map.mp member
  cases part with
  | symbol letter =>
      exact .inl (expanded.layout.isLetter_of_writes expanded.valid writes inside inRow)
  | self => exact .inr (.inl rfl)
  | nested child =>
      have nested : child ∈ Part.nestedIn row := List.mem_filterMap.mpr ⟨_, inRow, rfl⟩
      exact .inr (.inr ⟨child, expanded.layout.mem_order_of_writes writes inside nested, rfl⟩)

theorem derives_of_mem (expanded : ExpandedSequence H)
    {direct : Symbol → List Symbol → Prop}
    (steps : ∀ rule ∈ expanded.rules, direct rule.lhs rule.rhs) {word : List Symbol}
    (member : word ∈ expanded.sequence.repetition) :
    Derives direct [expanded.sequence.lhs] word := by
  refine expanded.layout.derives_of_mem ?_ .top member
  intro production inside
  exact steps _ (List.mem_map_of_mem inside)

end Rules

theorem exists_of_isValid (sequence : Sequence H) (valid : sequence.repetition.IsValid)
    (supply : SymbolSupply) :
    ∃ expanded : ExpandedSequence H, expanded.sequence = sequence ∧ expanded.before = supply := by
  obtain ⟨symbolOf, order, layout⟩ := sequence.repetition.exists_layout sequence.lhs supply
  exact ⟨⟨sequence, valid, supply, symbolOf, order, layout⟩, rfl, rfl⟩

theorem before_le_after (expanded : ExpandedSequence H) :
    expanded.before.allocated ≤ expanded.after.allocated := by
  rw [after, expanded.layout.allocated_eq]
  exact Nat.le_add_right _ _

abbrev Chained : SymbolSupply → List (ExpandedSequence H) → SymbolSupply → Prop :=
  SymbolSupply.Chained before after

namespace Chained

variable {supply last : SymbolSupply} {chain : List (ExpandedSequence H)}

theorem helper_id (chained : Chained supply chain last) {expanded : ExpandedSequence H}
    (inChain : expanded ∈ chain) {other : Repetition} (inOrder : other ∈ expanded.order) :
    supply.allocated ≤ (expanded.symbolOf other).id ∧
      (expanded.symbolOf other).id < last.allocated := by
  have own := expanded.layout.helper_id inOrder
  have start := chained.le_before before_le_after inChain
  have stop := chained.after_le before_le_after inChain
  exact ⟨start.trans own.1, own.2.trans_le stop⟩

theorem helper_not_mem (chained : Chained supply chain last) {expanded : ExpandedSequence H}
    (inChain : expanded ∈ chain) {other : Repetition} (inOrder : other ∈ expanded.order) :
    expanded.symbolOf other ∉ supply := by
  have fresh := (chained.helper_id inChain inOrder).1
  rw [SymbolSupply.mem_iff]
  omega

theorem eq_of_symbolOf_eq (chained : Chained supply chain last)
    {first second : ExpandedSequence H} (inFirst : first ∈ chain) (inSecond : second ∈ chain)
    {former latter : Repetition} (inFormer : former ∈ first.order)
    (inLatter : latter ∈ second.order) (same : first.symbolOf former = second.symbolOf latter) :
    first = second ∧ former = latter := by
  have owner : first = second := by
    refine chained.eq_of_allocated before_le_after inFirst inSecond
      (first.layout.helper_not_mem inFormer) (first.layout.helper_id inFormer).2 ?_ ?_
    · rw [same]
      exact second.layout.helper_not_mem inLatter
    · rw [same]
      exact (second.layout.helper_id inLatter).2
  subst owner
  exact ⟨rfl, first.layout.eq_of_symbolOf_eq inFormer inLatter same⟩

end Chained

/-- What symbols mean when helpers are read as the words of their repetitions and symbols that were
allocated before have meanings of their own. -/
def reading (supply : SymbolSupply) (chain : List (ExpandedSequence H))
    (authored : Interpretation) : Interpretation :=
  fun symbol => wordsWhere fun word =>
    symbol ∈ supply ∧ word ∈ authored symbol ∨
      ∃ expanded ∈ chain, ∃ other ∈ expanded.order,
        expanded.symbolOf other = symbol ∧ word ∈ other

section Reading

variable {supply last : SymbolSupply} {chain : List (ExpandedSequence H)}
  {authored : Interpretation}

theorem reading_authored (chained : Chained supply chain last) {symbol : Symbol}
    (member : symbol ∈ supply) : reading supply chain authored symbol = authored symbol := by
  ext word
  constructor
  · rintro (⟨_, inside⟩ | ⟨expanded, inChain, other, inOrder, rfl, _⟩)
    · exact inside
    · exact absurd member (chained.helper_not_mem inChain inOrder)
  · intro inside
    exact .inl ⟨member, inside⟩

theorem reading_helper (chained : Chained supply chain last) {expanded : ExpandedSequence H}
    (inChain : expanded ∈ chain) {other : Repetition} (inOrder : other ∈ expanded.order) :
    reading supply chain authored (expanded.symbolOf other) = other.language := by
  ext word
  constructor
  · rintro (⟨member, _⟩ | ⟨owner, inOwner, own, ownInside, same, inside⟩)
    · exact absurd member (chained.helper_not_mem inChain inOrder)
    · obtain ⟨rfl, rfl⟩ := chained.eq_of_symbolOf_eq inOwner inChain ownInside inOrder same
      exact inside
  · intro inside
    exact .inr ⟨expanded, inChain, other, inOrder, rfl, inside⟩

/-- The rules of a sequence are true when items and separators stand for themselves.  Only those in
which the defined symbol occurs again ask for more. -/
theorem word_rhs_le (chained : Chained supply chain last) {expanded : ExpandedSequence H}
    (inChain : expanded ∈ chain)
    (letters : ∀ letter, expanded.sequence.repetition.IsLetter letter →
      letter ∈ supply ∧ authored letter = {[letter]})
    {top : Bool} {symbol : Symbol} {written : Repetition}
    (writes : expanded.Writes top symbol written) {row : List Part}
    (member : row ∈ written.alternatives)
    (self : .self ∈ row → reading supply chain authored symbol = written.language) :
    (reading supply chain authored).word (row.map (Part.symbolIn expanded.symbolOf symbol)) ≤
      written.language := by
  refine expanded.layout.word_rhs_le expanded.valid ?_ ?_ writes member self
  · intro other inOrder
    exact reading_helper chained inChain inOrder
  · intro letter occurs
    obtain ⟨inside, itself⟩ := letters letter occurs
    rw [reading_authored chained inside, itself]

end Reading

end ExpandedSequence

end TracedGrammar
