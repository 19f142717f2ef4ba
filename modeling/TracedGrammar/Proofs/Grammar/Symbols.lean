import TracedGrammar.Grammar.Basic
import TracedGrammar.Language.Derivation
import TracedGrammar.Proofs.Repetition.Descent

/-!
# Symbols of a grammar

Rules and sequences define the symbols on their left-hand sides.  The terminals of a grammar are the
allocated symbols that nothing defines.
-/

namespace TracedGrammar

variable {H : Type}

/-- A property holds of all symbols that a rule is written with. -/
def Rule.Over (property : Symbol → Prop) (rule : Rule H) : Prop :=
  property rule.lhs ∧ ∀ symbol ∈ rule.rhs, property symbol

def Sequence.Over (property : Symbol → Prop) (sequence : Sequence H) : Prop :=
  property sequence.lhs ∧ ∀ letter, sequence.repetition.IsLetter letter → property letter

theorem Rule.Over.mono {property other : Symbol → Prop} {rule : Rule H} (uses : rule.Over property)
    (more : ∀ symbol, property symbol → other symbol) : rule.Over other :=
  ⟨more _ uses.1, fun symbol member => more _ (uses.2 symbol member)⟩

theorem Sequence.Over.mono {property other : Symbol → Prop} {sequence : Sequence H}
    (uses : sequence.Over property) (more : ∀ symbol, property symbol → other symbol) :
    sequence.Over other :=
  ⟨more _ uses.1, fun letter occurs => more _ (uses.2 letter occurs)⟩

namespace Grammar

def IsDefined (grammar : Grammar H) (symbol : Symbol) : Prop :=
  (∃ rule ∈ grammar.rules, rule.lhs = symbol) ∨
    ∃ sequence ∈ grammar.sequences, sequence.lhs = symbol

def IsTerminal (grammar : Grammar H) (symbol : Symbol) : Prop :=
  symbol ∈ grammar.supply ∧ ¬grammar.IsDefined symbol

structure UsesAllocated (grammar : Grammar H) : Prop where
  lhs_mem : ∀ rule ∈ grammar.rules, rule.lhs ∈ grammar.supply
  rhs_mem : ∀ rule ∈ grammar.rules, ∀ symbol ∈ rule.rhs, symbol ∈ grammar.supply
  sequence_mem : ∀ sequence ∈ grammar.sequences, sequence.lhs ∈ grammar.supply
  letter_mem : ∀ sequence ∈ grammar.sequences, ∀ letter,
    sequence.repetition.IsLetter letter → letter ∈ grammar.supply

theorem UsesAllocated.defined_mem {grammar : Grammar H} (uses : grammar.UsesAllocated)
    (symbol : Symbol) (defined : grammar.IsDefined symbol) : symbol ∈ grammar.supply := by
  rcases defined with ⟨rule, member, rfl⟩ | ⟨sequence, member, rfl⟩
  · exact uses.lhs_mem rule member
  · exact uses.sequence_mem sequence member

theorem UsesAllocated.of_directBy {grammar : Grammar H} (without : grammar.sequences = [])
    (allocated : ∀ symbol word, DirectBy grammar.rules symbol word →
      symbol ∈ grammar.supply ∧ ∀ other ∈ word, other ∈ grammar.supply) : grammar.UsesAllocated where
  lhs_mem := fun _ member => (allocated _ _ (.rule member)).1
  rhs_mem := fun _ member => (allocated _ _ (.rule member)).2
  sequence_mem := by simp [without]
  letter_mem := by simp [without]

theorem UsesAllocated.mem_of_directBy {grammar : Grammar H} (uses : grammar.UsesAllocated)
    {symbol : Symbol} {word : List Symbol} (step : DirectBy grammar.rules symbol word) :
    symbol ∈ grammar.supply ∧ ∀ other ∈ word, other ∈ grammar.supply := by
  obtain ⟨member⟩ := step
  exact ⟨uses.lhs_mem _ member, uses.rhs_mem _ member⟩

/-- One sequence alone defines the symbol on its left-hand side. -/
structure IsOnlyDefinition (grammar : Grammar H) (sequence : Sequence H) : Prop where
  rule_ne : ∀ rule ∈ grammar.rules, rule.lhs ≠ sequence.lhs
  sequence_eq : ∀ other ∈ grammar.sequences, other.lhs = sequence.lhs → other = sequence

end Grammar

end TracedGrammar
