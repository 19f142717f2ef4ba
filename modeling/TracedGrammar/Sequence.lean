import TracedGrammar.Repetition.Expansion
import TracedGrammar.Rule

/-!
# Sequences

A sequence rule lets a symbol stand for all words of a repetition.  Its expansion is a list of plain
rules, each of which records which rule of the sequence it is.
-/

namespace TracedGrammar

/-- A sequence rule. -/
structure Sequence (H : Type) where
  lhs : Symbol
  repetition : Repetition
  history : H
deriving DecidableEq, Repr

namespace Sequence

variable {H : Type} [RuleHistory H]

def historyOf (sequence : Sequence H) (top recursive : Bool) : H :=
  RuleHistory.unroll sequence.history
    { item := sequence.repetition.item
      separator := sequence.repetition.separator
      top
      recursive }

def ruleOf (sequence : Sequence H) (production : Production) : Rule H :=
  { lhs := production.lhs
    rhs := production.rhs
    history := sequence.historyOf production.top production.recursive }

/-- The rules of the sequence.  Symbols for parts of it come from the supply. -/
def expand (sequence : Sequence H) (supply : SymbolSupply) :
    Except GrammarError (List (Rule H) × SymbolSupply) := do
  sequence.repetition.validate
  let (productions, supply) := sequence.repetition.expand sequence.lhs supply
  return (productions.map sequence.ruleOf, supply)

/-- The rules of the sequence, with symbols from the supply that the state holds. -/
def rewrite (sequence : Sequence H) :
    ExceptT GrammarError (StateM SymbolSupply) (List (Rule H)) := do
  MonadExcept.ofExcept sequence.repetition.validate
  let productions ← modifyGet (sequence.repetition.expand sequence.lhs)
  return productions.map sequence.ruleOf

end Sequence

end TracedGrammar
