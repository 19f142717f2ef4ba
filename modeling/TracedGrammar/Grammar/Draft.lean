import TracedGrammar.Grammar.Basic

/-!
# Output of a pass

While a pass goes through a grammar it collects the rules it makes and may allocate symbols.
-/

namespace TracedGrammar

/-- What a pass has produced so far. -/
structure Draft (H : Type) where
  supply : SymbolSupply
  rules : Array (Rule H) := #[]

namespace Draft

variable {H : Type} [RuleHistory H]

def expand (draft : Draft H) (sequence : Sequence H) : Except GrammarError (Draft H) := do
  let (rules, supply) ← sequence.expand draft.supply
  return { supply, rules := draft.rules ++ rules }

end Draft

end TracedGrammar
