import TracedGrammar.Chain.Binarization
import TracedGrammar.Grammar.Expansion
import TracedGrammar.Nulling.Elimination
import TracedGrammar.Precedence.Resolution

/-!
# Normalization

A grammar is normalized by its passes in order: sequences are expanded, nullable symbols are elided,
long rules are split, and precedence is resolved.
-/

namespace TracedGrammar

namespace Grammar

variable {H : Type} [RuleHistory H]

/-- Runs all passes. -/
def normalize (grammar : Grammar H) (limits : Limits) : Reported (Grammar H) := do
  .report (.normalizing grammar.rules.length grammar.sequences.length grammar.stage)
  let expanded ← grammar.expandSequences limits
  let eliminated ← expanded.eliminateNulling limits
  let binarized ← eliminated.binarize limits
  let resolved ← binarized.resolvePrecedence
  return { resolved with stage := .normalized }

end Grammar

end TracedGrammar
