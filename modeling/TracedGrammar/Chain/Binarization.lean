import TracedGrammar.Chain.Split
import TracedGrammar.Grammar.Draft
import TracedGrammar.Limits
import TracedGrammar.Report.Basic

/-!
# Binarization

Every long rule is replaced by its chain, so that no right-hand side has more than two symbols.
-/

namespace TracedGrammar

namespace Grammar

variable {H : Type} [RuleHistory H]

def binarizeRule (limits : Limits) (draft : Draft H) (rule : Rule H) : Reported (Draft H) := do
  let (parts, supply) := rule.binarize draft.supply
  let pieces := parts.map Prod.fst
  if rule.admitsSplit then
    .report (.split rule.lhs rule.rhs (pieces.map fun piece => (piece.lhs, piece.rhs)))
  let rules := draft.rules ++ pieces
  limits.checkRules rules.size
  return { supply, rules }

/-- Splits all long rules.  Nullable symbols have to be elided first. -/
def binarize (grammar : Grammar H) (limits : Limits) : Reported (Grammar H) := do
  if Stage.nullingEliminated ≤ grammar.stage then
    let draft ← Reported.fold (binarizeRule limits) { supply := grammar.supply } grammar.rules
    .report (.binarized grammar.rules.length draft.rules.size)
    return grammar.afterPass draft.supply draft.rules.toList [] (max grammar.stage .binarized)
  else
    Reported.quiet (.error (.wrongStage .binarization grammar.stage))

end Grammar

end TracedGrammar
