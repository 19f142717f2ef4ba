import TracedGrammar.Closure
import TracedGrammar.Nulling.Variants
import TracedGrammar.Report.Basic

/-!
# Nulling elimination

Every rule is replaced by its variants without nullable symbols.  Afterwards the rules with an empty
right-hand side are needed for the empty word only.
-/

namespace TracedGrammar

namespace Grammar

variable {H : Type} [RuleHistory H]

def eliminateRule (nullable : SymbolSet) (limits : Limits) (produced : Array (Rule H))
    (rule : Rule H) : Reported (Array (Rule H)) := do
  let variants ← rule.variants nullable limits produced.size
  if rule.admitsElision then
    .report (.elided rule.lhs rule.rhs variants.length)
  return produced ++ variants

/-- Elides the symbols of a set from all right-hand sides.  Sequences have to be expanded first. -/
def eliminateNullingWith (grammar : Grammar H) (nullable : SymbolSet) (limits : Limits) :
    Reported (Grammar H) := do
  if Stage.sequenceExpanded ≤ grammar.stage then
    let produced ← Reported.fold (eliminateRule nullable limits) #[] grammar.rules
    .report (.eliminated grammar.rules.length produced.size)
    return grammar.afterPass grammar.supply produced.toList []
      (max grammar.stage .nullingEliminated)
  else
    Reported.quiet (.error (.wrongStage .nullingElimination grammar.stage))

def eliminateNulling (grammar : Grammar H) (limits : Limits) : Reported (Grammar H) :=
  grammar.eliminateNullingWith grammar.nullableSymbols limits

end Grammar

end TracedGrammar
