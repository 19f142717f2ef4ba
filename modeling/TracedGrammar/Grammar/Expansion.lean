import TracedGrammar.Grammar.Draft
import TracedGrammar.Limits
import TracedGrammar.Report.Basic

/-!
# Expansion of sequences

Every sequence rule is replaced by plain rules, which follow the rules that were there before.
-/

namespace TracedGrammar

namespace Grammar

variable {H : Type} [RuleHistory H]

/-- Adds the rules of a sequence to what has been produced beside `kept` rules. -/
def expandSequence (limits : Limits) (kept : Nat) (draft : Draft H) (sequence : Sequence H) :
    Reported (Draft H) := do
  sequence.repetition.validate
  .report (.sequence sequence.lhs sequence.repetition)
  let next ← draft.expand sequence
  limits.checkRules (kept + next.rules.size)
  return next

def expandSequences (grammar : Grammar H) (limits : Limits) : Reported (Grammar H) := do
  let draft ← Reported.fold (expandSequence limits grammar.rules.length)
    { supply := grammar.supply } grammar.sequences
  .report (.expanded grammar.sequences.length draft.rules.size)
  return grammar.afterPass draft.supply (grammar.rules ++ draft.rules.toList) []
    (max grammar.stage .sequenceExpanded)

end Grammar

end TracedGrammar
