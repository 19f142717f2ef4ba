import TracedGrammar.Chain.Index
import TracedGrammar.Report.Basic

/-!
# Resolution of precedence

A rule without a precedence takes the one that is declared for the rightmost symbol on its
right-hand side that has one.  What counts is the right-hand side before the rule was split, and all
pieces of the chain get the same precedence.
-/

namespace TracedGrammar

/-- How far precedence has been resolved. -/
structure Resolution (H : Type) where
  rules : Array (Rule H)
  /-- How many rules have got a precedence, without counting pieces below the top. -/
  resolved : Nat := 0

namespace PrecedenceTable

/-- The precedence of the rightmost declared symbol of a word. -/
def rightmost? (table : PrecedenceTable) (word : List Symbol) : Option Precedence :=
  word.reverse.findSome? table.find?

end PrecedenceTable

namespace Grammar

variable {H : Type} [RuleHistory H]

def assignAt (precedence : Precedence) (rules : Array (Rule H)) (index : Nat) :
    Except GrammarError (Array (Rule H)) :=
  match rules[index]? with
  | none => .ok rules
  | some rule => do
      let history ← RuleHistory.setPrecedence rule.history precedence
      return rules.setIfInBounds index { rule with history }

/-- Resolves the precedence of the chain whose top is the given rule, unless the rule is inside a
chain or has a precedence. -/
def resolveRule (grammar : Grammar H) (chains : Chains H) (resolution : Resolution H)
    (item : Rule H × Nat) : Reported (Resolution H) := do
  let (rule, index) := item
  if chains.isChainSymbol rule.lhs || (RuleHistory.precedence rule.history).isSome then
    return resolution
  let fullRhs := chains.fullRhs index
  match grammar.declared.rightmost? fullRhs with
  | none => return resolution
  | some precedence =>
      .report (.inherited rule.lhs fullRhs precedence)
      let pieces := chains.pieces index
      let rules ← Reported.quiet (pieces.foldlM (assignAt precedence) resolution.rules)
      return { rules, resolved := resolution.resolved + 1 }

def resolvePrecedence (grammar : Grammar H) : Reported (Grammar H) := do
  let chains := Chains.ofRules grammar.rules
  let resolution ← Reported.fold (grammar.resolveRule chains)
    { rules := grammar.rules.toArray } grammar.rules.zipIdx
  .report (.resolved resolution.resolved)
  let stage :=
    if Stage.binarized ≤ grammar.stage then max grammar.stage .precedenceResolved
    else grammar.stage
  return grammar.afterPass grammar.supply resolution.rules.toList grammar.sequences stage

end Grammar

end TracedGrammar
