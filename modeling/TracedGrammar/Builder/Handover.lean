import TracedGrammar.Builder.Sequence
import TracedGrammar.Builder.Tiers

/-!
# Builders that hand over to each other

A builder of rules can go on with tiers, and finished tiers go on with plain rules.  What is written on
the way is in one grammar.
-/

namespace TracedGrammar

/-- The builder that is at work, or the grammar that one with a conflict has left. -/
inductive Builder (H : Type)
  | rules (builder : RuleBuilder H)
  | sequences (builder : SequenceBuilder H)
  | tiers (builder : TierBuilder H)
  | failed (grammar : Grammar H) (conflict : GrammarError)

namespace Builder

variable {H : Type}

/-- What builders can be told, a change to tiers and back included. -/
inductive Call (H : Type)
  | rule (call : RuleBuilder.Call H)
  | sequence (call : SequenceBuilder.Call H)
  | tier (call : TierBuilder.Call H)
  | startTiers (lhs : Symbol)
  | finalize

def grammar : Builder H → Grammar H
  | .rules builder => builder.grammar
  | .sequences builder => builder.grammar
  | .tiers builder => builder.grammar
  | .failed grammar _ => grammar

/-- How a builder can be made for a left-hand side. -/
inductive Kind
  | rules
  | sequences
  | tiers

def start (grammar : Grammar H) (lhs : Symbol) : Kind → Builder H
  | .rules => .rules { grammar, lhs }
  | .sequences => .sequences { grammar, lhs }
  | .tiers => .tiers (.start grammar lhs)

variable [RuleHistory H]

/-- Performs a call, if the builder at work can be told it. -/
def perform? : Builder H → Call H → Option (Builder H)
  | .rules builder, .rule call => some (.rules (builder.perform call))
  | .rules builder, .startTiers lhs => some (.tiers (.start builder.grammar lhs))
  | .sequences builder, .sequence call => some (.sequences (builder.perform call))
  | .tiers builder, .tier call => some (.tiers (builder.perform call))
  | .tiers builder, .finalize =>
      match builder.finalize with
      | (_, .ok next) => some (.rules next)
      | (grammar, .error conflict) => some (.failed grammar conflict)
  | _, _ => none

def run? (builder : Builder H) (calls : List (Call H)) : Option (Builder H) :=
  calls.foldlM perform? builder

end Builder

end TracedGrammar
