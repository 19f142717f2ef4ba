import TracedGrammar.Proofs.Authoring.Commands

/-!
# What is added, and under which handle

Every addition of a rule or a sequence is known by its handle, also those that builders make.  Its
history is its own and refers to the handle, or it was supplied by hand.  Only the rules by which a
builder joins its tiers have a blank history.
-/

namespace TracedGrammar

/-- Where the history of what is added comes from. -/
inductive Source (H : Type)
  | own
  | supplied (history : H)
  /-- The rule joins two tiers, or the loosest one to its left-hand side. -/
  | link
deriving DecidableEq, Repr

def Source.ofGiven {H : Type} : Option H → Source H
  | none => .own
  | some history => .supplied history

/-- A rule or a sequence as it is added. -/
structure Addition (H : Type) where
  handle : Handle
  source : Source H
deriving DecidableEq, Repr

variable {H : Type} [RuleHistory H]

/-- The history that an addition starts with. -/
def Addition.history (addition : Addition H) : H :=
  match addition.source with
  | .own => RuleHistory.ofOrigin addition.handle
  | .supplied history => history
  | .link => RuleHistory.blank

/-- All that a builder adds with some calls, where it is known what it adds with one. -/
def additionsOf {Builder Call : Type} (perform : Builder → Call → Builder)
    (addition? : Builder → Call → Option (Addition H)) (builder : Builder) :
    List Call → List (Addition H)
  | [] => []
  | call :: calls =>
      (addition? builder call).toList ++ additionsOf perform addition? (perform builder call) calls

namespace RuleBuilder

def addition? (builder : RuleBuilder H) : Call H → Option (Addition H)
  | .alternative _ => some ⟨builder.grammar.nextRule, .ofGiven builder.pending⟩
  | .alternativeWith _ history => some ⟨builder.grammar.nextRule, .supplied history⟩
  | _ => none

end RuleBuilder

namespace SequenceBuilder

def addition? (builder : SequenceBuilder H) : Call H → Option (Addition H)
  | .item _ | .itemWithin _ _ => some ⟨builder.grammar.nextSequence, .ofGiven builder.pending⟩
  | .itemWith _ history => some ⟨builder.grammar.nextSequence, .supplied history⟩
  | _ => none

end SequenceBuilder

namespace TierBuilder

/-- What is added at once for an alternative.  A grouping alternative waits. -/
def placed? (builder : TierBuilder H) (given : Option H) : Option (Addition H) :=
  if builder.associativity = .group then none else some ⟨builder.grammar.nextRule, .ofGiven given⟩

def addition? (builder : TierBuilder H) : Call H → Option (Addition H)
  | .alternative _ => builder.placed? builder.pending
  | .alternativeWith _ history => builder.placed? (some history)
  | .lower => some ⟨builder.grammar.nextRule, .link⟩
  | _ => none

/-- What is added for an alternative that has been waiting. -/
def groupAddition? (builder : TierBuilder H) (alternative : GroupAlternative H) :
    Option (Addition H) :=
  some ⟨builder.grammar.nextRule, .ofGiven alternative.history⟩

def finalAdditions (builder : TierBuilder H) : List (Addition H) :=
  additionsOf addGroup groupAddition? { builder with groups := [] } builder.groups ++
    match builder.settle.conflict with
    | some _ => []
    | none => [⟨builder.settle.grammar.nextRule, .link⟩]

end TierBuilder

/-- All that a command adds, in order. -/
def Command.additions (grammar : Grammar H) : Command H → List (Addition H)
  | .rule _ _ => [⟨grammar.nextRule, .own⟩]
  | .ruleWith added => [⟨grammar.nextRule, .supplied added.history⟩]
  | .sequence _ _ => [⟨grammar.nextSequence, .own⟩]
  | .sequenceWith added => [⟨grammar.nextSequence, .supplied added.history⟩]
  | .rules lhs calls =>
      additionsOf RuleBuilder.perform RuleBuilder.addition? ⟨grammar, lhs, none⟩ calls
  | .sequences lhs calls =>
      additionsOf SequenceBuilder.perform SequenceBuilder.addition? { grammar, lhs } calls
  | .tiers lhs calls =>
      additionsOf TierBuilder.perform TierBuilder.addition? (.start grammar lhs) calls
  | .finishedTiers lhs calls =>
      additionsOf TierBuilder.perform TierBuilder.addition? (.start grammar lhs) calls ++
        ((TierBuilder.start grammar lhs).run calls).finalAdditions
  | _ => []

end TracedGrammar
