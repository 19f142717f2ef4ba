import TracedGrammar.Grammar.Authoring

/-!
# Building rules

A rule builder adds alternatives for one left-hand side after the other.  A history that was given
in advance goes to the next alternative that comes without one.
-/

namespace TracedGrammar

/-- A builder of rules, with the grammar it adds them to. -/
structure RuleBuilder (H : Type) where
  grammar : Grammar H
  lhs : Symbol
  pending : Option H := none

namespace RuleBuilder

variable {H : Type}

/-- What a rule builder can be told. -/
inductive Call (H : Type)
  | rule (lhs : Symbol)
  | history (history : H)
  | alternative (rhs : List Symbol)
  | alternativeWith (rhs : List Symbol) (history : H)

def addWith (builder : RuleBuilder H) (rhs : List Symbol) (history : H) : RuleBuilder H :=
  { builder with grammar := (builder.grammar.addRule ⟨builder.lhs, rhs, history⟩).2 }

variable [RuleHistory H]

def add (builder : RuleBuilder H) (rhs : List Symbol) : RuleBuilder H :=
  match builder.pending with
  | some history => { builder with pending := none }.addWith rhs history
  | none => { builder with grammar := (builder.grammar.writeRule builder.lhs rhs).2 }

def perform (builder : RuleBuilder H) : Call H → RuleBuilder H
  | .rule lhs => { builder with lhs, pending := none }
  | .history history => { builder with pending := some history }
  | .alternative rhs => builder.add rhs
  | .alternativeWith rhs history => builder.addWith rhs history

def run (builder : RuleBuilder H) (calls : List (Call H)) : RuleBuilder H :=
  calls.foldl perform builder

end RuleBuilder

end TracedGrammar
