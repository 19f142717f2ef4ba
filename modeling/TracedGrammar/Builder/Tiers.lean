import TracedGrammar.Builder.Plain

/-!
# Building rules in tiers of precedence

Alternatives of one left-hand side, such as the operators of an expression, are given in tiers, the
tightest first.  Every tier gets a symbol, and a rule lets it stand for the next tighter one.  In an
alternative, the left-hand side is replaced by tier symbols: the operand on the side of the
associativity may be of the same tier, and all others have to be tighter.  Operands of a grouping
alternative may be of any tier, so those wait until the loosest tier is known.
-/

namespace TracedGrammar

/-- An alternative whose operands may be of any tier. -/
structure GroupAlternative (H : Type) where
  lhs : Symbol
  rhs : List Symbol
  history : Option H
  precedence : Precedence

/-- A builder of rules in tiers, with the grammar it adds them to. -/
structure TierBuilder (H : Type) where
  grammar : Grammar H
  lhs : Symbol
  /-- The symbol of the next tighter tier, or of the tightest one while that is built. -/
  tighter : Symbol
  current : Symbol
  pending : Option H := none
  associativity : Associativity := .left
  level : Nat := 0
  groups : List (GroupAlternative H) := []
  conflict : Option GrammarError := none

namespace TierBuilder

variable {H : Type}

def start (grammar : Grammar H) (lhs : Symbol) : TierBuilder H :=
  let (tightest, grammar) := grammar.fresh
  { grammar, lhs, tighter := tightest, current := tightest }

/-- Replaces the first occurrence of a symbol in one way and the later ones in another. -/
def replaceFirst (symbol first others : Symbol) : List Symbol → List Symbol
  | [] => []
  | head :: word =>
      if head = symbol then
        first :: word.map fun later => if later = symbol then others else later
      else
        head :: replaceFirst symbol first others word

def replaceLast (symbol last others : Symbol) (word : List Symbol) : List Symbol :=
  (replaceFirst symbol last others word.reverse).reverse

def precedence (builder : TierBuilder H) : Precedence :=
  ⟨builder.level, builder.associativity⟩

variable [RuleHistory H]

/-- Adds a rule with a precedence.  When its history has another one the rule is added with the
history as it is, and the conflict is remembered. -/
def addRule (builder : TierBuilder H) (lhs : Symbol) (rhs : List Symbol) (history : Option H)
    (precedence : Precedence) : TierBuilder H :=
  let history := history.getD (RuleHistory.ofOrigin builder.grammar.nextRule)
  match RuleHistory.setPrecedence history precedence with
  | .ok assigned => { builder with grammar := (builder.grammar.addRule ⟨lhs, rhs, assigned⟩).2 }
  | .error conflict =>
      { builder with
        grammar := (builder.grammar.addRule ⟨lhs, rhs, history⟩).2
        conflict := builder.conflict <|> some conflict }

/-- Adds an alternative to the current tier, as far as that can be done now. -/
def place (builder : TierBuilder H) (rhs : List Symbol) (history : Option H) : TierBuilder H :=
  match builder.associativity with
  | .left =>
      builder.addRule builder.current
        (replaceFirst builder.lhs builder.current builder.tighter rhs) history builder.precedence
  | .right =>
      builder.addRule builder.current
        (replaceLast builder.lhs builder.current builder.tighter rhs) history builder.precedence
  | .group =>
      let alternative := ⟨builder.current, rhs, history, builder.precedence⟩
      { builder with groups := builder.groups ++ [alternative] }

/-- Adds an alternative.  The next one associates to the left again and has no history. -/
def add (builder : TierBuilder H) (rhs : List Symbol) (history : Option H) : TierBuilder H :=
  { builder.place rhs history with associativity := .left, pending := none }

def lower (builder : TierBuilder H) : TierBuilder H :=
  let (looser, grammar) := builder.grammar.fresh
  let grammar := (grammar.addRule ⟨looser, [builder.current], RuleHistory.blank⟩).2
  { builder with
    grammar
    tighter := builder.current
    current := looser
    level := builder.level + 1 }

def addGroup (builder : TierBuilder H) (alternative : GroupAlternative H) : TierBuilder H :=
  builder.addRule alternative.lhs
    (alternative.rhs.map fun symbol => if symbol = builder.lhs then builder.current else symbol)
    alternative.history alternative.precedence

def settle (builder : TierBuilder H) : TierBuilder H :=
  builder.groups.foldl addGroup { builder with groups := [] }

/-- Finishes the tiers and goes on with plain rules, unless there was a conflict.  The alternatives
that were waiting are in the grammar in either case. -/
def finalize (builder : TierBuilder H) : Grammar H × Except GrammarError (RuleBuilder H) :=
  let settled := builder.settle
  match settled.conflict with
  | some conflict => (settled.grammar, .error conflict)
  | none =>
      let plain : RuleBuilder H := { grammar := settled.grammar, lhs := settled.lhs }
      let next := plain.addWith [settled.current] RuleHistory.blank
      (next.grammar, .ok next)

inductive Call (H : Type)
  | history (history : H)
  | alternative (rhs : List Symbol)
  | alternativeWith (rhs : List Symbol) (history : H)
  | associate (associativity : Associativity)
  | lower

def perform (builder : TierBuilder H) : Call H → TierBuilder H
  | .history history => { builder with pending := some history }
  | .alternative rhs => builder.add rhs builder.pending
  | .alternativeWith rhs history => builder.add rhs (some history)
  | .associate associativity => { builder with associativity }
  | .lower => builder.lower

def run (builder : TierBuilder H) (calls : List (Call H)) : TierBuilder H :=
  calls.foldl perform builder

end TierBuilder

end TracedGrammar
