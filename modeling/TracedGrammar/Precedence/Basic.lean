import TracedGrammar.Text.Constructor

/-!
# Precedence and associativity

A precedence is a level together with an associativity.  Lower levels bind tighter.
-/

namespace TracedGrammar

/-- Which operand of an operator may be an operator of the same level. -/
inductive Associativity
  | left
  | right
  /-- Every operand is delimited, as by parentheses, and may be anything. -/
  | group
deriving DecidableEq, Repr

namespace Associativity

def describe : Associativity → String
  | .left => "Left"
  | .right => "Right"
  | .group => "Group"

end Associativity

/-- How tightly a rule binds, and to which side. -/
structure Precedence where
  level : Nat
  associativity : Associativity
deriving DecidableEq, Repr

namespace Precedence

def describe (precedence : Precedence) : String :=
  ConstructorText.labelled "Precedence"
    [("level", toString precedence.level), ("assoc", precedence.associativity.describe)]

end Precedence

end TracedGrammar
