import TracedGrammar.History.Basic

/-!
# Rules

A rule lets the symbol on its left-hand side be replaced by the symbols on its right-hand side.  It
carries a history of what normalization did to it.
-/

namespace TracedGrammar

/-- A rule of a context-free grammar. -/
structure Rule (H : Type) where
  lhs : Symbol
  rhs : List Symbol
  history : H
deriving DecidableEq, Repr

namespace Rule

variable {H : Type}

/-- Whether the rule derives the empty word directly. -/
def isEmpty (rule : Rule H) : Bool :=
  rule.rhs.isEmpty

/-- Orders rules by their left-hand sides, then by their right-hand sides as in a dictionary. -/
def compareShapes (first second : Rule H) : Ordering :=
  (compare first.lhs second.lhs).then (List.compareLex compare first.rhs second.rhs)

end Rule

end TracedGrammar
