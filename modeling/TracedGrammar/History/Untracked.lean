import TracedGrammar.History.Basic

/-!
# Histories that record nothing

Rules without a record are never split and no symbols are elided from them, because it could not be
told afterwards what they were before.
-/

namespace TracedGrammar

/-- A history that carries no data. -/
structure Untracked where
deriving DecidableEq, Repr

namespace Untracked

instance : RuleHistory Untracked where
  blank := {}
  ofOrigin _ := {}
  origin _ := none
  action _ := none
  setAction history _ := .ok history
  invokesAction _ := true
  precedence _ := none
  setPrecedence history _ := .ok history
  chainPiece _ := none
  split _ _ := none
  elision _ := none
  elide _ _ := none
  unrolling _ := none
  unroll history _ := history

end Untracked

end TracedGrammar
