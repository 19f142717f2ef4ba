import TracedGrammar.History.Basic

/-!
# Histories that record everything

Each pass has a slot of its own, so what one pass recorded is still there after the others.  Among
the rules that come from one rule as written, only some invoke its action: the top piece of a chain,
and the rules of an expanded sequence that a derivation applies exactly once.
-/

namespace TracedGrammar

/-- A history with a slot for everything that can be recorded. -/
structure History where
  origin : Option Handle := none
  action : Option Action := none
  precedence : Option Precedence := none
  chainPiece : Option ChainPiece := none
  elision : Option Elision := none
  unrolling : Option Unrolling := none
  actionSite : Bool := true
deriving DecidableEq, Repr

namespace History

/-- Whether no pass has made this rule from another. -/
def isAuthored (history : History) : Bool :=
  history.chainPiece.isNone && history.elision.isNone && history.unrolling.isNone

def setAction (history : History) (action : Action) : Except GrammarError History := do
  let action ← assignOnce .duplicateAction history.action action
  return { history with action := some action }

def setPrecedence (history : History) (precedence : Precedence) : Except GrammarError History := do
  let precedence ← assignOnce .precedenceConflict history.precedence precedence
  return { history with precedence := some precedence }

/-- Records a split.  Only the top piece still invokes the action. -/
def split (history : History) (piece : ChainPiece) : History :=
  { history with
    chainPiece := some piece
    actionSite := history.actionSite && piece.isTop }

/-- Records which variant a rule is, once. -/
def elide (history : History) (elision : Elision) : Option History :=
  match history.elision with
  | none => some { history with elision := some elision }
  | some _ => none

/-- Records the expansion of a sequence.  Only rules that a derivation applies exactly once still
invoke the action. -/
def unroll (history : History) (unrolling : Unrolling) : History :=
  { history with
    unrolling := some unrolling
    actionSite := history.actionSite && unrolling.isActionSite }

instance : RuleHistory History where
  blank := {}
  ofOrigin handle := { origin := some handle }
  origin := History.origin
  action := History.action
  setAction := setAction
  invokesAction := actionSite
  precedence := History.precedence
  setPrecedence := setPrecedence
  chainPiece := History.chainPiece
  split history piece := some (history.split piece)
  elision := History.elision
  elide := elide
  unrolling := History.unrolling
  unroll := unroll

end History

end TracedGrammar
