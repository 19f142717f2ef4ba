import TracedGrammar.GrammarError
import TracedGrammar.History.PositionSet
import TracedGrammar.Repetition.Basic

/-!
# Histories of rules

Every rule carries a history, and each pass records there what it did to the rule, so that a
derivation by the normalized grammar can be read as one by the grammar as written.  This module says
what passes record, and what a type of histories has to offer.
-/

namespace TracedGrammar

/-- Which part of a long right-hand side a piece of its chain holds. -/
inductive ChainPart
  | left
  /-- A piece above the bottom: one symbol, counted from the end, after the symbol of the piece
  below. -/
  | right
  | whole
deriving DecidableEq, Repr

/-- What binarization records: which piece of a chain a rule is.  Both numbers have 32 bits, which is
enough for right-hand sides shorter than `2 ^ 32`. -/
structure ChainPiece where
  part : ChainPart
  /-- How many pieces of the chain are above this one. -/
  depth : Nat
  fullLength : Nat
deriving DecidableEq, Repr

namespace ChainPiece

def isTop (piece : ChainPiece) : Bool :=
  piece.depth == 0

end ChainPiece

/-- What nulling elimination records: which variant of a rule this is. -/
structure Elision where
  elided : PositionSet
  /-- The length has 32 bits, like those of chains. -/
  lengthBefore : Nat
  /-- How many sets of positions leave the same right-hand side.  The count has 32 bits. -/
  alternatives : UInt32
deriving DecidableEq, Repr

/-- What the expansion of a sequence records: which of its rules this is. -/
structure Unrolling where
  item : Symbol
  separator : Separator
  top : Bool
  /-- Whether the rule is a step of an unbounded repetition, which a derivation may apply any number
  of times. -/
  recursive : Bool
deriving DecidableEq, Repr

namespace Unrolling

/-- Whether a derivation of the sequence applies the rule exactly once. -/
def isActionSite (unrolling : Unrolling) : Bool :=
  unrolling.top && !unrolling.recursive

end Unrolling

/-- A type of histories: what can be asked of a history, and how it changes. -/
class RuleHistory (H : Type) where
  blank : H
  ofOrigin : Handle → H
  origin : H → Option Handle
  action : H → Option Action
  setAction : H → Action → Except GrammarError H
  invokesAction : H → Bool
  precedence : H → Option Precedence
  setPrecedence : H → Precedence → Except GrammarError H
  chainPiece : H → Option ChainPiece
  /-- The history of one piece of the rule, unless the rule is not to be split. -/
  split : H → ChainPiece → Option H
  elision : H → Option Elision
  /-- The history of one variant of the rule, unless the rule is to be kept as it is. -/
  elide : H → Elision → Option H
  unrolling : H → Option Unrolling
  unroll : H → Unrolling → H

end TracedGrammar
