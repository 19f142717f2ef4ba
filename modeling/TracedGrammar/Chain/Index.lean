import TracedGrammar.Grammar.Basic
import Std.Data.HashMap

/-!
# Following chains

The pieces of a split rule are found again by the symbols that connect them.  From the top of a
chain the whole right-hand side is read back, and for each of its symbols the position it had before
nullable symbols were left out.
-/

namespace TracedGrammar

/-- The rules of a grammar with the pieces below the tops of chains by the symbols they define. -/
structure Chains (H : Type) where
  rules : Array (Rule H)
  /-- The index of the piece that defines a symbol inside a chain.  Of several the last counts. -/
  below : Std.HashMap Symbol Nat

namespace Rule

variable {H : Type} [RuleHistory H]

def isBelowTop (rule : Rule H) : Bool :=
  (RuleHistory.chainPiece rule.history).any fun piece => !piece.isTop

def continuesBelow (rule : Rule H) : Bool :=
  (RuleHistory.chainPiece rule.history).any fun piece => piece.part == .right

/-- What the rule contributes to the right-hand side of its chain. -/
def contribution (rule : Rule H) : List Symbol :=
  if rule.continuesBelow then rule.rhs[1]?.toList else rule.rhs

end Rule

namespace Chains

variable {H : Type}

def isChainSymbol (chains : Chains H) (symbol : Symbol) : Bool :=
  chains.below.contains symbol

variable [RuleHistory H]

def enter (below : Std.HashMap Symbol Nat) (item : Rule H × Nat) : Std.HashMap Symbol Nat :=
  if item.1.isBelowTop then below.insert item.1.lhs item.2 else below

def ofRules (rules : List (Rule H)) : Chains H :=
  { rules := rules.toArray
    below := rules.zipIdx.foldl enter ∅ }

def next? (chains : Chains H) (index : Nat) : Option Nat :=
  match chains.rules[index]? with
  | none => none
  | some rule =>
      if rule.continuesBelow then
        (rule.rhs.head?.bind fun symbol => chains.below[symbol]?).filter (· != index)
      else
        none

def walk (chains : Chains H) : (bound : Nat) → (index : Nat) → List Nat
  | 0, _ => []
  | bound + 1, index =>
      index :: match chains.next? index with
        | none => []
        | some below => chains.walk bound below

/-- The indices of the pieces of the chain with the given top, the top first.  A chain has no more
pieces than there are rules. -/
def pieces (chains : Chains H) (top : Nat) : List Nat :=
  if top < chains.rules.size then chains.walk chains.rules.size top else []

/-- The right-hand side that the chain with the given top had before it was split. -/
def fullRhs (chains : Chains H) (top : Nat) : List Symbol :=
  (chains.pieces top).reverse.flatMap fun index =>
    (chains.rules[index]?.map Rule.contribution).getD []

/-- For each symbol of the full right-hand side, its position before symbols were left out. -/
def positionsBefore (chains : Chains H) (top : Nat) : List Nat :=
  match chains.rules[top]?.bind fun rule => RuleHistory.elision rule.history with
  | some elision => elision.elided.retained elision.lengthBefore
  | none => List.range (chains.fullRhs top).length

end Chains

end TracedGrammar
