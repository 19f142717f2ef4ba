import TracedGrammar.Rule
import TracedGrammar.Symbol.Supply

/-!
# Splitting a rule into a chain

A rule with more than two symbols on its right-hand side becomes a chain of rules with two.  The top
piece keeps the left-hand side and the last symbol, each piece below defines the symbol that the one
above starts with, and the bottom piece holds the first two symbols.  So
`lhs ::= a b c d` becomes

* `lhs ::= first d`
* `first ::= second c`
* `second ::= a b`
-/

namespace TracedGrammar

structure ChainRule where
  lhs : Symbol
  rhs : List Symbol
  piece : ChainPiece
deriving DecidableEq, Repr

namespace ChainRule

/-- The chain that defines `lhs`, from a depth downwards, for what is left, in reverse, of a
right-hand side of the given length. -/
def chain (fullLength : Nat) (lhs : Symbol) (depth : Nat) (supply : SymbolSupply) :
    List Symbol → List ChainRule × SymbolSupply
  | last :: third :: second :: rest =>
      let (helper, afterHelper) := supply.fresh
      let (below, afterChain) :=
        chain fullLength helper (depth + 1) afterHelper (third :: second :: rest)
      ({ lhs, rhs := [helper, last], piece := ⟨.right, depth, fullLength⟩ } :: below, afterChain)
  | ends => ([{ lhs, rhs := ends.reverse, piece := ⟨.left, depth, fullLength⟩ }], supply)

end ChainRule

namespace Rule

variable {H : Type} [RuleHistory H]

def admitsSplit (rule : Rule H) : Bool :=
  2 < rule.rhs.length && (RuleHistory.split rule.history ⟨.right, 0, rule.rhs.length⟩).isSome

def piece (rule : Rule H) (link : ChainRule) : Rule H :=
  { lhs := link.lhs
    rhs := link.rhs
    history := (RuleHistory.split rule.history link.piece).getD rule.history }

/-- The pieces of a rule, the top first, and which part of the rule each of them holds.  A rule that
is short enough or must not be split is kept whole. -/
def binarize (rule : Rule H) (supply : SymbolSupply) :
    List (Rule H × ChainPart) × SymbolSupply :=
  if rule.admitsSplit then
    let (links, rest) := ChainRule.chain rule.rhs.length rule.lhs 0 supply rule.rhs.reverse
    (links.map fun link => (rule.piece link, link.piece.part), rest)
  else
    ([(rule, .whole)], supply)

end Rule

end TracedGrammar
