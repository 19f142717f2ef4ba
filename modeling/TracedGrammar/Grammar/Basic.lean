import TracedGrammar.Precedence.Table
import TracedGrammar.Sequence
import TracedGrammar.Symbol.Supply

/-!
# Grammars

A context-free grammar with sequence rules and declared precedence.  A grammar also knows how far it
has been normalized, and which of its rules were added by an author since the last pass and so have
a handle.
-/

namespace TracedGrammar

/-- A context-free grammar. -/
structure Grammar (H : Type) where
  supply : SymbolSupply := .empty
  rules : List (Rule H) := []
  sequences : List (Sequence H) := []
  declared : PrecedenceTable := .empty
  stage : Stage := .authored
  /-- Rules below this index were made by a pass and have no handle. -/
  authoredFrom : Nat := 0
  sequencesConsumed : Nat := 0
deriving DecidableEq

namespace Grammar

variable {H : Type}

def fresh (grammar : Grammar H) : Symbol × Grammar H :=
  (grammar.supply.fresh.1, { grammar with supply := grammar.supply.fresh.2 })

def freshList (grammar : Grammar H) (count : Nat) : List Symbol × Grammar H :=
  ((grammar.supply.freshList count).1,
    { grammar with supply := (grammar.supply.freshList count).2 })

/-- Sorts the rules by their shapes.  Rules of the same shape stay in order. -/
def sort (grammar : Grammar H) : Grammar H :=
  { grammar with
    rules := grammar.rules.mergeSort fun first second => (first.compareShapes second).isLE }

/-- The grammar that a pass makes of `grammar`.  Declarations stay.  What the pass has worked on
loses its handle. -/
def afterPass (grammar : Grammar H) (supply : SymbolSupply) (rules : List (Rule H))
    (sequences : List (Sequence H)) (stage : Stage) : Grammar H :=
  { supply
    rules
    sequences
    declared := grammar.declared
    stage
    authoredFrom := if stage = .authored then grammar.authoredFrom else rules.length
    sequencesConsumed :=
      grammar.sequencesConsumed + (grammar.sequences.length - sequences.length) }

end Grammar

end TracedGrammar
