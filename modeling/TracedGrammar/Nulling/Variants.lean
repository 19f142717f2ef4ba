import TracedGrammar.Limits
import TracedGrammar.Rule
import TracedGrammar.Symbol.Set
import Std.Data.HashMap

/-!
# Variants of a rule without nullable symbols

A rule with `k` nullable symbols on its right-hand side has a variant for every choice of some of
them to leave out.  A choice is a number below `2 ^ k`, whose lowest bit stands for the leftmost
nullable symbol, and variants come in the order of their choices.  Choices that leave the same
right-hand side are counted as alternatives of the first.  The empty right-hand side is a variant
only when all symbols were nullable.
-/

namespace TracedGrammar

/-- The positions of symbols of a set on a right-hand side. -/
def SymbolSet.positionsIn (set : SymbolSet) (rhs : List Symbol) : List Nat :=
  (rhs.zipIdx.filter fun item => set.contains item.1).map Prod.snd

/-- The union of the sets that a choice picks, the first by the lowest bit. -/
def chosenUnion : List PositionSet → Nat → PositionSet
  | [], _ => .empty
  | positions :: others, choice =>
      if choice % 2 = 1 then
        positions.union (chosenUnion others (choice / 2))
      else
        chosenUnion others (choice / 2)

structure VariantTable where
  /-- The different right-hand sides in the order they were found, with what the first choice for
  each leaves out. -/
  found : Array (List Symbol × PositionSet)
  alternatives : Std.HashMap (List Symbol) UInt32

namespace VariantTable

def empty : VariantTable :=
  ⟨#[], ∅⟩

/-- Counts a choice.  A new right-hand side has to be accepted by its place among the variants. -/
def add (table : VariantTable) (accept : Nat → Except GrammarError Unit) (rhs : List Symbol)
    (elided : PositionSet) : Except GrammarError VariantTable :=
  match table.alternatives[rhs]? with
  | some count => .ok { table with alternatives := table.alternatives.insert rhs (count + 1) }
  | none => do
      accept (table.found.size + 1)
      return { found := table.found.push (rhs, elided)
               alternatives := table.alternatives.insert rhs 1 }

def elisions (table : VariantTable) (lengthBefore : Nat) : List (List Symbol × Elision) :=
  table.found.toList.map fun (rhs, elided) =>
    (rhs, ⟨elided, lengthBefore, table.alternatives.getD rhs 0⟩)

/-- Counts the last `remaining` of the choices of something to leave out. -/
def collect (accept : Nat → Except GrammarError Unit) (rhs : List Symbol) (keepsEmpty : Bool)
    (singletons : List PositionSet) (choices : Nat) :
    (remaining : Nat) → VariantTable → Except GrammarError VariantTable
  | 0, table => .ok table
  | remaining + 1, table =>
      let elided := chosenUnion singletons (choices - (remaining + 1))
      let rest := elided.removeFrom 0 rhs
      if rest.isEmpty && !keepsEmpty then
        collect accept rhs keepsEmpty singletons choices remaining table
      else
        match table.add accept rest elided with
        | .error failure => .error failure
        | .ok next => collect accept rhs keepsEmpty singletons choices remaining next

/-- Counts all choices among some positions of a right-hand side.  To leave out everything is a
choice only when all positions are among them. -/
def ofPositions (accept : Nat → Except GrammarError Unit) (rhs : List Symbol)
    (positions : List Nat) : Except GrammarError VariantTable :=
  let choices := 1 <<< positions.length
  collect accept rhs (positions.length == rhs.length) (positions.map PositionSet.empty.insert)
    choices choices empty

end VariantTable

namespace Limits

/-- Accepts the positions of nullable symbols unless they are too many or too far to the right. -/
def checkPositions (limits : Limits) (positions : List Nat) : Except GrammarError Unit :=
  if limits.nullablePositions < positions.length then
    .error (.tooLarge limits.nullablePositions positions.length)
  else
    match positions.getLast? with
    | none => .ok ()
    | some last =>
        if PositionSet.capacity ≤ last then
          .error (.tooLarge PositionSet.capacity (last + 1))
        else if PositionSet.capacity ≤ positions.length then
          .error (.tooLarge (PositionSet.capacity - 1) positions.length)
        else
          .ok ()

end Limits

namespace Rule

variable {H : Type} [RuleHistory H]

/-- Whether symbols may be left out of the rule. -/
def admitsElision (rule : Rule H) : Bool :=
  (RuleHistory.elide rule.history ⟨.empty, rule.rhs.length, 1⟩).isSome

def variant (rule : Rule H) (rhs : List Symbol) (elision : Elision) : Rule H :=
  { rule with rhs, history := (RuleHistory.elide rule.history elision).getD rule.history }

/-- The variants of a rule, when symbols of the set are nullable.  Fails as soon as there are too
many together with the rules produced before.  A rule that does not accept elision is kept. -/
def variants (rule : Rule H) (nullable : SymbolSet) (limits : Limits) (produced : Nat) :
    Except GrammarError (List (Rule H)) :=
  if rule.admitsElision then do
    let positions := nullable.positionsIn rule.rhs
    limits.checkPositions positions
    let table ← VariantTable.ofPositions (fun count => limits.checkRules (produced + count))
      rule.rhs positions
    return (table.elisions rule.rhs.length).map fun (rhs, elision) => rule.variant rhs elision
  else do
    limits.checkRules (produced + 1)
    return [rule]

/-- The variants of a rule by itself, with a limit on nullable positions only. -/
def eliminateNulling (rule : Rule H) (nullable : SymbolSet) (maxPositions : Nat) :
    Except GrammarError (List (Rule H)) :=
  rule.variants nullable { rules := none, nullablePositions := maxPositions } 0

end Rule

end TracedGrammar
