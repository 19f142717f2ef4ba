import TracedGrammar.Text.Constructor

/-!
# Handles and actions

Adding a rule to a grammar gives a handle, by which its author can attach a semantic action to it.
Plain rules and sequence rules are numbered apart.
-/

namespace TracedGrammar

/-- A semantic action, known by its number. -/
structure Action where
  number : Nat
deriving DecidableEq, Repr

namespace Action

instance : Ord Action :=
  ⟨fun first second => compare first.number second.number⟩

def display (action : Action) : String :=
  "#" ++ toString action.number

def describe (action : Action) : String :=
  ConstructorText.applied "ActionId" [toString action.number]

end Action

/-- What an author gets for adding a rule or a sequence to a grammar. -/
inductive Handle
  | rule (index : Nat)
  | sequence (index : Nat)
deriving DecidableEq, Repr

namespace Handle

/-- Handles of rules come before handles of sequences. -/
instance : Ord Handle where
  compare
    | .rule first, .rule second => compare first second
    | .rule _, .sequence _ => .lt
    | .sequence _, .rule _ => .gt
    | .sequence first, .sequence second => compare first second

def describe : Handle → String
  | .rule index => ConstructorText.applied "Rule" [toString index]
  | .sequence index => ConstructorText.applied "Sequence" [toString index]

end Handle

end TracedGrammar
