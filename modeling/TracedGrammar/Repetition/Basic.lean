import TracedGrammar.GrammarError
import TracedGrammar.Repetition.Separator
import TracedGrammar.Repetition.Range

/-!
# Repetitions

A repetition stands for the words that consist of an item a number of times, with separators.  It
is the body of a sequence, without the symbol it defines.
-/

namespace TracedGrammar

/-- An item repeated between `least` and `most` times. -/
structure Repetition where
  item : Symbol
  least : Nat := 0
  most : Option Nat := none
  separator : Separator := .absent
deriving DecidableEq, Repr

namespace Repetition

def between (repetition : Repetition) (least : Nat) (most : Option Nat) : Repetition :=
  { repetition with least, most }

def exactly (repetition : Repetition) (count : Nat) : Repetition :=
  repetition.between count (some count)

def within (repetition : Repetition) (range : CountRange) : Repetition :=
  repetition.between range.extremes.1 range.extremes.2

def separatedBy (repetition : Repetition) (separator : Separator) : Repetition :=
  { repetition with separator }

/-- Accepts a repetition unless its greatest number of items is below its least. -/
def validate (repetition : Repetition) : Except GrammarError Unit :=
  match repetition.most with
  | none => .ok ()
  | some most =>
      if repetition.least ≤ most then .ok () else .error (.emptyRange repetition.least most)

def Allows (repetition : Repetition) (count : Nat) : Prop :=
  repetition.least ≤ count ∧ ∀ most, repetition.most = some most → count ≤ most

/-- A repetition in messages, without its separator. -/
def describeRange (repetition : Repetition) : String :=
  repetition.item.describe ++ "\x7b" ++ toString repetition.least ++ ", " ++
    ConstructorText.optional (repetition.most.map toString) ++ "\x7d"

end Repetition

end TracedGrammar
