import TracedGrammar.Handle
import TracedGrammar.Precedence.Basic
import TracedGrammar.Stage

/-!
# What can be wrong with a grammar

Every failure of an authoring operation or of a pass is a mistake in the grammar or a limit that it
exceeds, and carries the values that disagree.
-/

namespace TracedGrammar

/-- The causes of failure. -/
inductive GrammarError
  | duplicateAction (existing new : Action)
  | precedenceConflict (existing new : Precedence)
  | emptyRange (least most : Nat)
  | tooLarge (limit attempted : Nat)
  | wrongStage (operation : Operation) (stage : Stage)
  | unknownHandle (handle : Handle)
deriving DecidableEq, Repr

namespace GrammarError

def message : GrammarError → String
  | .duplicateAction existing new =>
      "rule already carries action " ++ existing.display ++ ", cannot assign action " ++ new.display
  | .precedenceConflict existing new =>
      "rule already has precedence " ++ existing.describe ++ ", cannot assign " ++ new.describe
  | .emptyRange least most =>
      "invalid repetition range: maximum " ++ toString most ++ " is less than minimum " ++
        toString least
  | .tooLarge limit attempted =>
      "grammar too large: " ++ toString attempted ++ " exceeds the limit of " ++ toString limit
  | .wrongStage operation stage =>
      operation.describe ++ " cannot run on a grammar at stage " ++ stage.describe
  | .unknownHandle handle =>
      "no rule for handle " ++ handle.describe

def kind : GrammarError → String
  | .duplicateAction .. => "DuplicateAction"
  | .precedenceConflict .. => "PrecedenceConflict"
  | .emptyRange .. => "InvalidRepetitionRange"
  | .tooLarge .. => "GrammarTooLarge"
  | .wrongStage .. => "PassOrder"
  | .unknownHandle .. => "UnknownRule"

def describe (failure : GrammarError) : String :=
  match failure with
  | .duplicateAction existing new =>
      ConstructorText.labelled failure.kind
        [("existing", existing.describe), ("new", new.describe)]
  | .precedenceConflict existing new =>
      ConstructorText.labelled failure.kind
        [("existing", existing.describe), ("new", new.describe)]
  | .emptyRange least most =>
      ConstructorText.labelled failure.kind [("min", toString least), ("max", toString most)]
  | .tooLarge limit attempted =>
      ConstructorText.labelled failure.kind
        [("limit", toString limit), ("attempted", toString attempted)]
  | .wrongStage operation stage =>
      ConstructorText.labelled failure.kind
        [("pass", operation.describe), ("stage", stage.describe)]
  | .unknownHandle handle =>
      ConstructorText.applied failure.kind [handle.describe]

end GrammarError

/-- Gives a value to a slot that takes only one: to give the same value again is allowed, and to
give another one is a conflict. -/
def assignOnce {α : Type} [DecidableEq α] (conflict : α → α → GrammarError) :
    Option α → α → Except GrammarError α
  | none, new => .ok new
  | some existing, new => if existing = new then .ok new else .error (conflict existing new)

theorem assignOnce_eq_ok_iff {α : Type} [DecidableEq α] {conflict : α → α → GrammarError}
    {slot : Option α} {new result : α} :
    assignOnce conflict slot new = .ok result ↔
      result = new ∧ ∀ existing, slot = some existing → existing = new := by
  cases slot with
  | none => simp [assignOnce, eq_comm]
  | some existing =>
      by_cases same : existing = new
      · simp [assignOnce, same, eq_comm]
      · simp [assignOnce, same]

end TracedGrammar
