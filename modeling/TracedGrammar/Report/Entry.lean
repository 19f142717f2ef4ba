import TracedGrammar.Repetition.Basic

/-!
# What passes report

A pass reports what it does with single rules and sequences, and how much it has done when it is
through.
-/

namespace TracedGrammar

inductive Verbosity
  | debug
  | trace
deriving DecidableEq, Repr

namespace Verbosity

def describe : Verbosity → String
  | .debug => "DEBUG"
  | .trace => "TRACE"

end Verbosity

/-- An entry of the report of a pass. -/
inductive LogEntry
  | normalizing (rules sequences : Nat) (stage : Stage)
  | sequence (lhs : Symbol) (repetition : Repetition)
  | expanded (sequences rules : Nat)
  | elided (lhs : Symbol) (rhs : List Symbol) (variants : Nat)
  | eliminated (before after : Nat)
  | split (lhs : Symbol) (rhs : List Symbol) (pieces : List (Symbol × List Symbol))
  | binarized (before after : Nat)
  | inherited (lhs : Symbol) (rhs : List Symbol) (precedence : Precedence)
  | resolved (rules : Nat)
deriving DecidableEq, Repr

namespace LogEntry

def verbosity : LogEntry → Verbosity
  | .normalizing .. => .debug
  | .sequence .. => .trace
  | .expanded .. => .debug
  | .elided .. => .trace
  | .eliminated .. => .debug
  | .split .. => .trace
  | .binarized .. => .debug
  | .inherited .. => .trace
  | .resolved .. => .debug

def describeShape (lhs : Symbol) (rhs : List Symbol) : String :=
  lhs.describe ++ " ::= " ++ Symbol.describeList rhs

def text : LogEntry → String
  | .normalizing rules sequences stage =>
      "normalizing " ++ toString rules ++ " rules and " ++ toString sequences ++
        " sequences at stage " ++ stage.describe
  | .sequence lhs repetition =>
      "SEQUENCE " ++ lhs.describe ++ " ::= " ++ repetition.describeRange ++ " " ++
        repetition.separator.describe
  | .expanded sequences rules =>
      "expanded " ++ toString sequences ++ " sequence rules into " ++ toString rules ++ " rules"
  | .elided lhs rhs variants =>
      "ELIMINATE NULLING " ++ describeShape lhs rhs ++ " into " ++ toString variants ++ " variants"
  | .eliminated before after =>
      "eliminated nulling symbols: " ++ toString before ++ " rules in, " ++ toString after ++
        " rules out"
  | .split lhs rhs pieces =>
      let written := pieces.map fun (lhs, rhs) =>
        ConstructorText.paired lhs.describe (Symbol.describeList rhs)
      "BINARIZE " ++ describeShape lhs rhs ++ " into " ++ ConstructorText.listed written
  | .binarized before after =>
      "binarized: " ++ toString before ++ " rules in, " ++ toString after ++ " rules out"
  | .inherited lhs rhs precedence =>
      "PRECEDENCE " ++ describeShape lhs rhs ++ " gets " ++ precedence.describe
  | .resolved rules => "resolved precedence of " ++ toString rules ++ " rules"

/-- An entry as a line: its level and its text. -/
def line (entry : LogEntry) : String :=
  entry.verbosity.describe ++ " " ++ entry.text

end LogEntry

end TracedGrammar
