import TracedGrammar.Grammar.Basic

/-!
# Writing a grammar

Adding a rule or a sequence gives a handle and takes the grammar back to its first stage.  Actions
and precedence can be attached by handle as long as no pass has worked on the rule.
-/

namespace TracedGrammar

namespace Grammar

variable {H : Type}

def nextRule (grammar : Grammar H) : Handle :=
  .rule grammar.rules.length

def nextSequence (grammar : Grammar H) : Handle :=
  .sequence (grammar.sequencesConsumed + grammar.sequences.length)

def addRule (grammar : Grammar H) (rule : Rule H) : Handle × Grammar H :=
  (grammar.nextRule, { grammar with rules := grammar.rules ++ [rule], stage := .authored })

def addSequence (grammar : Grammar H) (sequence : Sequence H) : Handle × Grammar H :=
  (grammar.nextSequence,
    { grammar with sequences := grammar.sequences ++ [sequence], stage := .authored })

/-- The rule that a handle with the given index refers to. -/
def authoredRule? (grammar : Grammar H) (index : Nat) : Option (Rule H) :=
  if grammar.authoredFrom ≤ index then grammar.rules[index]? else none

def sequencePosition (grammar : Grammar H) (index : Nat) : Nat :=
  index - grammar.sequencesConsumed

def authoredSequence? (grammar : Grammar H) (index : Nat) : Option (Sequence H) :=
  if grammar.sequencesConsumed ≤ index then
    grammar.sequences[grammar.sequencePosition index]?
  else
    none

/-- Changes the history of what a handle refers to. -/
def changeHistory (grammar : Grammar H) (handle : Handle) (change : H → Except GrammarError H) :
    Except GrammarError (Grammar H) :=
  if grammar.stage ≠ .authored then
    .error (.wrongStage .authoring grammar.stage)
  else
    match handle with
    | .rule index =>
        match grammar.authoredRule? index with
        | none => .error (.unknownHandle handle)
        | some rule => do
            let history ← change rule.history
            return { grammar with rules := grammar.rules.set index { rule with history } }
    | .sequence index =>
        match grammar.authoredSequence? index with
        | none => .error (.unknownHandle handle)
        | some sequence => do
            let history ← change sequence.history
            return { grammar with
              sequences := grammar.sequences.set (grammar.sequencePosition index)
                { sequence with history } }

def declarePrecedence (grammar : Grammar H) (symbol : Symbol) (precedence : Precedence) :
    Except GrammarError (Grammar H) := do
  let declared ← grammar.declared.declare symbol precedence
  return { grammar with declared }

variable [RuleHistory H]

/-- Adds a rule whose history refers to the handle it gets. -/
def writeRule (grammar : Grammar H) (lhs : Symbol) (rhs : List Symbol) : Handle × Grammar H :=
  grammar.addRule ⟨lhs, rhs, RuleHistory.ofOrigin grammar.nextRule⟩

/-- Adds a sequence whose history refers to the handle it gets. -/
def writeSequence (grammar : Grammar H) (lhs : Symbol) (repetition : Repetition) :
    Handle × Grammar H :=
  grammar.addSequence ⟨lhs, repetition, RuleHistory.ofOrigin grammar.nextSequence⟩

def setAction (grammar : Grammar H) (handle : Handle) (action : Action) :
    Except GrammarError (Grammar H) :=
  grammar.changeHistory handle (RuleHistory.setAction · action)

def setPrecedence (grammar : Grammar H) (handle : Handle) (precedence : Precedence) :
    Except GrammarError (Grammar H) :=
  grammar.changeHistory handle (RuleHistory.setPrecedence · precedence)

end Grammar

end TracedGrammar
