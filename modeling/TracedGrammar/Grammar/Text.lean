import TracedGrammar.Grammar.Basic

/-!
# Grammars in writing

A grammar is written with one rule a line, such as `0 ::= 1 ~ 2;`, with `()` for an empty
right-hand side.
-/

namespace TracedGrammar

namespace Rule

variable {H : Type}

def rhsText (rule : Rule H) : String :=
  if rule.isEmpty then "()" else " ~ ".intercalate (rule.rhs.map Symbol.digits)

def text (rule : Rule H) : String :=
  rule.lhs.digits ++ " ::= " ++ rule.rhsText ++ ";\n"

end Rule

namespace Grammar

variable {H : Type}

def text (grammar : Grammar H) : String :=
  String.join (grammar.rules.map Rule.text)

end Grammar

end TracedGrammar
