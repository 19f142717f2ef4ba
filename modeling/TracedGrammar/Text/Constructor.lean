/-!
# Constructor text

Values in messages are written by their constructors: `Rule(1)` for a constructor with arguments,
`Precedence { level: 1, assoc: Left }` for one with labelled fields, `[a, b]` for a list, `(a, b)`
for a pair, and `Some(a)` or `None` for an optional value.
-/

namespace TracedGrammar

namespace ConstructorText

/-- A constructor with its arguments in parentheses. -/
def applied (name : String) (arguments : List String) : String :=
  name ++ "(" ++ ", ".intercalate arguments ++ ")"

/-- A constructor with labelled fields in braces. -/
def labelled (name : String) (fields : List (String × String)) : String :=
  let written := fields.map fun (label, value) => label ++ ": " ++ value
  name ++ " \x7b " ++ ", ".intercalate written ++ " \x7d"

def listed (items : List String) : String :=
  "[" ++ ", ".intercalate items ++ "]"

def paired (first second : String) : String :=
  "(" ++ first ++ ", " ++ second ++ ")"

def optional : Option String → String
  | none => "None"
  | some value => applied "Some" [value]

end ConstructorText

end TracedGrammar
