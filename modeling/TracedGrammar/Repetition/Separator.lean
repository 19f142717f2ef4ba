import TracedGrammar.Symbol.Basic

/-!
# Separators

The items of a sequence may be separated by a symbol, in one of three ways.
-/

namespace TracedGrammar

inductive Separator
  /-- The symbol follows every item. -/
  | trailing (symbol : Symbol)
  /-- The symbol stands between neighbouring items. -/
  | proper (symbol : Symbol)
  /-- The symbol stands between neighbouring items and may follow the last. -/
  | liberal (symbol : Symbol)
  | absent
deriving DecidableEq, Repr

namespace Separator

/-- How items are separated in a sequence that another item follows: there the separator also
stands after the last item. -/
def leading : Separator → Separator
  | .trailing symbol => .trailing symbol
  | .proper symbol => .trailing symbol
  | .liberal symbol => .trailing symbol
  | .absent => .absent

def symbol? : Separator → Option Symbol
  | .trailing symbol => some symbol
  | .proper symbol => some symbol
  | .liberal symbol => some symbol
  | .absent => none

def describe : Separator → String
  | .trailing symbol => ConstructorText.applied "Trailing" [symbol.describe]
  | .proper symbol => ConstructorText.applied "Proper" [symbol.describe]
  | .liberal symbol => ConstructorText.applied "Liberal" [symbol.describe]
  | .absent => "Null"

end Separator

end TracedGrammar
