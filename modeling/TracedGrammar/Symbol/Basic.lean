import TracedGrammar.Text.Constructor

/-!
# Grammar symbols

A symbol is known by its number alone.  Whether it is a terminal or not depends on the rules of the
grammar it occurs in.
-/

namespace TracedGrammar

/-- A grammar symbol.  Symbols are numbered from zero, in the order of their allocation. -/
structure Symbol where
  id : Nat
deriving DecidableEq, Hashable, Inhabited, Repr

namespace Symbol

instance : Ord Symbol :=
  ⟨fun first second => compare first.id second.id⟩

@[simp]
theorem compare_eq (first second : Symbol) :
    compare first second = compare first.id second.id :=
  rfl

/-- The symbol with the given number, of which the low 32 bits count.  The last number of 32 bits is no
symbol, and stands for the one before it. -/
def ofNumber (number : Nat) : Symbol :=
  ⟨min (number % UInt32.size) (UInt32.size - 2)⟩

/-- The number of a symbol in decimal digits, as grammars are printed. -/
def digits (symbol : Symbol) : String :=
  toString symbol.id

/-- A symbol in messages, where symbols are counted from one. -/
def describe (symbol : Symbol) : String :=
  ConstructorText.applied "Symbol" [toString (symbol.id + 1)]

def describeList (symbols : List Symbol) : String :=
  ConstructorText.listed (symbols.map describe)

end Symbol

end TracedGrammar
