import TracedGrammar.GrammarError
import TracedGrammar.Symbol.Basic

/-!
# Declared precedence of symbols

A grammar declares the precedence of some symbols, such as operators.  A symbol has at most one, and
declarations are kept in the order of the symbols, so two tables that declare the same are equal.
-/

namespace TracedGrammar

/-- Declarations of precedence, in the order of their symbols. -/
structure PrecedenceTable where
  entries : List (Symbol × Precedence)
  ordered : entries.Pairwise fun first second => first.1.id < second.1.id
deriving DecidableEq, Repr

namespace PrecedenceTable

def empty : PrecedenceTable :=
  ⟨[], .nil⟩

def find? (table : PrecedenceTable) (symbol : Symbol) : Option Precedence :=
  table.entries.lookup symbol

/-- Puts a declaration in its place, instead of one for the same symbol. -/
def insertEntry (symbol : Symbol) (precedence : Precedence) :
    List (Symbol × Precedence) → List (Symbol × Precedence)
  | [] => [(symbol, precedence)]
  | entry :: entries =>
      if symbol.id < entry.1.id then
        (symbol, precedence) :: entry :: entries
      else if symbol.id = entry.1.id then
        (symbol, precedence) :: entries
      else
        entry :: insertEntry symbol precedence entries

theorem mem_insertEntry {symbol : Symbol} {precedence : Precedence}
    {entries : List (Symbol × Precedence)} {entry : Symbol × Precedence}
    (member : entry ∈ insertEntry symbol precedence entries) :
    entry = (symbol, precedence) ∨ entry ∈ entries := by
  induction entries with
  | nil => simpa [insertEntry] using member
  | cons first entries induction =>
      unfold insertEntry at member
      split at member
      · simpa using member
      · split at member <;> grind

theorem ordered_insertEntry (symbol : Symbol) (precedence : Precedence)
    {entries : List (Symbol × Precedence)}
    (ordered : entries.Pairwise fun first second => first.1.id < second.1.id) :
    (insertEntry symbol precedence entries).Pairwise
      fun first second => first.1.id < second.1.id := by
  induction entries with
  | nil => simp [insertEntry]
  | cons first entries induction =>
      obtain ⟨before, rest⟩ := List.pairwise_cons.mp ordered
      unfold insertEntry
      split
      · rename_i less
        refine List.pairwise_cons.mpr ⟨fun entry member => ?_, ordered⟩
        rcases List.mem_cons.mp member with rfl | later
        · exact less
        · exact Nat.lt_trans less (before entry later)
      · split
        · rename_i same
          refine List.pairwise_cons.mpr ⟨fun entry member => ?_, rest⟩
          have := before entry member
          simp only
          omega
        · refine List.pairwise_cons.mpr ⟨fun entry member => ?_, induction rest⟩
          rcases mem_insertEntry member with rfl | later
          · simp only
            omega
          · exact before entry later

def insert (table : PrecedenceTable) (symbol : Symbol) (precedence : Precedence) :
    PrecedenceTable :=
  ⟨insertEntry symbol precedence table.entries, ordered_insertEntry symbol precedence table.ordered⟩

/-- Declares the precedence of a symbol, which may be declared again but not changed. -/
def declare (table : PrecedenceTable) (symbol : Symbol) (precedence : Precedence) :
    Except GrammarError PrecedenceTable := do
  let precedence ← assignOnce .precedenceConflict (table.find? symbol) precedence
  return table.insert symbol precedence

end PrecedenceTable

end TracedGrammar
