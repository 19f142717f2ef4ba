import TracedGrammar.Grammar.Basic
import TracedGrammar.Symbol.Set

/-!
# Properties that spread from right-hand sides

A property of symbols that a word inherits from its symbols spreads along rules: when all symbols of
a right-hand side have it, the left-hand side has it too.  A closure takes up the symbols that have
the property one by one, and each time goes through the rules that the symbol occurs in.  Rules with
an empty right-hand side are the business of the starting set.  The symbols that derive the empty
word are the closure of those that derive it directly.
-/

namespace TracedGrammar

variable {H : Type}

/-- A symbol on the right-hand side of a rule. -/
structure Occurrence (H : Type) where
  symbol : Symbol
  rule : Rule H

namespace Rule

def occurrences (rule : Rule H) : List (Occurrence H) :=
  rule.rhs.map fun symbol => ⟨symbol, rule⟩

/-- Whether the whole right-hand side is in the set and the left-hand side is not. -/
def spreads (rule : Rule H) (set : SymbolSet) : Bool :=
  !set.contains rule.lhs && rule.rhs.all set.contains

end Rule

/-- The rules of a grammar by the symbols on their right-hand sides, and the symbols that are to be
taken up. -/
structure RhsClosure (H : Type) where
  /-- All occurrences, in the order of their symbols. -/
  occurrences : List (Occurrence H)
  /-- The symbols to be taken up, the one that came last in front. -/
  waiting : List Symbol := []

namespace RhsClosure

def ofRules (rules : List (Rule H)) : RhsClosure H where
  occurrences := (rules.flatMap Rule.occurrences).mergeSort fun first second =>
    first.symbol.id ≤ second.symbol.id

/-- The rules that a symbol occurs in, as often as it does.  Their occurrences stand together, behind
those of all smaller symbols. -/
def rulesWith (closure : RhsClosure H) (symbol : Symbol) : List (Rule H) :=
  let others := closure.occurrences.dropWhile fun occurrence => occurrence.symbol.id < symbol.id
  (others.takeWhile fun occurrence => occurrence.symbol = symbol).map Occurrence.rule

/-- Adds the left-hand side of a rule where it is due, and lets it wait to be taken up. -/
def spread (state : SymbolSet × List Symbol) (rule : Rule H) : SymbolSet × List Symbol :=
  if rule.spreads state.1 then (state.1.insert rule.lhs, rule.lhs :: state.2) else state

/-- The set and the waiting symbols when a symbol has been taken up. -/
def takeUp (closure : RhsClosure H) (set : SymbolSet) (symbol : Symbol) (waiting : List Symbol) :
    SymbolSet × List Symbol :=
  (closure.rulesWith symbol).foldl spread (set, waiting)

/-- How many occurrences are in rules whose left-hand side is not in the set. -/
def missing (closure : RhsClosure H) (set : SymbolSet) : Nat :=
  (closure.occurrences.filter fun occurrence => !set.contains occurrence.rule.lhs).length

theorem mem_occurrences_of_rulesWith {closure : RhsClosure H} {symbol : Symbol} {rule : Rule H}
    (member : rule ∈ closure.rulesWith symbol) :
    ∃ occurrence ∈ closure.occurrences, occurrence.rule = rule := by
  obtain ⟨occurrence, inRun, rfl⟩ := List.mem_map.mp member
  have inOthers := (List.takeWhile_sublist _).subset inRun
  exact ⟨occurrence, (List.dropWhile_sublist _).subset inOthers, rfl⟩

theorem missing_insert_lt {closure : RhsClosure H} {set : SymbolSet} {occurrence : Occurrence H}
    (member : occurrence ∈ closure.occurrences)
    (absent : set.contains occurrence.rule.lhs = false) :
    closure.missing (set.insert occurrence.rule.lhs) < closure.missing set := by
  have fewer : (closure.occurrences.filter fun other =>
        !(set.insert occurrence.rule.lhs).contains other.rule.lhs) =
      (closure.occurrences.filter fun other => !set.contains other.rule.lhs).filter
        fun other => !decide (occurrence.rule.lhs = other.rule.lhs) := by
    rw [List.filter_filter]
    refine List.filter_congr fun other _ => ?_
    rw [SymbolSet.contains_insert, Bool.not_or]
  rw [missing, missing, fewer, List.length_filter_lt_length_iff_exists]
  exact ⟨occurrence, List.mem_filter.mpr ⟨member, by simp [absent]⟩, by simp⟩

/-- Either nothing is added, or there are fewer symbols left that could be added. -/
theorem foldl_spread_eq_or {closure : RhsClosure H} {rules : List (Rule H)}
    (known : ∀ rule ∈ rules, ∃ occurrence ∈ closure.occurrences, occurrence.rule = rule)
    (state : SymbolSet × List Symbol) :
    rules.foldl spread state = state ∨
      closure.missing (rules.foldl spread state).1 < closure.missing state.1 := by
  induction rules generalizing state with
  | nil => exact .inl rfl
  | cons rule rules induction =>
      have later := induction (fun other member => known other (List.mem_cons_of_mem _ member))
        (spread state rule)
      rw [List.foldl_cons]
      cases due : rule.spreads state.1 with
      | false =>
          have same : spread state rule = state := by simp [spread, due]
          rwa [same] at later ⊢
      | true =>
          obtain ⟨occurrence, member, rfl⟩ := known rule List.mem_cons_self
          have absent : state.1.contains occurrence.rule.lhs = false := by
            simp only [Rule.spreads, Bool.and_eq_true, Bool.not_eq_true'] at due
            exact due.1
          have now : closure.missing (spread state occurrence.rule).1 < closure.missing state.1 := by
            simpa [spread, due] using missing_insert_lt member absent
          right
          rcases later with same | fewer
          · rwa [same]
          · exact Nat.lt_trans fewer now

theorem takeUp_eq_or (closure : RhsClosure H) (set : SymbolSet) (symbol : Symbol)
    (waiting : List Symbol) : closure.takeUp set symbol waiting = (set, waiting) ∨
      closure.missing (closure.takeUp set symbol waiting).1 < closure.missing set :=
  foldl_spread_eq_or (fun _ => mem_occurrences_of_rulesWith) (set, waiting)

/-- Takes up symbols until none is waiting. -/
def drain (closure : RhsClosure H) (set : SymbolSet) : SymbolSet × RhsClosure H :=
  match _ : closure.waiting with
  | [] => (set, closure)
  | symbol :: waiting =>
      let next := closure.takeUp set symbol waiting
      { closure with waiting := next.2 }.drain next.1
termination_by (closure.missing set, closure.waiting.length)
decreasing_by
  rcases takeUp_eq_or closure set symbol waiting with same | fewer
  · rw [same, ‹closure.waiting = symbol :: waiting›]
    exact .right _ (Nat.lt_succ_self _)
  · exact .left _ _ fewer

/-- The closure of a set, in which all members wait to be taken up, and what closes the next one. -/
def close (closure : RhsClosure H) (set : SymbolSet) : SymbolSet × RhsClosure H :=
  { closure with waiting := set.toList.reverse ++ closure.waiting }.drain set

/-- Closes several sets in turn. -/
def closeEach (closure : RhsClosure H) : List SymbolSet → List SymbolSet
  | [] => []
  | set :: sets =>
      let (closed, next) := closure.close set
      closed :: next.closeEach sets

end RhsClosure

namespace SymbolSet

def insertLhs (set : SymbolSet) (rules : List (Rule H)) : SymbolSet :=
  rules.foldl (fun larger rule => larger.insert rule.lhs) set

/-- Adds the left-hand sides of the rules whose right-hand sides are in the set, and those that follow
from these, and so on until there are none. -/
def close (set : SymbolSet) (rules : List (Rule H)) : SymbolSet :=
  ((RhsClosure.ofRules rules).close set).1

end SymbolSet

namespace Grammar

/-- The symbols that derive the empty word directly. -/
def nullingSymbols (grammar : Grammar H) : SymbolSet :=
  (SymbolSet.filled grammar.supply false).insertLhs (grammar.rules.filter Rule.isEmpty)

/-- The symbols that derive the empty word. -/
def nullableSymbols (grammar : Grammar H) : SymbolSet :=
  grammar.nullingSymbols.close grammar.rules

end Grammar

end TracedGrammar
