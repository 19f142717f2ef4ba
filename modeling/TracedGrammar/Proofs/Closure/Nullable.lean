import Mathlib.Order.Bounds.Defs
import TracedGrammar.Proofs.Closure.Worklist
import TracedGrammar.Proofs.Language.Interpretation

/-!
# Nullable symbols

The symbols that derive the empty word are the closure of those that derive it directly, because a
rule with a right-hand side derives the empty word when all its symbols do.
-/

namespace TracedGrammar

variable {H : Type}

namespace SymbolSet

theorem mem_insertLhs {set : SymbolSet} {rules : List (Rule H)} {symbol : Symbol} :
    symbol ∈ set.insertLhs rules ↔ symbol ∈ set ∨ ∃ rule ∈ rules, rule.lhs = symbol := by
  unfold insertLhs
  induction rules generalizing set with
  | nil => simp
  | cons rule rules induction =>
      rw [List.foldl_cons, induction]
      simp only [mem_iff, contains_insert, Bool.or_eq_true, decide_eq_true_eq, List.mem_cons,
        exists_eq_or_imp]
      tauto

end SymbolSet

theorem Derives.nil_of_forall {direct : Symbol → List Symbol → Prop} {word : List Symbol}
    (each : ∀ symbol ∈ word, Derives direct [symbol] []) : Derives direct word [] := by
  induction word with
  | nil => exact .nil
  | cons symbol word induction =>
      have first := each symbol List.mem_cons_self
      have rest := induction fun other member => each other (List.mem_cons_of_mem _ member)
      exact first.append rest

namespace Grammar

theorem mem_nullingSymbols_iff {grammar : Grammar H} {symbol : Symbol} :
    symbol ∈ grammar.nullingSymbols ↔ DirectBy grammar.rules symbol [] := by
  rw [nullingSymbols, SymbolSet.mem_insertLhs]
  constructor
  · rintro (impossible | ⟨rule, member, rfl⟩)
    · simp [SymbolSet.mem_iff, SymbolSet.contains_filled] at impossible
    · obtain ⟨inRules, empty⟩ := List.mem_filter.mp member
      rw [← List.isEmpty_iff.mp empty]
      exact .rule inRules
  · intro step
    generalize same : ([] : List Symbol) = word at step
    obtain ⟨member⟩ := step
    refine .inr ⟨_, List.mem_filter.mpr ⟨member, ?_⟩, rfl⟩
    rw [Rule.isEmpty, ← same]
    rfl

theorem lhs_mem_nullableSymbols {grammar : Grammar H} {rule : Rule H}
    (member : rule ∈ grammar.rules)
    (nullable : ∀ symbol ∈ rule.rhs, symbol ∈ grammar.nullableSymbols) :
    rule.lhs ∈ grammar.nullableSymbols := by
  by_cases empty : rule.rhs = []
  · refine SymbolSet.mem_close_of_mem (mem_nullingSymbols_iff.mpr ?_)
    rw [← empty]
    exact .rule member
  · exact SymbolSet.lhs_mem_close member empty nullable

/-- The nullable symbols are those that derive the empty word by the rules. -/
theorem mem_nullableSymbols_iff {grammar : Grammar H} {symbol : Symbol} :
    symbol ∈ grammar.nullableSymbols ↔
      TracedGrammar.Derives (DirectBy grammar.rules) [symbol] [] := by
  constructor
  · intro member
    let property (other : Symbol) := TracedGrammar.Derives (DirectBy grammar.rules) [other] []
    refine SymbolSet.close_subset property ?_ ?_ member
    · intro other nulling
      exact .of_direct (mem_nullingSymbols_iff.mp nulling)
    · intro rule inRules _ each
      exact (TracedGrammar.Derives.of_direct (.rule inRules)).trans (.nil_of_forall each)
  · intro derives
    have all {word derived : List Symbol}
        (derives : TracedGrammar.Derives (DirectBy grammar.rules) word derived)
        (empty : derived = []) : ∀ other ∈ word, other ∈ grammar.nullableSymbols := by
      induction derives with
      | nil => simp
      | keep => simp at empty
      | expand step _ _ below later =>
          obtain ⟨inRules⟩ := step
          obtain ⟨noneBelow, noneLater⟩ := List.append_eq_nil_iff.mp empty
          have first := lhs_mem_nullableSymbols inRules (below noneBelow)
          simpa using ⟨first, later noneLater⟩
    exact all derives rfl symbol List.mem_cons_self

/-- For every set a closure finds the least larger one that has the left-hand side of each rule whose
right-hand side it has, and is left as if it had never been used.  So several sets can be closed in
turn.  The nullable symbols, which are found in this way, are those that derive the empty word. -/
theorem close_isLeast_nullable_iff (grammar : Grammar H) :
    (∀ set : SymbolSet,
      IsLeast {larger : Set Symbol | (∀ symbol ∈ set, symbol ∈ larger) ∧
          ∀ rule ∈ grammar.rules, rule.rhs ≠ [] → (∀ symbol ∈ rule.rhs, symbol ∈ larger) →
            rule.lhs ∈ larger}
        {symbol | symbol ∈ set.close grammar.rules} ∧
      ((RhsClosure.ofRules grammar.rules).close set).2 = RhsClosure.ofRules grammar.rules) ∧
    (∀ sets : List SymbolSet, (RhsClosure.ofRules grammar.rules).closeEach sets =
      sets.map fun set => set.close grammar.rules) ∧
    ∀ symbol, symbol ∈ grammar.nullableSymbols ↔
      TracedGrammar.Derives (DirectBy grammar.rules) [symbol] [] := by
  refine ⟨fun set => ⟨⟨⟨?_, ?_⟩, ?_⟩, RhsClosure.close_idle rfl set⟩, fun sets => ?_,
    fun symbol => mem_nullableSymbols_iff⟩
  · intro symbol member
    exact SymbolSet.mem_close_of_mem member
  · intro rule member nonempty inside
    exact SymbolSet.lhs_mem_close member nonempty inside
  · rintro larger ⟨start, spreads⟩ symbol member
    exact SymbolSet.close_subset (· ∈ larger) start spreads member
  · exact RhsClosure.closeEach_eq_map rfl sets

end Grammar

end TracedGrammar
